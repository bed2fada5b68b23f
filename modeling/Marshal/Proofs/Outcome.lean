import Marshal.Outcome
import Marshal.Proofs.Slots.RoundTrip

/-! # Outcomes as slot lists

The two sides of an outcome share one area behind the discriminant, as wide as the wider side. A narrower payload
is followed by zeros, which lifting does not look at, so that an outcome is lifted back as it was lowered with
any slots behind it.
-/
set_option autoImplicit false
namespace Marshal
namespace Outcome

/-- The slots of a payload: none on a side without a type. -/
inductive Carries : Decl → Datum → Slots → Prop
  | nothing : Carries .absent .nil []
  | value {t : Decl} {v : Datum} {s : Slots} (hFlat : t.flatten v = .ok s)
      (hNull : t.presentOptions overNull v = 0) : Carries t v s

/-- An outcome of the two payload types, with its discriminant and the slots of its payload. -/
inductive Holds (okType errType : Decl) : Outcome Datum Datum → UInt64 → Slots → Prop
  | ok {v : Datum} {s : Slots} (hPayload : Carries okType v s) : Holds okType errType (.ok v) 0 s
  | err {e : Datum} {s : Slots} (hPayload : Carries errType e s) : Holds okType errType (.err e) 1 s

section

variable {t okType errType : Decl} {v : Datum} {s : Slots}

theorem isPresent_of_flatten (h : t.flatten v = .ok s) : t.isPresent = true := by
  cases t with
  | absent => cases h
  | _ => rfl

theorem Carries.payloadSlots_eq (h : Carries t v s) : payloadSlots t v = .ok s := by
  cases h with
  | nothing => rfl
  | value hFlat _ => rw [payloadSlots, if_pos (isPresent_of_flatten hFlat), hFlat]

theorem Carries.length_eq (h : Carries t v s) (hPlain : t.hasTextOption = false) : s.length = t.width := by
  cases h with
  | nothing => rfl
  | value hFlat _ => exact (t.lowers_of_flattenAt [] v s hFlat).length_of_plain hPlain

theorem Carries.payload_append (h : Carries t v s) (hPlain : t.hasTextOption = false) (extra : Slots) :
    payload t (s ++ extra) = .ok v := by
  cases h with
  | nothing => rfl
  | value hFlat hNull =>
    have hLift := (t.lowers_of_flattenAt [] v s hFlat).unflattenAt_append hPlain hNull [] extra
    rw [payload, if_pos (isPresent_of_flatten hFlat), Decl.unflatten, hLift]
    rfl

variable {r : Outcome Datum Datum} {tag : UInt64}

theorem Holds.lowerFlat_eq (h : Holds okType errType r tag s) : lowerFlat okType errType r =
      .ok (tag :: (s ++ List.replicate (max okType.width errType.width - s.length) 0)) := by
  have hPad : ∀ tag : UInt64, pad (width okType errType) (tag :: s) =
      tag :: (s ++ List.replicate (max okType.width errType.width - s.length) 0) := by
    intro tag
    rw [pad, width, List.length_cons, Nat.add_comm, Nat.add_sub_add_right, List.cons_append]
  cases h with
  | ok hPayload =>
    rw [lowerFlat, hPayload.payloadSlots_eq, ← hPad]
    rfl
  | err hPayload =>
    rw [lowerFlat, hPayload.payloadSlots_eq, ← hPad]
    rfl

theorem Holds.length_le (h : Holds okType errType r tag s)
    (hOk : okType.hasTextOption = false) (hErr : errType.hasTextOption = false) :
    s.length ≤ max okType.width errType.width := by
  cases h with
  | ok hPayload =>
    rw [hPayload.length_eq hOk]
    exact Nat.le_max_left ..
  | err hPayload =>
    rw [hPayload.length_eq hErr]
    exact Nat.le_max_right ..

theorem Holds.liftFlat_eq {extra : Slots} (h : Holds okType errType r tag s) (hOk : okType.hasTextOption = false)
    (hErr : errType.hasTextOption = false)
    (hWidth : width okType errType ≤ (tag :: (s ++ extra)).length) :
    liftFlat okType errType .ok .ok (tag :: (s ++ extra)) = .ok r := by
  cases h with
  | ok hPayload =>
    rw [liftFlat, if_neg (Nat.not_lt.mpr hWidth)]
    show (payload okType (s ++ extra) >>= _) = _
    rw [hPayload.payload_append hOk]
    rfl
  | err hPayload =>
    rw [liftFlat, if_neg (Nat.not_lt.mpr hWidth)]
    show (payload errType (s ++ extra) >>= _) = _
    rw [hPayload.payload_append hErr]
    rfl

theorem liftFlat_refused (okFrom errFrom : Datum → Except Report Datum) {slots : Slots}
    (h : slots.length < width okType errType ∨ slots.headD 0 ≠ 0 ∧ slots.headD 0 ≠ 1) :
    ∃ report, liftFlat okType errType okFrom errFrom slots = .error report := by
  unfold liftFlat
  split
  · exact ⟨_, rfl⟩
  · rename_i hLong
    obtain ⟨hZero, hOne⟩ := h.resolve_left hLong
    split
    · exact absurd rfl hZero
    · exact absurd rfl hOne
    · exact ⟨_, rfl⟩

/-- An outcome is lowered to its discriminant, its payload and zeros up to the declared width, and lifted back from
any list that begins so. A list that is too short or begins with another word is refused. -/
theorem liftFlat_lowerFlat (hOk : okType.hasTextOption = false) (hErr : errType.hasTextOption = false) :
    (∀ r tag s, Holds okType errType r tag s → ∃ slots, lowerFlat okType errType r = .ok slots ∧
      slots.length = 1 + max okType.width errType.width ∧
      slots = tag :: (s ++ List.replicate (max okType.width errType.width - s.length) 0) ∧
      ∀ extra, liftFlat okType errType .ok .ok (slots ++ extra) = .ok r) ∧
    ∀ okFrom errFrom slots, slots.length < 1 + max okType.width errType.width ∨
      slots.headD 0 ≠ 0 ∧ slots.headD 0 ≠ 1 →
        ∃ report, liftFlat okType errType okFrom errFrom slots = .error report := by
  constructor
  · intro r tag s hHolds
    have hLe := hHolds.length_le hOk hErr
    refine ⟨_, hHolds.lowerFlat_eq, ?_, rfl, ?_⟩
    · simp only [List.length_cons, List.length_append, List.length_replicate]
      omega
    · intro extra
      rw [List.cons_append, List.append_assoc]
      apply hHolds.liftFlat_eq hOk hErr
      simp only [width, List.length_cons, List.length_append, List.length_replicate]
      omega
  · intro okFrom errFrom slots h
    exact liftFlat_refused okFrom errFrom h

/-- A code that is narrower than the pair it shares its slots with is read back with one slot to spare; a list
that begins with another discriminant is refused. -/
theorem liftFlat_lowerFlat_narrow :
    let pair := Decl.defn none (.tuple [.string, .prim .s8])
    let code := Decl.defn none (.enum 3)
    pair.hasTextOption = false ∧ code.hasTextOption = false ∧
      Holds pair code (.err (.u32 2)) 1 [2] ∧ lowerFlat pair code (.err (.u32 2)) = .ok [1, 2, 0, 0] ∧
      liftFlat pair code .ok .ok ([1, 2, 0, 0] ++ [7]) = .ok (.err (.u32 2)) ∧
      ∃ report, liftFlat pair code .ok .ok [2, 0, 0, 0] = .error report := by
  intro pair code
  have hPair : pair.hasTextOption = false := rfl
  have hCode : code.hasTextOption = false := rfl
  have hHolds : Holds pair code (.err (.u32 2)) 1 [2] := .err (.value rfl rfl)
  obtain ⟨hRound, hRefused⟩ := liftFlat_lowerFlat hPair hCode
  obtain ⟨slots, hLower, -, hSlots, hLift⟩ := hRound _ _ _ hHolds
  have hSlots : slots = [1, 2, 0, 0] := hSlots
  subst hSlots
  exact ⟨hPair, hCode, hHolds, hLower, hLift [7], hRefused .ok .ok [2, 0, 0, 0] (.inr (by decide))⟩

end

end Outcome

end Marshal
