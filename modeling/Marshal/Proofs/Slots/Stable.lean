import Marshal.Proofs.Slots.RoundTrip

/-! # Lifting arbitrary slots

What lifting makes of words that no value was lowered to. A list that is too short is refused, a longer one is
read in its first slots only, and whatever is lifted can be lowered again. The second lifting gives the same
datum with one exception: an optional address is tested for null as a 64-bit word and narrowed to 32 bits
afterwards, so that a word whose low half is zero but whose high half is not becomes a present null address.
-/
set_option autoImplicit false
namespace Marshal

/-! ## Which slots are read -/

theorem Decl.unflattenAt_short (path : List Text) (t : Decl) (slots : Slots) (hShort : slots.length < t.width) :
    t.unflattenAt path slots = .error (tooFewSlots path t.label t.width slots.length) := by
  cases t with
  | absent => exact absurd hShort (Nat.not_lt_zero _)
  | prim p =>
    cases slots with
    | nil => rfl
    | cons x tail => exact absurd hShort (by simp [Decl.width])
  | string =>
    match slots with
    | [] => rfl
    | [_] => rfl
    | _ :: _ :: _ => exact absurd hShort (by simp [Decl.width])
  | errorContext =>
    cases slots with
    | nil => rfl
    | cons x tail => exact absurd hShort (by simp [Decl.width])
  | defn name kind => exact if_pos hShort

def leave {α : Type} (extra : Slots) (out : α × Slots) : α × Slots := (out.1, out.2 ++ extra)

theorem Kind.unflattenAt_object_append {path : List Text} {label : Text} {k : Kind} {slots : Slots}
    (hKind : k.isObject = true) (hWidth : k.width ≤ slots.length) (extra : Slots) :
    k.unflattenAt path label (slots ++ extra) = (k.unflattenAt path label slots).map (leave extra) := by
  rw [Kind.width_of_isObject hKind] at hWidth
  obtain ⟨x, tail, rfl⟩ := List.exists_cons_of_length_pos hWidth
  rw [List.cons_append, Kind.unflattenAt_object hKind, Kind.unflattenAt_object hKind]
  rfl

theorem bind_leave {extra : Slots} {first : Except Report (Datum × Slots)}
    {next : Slots → Except Report (List Datum × Slots)}
    (hNext : ∀ out, first = .ok out → next (out.2 ++ extra) = (next out.2).map (leave extra)) :
    (do
      let (v, rest) ← first.map (leave extra)
      let (vs, rest) ← next rest
      return (v :: vs, rest)) =
    (do
      let (v, rest) ← first
      let (vs, rest) ← next rest
      return (v :: vs, rest)).map (leave extra) := by
  cases first with
  | error r => rfl
  | ok out =>
    show (next (out.2 ++ extra) >>= _) = Except.map _ (next out.2 >>= _)
    rw [hNext out rfl]
    cases next out.2 <;> rfl

mutual
theorem Decl.unflattenAt_append (path : List Text) (t : Decl) (slots extra : Slots)
    (hPlain : t.hasTextOption = false) (hWidth : t.width ≤ slots.length) :
    t.unflattenAt path (slots ++ extra) = (t.unflattenAt path slots).map (leave extra) := by
  cases t with
  | absent => rfl
  | prim p =>
    obtain ⟨x, tail, rfl⟩ := List.exists_cons_of_length_pos hWidth
    rw [List.cons_append, Decl.unflattenAt, Decl.unflattenAt]
    cases p.ofSlot x path <;> rfl
  | string =>
    match slots with
    | [] => cases hWidth
    | [_] => cases Nat.le_of_succ_le_succ hWidth
    | start :: len :: tail => rfl
  | errorContext =>
    obtain ⟨x, tail, rfl⟩ := List.exists_cons_of_length_pos hWidth
    rfl
  | defn name kind =>
    have hLonger : kind.width ≤ (slots ++ extra).length := by
      rw [List.length_append]
      exact Nat.le_add_right_of_le hWidth
    rw [Decl.unflattenAt_defn hWidth, Decl.unflattenAt_defn hLonger]
    exact Kind.unflattenAt_append path _ kind slots extra hPlain hWidth

theorem Kind.unflattenAt_append (path : List Text) (label : Text) (k : Kind) (slots extra : Slots)
    (hPlain : k.hasTextOption = false) (hWidth : k.width ≤ slots.length) :
    k.unflattenAt path label (slots ++ extra) = (k.unflattenAt path label slots).map (leave extra) := by
  cases k with
  | list elem => exact Kind.unflattenAt_object_append rfl hWidth extra
  | own target => exact Kind.unflattenAt_object_append rfl hWidth extra
  | borrow target => exact Kind.unflattenAt_object_append rfl hWidth extra
  | resource => exact Kind.unflattenAt_object_append rfl hWidth extra
  | option elem =>
    obtain ⟨hText, hInner⟩ := Bool.or_eq_false_iff.mp hPlain
    obtain ⟨x, tail, rfl⟩ := List.exists_cons_of_length_pos
      (Nat.lt_of_lt_of_le (Kind.width_option_pos elem) hWidth)
    rw [Kind.width, List.length_cons] at hWidth
    rw [Kind.unflattenAt, Kind.unflattenAt, List.cons_append, List.headD_cons, List.headD_cons]
    split at hWidth <;> rename_i hRef
    · -- an address is one slot wide, and so is the option over it
      have hElem : elem.width ≤ (x :: tail).length := by
        rw [elem.width_of_isReference hRef, if_neg (by simp [hText]), List.length_cons]
        exact hWidth
      rw [if_pos hRef, if_pos hRef, ← List.cons_append, Decl.unflattenAt_append path elem _ extra hInner hElem]
      split <;> rfl
    · rw [if_neg hRef, if_neg hRef, Nat.add_comm, List.drop_succ_cons, List.drop_succ_cons,
        List.drop_append_of_le_length (by omega), List.drop_succ_cons, List.drop_succ_cons, List.drop_zero,
        List.drop_zero, Decl.unflattenAt_append _ elem tail extra hInner (by omega)]
      split
      · rfl
      · split <;> rfl
  | tuple elems =>
    rw [Kind.unflattenAt, Kind.unflattenAt, unflattenElems_append path 0 elems slots extra hPlain hWidth]
    cases unflattenElems path 0 elems slots <;> rfl
  | record fields =>
    rw [Kind.unflattenAt, Kind.unflattenAt, unflattenFields_append path fields slots extra hPlain hWidth]
    cases unflattenFields path fields slots <;> rfl
  | enum cases =>
    obtain ⟨x, tail, rfl⟩ := List.exists_cons_of_length_pos hWidth
    rw [Kind.unflattenAt, Kind.unflattenAt, List.cons_append, List.headD_cons, List.headD_cons]
    split <;> rfl
  | «alias» target =>
    rw [Kind.unflattenAt, Kind.unflattenAt]
    exact Decl.unflattenAt_append path target slots extra hPlain hWidth
  | result ok err => rfl
  | variant cases => rfl
  | flags count => rfl
  | stream elem => rfl
  | future elem => rfl
  | unspecified => rfl

theorem unflattenElems_append (path : List Text) (i : Nat) (ts : List Decl) (slots extra : Slots)
    (hPlain : elemsHaveTextOption ts = false) (hWidth : elemsWidth ts ≤ slots.length) :
    unflattenElems path i ts (slots ++ extra) = (unflattenElems path i ts slots).map (leave extra) := by
  cases ts with
  | nil => rfl
  | cons t ts =>
    obtain ⟨hHead, hTail⟩ := Bool.or_eq_false_iff.mp hPlain
    rw [elemsWidth] at hWidth
    rw [unflattenElems, unflattenElems, Decl.unflattenAt_append _ t slots extra hHead (by omega)]
    apply bind_leave
    intro out hFirst
    have hLeft := Decl.length_of_unflattenAt hHead hFirst
    exact unflattenElems_append path (i + 1) ts out.2 extra hTail (by omega)

theorem unflattenFields_append (path : List Text) (fields : List (Text × Decl)) (slots extra : Slots)
    (hPlain : fieldsHaveTextOption fields = false) (hWidth : fieldsWidth fields ≤ slots.length) :
    unflattenFields path fields (slots ++ extra) =
      (unflattenFields path fields slots).map (leave extra) := by
  match fields with
  | [] => rfl
  | (name, t) :: fields =>
    obtain ⟨hHead, hTail⟩ := Bool.or_eq_false_iff.mp hPlain
    rw [fieldsWidth, fieldWidth] at hWidth
    rw [unflattenFields, unflattenFields, unflattenField, unflattenField,
      Decl.unflattenAt_append _ t slots extra hHead (by omega)]
    apply bind_leave
    intro out hFirst
    have hLeft := Decl.length_of_unflattenAt hHead hFirst
    exact unflattenFields_append path fields out.2 extra hTail (by omega)
end

/-! ## What a lifted datum is lowered to -/

theorem Primitive.exists_toSlot? {p : Primitive} {x : UInt64} {v : Datum} {path : List Text}
    (h : p.ofSlot x path = .ok v) : ∃ y, p.toSlot? v = some y := by
  cases p with
  | bool =>
    rw [Primitive.ofSlot] at h
    split at h
    · cases h
    · cases h
      exact ⟨_, rfl⟩
  | _ =>
    cases h
    exact ⟨_, rfl⟩

theorem Lifts.isPresent_of_isReference : ∀ {t : Decl} {s : Slots} {v : Datum}, Lifts t s v →
    t.isReference = true → v.isPresent = true
  | _, _, _, .string _ _, _ => rfl
  | _, _, _, .object _ _, _ => rfl
  | _, _, _, .alias hTarget, hRef => hTarget.isPresent_of_isReference hRef

theorem Lowers.option_of_not_reference {name : Option Text} {elem : Decl} {v : Datum} {s : Slots}
    (hRef : elem.isReference = false) (h : Lowers elem v s) : ∃ again, Lowers (.defn name (.option elem)) v again := by
  cases v with
  | nil => exact ⟨_, .absent name elem⟩
  | _ => exact ⟨_, .present hRef rfl h⟩

mutual
theorem Lifts.lowers : ∀ {t : Decl} {s : Slots} {v : Datum}, Lifts t s v → ∃ again, Lowers t v again
  | _, _, _, .prim hSlot => by
    obtain ⟨y, hAgain⟩ := Primitive.exists_toSlot? hSlot
    exact ⟨[y], .prim hAgain⟩
  | _, _, _, .string _ _ => ⟨_, .string _ _⟩
  | _, _, _, .object hKind x => ⟨_, .object hKind _⟩
  | _, _, _, .absent _ => ⟨_, .absent _ _⟩
  | _, _, _, .nullable hRef _ hElem => by
    obtain ⟨again, hAgain⟩ := hElem.lowers
    exact ⟨again, .nullable hRef (hElem.isPresent_of_isReference hRef) hAgain⟩
  | _, _, _, .present hRef hElem => by
    obtain ⟨again, hAgain⟩ := hElem.lowers
    exact hAgain.option_of_not_reference hRef
  | _, _, _, .tuple hElems => by
    obtain ⟨again, hAgain⟩ := hElems.lowers
    exact ⟨again, .tuple hAgain⟩
  | _, _, _, .record hFields => by
    obtain ⟨again, hAgain⟩ := hFields.lowers
    exact ⟨again, .record hAgain⟩
  | _, _, _, .enum (x := x) hCase => by
    have hLow : x.toUInt32.toNat ≤ x.toNat := by simpa using Nat.mod_le ..
    exact ⟨_, .enum (Nat.lt_of_le_of_lt hLow hCase)⟩
  | _, _, _, .alias hTarget => by
    obtain ⟨again, hAgain⟩ := hTarget.lowers
    exact ⟨again, .alias hAgain⟩

theorem LiftsAll.lowers : ∀ {ts : List Decl} {s : Slots} {vs : List Datum}, LiftsAll ts s vs →
    ∃ again, LowersAll ts vs again
  | _, _, _, .nil => ⟨[], .nil⟩
  | _, _, _, .cons hFirst hRest => by
    obtain ⟨first, hFirst'⟩ := hFirst.lowers
    obtain ⟨rest, hRest'⟩ := hRest.lowers
    exact ⟨first ++ rest, .cons hFirst' hRest'⟩
end

/-! ## Addresses that become null -/

def isWideNull (x : UInt64) : Bool := x != 0 && x.toUInt32 == 0

mutual
/-- The number of optional addresses at the front of a slot list that are not null before they are narrowed
and null afterwards. -/
def Decl.wideNulls : Decl → Slots → Nat
  | .defn _ kind, slots => kind.wideNulls slots
  | _, _ => 0

def Kind.wideNulls : Kind → Slots → Nat
  | .option elem, slots =>
    if elem.isReference then (if isWideNull (slots.headD 0) then 1 else 0)
    else if slots.headD 0 = 1 then elem.wideNulls (slots.drop 1) else 0
  | .tuple elems, slots => elemsWideNulls elems slots
  | .record fields, slots => fieldsWideNulls fields slots
  | .alias target, slots => target.wideNulls slots
  | _, _ => 0

def elemsWideNulls : List Decl → Slots → Nat
  | [], _ => 0
  | t :: ts, slots => t.wideNulls slots + elemsWideNulls ts (slots.drop t.width)

def fieldsWideNulls : List (Text × Decl) → Slots → Nat
  | [], _ => 0
  | f :: fs, slots => fieldWideNulls f slots + fieldsWideNulls fs (slots.drop (fieldWidth f))

def fieldWideNulls : Text × Decl → Slots → Nat
  | (_, t), slots => t.wideNulls slots
end

theorem fieldsWideNulls_eq (fields : List (Text × Decl)) (slots : Slots) :
    fieldsWideNulls fields slots = elemsWideNulls (fields.map Prod.snd) slots := by
  induction fields generalizing slots with
  | nil => rfl
  | cons f fs ih =>
    obtain ⟨name, t⟩ := f
    rw [fieldsWideNulls, List.map_cons, elemsWideNulls, ih]
    rfl

theorem Kind.wideNulls_of_isObject {k : Kind} (hKind : k.isObject = true) (slots : Slots) :
    k.wideNulls slots = 0 := by
  cases k <;> first | rfl | cases hKind

section

variable {p : Decl → Datum → Bool}

mutual
theorem Decl.presentOptions_nil (t : Decl) : t.presentOptions p .nil = 0 := by
  cases t with
  | defn name kind => exact kind.presentOptions_nil
  | _ => rfl

theorem Kind.presentOptions_nil (k : Kind) : k.presentOptions p .nil = 0 := by
  cases k with
  | «alias» target => exact target.presentOptions_nil
  | _ => rfl
end

theorem Lifts.presentOptions_of_isReference : ∀ {t : Decl} {s : Slots} {v : Datum}, Lifts t s v →
    t.isReference = true → t.presentOptions p v = 0
  | _, _, _, .string _ _, _ => rfl
  | _, _, _, .object hKind _, _ => Kind.presentOptions_of_isObject hKind _
  | _, _, _, .alias hTarget, hRef => hTarget.presentOptions_of_isReference hRef

end

theorem Lifts.wideNulls_nullable {elem : Decl} {x : UInt64} {s : Slots} {v : Datum}
    (h : Lifts elem (x :: s) v) (hRef : elem.isReference = true) (hText : elem.isText = false)
    (hSlot : x ≠ 0) (extra : Slots) :
    (Kind.option elem).presentOptions overNull v = (Kind.option elem).wideNulls (x :: s ++ extra) := by
  have hElem : elem.presentOptions overNull v = 0 := h.presentOptions_of_isReference hRef
  obtain ⟨y, hSlots, rfl⟩ := h.address_of_isReference hRef hText
  cases hSlots
  rw [Kind.presentOptions, hElem, Kind.wideNulls, if_pos hRef]
  simp [overNull, isWideNull, hRef, hSlot, Datum.isPresent, Datum.toAddress?]

theorem Kind.presentOptions_not_reference {elem : Decl} (hRef : elem.isReference = false) (v : Datum) :
    (Kind.option elem).presentOptions overNull v = elem.presentOptions overNull v := by
  cases v with
  | nil => exact elem.presentOptions_nil.symm
  | _ => simp [Kind.presentOptions, Datum.isPresent, overNull, hRef]

mutual
theorem Lifts.presentOptions_overNull : ∀ {t : Decl} {s : Slots} {v : Datum}, Lifts t s v →
    t.hasTextOption = false → ∀ extra, t.presentOptions overNull v = t.wideNulls (s ++ extra)
  | _, _, _, .prim _, _, extra => rfl
  | _, _, _, .string _ _, _, extra => rfl
  | _, _, _, .object hKind _, _, extra => by
    rw [Decl.presentOptions, Decl.wideNulls, Kind.presentOptions_of_isObject hKind,
      Kind.wideNulls_of_isObject hKind]
  | _, _, _, .absent _, _, extra => by
    rw [Decl.presentOptions, Kind.presentOptions_nil, Decl.wideNulls, Kind.wideNulls]
    simp [isWideNull]
  | _, _, _, .nullable hRef hSlot hElem, hPlain, extra => by
    obtain ⟨hText, -⟩ := Bool.or_eq_false_iff.mp hPlain
    exact hElem.wideNulls_nullable hRef hText hSlot extra
  | _, _, _, .present hRef hElem, hPlain, extra => by
    obtain ⟨-, hInner⟩ := Bool.or_eq_false_iff.mp hPlain
    rw [Decl.presentOptions, Kind.presentOptions_not_reference hRef, Decl.wideNulls, Kind.wideNulls,
      if_neg (by simp [hRef]), List.cons_append, List.headD_cons, if_pos rfl, List.drop_succ_cons, List.drop_zero,
      hElem.presentOptions_overNull hInner]
  | _, _, _, .tuple hElems, hPlain, extra => hElems.presentOptions_overNull hPlain extra
  | _, _, _, .record hFields, hPlain, extra => by
    rw [Decl.hasTextOption, Kind.hasTextOption, fieldsHaveTextOption_eq] at hPlain
    rw [Decl.presentOptions, Kind.presentOptions, fieldsPresentOptions_eq, Decl.wideNulls, Kind.wideNulls,
      fieldsWideNulls_eq, hFields.presentOptions_overNull hPlain]
  | _, _, _, .enum _, _, extra => rfl
  | _, _, _, .alias hTarget, hPlain, extra => hTarget.presentOptions_overNull hPlain extra

theorem LiftsAll.presentOptions_overNull : ∀ {ts : List Decl} {s : Slots} {vs : List Datum},
    LiftsAll ts s vs → elemsHaveTextOption ts = false →
      ∀ extra, elemsPresentOptions overNull ts vs = elemsWideNulls ts (s ++ extra)
  | _, _, _, .nil, _, extra => rfl
  | _, _, _, .cons hFirst hRest, hPlain, extra => by
    obtain ⟨hHead, hTail⟩ := Bool.or_eq_false_iff.mp hPlain
    rw [elemsPresentOptions, elemsWideNulls, List.append_assoc,
      List.drop_left' (hFirst.length_of_plain hHead), hFirst.presentOptions_overNull hHead,
      hRest.presentOptions_overNull hTail]
end

theorem Decl.unflatten_eq_ok_iff {t : Decl} {slots : Slots} {v : Datum} :
    t.unflatten slots = .ok v ↔ ∃ rest, t.unflattenAt [] slots = .ok (v, rest) := by
  rw [Decl.unflatten, map_eq_ok]
  constructor
  · rintro ⟨⟨v, rest⟩, h, rfl⟩
    exact ⟨rest, h⟩
  · rintro ⟨rest, h⟩
    exact ⟨(v, rest), h, rfl⟩

/-- A list that is too short is refused, and of a longer one only as many slots count as the type is wide. What
is lifted is lowered to exactly that many slots, and lifted from them again with its present null addresses
made absent; these are the optional addresses that become null when they are narrowed. -/
theorem Decl.unflatten_stable {t : Decl} (hPlain : t.hasTextOption = false) (slots : Slots) :
    (slots.length < t.width →
      t.unflatten slots = .error (tooFewSlots [] t.label t.width slots.length)) ∧
    (t.width ≤ slots.length → ∀ extra, t.unflatten (slots.take t.width ++ extra) = t.unflatten slots) ∧
    ∀ v, t.unflatten slots = .ok v → ∃ again, t.flatten v = .ok again ∧ again.length = t.width ∧
      t.unflatten again = .ok (t.settle v) ∧ (t.settle v = v ↔ t.wideNulls slots = 0) ∧
      t.presentOptions overNull v = t.wideNulls slots := by
  refine ⟨?_, ?_, ?_⟩
  · intro hShort
    rw [Decl.unflatten, t.unflattenAt_short [] slots hShort]
    rfl
  · intro hWidth extra
    have hFirst : t.width ≤ (slots.take t.width).length := by
      rw [List.length_take]
      exact Nat.le_min.mpr ⟨Nat.le_refl _, hWidth⟩
    -- both lists begin with the slots that are read
    have hRead : ∀ more, t.unflatten (slots.take t.width ++ more) = t.unflatten (slots.take t.width) := by
      intro more
      rw [Decl.unflatten, t.unflattenAt_append [] _ more hPlain hFirst, Decl.unflatten]
      cases t.unflattenAt [] (slots.take t.width) <;> rfl
    rw [hRead extra, ← hRead (slots.drop t.width), List.take_append_drop]
  · intro v hLift
    obtain ⟨rest, hLift⟩ := Decl.unflatten_eq_ok_iff.mp hLift
    obtain ⟨s, rfl, hLifts⟩ := (Decl.unflattenAt_eq_ok_iff hPlain).mp hLift
    obtain ⟨again, hAgain⟩ := hLifts.lowers
    have hNulls := hLifts.presentOptions_overNull hPlain rest
    refine ⟨again, Decl.flattenAt_eq_ok_iff.mpr hAgain, hAgain.length_of_plain hPlain, ?_, ?_, hNulls⟩
    · rw [Decl.unflatten_eq_ok_iff]
      refine ⟨[], (Decl.unflattenAt_eq_ok_iff hPlain).mpr ⟨again, ?_, hAgain.lifts_settle hPlain⟩⟩
      exact (List.append_nil again).symm
    · rw [t.settle_eq_self_iff v, hNulls]

/-- A number with stray high bits, an absent option inside a present one, padding that is not zero, and one
optional address of each sort: null, narrowed to null, and narrowed to another address. -/
theorem Decl.unflatten_stable_strayBits :
    let owner := Decl.defn none (.option (.defn none .resource))
    let t := Decl.defn none (.record [("delta", .prim .s16),
      ("level", .defn none (.option (.defn none (.option (.prim .u8))))),
      ("owners", .defn none (.tuple [owner, owner, owner]))])
    let slots : Slots := [0x1FFFE, 1, 0, 77, 0, 0x100000000, 0x100000018, 9]
    let v := Datum.list [.i16 (-2), .nil, .list [.nil, .u32 0, .u32 24]]
    t.hasTextOption = false ∧ t.unflatten slots = .ok v ∧ t.wideNulls slots = 1 ∧
      ∃ again, t.flatten v = .ok again ∧ again.length = 7 ∧
        t.unflatten again = .ok (.list [.i16 (-2), .nil, .list [.nil, .nil, .u32 24]]) := by
  intro owner t slots v
  have hPlain : t.hasTextOption = false := rfl
  have hLift : t.unflatten slots = .ok v := rfl
  obtain ⟨again, hFlat, hLength, hAgain, -, -⟩ := (Decl.unflatten_stable hPlain slots).2.2 v hLift
  exact ⟨hPlain, hLift, by decide, again, hFlat, hLength, hAgain⟩

/-- An optional address whose low half alone is zero is lifted as a present null address, and that as an absent
one. -/
theorem Decl.unflatten_not_stable : ∃ (t : Decl) (slots : Slots) (v : Datum) (again : Slots),
    t.hasTextOption = false ∧ t.unflatten slots = .ok v ∧ v.toAddress? = some 0 ∧ t.flatten v = .ok again ∧
      t.unflatten again ≠ .ok v := by
  refine ⟨.defn none (.option (.defn none .resource)), [0x100000000], .u32 0, [0], rfl, rfl, rfl, rfl, ?_⟩
  intro hBack
  have hNil : Except.ok (ε := Report) Datum.nil = .ok (.u32 0) := hBack
  cases hNil

end Marshal
