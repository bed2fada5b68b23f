import Marshal.Proofs.Slots.Width

/-! # What lifting reads

`Lifts t s v` says that the slots `s`, and no others, are read for a value of the type `t` and give the
datum `v`. The slots are any 64-bit words: a scalar narrower than a slot takes the low bits, an absent
option skips whatever follows its discriminant, and an address is tested for null before it is narrowed.
A type without options over text reads exactly as many slots as it is wide.
-/
set_option autoImplicit false
namespace Marshal

mutual
inductive Lifts : Decl → Slots → Datum → Prop
  | prim {p : Primitive} {x : UInt64} {v : Datum} {path : List Text} (hSlot : p.ofSlot x path = .ok v) :
      Lifts (.prim p) [x] v
  | string (start len : UInt64) : Lifts .string [start, len] (.view start.toUInt32 len.toUInt32)
  | object {name : Option Text} {k : Kind} (hKind : k.isObject = true) (x : UInt64) :
      Lifts (.defn name k) [x] (.u32 x.toUInt32)
  | absent {name : Option Text} {elem : Decl} {s : Slots} (hLength : s.length + 1 = (Kind.option elem).width) :
      Lifts (.defn name (.option elem)) (0 :: s) .nil
  | nullable {name : Option Text} {elem : Decl} {x : UInt64} {s : Slots} {v : Datum}
      (hRef : elem.isReference = true) (hSlot : x ≠ 0) (hElem : Lifts elem (x :: s) v) :
      Lifts (.defn name (.option elem)) (x :: s) v
  | present {name : Option Text} {elem : Decl} {s : Slots} {v : Datum} (hRef : elem.isReference = false)
      (hElem : Lifts elem s v) : Lifts (.defn name (.option elem)) (1 :: s) v
  | tuple {name : Option Text} {elems : List Decl} {s : Slots} {vs : List Datum}
      (hElems : LiftsAll elems s vs) : Lifts (.defn name (.tuple elems)) s (.list vs)
  | record {name : Option Text} {fields : List (Text × Decl)} {s : Slots} {vs : List Datum}
      (hFields : LiftsAll (fields.map Prod.snd) s vs) : Lifts (.defn name (.record fields)) s (.list vs)
  | enum {name : Option Text} {cases : Nat} {x : UInt64} (hCase : x.toNat < cases) :
      Lifts (.defn name (.enum cases)) [x] (.u32 x.toUInt32)
  | alias {name : Option Text} {target : Decl} {s : Slots} {v : Datum} (hTarget : Lifts target s v) :
      Lifts (.defn name (.alias target)) s v

inductive LiftsAll : List Decl → Slots → List Datum → Prop
  | nil : LiftsAll [] [] []
  | cons {t : Decl} {ts : List Decl} {first rest : Slots} {v : Datum} {vs : List Datum}
      (hFirst : Lifts t first v) (hRest : LiftsAll ts rest vs) :
      LiftsAll (t :: ts) (first ++ rest) (v :: vs)
end

variable {path : List Text} {label : Text} {v : Datum} {t : Decl} {slots : Slots}

theorem Primitive.ofSlot_path {p : Primitive} {x : UInt64}
    (h : p.ofSlot x path = .ok v) (path' : List Text) : p.ofSlot x path' = .ok v := by
  cases p with
  | bool =>
    rw [Primitive.ofSlot] at h ⊢
    split at h
    · cases h
    · rw [if_neg ‹_›, h]
  | _ => exact h

theorem Kind.width_option_pos (elem : Decl) : 0 < (Kind.option elem).width := by
  rw [Kind.width]
  split <;> omega

theorem Lifts.exists_cons_of_isReference : ∀ {t : Decl} {s : Slots} {v : Datum}, Lifts t s v →
    t.isReference = true → ∃ x tail, s = x :: tail
  | _, _, _, .string _ _, _ => ⟨_, _, rfl⟩
  | _, _, _, .object _ _, _ => ⟨_, _, rfl⟩
  | _, _, _, .alias hTarget, hRef => hTarget.exists_cons_of_isReference hRef

theorem Lifts.address_of_isReference : ∀ {t : Decl} {s : Slots} {v : Datum}, Lifts t s v →
    t.isReference = true → t.isText = false → ∃ x : UInt64, s = [x] ∧ v = .u32 x.toUInt32
  | _, _, _, .object _ x, _, _ => ⟨x, rfl, rfl⟩
  | _, _, _, .alias hTarget, hRef, hText => hTarget.address_of_isReference hRef hText

/-! ## From the slot list to the rules -/

theorem Kind.unflattenAt_object {k : Kind} (hKind : k.isObject = true)
    (x : UInt64) (rest : Slots) : k.unflattenAt path label (x :: rest) = .ok (.u32 x.toUInt32, rest) := by
  cases k <;> first | rfl | cases hKind

theorem Kind.lifts_object {name : Option Text} {k : Kind}
    {slots rest : Slots} (hKind : k.isObject = true) (hWidth : k.width ≤ slots.length)
    (h : k.unflattenAt path label slots = .ok (v, rest)) :
    ∃ s, slots = s ++ rest ∧ Lifts (.defn name k) s v := by
  rw [Kind.width_of_isObject hKind] at hWidth
  obtain ⟨x, tail, rfl⟩ := List.exists_cons_of_length_pos hWidth
  rw [Kind.unflattenAt_object hKind] at h
  cases h
  exact ⟨[x], rfl, .object hKind x⟩

mutual
theorem Decl.lifts_of_unflattenAt (path : List Text) (t : Decl) (slots : Slots) (v : Datum) (rest : Slots)
    (h : t.unflattenAt path slots = .ok (v, rest)) : ∃ s, slots = s ++ rest ∧ Lifts t s v := by
  cases t with
  | absent => cases h
  | prim p =>
    cases slots with
    | nil => cases h
    | cons x tail =>
      obtain ⟨d, hSlot, hOut⟩ := map_eq_ok.mp h
      cases hOut
      exact ⟨[x], rfl, .prim hSlot⟩
  | string =>
    match slots with
    | [] => cases h
    | [_] => cases h
    | start :: len :: tail =>
      cases h
      exact ⟨[start, len], rfl, .string start len⟩
  | errorContext =>
    rw [Decl.unflattenAt] at h
    split at h <;> cases h
  | defn name kind =>
    rw [Decl.unflattenAt] at h
    split at h
    · cases h
    · exact Kind.lifts_of_unflattenAt path _ name kind slots v rest (Nat.not_lt.mp ‹_›) h

theorem Kind.lifts_of_unflattenAt (path : List Text) (label : Text) (name : Option Text) (k : Kind)
    (slots : Slots) (v : Datum) (rest : Slots) (hWidth : k.width ≤ slots.length)
    (h : k.unflattenAt path label slots = .ok (v, rest)) :
    ∃ s, slots = s ++ rest ∧ Lifts (.defn name k) s v := by
  cases k with
  | list elem => exact Kind.lifts_object rfl hWidth h
  | own target => exact Kind.lifts_object rfl hWidth h
  | borrow target => exact Kind.lifts_object rfl hWidth h
  | resource => exact Kind.lifts_object rfl hWidth h
  | option elem =>
    obtain ⟨x, tail, rfl⟩ := List.exists_cons_of_length_pos
      (Nat.lt_of_lt_of_le (Kind.width_option_pos elem) hWidth)
    rw [Kind.unflattenAt, List.headD_cons] at h
    split at h
    · rename_i hRef
      split at h
      · rename_i hNull
        cases h
        subst hNull
        exact ⟨[0], rfl, .absent (by rw [Kind.width, if_pos hRef]; rfl)⟩
      · -- the whole list goes to the element, which reads at least the slot that was tested
        obtain ⟨s, hSlots, hElem⟩ := Decl.lifts_of_unflattenAt path elem (x :: tail) v rest h
        obtain ⟨y, s, rfl⟩ := hElem.exists_cons_of_isReference hRef
        cases (List.cons.inj hSlots).1
        exact ⟨x :: s, hSlots, .nullable hRef ‹_› hElem⟩
    · rename_i hRef
      split at h
      · rename_i hNull
        cases h
        subst hNull
        rw [Kind.width, if_neg hRef, List.length_cons] at hWidth
        refine ⟨0 :: tail.take elem.width, ?_, .absent ?_⟩
        · rw [Nat.add_comm, List.drop_succ_cons, List.cons_append, List.take_append_drop]
        · rw [Kind.width, if_neg hRef, List.length_take]
          omega
      · split at h
        · rename_i hOne
          subst hOne
          obtain ⟨s, hSlots, hElem⟩ := Decl.lifts_of_unflattenAt _ elem tail v rest h
          exact ⟨1 :: s, congrArg (1 :: ·) hSlots, .present (Bool.eq_false_iff.mpr hRef) hElem⟩
        · cases h
  | tuple elems =>
    obtain ⟨⟨vs, rest'⟩, hElems, hOut⟩ := map_eq_ok.mp h
    cases hOut
    obtain ⟨s, hSlots, hAll⟩ := liftsAll_of_unflattenElems path 0 elems slots vs rest hElems
    exact ⟨s, hSlots, .tuple hAll⟩
  | record fields =>
    obtain ⟨⟨vs, rest'⟩, hFields, hOut⟩ := map_eq_ok.mp h
    cases hOut
    obtain ⟨s, hSlots, hAll⟩ := liftsAll_of_unflattenFields path fields slots vs rest hFields
    exact ⟨s, hSlots, .record hAll⟩
  | enum cases =>
    obtain ⟨x, tail, rfl⟩ := List.exists_cons_of_length_pos hWidth
    rw [Kind.unflattenAt] at h
    split at h
    · cases h
      exact ⟨[x], rfl, .enum ‹_›⟩
    · cases h
  | «alias» target =>
    obtain ⟨s, hSlots, hTarget⟩ := Decl.lifts_of_unflattenAt path target slots v rest h
    exact ⟨s, hSlots, .alias hTarget⟩
  | result ok err => cases h
  | variant cases => cases h
  | flags count => cases h
  | stream elem => cases h
  | future elem => cases h
  | unspecified => cases h

theorem liftsAll_of_unflattenElems (path : List Text) (i : Nat) (ts : List Decl) (slots : Slots)
    (vs : List Datum) (rest : Slots) (h : unflattenElems path i ts slots = .ok (vs, rest)) :
    ∃ s, slots = s ++ rest ∧ LiftsAll ts s vs := by
  cases ts with
  | nil =>
    cases h
    exact ⟨[], rfl, .nil⟩
  | cons t ts =>
    rw [unflattenElems] at h
    obtain ⟨⟨v, middle⟩, hFirst, h⟩ := bind_eq_ok.mp h
    obtain ⟨⟨vs', rest'⟩, hRest, h⟩ := bind_eq_ok.mp h
    cases h
    obtain ⟨first, rfl, hLifts⟩ := Decl.lifts_of_unflattenAt _ t slots v middle hFirst
    obtain ⟨s, rfl, hAll⟩ := liftsAll_of_unflattenElems path (i + 1) ts middle vs' rest hRest
    exact ⟨first ++ s, (List.append_assoc ..).symm, .cons hLifts hAll⟩

theorem liftsAll_of_unflattenFields (path : List Text) (fields : List (Text × Decl)) (slots : Slots)
    (vs : List Datum) (rest : Slots) (h : unflattenFields path fields slots = .ok (vs, rest)) :
    ∃ s, slots = s ++ rest ∧ LiftsAll (fields.map Prod.snd) s vs := by
  match fields with
  | [] =>
    cases h
    exact ⟨[], rfl, .nil⟩
  | (name, t) :: fields =>
    rw [unflattenFields] at h
    obtain ⟨⟨v, middle⟩, hFirst, h⟩ := bind_eq_ok.mp h
    obtain ⟨⟨vs', rest'⟩, hRest, h⟩ := bind_eq_ok.mp h
    cases h
    obtain ⟨first, rfl, hLifts⟩ := Decl.lifts_of_unflattenAt _ t slots v middle hFirst
    obtain ⟨s, rfl, hAll⟩ := liftsAll_of_unflattenFields path fields middle vs' rest hRest
    exact ⟨first ++ s, (List.append_assoc ..).symm, .cons hLifts hAll⟩
end

/-! ## From the rules to the slot list -/

mutual
theorem Lifts.length_of_plain : ∀ {t : Decl} {s : Slots} {v : Datum}, Lifts t s v →
    t.hasTextOption = false → s.length = t.width
  | _, _, _, .prim _, _ => rfl
  | _, _, _, .string _ _, _ => rfl
  | _, _, _, .object hKind _, _ => (Kind.width_of_isObject hKind).symm
  | _, _, _, .absent hLength, _ => hLength
  | _, _, _, .nullable hRef _ hElem, hPlain => by
    obtain ⟨hText, -⟩ := Bool.or_eq_false_iff.mp hPlain
    obtain ⟨y, hSlots, -⟩ := hElem.address_of_isReference hRef hText
    rw [hSlots, Decl.width, Kind.width, if_pos hRef]
    rfl
  | _, _, _, .present hRef hElem, hPlain => by
    obtain ⟨-, hInner⟩ := Bool.or_eq_false_iff.mp hPlain
    rw [List.length_cons, hElem.length_of_plain hInner, Decl.width, Kind.width, if_neg (by simp [hRef])]
    omega
  | _, _, _, .tuple hElems, hPlain => hElems.length_of_plain hPlain
  | _, _, _, .record hFields, hPlain => by
    rw [Decl.hasTextOption, Kind.hasTextOption, fieldsHaveTextOption_eq] at hPlain
    rw [hFields.length_of_plain hPlain, ← fieldsWidth_eq]
    rfl
  | _, _, _, .enum _, _ => rfl
  | _, _, _, .alias hTarget, hPlain => hTarget.length_of_plain hPlain

theorem LiftsAll.length_of_plain : ∀ {ts : List Decl} {s : Slots} {vs : List Datum}, LiftsAll ts s vs →
    elemsHaveTextOption ts = false → s.length = elemsWidth ts
  | _, _, _, .nil, _ => rfl
  | _, _, _, .cons hFirst hRest, hPlain => by
    obtain ⟨hHead, hTail⟩ := Bool.or_eq_false_iff.mp hPlain
    rw [elemsWidth, List.length_append, hFirst.length_of_plain hHead, hRest.length_of_plain hTail]
end

theorem Decl.length_of_unflattenAt {out : Datum × Slots}
    (hPlain : t.hasTextOption = false) (h : t.unflattenAt path slots = .ok out) :
    slots.length = t.width + out.2.length := by
  obtain ⟨s, rfl, hLifts⟩ := t.lifts_of_unflattenAt path slots out.1 out.2 h
  rw [List.length_append, hLifts.length_of_plain hPlain]

theorem Decl.unflattenAt_defn {name : Option Text} {kind : Kind} (hWidth : kind.width ≤ slots.length) :
    (Decl.defn name kind).unflattenAt path slots = kind.unflattenAt path (kind.labelOr name) slots := by
  rw [Decl.unflattenAt, if_neg (Nat.not_lt.mpr hWidth)]

theorem Kind.unflattenAt_absent {elem : Decl} {s : Slots}
    (hLength : s.length + 1 = (Kind.option elem).width) (extra : Slots) :
    (Kind.option elem).unflattenAt path label (0 :: s ++ extra) = .ok (.nil, extra) := by
  rw [Kind.width] at hLength
  rw [Kind.unflattenAt]
  split at hLength <;> rename_i hRef
  · cases List.length_eq_zero_iff.mp (Nat.succ.inj hLength)
    rw [if_pos hRef]
    rfl
  · -- as many slots are skipped as the element is wide, whatever they hold
    rw [if_neg hRef, List.cons_append, List.headD_cons, if_pos rfl, Nat.add_comm, List.drop_succ_cons,
      List.drop_left' (by omega)]

theorem Kind.unflattenAt_nullable {elem : Decl} {x : UInt64}
    (rest : Slots) (hRef : elem.isReference = true) (hSlot : x ≠ 0) :
    (Kind.option elem).unflattenAt path label (x :: rest) = elem.unflattenAt path (x :: rest) := by
  rw [Kind.unflattenAt, if_pos hRef, List.headD_cons, if_neg hSlot]

theorem Kind.unflattenAt_present {elem : Decl} (slots : Slots) (hRef : elem.isReference = false) :
    (Kind.option elem).unflattenAt path label (1 :: slots) = elem.unflattenAt (path ++ [someField]) slots := by
  rw [Kind.unflattenAt, if_neg (by simp [hRef])]
  rfl

mutual
theorem Lifts.unflattenAt_append : ∀ {t : Decl} {s : Slots} {v : Datum}, Lifts t s v →
    t.hasTextOption = false → ∀ (path : List Text) (extra : Slots),
      t.unflattenAt path (s ++ extra) = .ok (v, extra)
  | _, _, _, .prim hSlot, _, path, extra => by
    rw [List.singleton_append, Decl.unflattenAt, Primitive.ofSlot_path hSlot path]
    rfl
  | _, _, _, .string start len, _, path, extra => rfl
  | .defn name kind, s, v, h, hPlain, path, extra => by
    have hWidth : kind.width ≤ (s ++ extra).length := by
      rw [List.length_append, h.length_of_plain hPlain]
      exact Nat.le_add_right ..
    rw [Decl.unflattenAt_defn hWidth]
    exact h.kind_unflattenAt_append hPlain path extra

theorem Lifts.kind_unflattenAt_append : ∀ {name : Option Text} {kind : Kind} {s : Slots} {v : Datum},
    Lifts (.defn name kind) s v → (Decl.defn name kind).hasTextOption = false →
      ∀ (path : List Text) (extra : Slots),
        kind.unflattenAt path (kind.labelOr name) (s ++ extra) = .ok (v, extra)
  | _, _, _, _, .object hKind x, _, path, extra => Kind.unflattenAt_object hKind x extra
  | _, _, _, _, .absent hLength, _, path, extra => Kind.unflattenAt_absent hLength extra
  | _, _, _, _, .nullable hRef hSlot hElem, hPlain, path, extra => by
    obtain ⟨-, hInner⟩ := Bool.or_eq_false_iff.mp hPlain
    rw [List.cons_append, Kind.unflattenAt_nullable _ hRef hSlot, ← List.cons_append]
    exact hElem.unflattenAt_append hInner path extra
  | _, _, _, _, .present hRef hElem, hPlain, path, extra => by
    obtain ⟨-, hInner⟩ := Bool.or_eq_false_iff.mp hPlain
    rw [List.cons_append, Kind.unflattenAt_present _ hRef]
    exact hElem.unflattenAt_append hInner _ extra
  | _, _, _, _, .tuple hElems, hPlain, path, extra => by
    rw [Kind.unflattenAt, hElems.unflattenElems_append hPlain path 0 extra]
    rfl
  | _, _, _, _, .record hFields, hPlain, path, extra => by
    rw [Decl.hasTextOption, Kind.hasTextOption, fieldsHaveTextOption_eq] at hPlain
    rw [Kind.unflattenAt, hFields.unflattenFields_append hPlain path _ rfl extra]
    rfl
  | _, _, _, _, .enum hCase, _, path, extra => by
    rw [List.singleton_append, Kind.unflattenAt, List.headD_cons, if_pos hCase]
    rfl
  | _, _, _, _, .alias hTarget, hPlain, path, extra => by
    rw [Kind.unflattenAt]
    exact hTarget.unflattenAt_append hPlain path extra

theorem LiftsAll.unflattenElems_append : ∀ {ts : List Decl} {s : Slots} {vs : List Datum},
    LiftsAll ts s vs → elemsHaveTextOption ts = false → ∀ (path : List Text) (i : Nat) (extra : Slots),
      unflattenElems path i ts (s ++ extra) = .ok (vs, extra)
  | _, _, _, .nil, _, path, i, extra => rfl
  | _, _, _, .cons hFirst hRest, hPlain, path, i, extra => by
    obtain ⟨hHead, hTail⟩ := Bool.or_eq_false_iff.mp hPlain
    rw [unflattenElems, List.append_assoc, hFirst.unflattenAt_append hHead]
    show (unflattenElems path (i + 1) _ _ >>= _) = _
    rw [hRest.unflattenElems_append hTail]
    rfl

theorem LiftsAll.unflattenFields_append : ∀ {ts : List Decl} {s : Slots} {vs : List Datum},
    LiftsAll ts s vs → elemsHaveTextOption ts = false → ∀ (path : List Text)
      (fields : List (Text × Decl)), fields.map Prod.snd = ts → ∀ (extra : Slots),
        unflattenFields path fields (s ++ extra) = .ok (vs, extra)
  | _, _, _, .nil, _, path, [], _, extra => rfl
  | _, _, _, .cons hFirst hRest, hPlain, path, (name, t) :: fields, hTypes, extra => by
    obtain ⟨rfl, hRestTypes⟩ := List.cons.inj hTypes
    obtain ⟨hHead, hTail⟩ := Bool.or_eq_false_iff.mp hPlain
    rw [unflattenFields, unflattenField, List.append_assoc, hFirst.unflattenAt_append hHead]
    show (unflattenFields path fields _ >>= _) = _
    rw [hRest.unflattenFields_append hTail path fields hRestTypes]
    rfl
end

theorem Decl.unflattenAt_eq_ok_iff {rest : Slots} (hPlain : t.hasTextOption = false) :
    t.unflattenAt path slots = .ok (v, rest) ↔ ∃ s, slots = s ++ rest ∧ Lifts t s v := by
  constructor
  · exact t.lifts_of_unflattenAt path slots v rest
  · rintro ⟨s, rfl, hLifts⟩
    exact hLifts.unflattenAt_append hPlain path rest

end Marshal
