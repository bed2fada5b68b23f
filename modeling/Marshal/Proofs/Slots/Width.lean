import Marshal.Proofs.Slots.Lowers

/-! # The width of a lowered value

A type declares its width before any value is seen, so that an absent option can be padded and skipped.
Lowering gives that many slots with one exception: an option over text is declared as one nullable address
but a present one is lowered as a view, which takes two. The difference is therefore exactly the number of
present options over text.
-/
set_option autoImplicit false
namespace Marshal

mutual
def Decl.isText : Decl → Bool
  | .string => true
  | .defn _ kind => kind.isText
  | _ => false

def Kind.isText : Kind → Bool
  | .alias target => target.isText
  | _ => false
end

mutual
/-- Lowering a value of the type may meet an option over text. -/
def Decl.hasTextOption : Decl → Bool
  | .defn _ kind => kind.hasTextOption
  | _ => false

def Kind.hasTextOption : Kind → Bool
  | .option elem => elem.isText || elem.hasTextOption
  | .tuple elems => elemsHaveTextOption elems
  | .record fields => fieldsHaveTextOption fields
  | .alias target => target.hasTextOption
  | _ => false

def elemsHaveTextOption : List Decl → Bool
  | [] => false
  | t :: ts => t.hasTextOption || elemsHaveTextOption ts

def fieldsHaveTextOption : List (Text × Decl) → Bool
  | [] => false
  | f :: fs => fieldHasTextOption f || fieldsHaveTextOption fs

def fieldHasTextOption : Text × Decl → Bool
  | (_, t) => t.hasTextOption
end

theorem fieldsHaveTextOption_eq (fields : List (Text × Decl)) :
    fieldsHaveTextOption fields = elemsHaveTextOption (fields.map Prod.snd) := by
  induction fields with
  | nil => rfl
  | cons f fs ih =>
    obtain ⟨name, t⟩ := f
    rw [fieldsHaveTextOption, List.map_cons, elemsHaveTextOption, ih]
    rfl

section

variable (p : Decl → Datum → Bool)

mutual
/-- The number of present options of a value, as it is read by the type, whose element type and value
satisfy `p`. -/
def Decl.presentOptions : Decl → Datum → Nat
  | .defn _ kind, v => kind.presentOptions v
  | _, _ => 0

def Kind.presentOptions : Kind → Datum → Nat
  | .option elem, v =>
    if v.isPresent then (if p elem v then 1 else 0) + elem.presentOptions v else 0
  | .tuple elems, .list vs => elemsPresentOptions elems vs
  | .record fields, .list vs => fieldsPresentOptions fields vs
  | .alias target, v => target.presentOptions v
  | _, _ => 0

def elemsPresentOptions : List Decl → List Datum → Nat
  | t :: ts, v :: vs => t.presentOptions v + elemsPresentOptions ts vs
  | _, _ => 0

def fieldsPresentOptions : List (Text × Decl) → List Datum → Nat
  | f :: fs, v :: vs => fieldPresentOptions f v + fieldsPresentOptions fs vs
  | _, _ => 0

def fieldPresentOptions : Text × Decl → Datum → Nat
  | (_, t), v => t.presentOptions v
end

theorem fieldsPresentOptions_eq (fields : List (Text × Decl)) (vs : List Datum) :
    fieldsPresentOptions p fields vs = elemsPresentOptions p (fields.map Prod.snd) vs := by
  induction fields generalizing vs with
  | nil => cases vs <;> rfl
  | cons f fs ih =>
    obtain ⟨name, t⟩ := f
    cases vs with
    | nil => rfl
    | cons v vs =>
      rw [fieldsPresentOptions, List.map_cons, elemsPresentOptions, ih]
      rfl

end

theorem fieldsWidth_eq (fields : List (Text × Decl)) :
    fieldsWidth fields = elemsWidth (fields.map Prod.snd) := by
  induction fields with
  | nil => rfl
  | cons f fs ih =>
    obtain ⟨name, t⟩ := f
    rw [fieldsWidth, List.map_cons, elemsWidth, ih]
    rfl

mutual
theorem Decl.width_of_isReference (t : Decl) (hRef : t.isReference = true) :
    t.width = if t.isText then 2 else 1 := by
  cases t with
  | string => rfl
  | defn name kind => exact Kind.width_of_isReference kind hRef
  | _ => cases hRef

theorem Kind.width_of_isReference (k : Kind) (hRef : k.isReference = true) :
    k.width = if k.isText then 2 else 1 := by
  cases k with
  | «alias» target => exact Decl.width_of_isReference target hRef
  | list elem => rfl
  | own target => rfl
  | borrow target => rfl
  | resource => rfl
  | _ => cases hRef
end

mutual
theorem Decl.isReference_of_isText (t : Decl) (hText : t.isText = true) : t.isReference = true := by
  cases t with
  | string => rfl
  | defn name kind => exact Kind.isReference_of_isText kind hText
  | _ => cases hText

theorem Kind.isReference_of_isText (k : Kind) (hText : k.isText = true) : k.isReference = true := by
  cases k with
  | «alias» target => exact Decl.isReference_of_isText target hText
  | _ => cases hText
end

theorem Kind.width_of_isObject {k : Kind} (hKind : k.isObject = true) : k.width = 1 := by
  cases k <;> first | rfl | cases hKind

theorem Kind.presentOptions_of_isObject {p : Decl → Datum → Bool} {k : Kind} (hKind : k.isObject = true)
    (v : Datum) : k.presentOptions p v = 0 := by
  cases k <;> first | rfl | cases hKind

def overText (elem : Decl) (_ : Datum) : Bool := elem.isText

variable {v : Datum} {elem : Decl}

theorem Kind.length_nullable {n : Nat} (hRef : elem.isReference = true)
    (hPresent : v.isPresent = true) (hLength : n = elem.width + elem.presentOptions overText v) :
    n = (Kind.option elem).width + (Kind.option elem).presentOptions overText v := by
  have hWidth := elem.width_of_isReference hRef
  rw [Kind.width, if_pos hRef, Kind.presentOptions, if_pos hPresent, overText]
  split at hWidth <;> rename_i hText <;> simp only [hText] <;> simp <;> omega

theorem Kind.length_present {n : Nat} (hRef : elem.isReference = false)
    (hPresent : v.isPresent = true) (hLength : n = elem.width + elem.presentOptions overText v) :
    n + 1 = (Kind.option elem).width + (Kind.option elem).presentOptions overText v := by
  have hText : ¬ elem.isText = true := fun h => by simp [elem.isReference_of_isText h] at hRef
  rw [Kind.width, if_neg (by simp [hRef]), Kind.presentOptions, if_pos hPresent, overText, if_neg hText]
  omega

mutual
theorem Lowers.length_eq : ∀ {t : Decl} {v : Datum} {s : Slots}, Lowers t v s →
    s.length = t.width + t.presentOptions overText v
  | _, _, _, .prim _ => rfl
  | _, _, _, .string _ _ => rfl
  | _, _, _, .object hKind a => by
    rw [Decl.width, Decl.presentOptions, Kind.width_of_isObject hKind, Kind.presentOptions_of_isObject hKind]
    rfl
  | _, _, _, .absent _ elem => List.length_replicate
  | _, _, _, .nullable hRef hPresent hElem => Kind.length_nullable hRef hPresent hElem.length_eq
  | _, _, _, .present hRef hPresent hElem => Kind.length_present hRef hPresent hElem.length_eq
  | _, _, _, .tuple hElems => hElems.length_eq
  | _, _, _, .record hFields => by
    rw [hFields.length_eq, ← fieldsWidth_eq, ← fieldsPresentOptions_eq]
    rfl
  | _, _, _, .enum _ => rfl
  | _, _, _, .alias hTarget => hTarget.length_eq

theorem LowersAll.length_eq : ∀ {ts : List Decl} {vs : List Datum} {s : Slots}, LowersAll ts vs s →
    s.length = elemsWidth ts + elemsPresentOptions overText ts vs
  | _, _, _, .nil => rfl
  | _, _, _, .cons hFirst hRest => by
    have hHead := hFirst.length_eq
    have hTail := hRest.length_eq
    rw [elemsWidth, elemsPresentOptions, List.length_append]
    omega
end

theorem Kind.presentOptions_option {p : Decl → Datum → Bool}
    (hPresent : v.isPresent = true) (hNot : p elem v = false) (hElem : elem.presentOptions p v = 0) :
    (Kind.option elem).presentOptions p v = 0 := by
  rw [Kind.presentOptions, if_pos hPresent, hNot, hElem]
  rfl

mutual
theorem Lowers.presentOptions_overText : ∀ {t : Decl} {v : Datum} {s : Slots}, Lowers t v s →
    t.hasTextOption = false → t.presentOptions overText v = 0
  | _, _, _, .prim _, _ => rfl
  | _, _, _, .string _ _, _ => rfl
  | _, _, _, .object hKind a, _ => Kind.presentOptions_of_isObject hKind _
  | _, _, _, .absent _ elem, _ => rfl
  | _, _, _, .nullable _ hPresent hElem, hPlain => by
    obtain ⟨hText, hRest⟩ := Bool.or_eq_false_iff.mp hPlain
    exact Kind.presentOptions_option hPresent hText (hElem.presentOptions_overText hRest)
  | _, _, _, .present _ hPresent hElem, hPlain => by
    obtain ⟨hText, hRest⟩ := Bool.or_eq_false_iff.mp hPlain
    exact Kind.presentOptions_option hPresent hText (hElem.presentOptions_overText hRest)
  | _, _, _, .tuple hElems, hPlain => hElems.presentOptions_overText hPlain
  | _, _, _, .record hFields, hPlain => by
    rw [Decl.hasTextOption, Kind.hasTextOption, fieldsHaveTextOption_eq] at hPlain
    rw [Decl.presentOptions, Kind.presentOptions, fieldsPresentOptions_eq]
    exact hFields.presentOptions_overText hPlain
  | _, _, _, .enum _, _ => rfl
  | _, _, _, .alias hTarget, hPlain => hTarget.presentOptions_overText hPlain

theorem LowersAll.presentOptions_overText : ∀ {ts : List Decl} {vs : List Datum} {s : Slots},
    LowersAll ts vs s → elemsHaveTextOption ts = false → elemsPresentOptions overText ts vs = 0
  | _, _, _, .nil, _ => rfl
  | _, _, _, .cons hFirst hRest, hPlain => by
    obtain ⟨hHead, hTail⟩ := Bool.or_eq_false_iff.mp hPlain
    rw [elemsPresentOptions, hFirst.presentOptions_overText hHead, hRest.presentOptions_overText hTail]
end

theorem Lowers.length_of_plain {t : Decl} {s : Slots} (h : Lowers t v s)
    (hPlain : t.hasTextOption = false) : s.length = t.width := by
  rw [h.length_eq, h.presentOptions_overText hPlain]
  rfl

/-- Lowering gives the declared number of slots and one more for each present option over text. -/
theorem Decl.length_flatten {t : Decl} {v : Datum} {slots : Slots} (h : t.flatten v = .ok slots) :
    slots.length = t.width + t.presentOptions overText v ∧
      (t.hasTextOption = false → slots.length = t.width) := by
  have hLowers := t.lowers_of_flattenAt [] v slots h
  exact ⟨hLowers.length_eq, hLowers.length_of_plain⟩

/-- A record of an optional name, an absent number behind an alias and a pair of addresses. -/
theorem Decl.length_flatten_record :
    let address := Decl.defn none .resource
    let t := Decl.defn none (.record [("name", .defn none (.option .string)),
      ("age", .defn none (.alias (.defn none (.option (.prim .u32))))),
      ("pair", .defn none (.tuple [.defn none (.option address), address]))])
    let v := Datum.list [.view 16 4, .nil, .list [.nil, .u32 24]]
    t.flatten v = .ok [16, 4, 0, 0, 0, 24] ∧ t.width = 5 ∧
      [16, 4, 0, 0, 0, 24].length = t.width + t.presentOptions overText v := by
  intro address t v
  have hFlat : t.flatten v = .ok [16, 4, 0, 0, 0, 24] := rfl
  exact ⟨hFlat, rfl, (Decl.length_flatten hFlat).1⟩

/-- A present option over text is wider than its type. -/
theorem Decl.length_flatten_ne_width :
    ∃ t v slots, Decl.flatten t v = .ok slots ∧ slots.length ≠ t.width :=
  ⟨.defn none (.option .string), .view 16 4, [16, 4], rfl, by decide⟩

end Marshal
