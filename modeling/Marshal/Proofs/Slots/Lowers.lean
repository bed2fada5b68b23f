import Marshal.Slots

/-! # What lowering accepts

`Lowers t v s` says that a datum `v` of the type `t` is the slots `s`, rule by rule and without the paths
and messages of failures. What `Decl.flattenAt` accepts, from any path, is exactly what these rules lower; width
and round trip are then read off the rules.
-/
set_option autoImplicit false
namespace Marshal

def Kind.isObject : Kind → Bool
  | .list _ => true
  | .own _ => true
  | .borrow _ => true
  | .resource => true
  | _ => false

def Datum.isPresent : Datum → Bool
  | .nil => false
  | _ => true

mutual
inductive Lowers : Decl → Datum → Slots → Prop
  | prim {p : Primitive} {v : Datum} {s : UInt64} (hSlot : p.toSlot? v = some s) : Lowers (.prim p) v [s]
  | string (start len : UInt32) : Lowers .string (.view start len) [start.toUInt64, len.toUInt64]
  | object {name : Option Text} {k : Kind} (hKind : k.isObject = true) (a : UInt32) :
      Lowers (.defn name k) (.u32 a) [a.toUInt64]
  | absent (name : Option Text) (elem : Decl) :
      Lowers (.defn name (.option elem)) .nil (List.replicate (Kind.option elem).width 0)
  | nullable {name : Option Text} {elem : Decl} {v : Datum} {s : Slots} (hRef : elem.isReference = true)
      (hPresent : v.isPresent = true) (hElem : Lowers elem v s) : Lowers (.defn name (.option elem)) v s
  | present {name : Option Text} {elem : Decl} {v : Datum} {s : Slots} (hRef : elem.isReference = false)
      (hPresent : v.isPresent = true) (hElem : Lowers elem v s) :
      Lowers (.defn name (.option elem)) v (1 :: s)
  | tuple {name : Option Text} {elems : List Decl} {vs : List Datum} {s : Slots}
      (hElems : LowersAll elems vs s) : Lowers (.defn name (.tuple elems)) (.list vs) s
  | record {name : Option Text} {fields : List (Text × Decl)} {vs : List Datum} {s : Slots}
      (hFields : LowersAll (fields.map Prod.snd) vs s) : Lowers (.defn name (.record fields)) (.list vs) s
  | enum {name : Option Text} {cases : Nat} {n : UInt32} (hCase : n.toNat < cases) :
      Lowers (.defn name (.enum cases)) (.u32 n) [n.toUInt64]
  | alias {name : Option Text} {target : Decl} {v : Datum} {s : Slots} (hTarget : Lowers target v s) :
      Lowers (.defn name (.alias target)) v s

inductive LowersAll : List Decl → List Datum → Slots → Prop
  | nil : LowersAll [] [] []
  | cons {t : Decl} {ts : List Decl} {v : Datum} {vs : List Datum} {first rest : Slots}
      (hFirst : Lowers t v first) (hRest : LowersAll ts vs rest) :
      LowersAll (t :: ts) (v :: vs) (first ++ rest)
end

theorem bind_eq_ok {ε α β : Type} {x : Except ε α} {f : α → Except ε β} {b : β} :
    (x >>= f) = .ok b ↔ ∃ a, x = .ok a ∧ f a = .ok b := by
  cases x with
  | error e => simp [bind, Except.bind]
  | ok a => simp [bind, Except.bind]

theorem map_eq_ok {ε α β : Type} {x : Except ε α} {f : α → β} {b : β} :
    x.map f = .ok b ↔ ∃ a, x = .ok a ∧ f a = b := by
  cases x <;> simp [Except.map]

variable {path : List Text} {label : Text}

theorem flattenReference_lowers {name : Option Text} {k : Kind}
    {v : Datum} {s : Slots} (hKind : k.isObject = true) (h : flattenReference path label v = .ok s) :
    Lowers (.defn name k) v s := by
  unfold flattenReference at h
  split at h
  · rename_i a hAddr
    cases v <;> simp only [Datum.toAddress?, reduceCtorEq, Option.some.injEq] at hAddr
    subst hAddr
    cases h
    exact .object hKind _
  · cases h

mutual
theorem Decl.lowers_of_flattenAt (path : List Text) (t : Decl) (v : Datum) (s : Slots)
    (h : t.flattenAt path v = .ok s) : Lowers t v s := by
  cases t with
  | absent => cases h
  | prim p =>
    rw [Decl.flattenAt] at h
    split at h
    · cases h
      exact .prim ‹_›
    · cases h
  | string =>
    cases v with
    | view start len =>
      cases h
      exact .string start len
    | _ => cases h
  | errorContext => cases h
  | defn name kind =>
    rw [Decl.flattenAt] at h
    exact Kind.lowers_of_flattenAt path _ name kind v s h

theorem Kind.lowers_of_flattenAt (path : List Text) (label : Text) (name : Option Text) (k : Kind)
    (v : Datum) (s : Slots) (h : k.flattenAt path label v = .ok s) : Lowers (.defn name k) v s := by
  cases k with
  | list elem => exact flattenReference_lowers rfl h
  | own target => exact flattenReference_lowers rfl h
  | borrow target => exact flattenReference_lowers rfl h
  | resource => exact flattenReference_lowers rfl h
  | option elem =>
    by_cases hNil : v = .nil
    · subst hNil
      cases h
      exact .absent name elem
    · have hPresent : v.isPresent = true := by
        cases v <;> first | rfl | exact absurd rfl hNil
      rw [Kind.flattenAt] at h
      case x_2 => exact hNil
      split at h
      · exact .nullable ‹_› hPresent (Decl.lowers_of_flattenAt _ elem v s h)
      · rename_i hRef
        obtain ⟨rest, hElem, rfl⟩ := map_eq_ok.mp h
        exact .present (Bool.eq_false_iff.mpr hRef) hPresent (Decl.lowers_of_flattenAt _ elem v rest hElem)
  | tuple elems =>
    cases v with
    | list items =>
      rw [Kind.flattenAt] at h
      split at h
      · exact .tuple (lowersAll_of_flattenElems path 0 elems items s ‹_› h)
      · cases h
    | _ => cases h
  | record fields =>
    cases v with
    | list items =>
      rw [Kind.flattenAt] at h
      split at h
      · exact .record (lowersAll_of_flattenFields path fields items s ‹_› h)
      · cases h
    | _ => cases h
  | enum cases =>
    cases v with
    | u32 n =>
      rw [Kind.flattenAt] at h
      split at h
      · cases h
        exact .enum ‹_›
      · cases h
    | _ => cases h
  | «alias» target =>
    rw [Kind.flattenAt] at h
    exact .alias (Decl.lowers_of_flattenAt path target v s h)
  | result ok err => cases h
  | variant cases => cases h
  | flags count => cases h
  | stream elem => cases h
  | future elem => cases h
  | unspecified => cases h

theorem lowersAll_of_flattenElems (path : List Text) (i : Nat) (ts : List Decl) (vs : List Datum)
    (s : Slots) (hLength : vs.length = ts.length) (h : flattenElems path i ts vs = .ok s) :
    LowersAll ts vs s := by
  match ts, vs, hLength with
  | [], [], _ =>
    cases h
    exact .nil
  | t :: ts, v :: vs, hLength =>
    rw [flattenElems] at h
    obtain ⟨first, hFirst, h⟩ := bind_eq_ok.mp h
    obtain ⟨rest, hRest, h⟩ := bind_eq_ok.mp h
    cases h
    exact .cons (Decl.lowers_of_flattenAt _ t v first hFirst)
      (lowersAll_of_flattenElems path (i + 1) ts vs rest (Nat.succ.inj hLength) hRest)

theorem lowersAll_of_flattenFields (path : List Text) (fs : List (Text × Decl)) (vs : List Datum)
    (s : Slots) (hLength : vs.length = fs.length) (h : flattenFields path fs vs = .ok s) :
    LowersAll (fs.map Prod.snd) vs s := by
  match fs, vs, hLength with
  | [], [], _ =>
    cases h
    exact .nil
  | (name, t) :: fs, v :: vs, hLength =>
    rw [flattenFields] at h
    obtain ⟨first, hFirst, h⟩ := bind_eq_ok.mp h
    obtain ⟨rest, hRest, h⟩ := bind_eq_ok.mp h
    cases h
    rw [flattenField] at hFirst
    exact .cons (Decl.lowers_of_flattenAt _ t v first hFirst)
      (lowersAll_of_flattenFields path fs vs rest (Nat.succ.inj hLength) hRest)
end

theorem LowersAll.length_eq_types : ∀ {ts : List Decl} {vs : List Datum} {s : Slots}, LowersAll ts vs s →
    vs.length = ts.length
  | _, _, _, .nil => rfl
  | _, _, _, .cons _ hRest => congrArg Nat.succ hRest.length_eq_types

theorem Kind.flattenAt_object {k : Kind} (hKind : k.isObject = true)
    (a : UInt32) : k.flattenAt path label (.u32 a) = .ok [a.toUInt64] := by
  cases k <;> first | rfl | cases hKind

theorem Kind.flattenAt_option {elem : Decl} {v : Datum} (hPresent : v.isPresent = true) :
    (Kind.option elem).flattenAt path label v = if elem.isReference then elem.flattenAt path v
      else (elem.flattenAt (path ++ [someField]) v).map (1 :: ·) := by
  cases v <;> first | rfl | cases hPresent

mutual
theorem Lowers.flattenAt_eq : ∀ {t : Decl} {v : Datum} {s : Slots}, Lowers t v s →
    ∀ path, t.flattenAt path v = .ok s
  | _, _, _, .prim hSlot, path => by rw [Decl.flattenAt, hSlot]
  | _, _, _, .string _ _, path => rfl
  | _, _, _, .object hKind a, path => by rw [Decl.flattenAt, Kind.flattenAt_object hKind]
  | _, _, _, .absent _ elem, path => rfl
  | _, _, _, .nullable hRef hPresent hElem, path => by
    rw [Decl.flattenAt, Kind.flattenAt_option hPresent, if_pos hRef, hElem.flattenAt_eq]
  | _, _, _, .present hRef hPresent hElem, path => by
    rw [Decl.flattenAt, Kind.flattenAt_option hPresent, if_neg (by simp [hRef]), hElem.flattenAt_eq]
    rfl
  | _, _, _, .tuple hElems, path => by
    rw [Decl.flattenAt, Kind.flattenAt, if_pos hElems.length_eq_types, hElems.flattenElems_eq]
  | _, _, _, .record hFields, path => by
    rw [Decl.flattenAt, Kind.flattenAt, if_pos (by simpa using hFields.length_eq_types),
      hFields.flattenFields_eq path _ rfl]
  | _, _, _, .enum hCase, path => by rw [Decl.flattenAt, Kind.flattenAt, if_pos hCase]
  | _, _, _, .alias hTarget, path => by rw [Decl.flattenAt, Kind.flattenAt, hTarget.flattenAt_eq]

theorem LowersAll.flattenElems_eq : ∀ {ts : List Decl} {vs : List Datum} {s : Slots}, LowersAll ts vs s →
    ∀ path i, flattenElems path i ts vs = .ok s
  | _, _, _, .nil, path, i => rfl
  | _, _, _, .cons hFirst hRest, path, i => by
    rw [flattenElems, hFirst.flattenAt_eq, hRest.flattenElems_eq]
    rfl

theorem LowersAll.flattenFields_eq : ∀ {ts : List Decl} {vs : List Datum} {s : Slots}, LowersAll ts vs s →
    ∀ (path : List Text) (fields : List (Text × Decl)), fields.map Prod.snd = ts →
      flattenFields path fields vs = .ok s
  | _, _, _, .nil, path, [], _ => rfl
  | _, _, _, .cons hFirst hRest, path, (name, t) :: fields, hTypes => by
    obtain ⟨rfl, hRestTypes⟩ := List.cons.inj hTypes
    rw [flattenFields, flattenField, hFirst.flattenAt_eq, hRest.flattenFields_eq path fields hRestTypes]
    rfl
end

theorem Decl.flattenAt_eq_ok_iff {t : Decl} {v : Datum} {s : Slots} : t.flattenAt path v = .ok s ↔ Lowers t v s := by
  constructor
  · exact t.lowers_of_flattenAt path v s
  · intro h
    exact h.flattenAt_eq path

end Marshal
