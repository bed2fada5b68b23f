import Marshal.Proofs.Slots.Lowers
import Marshal.Signature

/-! # Types in scope

What a type expression can denote: words, the constructors over such types, and references to opaque types whose
names are in scope. Whatever is read, as an expression or in a signature, is of this form.
-/
set_option autoImplicit false
namespace Marshal

inductive Decl.Scoped (names : List Text) : Decl → Prop
  | absent : Scoped names .absent
  | prim (p : Primitive) : Scoped names (.prim p)
  | string : Scoped names .string
  | errorContext : Scoped names .errorContext
  | own {name : Text} (hName : name ∈ names) : Scoped names (.defn none (.own (.resourceNamed name)))
  | borrow {name : Text} (hName : name ∈ names) : Scoped names (.defn none (.borrow (.resourceNamed name)))
  | list {elem : Decl} (hElem : Scoped names elem) : Scoped names (.defn none (.list elem))
  | option {elem : Decl} (hElem : Scoped names elem) : Scoped names (.defn none (.option elem))
  | tuple {elems : List Decl} (hElems : ∀ t ∈ elems, Scoped names t) : Scoped names (.defn none (.tuple elems))
  | result {ok err : Decl} (hOk : Scoped names ok) (hErr : Scoped names err) :
      Scoped names (.defn none (.result ok err))

namespace TypeExpr

variable {names : List Text}

variable {t : Decl} {name : Text}

theorem lookup_eq_ok {s : Scope} (h : lookup s name = .ok t) : name ∈ s.names ∧ t = .resourceNamed name := by
  unfold lookup at h
  split at h
  · rename_i hName
    exact ⟨List.contains_iff_mem.mp hName, (Except.ok.inj h).symm⟩
  · cases h

theorem referenceAt_eq_reference {s : Scope} {former : Former} {t rest : Text} {d : Decl}
    (h : referenceAt s former t = .ok (d, rest)) : ∃ name ∈ s.names, d = reference former (.resourceNamed name) := by
  obtain ⟨u, -, h⟩ := bind_eq_ok.mp h
  obtain ⟨target, hTarget, h⟩ := bind_eq_ok.mp h
  obtain ⟨v, -, h⟩ := bind_eq_ok.mp h
  cases h
  obtain ⟨hName, rfl⟩ := lookup_eq_ok hTarget
  exact ⟨_, hName, rfl⟩

section

variable {s : Scope} {P : Decl → Prop} (hWord : ∀ {name t}, Decl.ofWord? name = some t → P t)
  (hReference : ∀ {name}, name ∈ s.names → ∀ former, P (reference former (.resourceNamed name)))
  (hApplied : ∀ {former args t}, applied former args = .ok t → (∀ a ∈ args, a = .absent ∨ P a) → P t)

include hWord hReference hApplied

/-- What holds of words and of references in scope, and passes from the arguments of a constructor that are given to
what it makes of them, holds of every type that is read. By induction on the nesting that is left, for a type and for
arguments at once. -/
theorem holds_typeAt (fuel : Nat) :
    (∀ t d rest, typeAt s fuel t = .ok (d, rest) → P d) ∧
      ∀ t ds rest, argsAt s fuel t = .ok (ds, rest) → ∀ d ∈ ds, d = .absent ∨ P d := by
  induction fuel with
  | zero =>
    constructor
    · intro t d rest h
      cases h
    · intro t ds rest h
      cases h
  | succ fuel ih =>
    obtain ⟨ihType, ihArgs⟩ := ih
    constructor
    · intro t d rest h
      rw [typeAt] at h
      simp only at h
      split at h
      · cases h
      · split at h
        · split at h
          · rename_i word hName
            cases h
            exact hWord hName
          · obtain ⟨target, hTarget, h⟩ := bind_eq_ok.mp h
            cases h
            obtain ⟨hName, rfl⟩ := lookup_eq_ok hTarget
            exact hReference hName .own
        · obtain ⟨name, hName, rfl⟩ := referenceAt_eq_reference h
          exact hReference hName .own
        · obtain ⟨name, hName, rfl⟩ := referenceAt_eq_reference h
          exact hReference hName .borrow
        · split at h
          · cases h
            -- the bare word stands for a result of one absent side
            exact @hApplied .result [.absent] _ rfl fun _ ha => .inl (List.mem_singleton.mp ha)
          · obtain ⟨u, -, h⟩ := bind_eq_ok.mp h
            obtain ⟨⟨args, v⟩, hArgs, h⟩ := bind_eq_ok.mp h
            simp only at h
            split at h
            · rename_i hMade
              cases h
              exact hApplied hMade (ihArgs _ _ _ hArgs)
            · cases h
    · intro t ds rest h
      rw [argsAt, ← apply_ite (· >>= _)] at h
      obtain ⟨⟨arg, u⟩, hArg, h⟩ := bind_eq_ok.mp h
      have hFirst : arg = .absent ∨ P arg := by
        split at hArg
        · cases hArg
          exact .inl rfl
        · exact .inr (ihType _ _ _ hArg)
      simp only at h
      split at h
      · cases h
        exact List.forall_mem_singleton.mpr hFirst
      · obtain ⟨v, -, h⟩ := bind_eq_ok.mp h
        obtain ⟨⟨args, w⟩, hArgs, h⟩ := bind_eq_ok.mp h
        cases h
        exact List.forall_mem_cons.mpr ⟨hFirst, ihArgs _ _ _ hArgs⟩

end

theorem holds_parse {P : Decl → Prop} (hWord : ∀ {name t}, Decl.ofWord? name = some t → P t)
    (hReference : ∀ {name}, name ∈ names → ∀ former, P (reference former (.resourceNamed name)))
    (hApplied : ∀ {former args t}, applied former args = .ok t → (∀ a ∈ args, a = .absent ∨ P a) → P t)
    {source : Text} (h : parse names source = .ok t) : P t := by
  obtain ⟨⟨d, rest⟩, hType, h⟩ := bind_eq_ok.mp h
  simp only at h
  split at h
  · cases h
    exact (holds_typeAt hWord hReference hApplied _).1 _ _ _ hType
  · cases h

theorem holds_ofWord? {P : Decl → Prop} (hPrim : ∀ p, P (.prim p)) (hString : P .string) (hError : P .errorContext)
    (h : Decl.ofWord? name = some t) : P t := by
  have hAll : ∀ x ∈ Decl.words, P x.2 := by
    intro x hx
    rcases List.mem_append.mp hx with hPrims | hOther
    · obtain ⟨p, -, rfl⟩ := List.mem_map.mp hPrims
      exact hPrim p
    · simp only [List.mem_cons, List.not_mem_nil, or_false] at hOther
      rcases hOther with rfl | rfl | rfl | rfl
      · exact hString
      · exact hError
      · exact hPrim _
      · exact hPrim _
  obtain ⟨before, after, hWords, -⟩ := List.lookup_eq_some_iff.mp h
  exact hAll (name, t) (hWords ▸ List.mem_append_right _ List.mem_cons_self)

theorem scoped_reference (hName : name ∈ names) (former : Former) :
    (reference former (.resourceNamed name)).Scoped names := by
  cases former with
  | borrow => exact .borrow hName
  | _ => exact .own hName

theorem scoped_applied {former : Former} {args : List Decl} (h : applied former args = .ok t)
    (hArgs : ∀ a ∈ args, a.Scoped names) : t.Scoped names := by
  unfold applied at h
  split at h
  · split at h <;> cases h
    exact .list (hArgs _ List.mem_cons_self)
  · split at h <;> cases h
    exact .option (hArgs _ List.mem_cons_self)
  · split at h <;> cases h
    exact .tuple hArgs
  · cases h
    exact .result (hArgs _ List.mem_cons_self) .absent
  · cases h
    exact .result (hArgs _ List.mem_cons_self) (hArgs _ (List.mem_cons_of_mem _ List.mem_cons_self))
  · cases h

theorem scoped_parse {source : Text} (h : parse names source = .ok t) : t.Scoped names := by
  refine holds_parse (holds_ofWord? .prim .string .errorContext) scoped_reference ?_ h
  intro former args t hMade hArgs
  refine scoped_applied hMade fun a ha => ?_
  rcases hArgs a ha with rfl | hScoped
  · exact .absent
  · exact hScoped

end TypeExpr

namespace Signature

variable {names : List Text}

def types (s : Signature) : List Decl := s.params.map Param.type ++ [s.result]

theorem scoped_readType {what written : Text} {t : Decl} (h : readType names what written = .ok t) :
    t.Scoped names := by
  unfold readType at h
  cases hParse : TypeExpr.parse names written with
  | error r =>
    rw [hParse] at h
    cases h
  | ok d =>
    rw [hParse] at h
    cases h
    exact TypeExpr.scoped_parse hParse

theorem readParams_cons_eq_ok {function part : Text} {seen parts : List Text} {params : List Param}
    (h : readParams names function seen (part :: parts) = .ok params) :
    ∃ p rest, params = p :: rest ∧ p.name = Text.trim (part.takeWhile (· ≠ 58)) ∧ (p.name ≠ [] ∧ p.name ∉ seen) ∧
      readType names "param" p.written = .ok p.type ∧
      readParams names function (p.name :: seen) parts = .ok rest := by
  rw [readParams] at h
  split at h
  · cases h
  · simp only at h
    split at h
    · cases h
    · rename_i hName
      obtain ⟨t, hType, h⟩ := bind_eq_ok.mp h
      obtain ⟨rest, hRest, h⟩ := bind_eq_ok.mp h
      cases h
      simp only [Bool.or_eq_true, List.isEmpty_iff, List.contains_iff_mem, not_or] at hName
      exact ⟨_, rest, rfl, rfl, hName, hType, hRest⟩

theorem scoped_readParams {function : Text} {seen parts : List Text} {params : List Param}
    (h : readParams names function seen parts = .ok params) : ∀ p ∈ params, p.type.Scoped names := by
  induction parts generalizing seen params with
  | nil =>
    cases h
    exact List.forall_mem_nil _
  | cons part parts ih =>
    obtain ⟨p, rest, rfl, -, -, hType, hRest⟩ := readParams_cons_eq_ok h
    exact List.forall_mem_cons.mpr ⟨scoped_readType hType, ih hRest⟩

theorem scoped_readResult {t written : Text} {d : Decl} (h : readResult names t = .ok (d, written)) :
    d.Scoped names := by
  unfold readResult at h
  simp only at h
  split at h
  · cases h
    exact .absent
  · obtain ⟨d', hType, h⟩ := bind_eq_ok.mp h
    cases h
    exact scoped_readType hType

theorem scoped_parse {t : Text} {s : Signature} (h : parse names t = .ok s) : ∀ d ∈ s.types, d.Scoped names := by
  unfold parse at h
  split at h
  · cases h
  · obtain ⟨params, hParams, h⟩ := bind_eq_ok.mp h
    obtain ⟨⟨d, written⟩, hResult, h⟩ := bind_eq_ok.mp h
    cases h
    intro d' hMem
    rcases List.mem_append.mp hMem with hParam | hLast
    · obtain ⟨p, hp, rfl⟩ := List.mem_map.mp hParam
      exact scoped_readParams hParams p hp
    · rw [List.mem_singleton.mp hLast]
      exact scoped_readResult hResult

end Signature

end Marshal
