import Mathlib.Data.List.TakeWhile
import Marshal.Proofs.Plan.Scope

/-! # The grammar of type expressions

A type is written as a list of tokens: words, names, angle brackets, commas, and an underscore for an absent side of a
result. A text spells the tokens with any blanks before each of them. Whatever is read as a type, up to some rest, is
such a spelling.
-/
set_option autoImplicit false
namespace Marshal
namespace TypeExpr

/-! ## Tokens -/

def isName : Text → Bool
  | [] => false
  | b :: rest => isLetter b && rest.all isNameByte

def opening : Text := [60]
def closing : Text := [62]
def comma : Text := [44]

def hole : Text := [95]

def bracketed (word : Text) (tokens : List Text) : List Text := word :: opening :: tokens ++ [closing]

mutual
/-- The tokens of a type over the opaque types in scope. -/
inductive Written (names : List Text) : Decl → List Text → Prop
  | word {w : Text} {t : Decl} (hWord : Decl.ofWord? w = some t) : Written names t [w]
  | bare {n : Text} (hName : n ∈ names) (hIdent : isName n = true) :
      Written names (.defn none (.own (.resourceNamed n))) [n]
  | own {n : Text} (hName : n ∈ names) (hIdent : isName n = true) :
      Written names (.defn none (.own (.resourceNamed n))) (bracketed "own" [n])
  | borrow {n : Text} (hName : n ∈ names) (hIdent : isName n = true) :
      Written names (.defn none (.borrow (.resourceNamed n))) (bracketed "borrow" [n])
  | list {t : Decl} {ts : List Text} (hElem : Written names t ts) :
      Written names (.defn none (.list t)) (bracketed "list" ts)
  | option {t : Decl} {ts : List Text} (hElem : Written names t ts) :
      Written names (.defn none (.option t)) (bracketed "option" ts)
  | tuple {fields : List Decl} {ts : List Text} (hFields : WrittenFields names fields ts) :
      Written names (.defn none (.tuple fields)) (bracketed "tuple" ts)
  | result : Written names (.defn none (.result .absent .absent)) ["result"]
  | resultOk {ok : Decl} {ts : List Text} (hOk : WrittenSide names ok ts) :
      Written names (.defn none (.result ok .absent)) (bracketed "result" ts)
  | resultBoth {ok err : Decl} {ts us : List Text} (hOk : WrittenSide names ok ts) (hErr : WrittenSide names err us) :
      Written names (.defn none (.result ok err)) (bracketed "result" (ts ++ comma :: us))

/-- A side of a result, which may be absent. -/
inductive WrittenSide (names : List Text) : Decl → List Text → Prop
  | absent : WrittenSide names .absent [hole]
  | type {t : Decl} {ts : List Text} (hType : Written names t ts) : WrittenSide names t ts

/-- One or more fields with commas between them. -/
inductive WrittenFields (names : List Text) : List Decl → List Text → Prop
  | one {t : Decl} {ts : List Text} (hType : Written names t ts) : WrittenFields names [t] ts
  | more {t : Decl} {fields : List Decl} {ts us : List Text} (hType : Written names t ts)
      (hFields : WrittenFields names fields us) : WrittenFields names (t :: fields) (ts ++ comma :: us)
end

/-- The text is the tokens, with any blanks before each of them, and then `rest`. -/
def Spelled : List Text → Text → Text → Prop
  | [], t, rest => t = rest
  | w :: ws, t, rest => ∃ blanks u, blanks.all isSpace = true ∧ t = blanks ++ w ++ u ∧ Spelled ws u rest

/-- A rendering of the type: its tokens, with any blanks before each of them and at the end. -/
def Rendering (names : List Text) (t : Decl) (source : Text) : Prop :=
  ∃ tokens blanks, Written names t tokens ∧ Spelled tokens source blanks ∧ blanks.all isSpace = true

variable {t rest : Text} {ts : List Text} {former : Former}

theorem spelled_append {ts us : List Text} :
    Spelled (ts ++ us) t rest ↔ ∃ middle, Spelled ts t middle ∧ Spelled us middle rest := by
  induction ts generalizing t with
  | nil => simp [Spelled]
  | cons w ts ih =>
    constructor
    · rintro ⟨blanks, u, hBlanks, rfl, h⟩
      obtain ⟨middle, hFirst, hSecond⟩ := ih.mp h
      exact ⟨middle, ⟨blanks, u, hBlanks, rfl, hFirst⟩, hSecond⟩
    · rintro ⟨middle, ⟨blanks, u, hBlanks, rfl, hFirst⟩, hSecond⟩
      exact ⟨blanks, u, hBlanks, rfl, ih.mpr ⟨middle, hFirst, hSecond⟩⟩

theorem spelled_cons {w : Text} :
    Spelled (w :: ts) t rest ↔ ∃ middle, Spelled [w] t middle ∧ Spelled ts middle rest :=
  @spelled_append t rest [w] ts

theorem spelled_singleton {w t rest : Text} :
    Spelled [w] t rest ↔ ∃ blanks, blanks.all isSpace = true ∧ t = blanks ++ w ++ rest := by
  constructor
  · rintro ⟨blanks, _, hBlanks, hText, rfl⟩
    exact ⟨blanks, hBlanks, hText⟩
  · rintro ⟨blanks, hBlanks, hText⟩
    exact ⟨blanks, rest, hBlanks, hText, rfl⟩

theorem Spelled.length_le (h : Spelled ts t rest) : rest.length ≤ t.length := by
  induction ts generalizing t with
  | nil => exact Nat.le_of_eq (congrArg List.length h.symm)
  | cons w ts ih =>
    obtain ⟨blanks, u, -, rfl, h⟩ := h
    have := ih h
    simp only [List.length_append]
    omega

/-! ## Reading tokens -/

theorem skip_append {blanks t : Text} (h : blanks.all isSpace = true) : skip (blanks ++ t) = skip t :=
  List.dropWhile_append_of_pos (List.all_eq_true.mp h)

theorem exists_skip (t : Text) : ∃ blanks, blanks.all isSpace = true ∧ t = blanks ++ skip t :=
  ⟨t.takeWhile isSpace, List.all_eq_true.mpr fun _ h => List.mem_takeWhile_imp h,
    List.takeWhile_append_dropWhile.symm⟩

theorem skip_cons {b : UInt8} {t : Text} (h : isSpace b = false) : skip (b :: t) = b :: t := by
  simp [skip, h]

theorem accept_eq_some {b : UInt8} (hb : isSpace b = false) : accept b t = some rest ↔ Spelled [[b]] t rest := by
  rw [spelled_singleton]
  constructor
  · intro h
    obtain ⟨blanks, hBlanks, hText⟩ := exists_skip t
    unfold accept at h
    split at h
    · rename_i a u hSkip
      split at h <;> cases h
      subst a
      exact ⟨blanks, hBlanks, by rw [hSkip] at hText; simpa using hText⟩
    · cases h
  · rintro ⟨blanks, hBlanks, rfl⟩
    rw [accept, List.append_assoc, skip_append hBlanks, List.singleton_append, skip_cons hb]
    simp

theorem expect_eq_ok {s : Scope} {b : UInt8} (hb : isSpace b = false) :
    expect s b t = .ok rest ↔ Spelled [[b]] t rest := by
  rw [← accept_eq_some hb, expect]
  cases accept b t <;> simp

def Stops (t : Text) : Prop := ∀ b ∈ t.head?, isNameByte b = false

theorem splitName_eq (t : Text) :
    t = (splitName t).1 ++ (splitName t).2 ∧ ((splitName t).1 = [] ∨ isName (splitName t).1 = true) := by
  unfold splitName
  split
  · exact ⟨rfl, .inl rfl⟩
  · rename_i b t
    split
    · rename_i hb
      refine ⟨by simp, .inr ?_⟩
      rw [isName, hb, Bool.true_and, List.all_eq_true]
      exact fun c hc => List.mem_takeWhile_imp hc
    · exact ⟨rfl, .inl rfl⟩

theorem splitName_append {name rest : Text} (hName : isName name = true) (hRest : Stops rest) :
    splitName (name ++ rest) = (name, rest) := by
  cases name with
  | nil => cases hName
  | cons b bs =>
    obtain ⟨hb, hbs⟩ := Bool.and_eq_true_iff.mp hName
    have hbs := List.all_eq_true.mp hbs
    have hEnd : rest.takeWhile isNameByte = [] ∧ rest.dropWhile isNameByte = rest := by
      cases rest with
      | nil => exact ⟨rfl, rfl⟩
      | cons c cs => simp [hRest c rfl]
    rw [List.cons_append, splitName, if_pos hb, List.takeWhile_append_of_pos hbs, List.dropWhile_append_of_pos hbs,
      hEnd.1, hEnd.2, List.append_nil]

/-! ## What is read is written so -/

variable {names : List Text}

/-- Any arguments, with commas between them. -/
inductive WrittenArgs (names : List Text) : List Decl → List Text → Prop
  | one {t : Decl} {ts : List Text} (hSide : WrittenSide names t ts) : WrittenArgs names [t] ts
  | more {t : Decl} {args : List Decl} {ts us : List Text} (hSide : WrittenSide names t ts)
      (hArgs : WrittenArgs names args us) : WrittenArgs names (t :: args) (ts ++ comma :: us)

theorem WrittenSide.type_of_isPresent {t : Decl} (h : WrittenSide names t ts)
    (hPresent : t.isPresent = true) : Written names t ts := by
  cases h with
  | absent => cases hPresent
  | type hType => exact hType

theorem WrittenArgs.fields {args : List Decl} (h : WrittenArgs names args ts)
    (hPresent : args.all Decl.isPresent = true) : WrittenFields names args ts := by
  induction h with
  | one hSide => exact .one (hSide.type_of_isPresent (by simpa using hPresent))
  | more hSide _ ih =>
    obtain ⟨hFirst, hRest⟩ := Bool.and_eq_true_iff.mp hPresent
    exact .more (hSide.type_of_isPresent hFirst) (ih hRest)

theorem Former.keyword_of_ofName? {name : Text} (h : Former.ofName? name = some former) : former.keyword = name := by
  simpa using List.find?_some h

theorem written_applied {args : List Decl} {t : Decl}
    (h : applied former args = .ok t) (hArgs : WrittenArgs names args ts) :
    Written names t (bracketed former.keyword ts) := by
  unfold applied at h
  split at h
  · split at h <;> cases h
    rename_i hPresent
    cases hArgs with
    | one hSide => exact .list (hSide.type_of_isPresent hPresent)
    | more _ hRest => cases hRest
  · split at h <;> cases h
    rename_i hPresent
    cases hArgs with
    | one hSide => exact .option (hSide.type_of_isPresent hPresent)
    | more _ hRest => cases hRest
  · split at h <;> cases h
    rename_i hPresent
    exact .tuple (hArgs.fields hPresent)
  · cases h
    cases hArgs with
    | one hSide => exact .resultOk hSide
    | more _ hRest => cases hRest
  · cases h
    cases hArgs with
    | more hOk hRest =>
      cases hRest with
      | one hErr => exact .resultBoth hOk hErr
      | more _ hNone => cases hNone
  · cases h

theorem spelled_name (t : Text) : Spelled [(splitName (skip t)).1] t (splitName (skip t)).2 := by
  obtain ⟨blanks, hBlanks, hText⟩ := exists_skip t
  refine spelled_singleton.mpr ⟨blanks, hBlanks, ?_⟩
  rw [List.append_assoc, ← (splitName_eq (skip t)).1]
  exact hText

theorem spelled_hole {t : Text} (h : startsHole (skip t) = true) : Spelled [hole] t ((skip t).drop 1) := by
  obtain ⟨blanks, hBlanks, hText⟩ := exists_skip t
  refine spelled_singleton.mpr ⟨blanks, hBlanks, ?_⟩
  have hHead : skip t = hole ++ (skip t).drop 1 := by
    unfold startsHole at h
    split at h
    · rename_i hSkip
      rw [hSkip]
      rfl
    · rename_i hSkip
      rw [hSkip]
      rfl
    · cases h
  rw [List.append_assoc, ← hHead]
  exact hText

theorem written_referenceAt {s : Scope} (hEmpty : [] ∉ s.names) {d : Decl}
    (h : referenceAt s former t = .ok (d, rest)) :
    ∃ n ∈ s.names, isName n = true ∧ d = reference former (.resourceNamed n) ∧
      Spelled (opening :: [n] ++ [closing]) t rest := by
  obtain ⟨u, hOpen, h⟩ := bind_eq_ok.mp h
  obtain ⟨target, hTarget, h⟩ := bind_eq_ok.mp h
  obtain ⟨v, hClose, h⟩ := bind_eq_ok.mp h
  cases h
  obtain ⟨hName, rfl⟩ := lookup_eq_ok hTarget
  refine ⟨_, hName, ?_, rfl, ?_⟩
  · refine (splitName_eq (skip u)).2.resolve_left fun hNone => hEmpty ?_
    rwa [← hNone]
  · refine spelled_cons.mpr ⟨u, (expect_eq_ok (by decide)).mp hOpen, spelled_append.mpr ⟨_, spelled_name u, ?_⟩⟩
    exact (expect_eq_ok (by decide)).mp hClose

/-- By induction on the nesting that is left, for a type and for arguments at once. -/
theorem written_typeAt (s : Scope) (hEmpty : [] ∉ s.names) (fuel : Nat) :
    (∀ t d rest, typeAt s fuel t = .ok (d, rest) → ∃ ts, Written s.names d ts ∧ Spelled ts t rest) ∧
      ∀ t ds rest, argsAt s fuel t = .ok (ds, rest) →
        ∃ ts, WrittenArgs s.names ds ts ∧ Spelled (ts ++ [closing]) t rest := by
  induction fuel with
  | zero =>
    constructor
    · intro t d rest h
      cases h
    · intro t ds rest h
      cases h
  | succ fuel ih =>
    obtain ⟨ihType, ihArgs⟩ := ih
    constructor
    · intro t d rest h
      rw [typeAt] at h
      simp only at h
      have hSpelled := spelled_name t
      split at h
      · cases h
      · rename_i hNonempty
        have hIdent : isName (splitName (skip t)).1 = true :=
          (splitName_eq (skip t)).2.resolve_left (by simpa using hNonempty)
        split at h
        · split at h
          · rename_i word hWord
            cases h
            exact ⟨_, .word hWord, hSpelled⟩
          · obtain ⟨target, hTarget, h⟩ := bind_eq_ok.mp h
            cases h
            obtain ⟨hName, rfl⟩ := lookup_eq_ok hTarget
            exact ⟨_, .bare hName hIdent, hSpelled⟩
        · rename_i hFormer
          obtain ⟨n, hName, hIdent, rfl, hRest⟩ := written_referenceAt hEmpty h
          rw [← Former.keyword_of_ofName? hFormer] at hSpelled
          exact ⟨_, .own hName hIdent, spelled_cons.mpr ⟨_, hSpelled, hRest⟩⟩
        · rename_i hFormer
          obtain ⟨n, hName, hIdent, rfl, hRest⟩ := written_referenceAt hEmpty h
          rw [← Former.keyword_of_ofName? hFormer] at hSpelled
          exact ⟨_, .borrow hName hIdent, spelled_cons.mpr ⟨_, hSpelled, hRest⟩⟩
        · rename_i former _ _ hFormer
          rw [← Former.keyword_of_ofName? hFormer] at hSpelled
          split at h
          · rename_i hResult
            cases h
            obtain rfl : former = .result := by simpa using (Bool.and_eq_true_iff.mp hResult).1
            exact ⟨_, .result, hSpelled⟩
          · obtain ⟨u, hOpen, h⟩ := bind_eq_ok.mp h
            obtain ⟨⟨args, v⟩, hArgs, h⟩ := bind_eq_ok.mp h
            simp only at h
            split at h
            · rename_i hApplied
              cases h
              obtain ⟨ts, hWritten, hInner⟩ := ihArgs _ _ _ hArgs
              refine ⟨_, written_applied hApplied hWritten, spelled_cons.mpr ⟨_, hSpelled, ?_⟩⟩
              exact spelled_cons.mpr ⟨u, (expect_eq_ok (by decide)).mp hOpen, hInner⟩
            · cases h
    · intro t ds rest h
      rw [argsAt, ← apply_ite (· >>= _)] at h
      obtain ⟨⟨arg, u⟩, hArg, h⟩ := bind_eq_ok.mp h
      have hFirst : ∃ ts, WrittenSide s.names arg ts ∧ Spelled ts t u := by
        split at hArg
        · rename_i hHole
          cases hArg
          exact ⟨_, .absent, spelled_hole hHole⟩
        · obtain ⟨ts, hWritten, hSpelled⟩ := ihType _ _ _ hArg
          exact ⟨ts, .type hWritten, hSpelled⟩
      obtain ⟨ts, hSide, hSpelled⟩ := hFirst
      simp only at h
      split at h
      · rename_i hClose
        cases h
        exact ⟨ts, .one hSide, spelled_append.mpr ⟨u, hSpelled, (accept_eq_some (by decide)).mp hClose⟩⟩
      · obtain ⟨v, hComma, h⟩ := bind_eq_ok.mp h
        obtain ⟨⟨args, w⟩, hArgs, h⟩ := bind_eq_ok.mp h
        cases h
        obtain ⟨us, hWritten, hRest⟩ := ihArgs _ _ _ hArgs
        refine ⟨_, .more hSide hWritten, ?_⟩
        rw [List.append_assoc]
        refine spelled_append.mpr ⟨u, hSpelled, spelled_cons.mpr ⟨v, (expect_eq_ok (by decide)).mp hComma, hRest⟩⟩

end TypeExpr

end Marshal
