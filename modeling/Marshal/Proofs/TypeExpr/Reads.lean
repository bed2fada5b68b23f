import Marshal.Proofs.TypeExpr.Grammar

/-! # Reading type expressions

Every spelling of a type is read back as that type, up to the comma, bracket or end of text behind it. Together with
the converse this says that exactly the renderings of a type are read as it. The nesting that reading allows for is
never used up, so allowing for more changes no answer.
-/
set_option autoImplicit false
namespace Marshal
namespace TypeExpr

variable {names : List Text} {s : Scope}

/-- No name in scope is empty, a word of the language or the underscore. -/
structure Declarable (names : List Text) : Prop where
  nonempty : [] ∉ names
  unreserved : ∀ n ∈ names, isReserved n = false
  notHole : hole ∉ names

theorem declarable_point : Declarable ["Point"] := by
  constructor
  · decide
  · intro n hn
    rw [List.mem_singleton.mp hn]
    rfl
  · decide

/-! ## Names and words -/

variable {ts : List Text} {t rest : Text} {w : Text} {b : UInt8} {d : Decl}

theorem isEmpty_of_isName (h : isName w = true) : w.isEmpty = false := by
  cases w with
  | nil => cases h
  | cons b w => rfl

theorem isName_keyword (former : Former) : isName former.keyword = true := by
  cases former <;> decide

theorem ofName?_keyword (former : Former) : Former.ofName? former.keyword = some former := by
  cases former <;> decide

theorem ofWord?_eq_some {t : Decl} (h : Decl.ofWord? w = some t) :
    isName w = true ∧ Former.ofName? w = none ∧ t.isPresent = true := by
  have hAll : Decl.words.all (fun x => isName x.1 && (Former.ofName? x.1).isNone && x.2.isPresent) = true := by decide
  obtain ⟨before, after, hWords, -⟩ := List.lookup_eq_some_iff.mp h
  have hWord := List.all_eq_true.mp hAll (w, t) (hWords ▸ List.mem_append_right _ List.mem_cons_self)
  simpa [and_assoc] using hWord

theorem Written.isPresent {t : Decl} (h : Written names t ts) : t.isPresent = true := by
  cases h with
  | word hWord => exact (ofWord?_eq_some hWord).2.2
  | _ => rfl

theorem WrittenFields.all_isPresent {fields : List Decl} (h : WrittenFields names fields ts) :
    fields.all Decl.isPresent = true := by
  induction fields generalizing ts with
  | nil => rfl
  | cons t fields ih =>
    cases h with
    | one hType => simp [hType.isPresent]
    | more hType hFields => simp [hType.isPresent, ih hFields]

theorem Spelled.skip_eq (h : Spelled ((b :: w) :: ts) t rest)
    (hb : isSpace b = false) : ∃ u, skip t = b :: w ++ u ∧ Spelled ts u rest := by
  obtain ⟨blanks, u, hBlanks, rfl, h⟩ := h
  refine ⟨u, ?_, h⟩
  rw [List.append_assoc, skip_append hBlanks, List.cons_append, skip_cons hb]

theorem isSpace_of_isLetter (h : isLetter b = true) : isSpace b = false := by
  cases hSpace : isSpace b with
  | false => rfl
  | true =>
    have hCode : b = 32 ∨ b = 9 := by simpa [isSpace] using hSpace
    rcases hCode with rfl | rfl <;> exact absurd h (by decide)

theorem isNameByte_of_isSpace (h : isSpace b = true) : isNameByte b = false := by
  have hCode : b = 32 ∨ b = 9 := by simpa [isSpace] using h
  rcases hCode with rfl | rfl <;> decide

theorem Spelled.splitName_eq (h : Spelled [w] t rest) (hName : isName w = true) (hRest : Stops rest) :
    splitName (skip t) = (w, rest) := by
  cases w with
  | nil => cases hName
  | cons b w =>
    have hb : isSpace b = false := isSpace_of_isLetter (Bool.and_eq_true_iff.mp hName).1
    obtain ⟨u, hSkip, rfl⟩ := h.skip_eq hb
    rw [hSkip, splitName_append hName hRest]

theorem Spelled.stops (h : Spelled ((b :: w) :: ts) t rest) (hb : isNameByte b = false) : Stops t := by
  obtain ⟨blanks, u, hBlanks, rfl, -⟩ := h
  intro c hc
  cases blanks with
  | nil =>
    obtain rfl : b = c := by simpa using hc
    exact hb
  | cons blank blanks =>
    obtain rfl : blank = c := by simpa using hc
    exact isNameByte_of_isSpace (List.all_eq_true.mp hBlanks _ List.mem_cons_self)

theorem Spelled.length_token (h : Spelled (w :: ts) t rest) : w.length + rest.length ≤ t.length := by
  obtain ⟨blanks, u, -, rfl, h⟩ := h
  have := h.length_le
  simp only [List.length_append]
  omega

/-! ## What may stand behind a type -/

def Follows (t : Text) : Prop := ∀ b ∈ (skip t).head?, b = 44 ∨ b = 62

theorem Follows.stops (h : Follows t) : Stops t := by
  intro b hb
  cases t with
  | nil => cases hb
  | cons c t =>
    obtain rfl : c = b := by simpa using hb
    cases hSpace : isSpace c with
    | true => exact isNameByte_of_isSpace hSpace
    | false =>
      rcases h c (by simp [skip_cons hSpace]) with rfl | rfl <;> decide

theorem Follows.head?_ne (h : Follows t) : (skip t).head? ≠ some 60 := by
  intro hOpen
  rcases h 60 hOpen with hCode | hCode <;> exact absurd hCode (by decide)

theorem follows_of_blanks {blanks : Text} (h : blanks.all isSpace = true) : Follows blanks := by
  intro b hb
  have hSkip := skip_append (t := []) h
  rw [List.append_nil] at hSkip
  rw [hSkip] at hb
  cases hb

theorem Spelled.follows (h : Spelled ([b] :: ts) t rest) (hb : b = 44 ∨ b = 62) : Follows t := by
  have hSpace : isSpace b = false := by rcases hb with rfl | rfl <;> decide
  obtain ⟨u, hSkip, -⟩ := h.skip_eq hSpace
  intro c hc
  obtain rfl : b = c := by simpa [hSkip] using hc
  exact hb

/-! ## Spellings are read -/

def sideAt (s : Scope) (fuel : Nat) (t : Text) : Except Report (Decl × Text) :=
  if startsHole (skip t) then .ok (.absent, (skip t).drop 1) else typeAt s fuel t

theorem argsAt_succ (fuel : Nat) (t : Text) :
    argsAt s (fuel + 1) t = sideAt s fuel t >>= fun x =>
      match accept 62 x.2 with
      | some rest => .ok ([x.1], rest)
      | none => do
        let (args, rest) ← argsAt s fuel (← expect s 44 x.2)
        return (x.1 :: args, rest) := by
  rw [argsAt, ← apply_ite (· >>= _)]
  rfl

def Reads (s : Scope) (d : Decl) (ts : List Text) : Prop :=
  ∀ fuel t rest, 2 * t.length + 1 ≤ fuel → Spelled ts t rest → Follows rest → typeAt s fuel t = .ok (d, rest)

def ReadsSide (s : Scope) (d : Decl) (ts : List Text) : Prop :=
  ∀ fuel t rest, 2 * t.length + 1 ≤ fuel → Spelled ts t rest → Follows rest → sideAt s fuel t = .ok (d, rest)

def ReadsArgs (s : Scope) (ds : List Decl) (ts : List Text) : Prop :=
  ∀ fuel t rest, 2 * t.length + 2 ≤ fuel → Spelled (ts ++ [closing]) t rest → argsAt s fuel t = .ok (ds, rest)

theorem readsSide_absent : ReadsSide s .absent [hole] := by
  intro fuel t rest _ hSpelled hFollows
  obtain ⟨u, hSkip, rfl⟩ := hSpelled.skip_eq (by decide)
  have hHole : startsHole (skip t) = true := by
    rw [hSkip]
    cases u with
    | nil => rfl
    | cons b u =>
      change endsHole b = true
      cases hSpace : isSpace b with
      | true => simp [endsHole, hSpace]
      | false =>
        rcases hFollows b (by simp [skip_cons hSpace]) with rfl | rfl <;> decide
  rw [sideAt, if_pos hHole, hSkip]
  rfl

theorem splitName_hole (h : startsHole t = true) : (splitName t).1 = hole := by
  unfold startsHole at h
  split at h
  · rfl
  · rename_i b rest
    have hb : isNameByte b = false := by
      have hCode : (b = 44 ∨ b = 62) ∨ isSpace b = true := by simpa [endsHole] using h
      rcases hCode with (rfl | rfl) | hSpace
      · decide
      · decide
      · exact isNameByte_of_isSpace hSpace
    have hStops : Stops (b :: rest) := by
      intro c hc
      obtain rfl : b = c := by simpa using hc
      exact hb
    have hSplit : splitName (hole ++ b :: rest) = (hole, b :: rest) := splitName_append (by decide) hStops
    exact congrArg Prod.fst hSplit
  · cases h

theorem startsHole_of_typeAt (hHole : hole ∉ s.names) {fuel : Nat} {x : Decl × Text}
    (h : typeAt s fuel t = .ok x) : startsHole (skip t) = false := by
  cases fuel with
  | zero => cases h
  | succ fuel =>
    cases hStart : startsHole (skip t) with
    | false => rfl
    | true =>
      have hFormer : Former.ofName? hole = none := by decide
      have hWord : Decl.ofWord? hole = none := by rfl
      have hLookup : ∀ d, lookup s hole ≠ .ok d := fun d hd => hHole (lookup_eq_ok hd).1
      rw [typeAt] at h
      simp only [splitName_hole hStart, hFormer, hWord] at h
      obtain ⟨d, hd, -⟩ := bind_eq_ok.mp h
      exact absurd hd (hLookup d)

theorem Reads.side (hHole : hole ∉ s.names) (h : Reads s d ts) : ReadsSide s d ts := by
  intro fuel t rest hFuel hSpelled hFollows
  have hType := h fuel t rest hFuel hSpelled hFollows
  rw [sideAt, startsHole_of_typeAt hHole hType]
  exact hType

theorem ReadsSide.one (h : ReadsSide s d ts) : ReadsArgs s [d] ts := by
  intro fuel t rest hFuel hSpelled
  obtain ⟨u, hSide, hClose⟩ := spelled_append.mp hSpelled
  obtain ⟨fuel, rfl⟩ : ∃ n, fuel = n + 1 := Nat.exists_eq_succ_of_ne_zero (by omega)
  rw [argsAt_succ, h fuel t u (by omega) hSide (hClose.follows (.inr rfl))]
  have hAccept : accept 62 u = some rest := (accept_eq_some (by decide)).mpr hClose
  simp only [bind, Except.bind, hAccept]

theorem ReadsSide.more {ds : List Decl} {ts us : List Text} (h : ReadsSide s d ts)
    (hArgs : ReadsArgs s ds us) : ReadsArgs s (d :: ds) (ts ++ comma :: us) := by
  intro fuel t rest hFuel hSpelled
  rw [List.append_assoc] at hSpelled
  obtain ⟨u, hSide, hSpelled⟩ := spelled_append.mp hSpelled
  obtain ⟨v, hComma, hRest⟩ := spelled_cons.mp hSpelled
  have hLength := hSide.length_le
  have hShorter := hComma.length_token
  obtain ⟨fuel, rfl⟩ : ∃ n, fuel = n + 1 := Nat.exists_eq_succ_of_ne_zero (by omega)
  have hOpen : accept 62 u = none := by
    obtain ⟨w, hSkip, -⟩ := hComma.skip_eq (by decide)
    rw [accept, hSkip]
    rfl
  have hExpect : expect s 44 u = .ok v := (expect_eq_ok (by decide)).mpr hComma
  have hInner := hArgs fuel v rest (by simp only [comma, List.length_singleton] at hShorter; omega) hRest
  rw [argsAt_succ, h fuel t u (by omega) hSide (hComma.follows (.inl rfl))]
  simp only [bind, Except.bind, hOpen, hExpect, hInner]
  rfl

theorem spelled_bracketed (h : Spelled (bracketed w ts) t rest) :
    ∃ u v, Spelled [w] t u ∧ Stops u ∧ Spelled [opening] u v ∧ Spelled (ts ++ [closing]) v rest := by
  obtain ⟨u, hWord, h⟩ := spelled_cons.mp h
  obtain ⟨v, hOpen, hRest⟩ := spelled_cons.mp h
  exact ⟨u, v, hWord, hOpen.stops (by decide), hOpen, hRest⟩

theorem ReadsArgs.applied {args : List Decl} {d : Decl} {ts : List Text} (h : ReadsArgs s args ts) (former : Former)
    (hApplied : applied former args = .ok d) : Reads s d (bracketed former.keyword ts) := by
  intro fuel t rest hFuel hSpelled _
  obtain ⟨u, v, hWord, hStops, hOpen, hInner⟩ := spelled_bracketed hSpelled
  have hLength := hWord.length_token
  have hShorter := hOpen.length_token
  have hSplit := hWord.splitName_eq (isName_keyword former) hStops
  obtain ⟨fuel, rfl⟩ : ∃ n, fuel = n + 1 := Nat.exists_eq_succ_of_ne_zero (by omega)
  have hHead : (skip u).head? = some 60 := by
    obtain ⟨w, hSkip, -⟩ := hOpen.skip_eq (by decide)
    rw [hSkip]
    rfl
  have hExpect : expect s 60 u = .ok v := (expect_eq_ok (by decide)).mpr hOpen
  have hArgs := h fuel v rest (by simp only [opening, List.length_singleton] at hShorter; omega) hInner
  rw [typeAt]
  cases former with
  | own => cases hApplied
  | borrow => cases hApplied
  | _ =>
    simp only [hSplit, ofName?_keyword, hHead, hExpect, hArgs, hApplied, bind, Except.bind]
    rfl

theorem referenceAt_eq_ok {former : Former} {n t rest : Text} (hName : n ∈ s.names) (hIdent : isName n = true)
    (h : Spelled (opening :: [n] ++ [closing]) t rest) :
    referenceAt s former t = .ok (reference former (.resourceNamed n), rest) := by
  obtain ⟨u, hOpen, h⟩ := spelled_cons.mp h
  obtain ⟨v, hWord, hClose⟩ := spelled_cons.mp h
  have hSplit := hWord.splitName_eq hIdent (hClose.stops (by decide))
  have hExpectOpen : expect s 60 t = .ok u := (expect_eq_ok (by decide)).mpr hOpen
  have hExpectClose : expect s 62 v = .ok rest := (expect_eq_ok (by decide)).mpr hClose
  have hLookup : lookup s n = .ok (.resourceNamed n) := if_pos (List.contains_iff_mem.mpr hName)
  simp only [referenceAt, hExpectOpen, hSplit, hLookup, hExpectClose, bind, Except.bind]
  rfl

theorem reads_reference {former : Former} (hFormer : former = .own ∨ former = .borrow) {n : Text} (hName : n ∈ s.names)
    (hIdent : isName n = true) : Reads s (reference former (.resourceNamed n)) (bracketed former.keyword [n]) := by
  intro fuel t rest hFuel hSpelled _
  obtain ⟨u, hWord, hRest⟩ := spelled_cons.mp hSpelled
  have hSplit := hWord.splitName_eq (isName_keyword former) (hRest.stops (by decide))
  have hReference : referenceAt s former u = _ := referenceAt_eq_ok hName hIdent hRest
  obtain ⟨fuel, rfl⟩ : ∃ n, fuel = n + 1 := Nat.exists_eq_succ_of_ne_zero (by omega)
  rw [typeAt]
  rcases hFormer with rfl | rfl <;> simp only [hSplit, ofName?_keyword, hReference] <;> rfl

theorem reads_word (hWord : Decl.ofWord? w = some d) : Reads s d [w] := by
  intro fuel t rest hFuel hSpelled hFollows
  obtain ⟨hIdent, hFormer, -⟩ := ofWord?_eq_some hWord
  have hSplit := hSpelled.splitName_eq hIdent hFollows.stops
  obtain ⟨fuel, rfl⟩ : ∃ n, fuel = n + 1 := Nat.exists_eq_succ_of_ne_zero (by omega)
  rw [typeAt]
  simp only [hSplit, hFormer, hWord, isEmpty_of_isName hIdent]
  rfl

theorem reads_bare (hNames : Declarable s.names) {n : Text} (hName : n ∈ s.names) (hIdent : isName n = true) :
    Reads s (.defn none (.own (.resourceNamed n))) [n] := by
  intro fuel t rest hFuel hSpelled hFollows
  have hSplit := hSpelled.splitName_eq hIdent hFollows.stops
  have hReserved := hNames.unreserved n hName
  simp only [isReserved, Bool.or_eq_false_iff, Option.isSome_eq_false_iff, Option.isNone_iff_eq_none] at hReserved
  have hLookup : lookup s n = .ok (.resourceNamed n) := if_pos (List.contains_iff_mem.mpr hName)
  obtain ⟨fuel, rfl⟩ : ∃ n, fuel = n + 1 := Nat.exists_eq_succ_of_ne_zero (by omega)
  rw [typeAt]
  simp only [hSplit, hReserved.1, hReserved.2, isEmpty_of_isName hIdent, hLookup, bind, Except.bind]
  rfl

theorem reads_result : Reads s (.defn none (.result .absent .absent)) [Former.result.keyword] := by
  intro fuel t rest hFuel hSpelled hFollows
  have hSplit := hSpelled.splitName_eq (isName_keyword .result) hFollows.stops
  obtain ⟨fuel, rfl⟩ : ∃ n, fuel = n + 1 := Nat.exists_eq_succ_of_ne_zero (by omega)
  rw [typeAt]
  simp only [hSplit, ofName?_keyword, ne_eq, hFollows.head?_ne, not_false_eq_true, decide_true]
  rfl

mutual
theorem Written.reads (hNames : Declarable s.names) : ∀ {d : Decl} {ts : List Text}, Written s.names d ts → Reads s d ts
  | _, _, .word hWord => reads_word hWord
  | _, _, .bare hName hIdent => reads_bare hNames hName hIdent
  | _, _, .own hName hIdent => reads_reference (.inl rfl) hName hIdent
  | _, _, .borrow hName hIdent => reads_reference (.inr rfl) hName hIdent
  | _, _, .list hElem =>
    ((hElem.reads hNames).side hNames.notHole).one.applied .list (by simp [applied, hElem.isPresent])
  | _, _, .option hElem =>
    ((hElem.reads hNames).side hNames.notHole).one.applied .option (by simp [applied, hElem.isPresent])
  | _, _, .tuple hFields =>
    (hFields.reads hNames).applied .tuple (by simp [applied, hFields.all_isPresent])
  | _, _, .result => reads_result
  | _, _, .resultOk hOk => (hOk.reads hNames).one.applied .result rfl
  | _, _, .resultBoth hOk hErr => ((hOk.reads hNames).more (hErr.reads hNames).one).applied .result rfl

theorem WrittenSide.reads (hNames : Declarable s.names) :
    ∀ {d : Decl} {ts : List Text}, WrittenSide s.names d ts → ReadsSide s d ts
  | _, _, .absent => readsSide_absent
  | _, _, .type hType => (hType.reads hNames).side hNames.notHole

theorem WrittenFields.reads (hNames : Declarable s.names) :
    ∀ {ds : List Decl} {ts : List Text}, WrittenFields s.names ds ts → ReadsArgs s ds ts
  | _, _, .one hType => ((hType.reads hNames).side hNames.notHole).one
  | _, _, .more hType hFields => ((hType.reads hNames).side hNames.notHole).more (hFields.reads hNames)
end

/-! ## The bound on nesting -/

theorem sideAt_spelled (hEmpty : [] ∉ s.names) {fuel : Nat}
    (h : sideAt s fuel t = .ok (d, rest)) : ∃ ts, Spelled ts t rest := by
  unfold sideAt at h
  split at h
  · rename_i hHole
    cases h
    exact ⟨_, spelled_hole hHole⟩
  · obtain ⟨ts, -, hSpelled⟩ := (written_typeAt s hEmpty fuel).1 _ _ _ h
    exact ⟨ts, hSpelled⟩

/-- Enough fuel is as good as more, for a type and for arguments at once, by induction on the text that is left. -/
theorem typeAt_fuel (hEmpty : [] ∉ s.names) (t : Text) :
    (∀ f g, 2 * t.length + 1 ≤ f → 2 * t.length + 1 ≤ g → typeAt s f t = typeAt s g t) ∧
      ∀ f g, 2 * t.length + 2 ≤ f → 2 * t.length + 2 ≤ g → argsAt s f t = argsAt s g t := by
  induction t using (measure List.length).wf.induction with
  | h t ih =>
    have hType : ∀ f g, 2 * t.length + 1 ≤ f → 2 * t.length + 1 ≤ g → typeAt s f t = typeAt s g t := by
      intro f g hf hg
      obtain ⟨f, rfl⟩ : ∃ n, f = n + 1 := Nat.exists_eq_succ_of_ne_zero (by omega)
      obtain ⟨g, rfl⟩ : ∃ n, g = n + 1 := Nat.exists_eq_succ_of_ne_zero (by omega)
      rw [typeAt, typeAt]
      cases hExpect : expect s 60 (splitName (skip t)).2 with
      | error e => simp only [hExpect, bind, Except.bind]
      | ok u =>
        have hOpen : Spelled [opening] (splitName (skip t)).2 u := (expect_eq_ok (by decide)).mp hExpect
        have hShorter : 1 + u.length ≤ t.length := Nat.le_trans hOpen.length_token (spelled_name t).length_le
        have hArgs : argsAt s f u = argsAt s g u :=
          (ih u (by change u.length < t.length; omega)).2 f g (by omega) (by omega)
        simp only [hExpect, hArgs, bind, Except.bind]
    refine ⟨hType, ?_⟩
    intro f g hf hg
    obtain ⟨f, rfl⟩ : ∃ n, f = n + 1 := Nat.exists_eq_succ_of_ne_zero (by omega)
    obtain ⟨g, rfl⟩ : ∃ n, g = n + 1 := Nat.exists_eq_succ_of_ne_zero (by omega)
    have hSide : sideAt s f t = sideAt s g t := by
      rw [sideAt, sideAt, hType f g (by omega) (by omega)]
    rw [argsAt_succ, argsAt_succ, hSide]
    cases hArg : sideAt s g t with
    | error e => rfl
    | ok x =>
      obtain ⟨ts, hSpelled⟩ := sideAt_spelled hEmpty hArg
      cases hExpect : expect s 44 x.2 with
      | error e => simp only [hExpect, bind, Except.bind]
      | ok u =>
        have hComma : Spelled [comma] x.2 u := (expect_eq_ok (by decide)).mp hExpect
        have hShorter : 1 + u.length ≤ t.length := Nat.le_trans hComma.length_token hSpelled.length_le
        have hArgs : argsAt s f u = argsAt s g u :=
          (ih u (by change u.length < t.length; omega)).2 f g (by omega) (by omega)
        simp only [hExpect, hArgs, bind, Except.bind]

/-! ## Expressions -/

theorem rendering_of_parse (hEmpty : [] ∉ names) {source : Text} {t : Decl} (h : parse names source = .ok t) :
    Rendering names t source := by
  obtain ⟨⟨d, rest⟩, hType, h⟩ := bind_eq_ok.mp h
  obtain ⟨ts, hWritten, hSpelled⟩ := (written_typeAt ⟨names, source⟩ hEmpty _).1 _ _ _ hType
  obtain ⟨blanks, hBlanks, hRest⟩ := exists_skip rest
  simp only at h
  split at h
  · rename_i hSkip
    cases h
    rw [hSkip, List.append_nil] at hRest
    exact ⟨ts, rest, hWritten, hSpelled, hRest ▸ hBlanks⟩
  · cases h

theorem parse_of_rendering (hNames : Declarable names) {source : Text} {t : Decl} (h : Rendering names t source) :
    parse names source = .ok t := by
  obtain ⟨ts, blanks, hWritten, hSpelled, hBlanks⟩ := h
  have hType := hWritten.reads (s := ⟨names, source⟩) hNames _ source blanks (Nat.le_refl _) hSpelled
    (follows_of_blanks hBlanks)
  have hSkip : skip blanks = [] := by simpa [skip] using hBlanks
  simp only [parse, hType, hSkip, bind, Except.bind]
  rfl

/-- Exactly the renderings of a type over the opaque types in scope are read as it. Reading stops on every text before
the bound on its nesting is reached. -/
theorem parse_iff_rendering (hNames : Declarable names) (source : Text) :
    (∀ t, parse names source = .ok t ↔ Rendering names t source) ∧
      ∀ fuel ≥ 2 * source.length + 1,
        typeAt ⟨names, source⟩ fuel source = typeAt ⟨names, source⟩ (2 * source.length + 1) source := by
  constructor
  · exact fun t => ⟨rendering_of_parse hNames.nonempty, parse_of_rendering hNames⟩
  · exact fun fuel hFuel => (typeAt_fuel hNames.nonempty source).1 _ _ hFuel (Nat.le_refl _)

/-- With blanks, a nested constructor and a side that is left out; and constructors that are given too little. -/
theorem parse_iff_rendering_blanks : Declarable ["Point"] ∧
    Rendering ["Point"] (.defn none (.result .absent (.defn none (.list (.defn none (.own (.resourceNamed "Point")))))))
      " result < _ ,\tlist<Point> > " ∧
    (∀ t, ¬ Rendering ["Point"] t "tuple<>") ∧ ∀ t, ¬ Rendering ["Point"] t "option<_>" := by
  have hNames := declarable_point
  refine ⟨hNames, ((parse_iff_rendering hNames _).1 _).mp rfl, fun t h => ?_, fun t h => ?_⟩
  · cases ((parse_iff_rendering hNames _).1 t).mpr h
  · cases ((parse_iff_rendering hNames _).1 t).mpr h

end TypeExpr

end Marshal
