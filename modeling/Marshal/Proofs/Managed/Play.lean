import Marshal.Proofs.Managed.Operations

/-! # Runs of the managed side

A caller makes objects, keeps what it is given in a list, and names what it uses by its place in that list.
Nothing keeps it from using what it has freed or moved, and it goes on after an operation that stopped. What one
operation does to the tokens and titles is put together here from the operations' own lemmas, and a run keeps
what every step keeps.
-/
set_option autoImplicit false
namespace Marshal

open Step

inductive VecKind where
  | scalars (elem : Scalar)
  | strings
  | handles (name : Text)

def VecKind.resolve {V : Type} : VecKind → Step (Session V) (Witness V)
  | scalars elem => Witness.ofScalar elem
  | strings => return (← StringBridge.resolve true).witness
  | handles name => do Witness.ofHandles (← HandleType.resolve name)

/-- What is put into a vector: a value, or what is held at a place. -/
inductive Arg where
  | datum (d : Datum)
  | held (place : Nat)

def Arg.element? {V : Type} (held : List (Item V)) : ElementForm V → Arg → Option (Element V)
  | .scalar _, .datum d => some (.datum d)
  | .string _, .held place =>
    match held[place]? with
    | some (.string s) => some (.string s)
    | _ => none
  | .handle _, .held place => held[place]?.map fun item => .handle item.handleOf
  | _, _ => none

inductive Op (V : Type) where
  | newString
  | fromText (t : Text)
  | own (name : Text) (value : V)
  | newVec (kind : VecKind)
  | fromList (kind : VecKind) (args : List Arg)
  | push (vec : Nat) (arg : Arg)
  | pop (vec : Nat)
  | collect (vec : Nat)
  | get (vec : Nat) (i : UInt64)
  | getMut (vec : Nat) (i : UInt64)
  | asRef (place : Nat)
  | asMut (place : Nat)
  | free (place : Nat)

namespace Item

variable {V : Type}

def asRef : Item V → Item V
  | string s => .string s.asRef
  | handle h => .handle h.asRef
  | vec v => .vec v.asRef

def asMut : Item V → Step (Session V) (Item V)
  | string s => return .handle (← Session.asMut s.handle)
  | handle h => return .handle (← Session.asMut h)
  | vec v => return .vec (← v.asMut)

end Item

namespace Op

variable {V : Type}

def onVec (held : List (Item V)) (place : Nat) (f : OwnedVec V → Step (Session V) (List (Item V))) :
    Step (Session V) (List (Item V)) :=
  match held[place]? with
  | some (.vec v) => f v
  | _ => pure []

def perform (held : List (Item V)) : Op V → Step (Session V) (List (Item V))
  | newString => do
    let bridge ← StringBridge.resolve true
    return [.string (← bridge.ops.create)]
  | fromText t => do
    let bridge ← StringBridge.resolve true
    return [.string (← bridge.ops.ofText t)]
  | own name value => return [.handle (← Session.boxOwned name value)]
  | newVec kind => do
    let w ← kind.resolve
    return [.vec (← OwnedVec.create w)]
  | fromList kind args => do
    let w ← kind.resolve
    match args.mapM (Arg.element? held w.form) with
    | some values => return [.vec (← OwnedVec.ofList w values)]
    | none => return []
  | push place arg => onVec held place fun v =>
    match arg.element? held v.witness.form with
    | some x => do v.push x; return []
    | none => return []
  | pop place => onVec held place fun v => return Session.found (← v.pop)
  | collect place => onVec held place fun v => return (← v.collect).flatMap Element.items
  | get place i => onVec held place fun v => return Session.found (← v.get i)
  | getMut place i => onVec held place fun v => return Session.found (← v.getMut i)
  | asRef place => return (held[place]?.map Item.asRef).toList
  | asMut place =>
    match held[place]? with
    | some item => return [← item.asMut]
    | none => return []
  | free place =>
    match held[place]? with
    | some item => do Session.free item.handleOf; return []
    | none => return []

/-- How an operation may stop: freeing never does, and taking elements out frees nothing twice. -/
def Stops : Op V → Stop → Prop
  | free _, _ => False
  | pop _, stop => stop.IsTame
  | collect _, stop => stop.IsTame
  | _, _ => True

end Op

structure Play (V : Type) where
  session : Session V
  held : List (Item V) := []
  trapped : Bool := false

namespace Play

variable {V : Type}

/-- One operation. A refusal is an answer like any other; any other stop is a trap. -/
def step (p : Play V) (op : Op V) : Play V :=
  match exec (op.perform p.held) p.session with
  | (.ok items, s) => { p with session := s, held := p.held ++ items }
  | (.error (.refused _), s) => { p with session := s }
  | (.error _, s) => { p with session := s, trapped := true }

def run (p : Play V) (ops : List (Op V)) : Play V := ops.foldl step p

end Play

namespace Session

variable {V α β : Type} {types : List Text} {exports : List (Text × Export V)} {leaks spare : List UInt32}
  {s : Session V} {P : Stop → Prop} {mine : α → List (Item V)} {held : List (Item V)}

theorem exec_bridge_cases (hd : Declared types exports) (hs : s.Sound types exports [] leaks spare) :
    (∃ why, exec (StringBridge.resolve true) s = (.error (.refused why), s)) ∨
      ∃ b : StringBridge V, exec (StringBridge.resolve true) s = (.ok b, s) ∧ b.ops.Bound types ∧
        b.witness.Bound types := by
  rcases exec_stringOps_cases hd hs with ⟨why, hOps⟩ | ⟨ops, hOps, hServes⟩
  · exact .inl ⟨why, exec_bind_error hOps⟩
  have hForm : (ElementForm.string ops).Lifts types Owner.stringType := ⟨rfl, hServes.toBound⟩
  rcases exec_ofObjects_cases hd hs hForm with ⟨why, hWitness⟩ | ⟨w, hWitness, hw⟩
  · exact .inl ⟨why, (exec_bind_ok hOps).trans (exec_bind_error hWitness)⟩
  · exact .inr ⟨⟨ops, w⟩, (exec_bind_ok hOps).trans (exec_bind_ok hWitness), hServes.toBound, hw⟩

theorem exec_kind_cases (hd : Declared types exports) (hs : s.Sound types exports [] leaks spare)
    (kind : VecKind) :
    (∃ why, exec kind.resolve s = (.error (.refused why), s)) ∨
      ∃ w : Witness V, exec kind.resolve s = (.ok w, s) ∧ w.Bound types := by
  cases kind with
  | scalars elem => exact exec_ofScalar_cases hd hs elem
  | strings =>
    rcases exec_bridge_cases hd hs with ⟨why, hExec⟩ | ⟨b, hExec, -, hw⟩
    · exact .inl ⟨why, exec_bind_error hExec⟩
    · exact .inr ⟨b.witness, exec_bind_ok hExec, hw⟩
  | handles name =>
    rcases exec_handleType_cases hd hs name with ⟨why, hExec⟩ | ⟨type, hExec, -, hBound⟩
    · exact .inl ⟨why, exec_bind_error hExec⟩
    have hForm : (ElementForm.handle type).Lifts types type.name := ⟨rfl, hBound⟩
    rcases exec_ofObjects_cases hd hs hForm with ⟨why, hWitness⟩ | ⟨w, hWitness, hw⟩
    · exact .inl ⟨why, (exec_bind_ok hExec).trans hWitness⟩
    · exact .inr ⟨w, (exec_bind_ok hExec).trans hWitness, hw⟩

theorem element?_valid {t : Tokens} (hHeld : ∀ i ∈ held, i.Valid types t) {form : ElementForm V} {arg : Arg}
    {x : Element V} (hx : arg.element? held form = some x) : x.Suits form ∧ ∀ i ∈ x.items, i.Valid types t := by
  unfold Arg.element? at hx
  split at hx
  · obtain rfl := Option.some.inj hx
    exact ⟨trivial, List.forall_mem_nil _⟩
  · rename_i place
    split at hx
    · rename_i str hFound
      obtain rfl := Option.some.inj hx
      exact ⟨trivial, List.forall_mem_singleton.mpr (hHeld _ (List.mem_of_getElem? hFound))⟩
    · cases hx
  · rename_i place
    obtain ⟨item, hFound, rfl⟩ := Option.map_eq_some_iff.mp hx
    exact ⟨trivial, List.forall_mem_singleton.mpr (hHeld _ (List.mem_of_getElem? hFound)).backed⟩
  · cases hx

theorem elements?_valid {t : Tokens} (hHeld : ∀ i ∈ held, i.Valid types t) {form : ElementForm V} {args : List Arg}
    {values : List (Element V)} (h : args.mapM (Arg.element? held form) = some values) :
    ∀ x ∈ values, x.Suits form ∧ ∀ i ∈ x.items, i.Valid types t := by
  induction args generalizing values with
  | nil =>
    obtain rfl := Option.some.inj h
    exact List.forall_mem_nil _
  | cons arg rest ih =>
    simp only [List.mapM_cons, Option.bind_eq_bind, Option.bind_eq_some_iff] at h
    obtain ⟨x, hx, xs, hxs, hPure⟩ := h
    obtain rfl := Option.some.inj hPure
    exact List.forall_mem_cons.mpr ⟨element?_valid hHeld hx, ih hxs⟩

theorem onVec_ends {f : OwnedVec V → Step (Session V) (List (Item V))} (place : Nat)
    (hs : s.Sound types exports [] leaks spare) (hHeld : ∀ i ∈ held, i.Valid types s.tokens)
    (hf : ∀ v : OwnedVec V, v.witness.Bound types → Ends types exports s leaks spare P id (exec (f v) s)) :
    Ends types exports s leaks spare P id (exec (Op.onVec held place f) s) := by
  unfold Op.onVec
  split
  · rename_i v hFound
    exact hf v (hHeld _ (List.mem_of_getElem? hFound)).2
  · exact .returned hs (.none _)

theorem itemAsMut_ends {item : Item V} (hs : s.Sound types exports [] leaks spare)
    (hi : item.Valid types s.tokens) :
    Ends types exports s leaks spare Stop.IsHard (fun i => [i]) (exec item.asMut s) := by
  cases item with
  | string str => exact asMut_ends hs Item.handle (fun _ => rfl) (fun _ => rfl) (fun _ _ hb => hb)
  | handle h => exact asMut_ends hs Item.handle (fun _ => rfl) (fun _ => rfl) (fun _ _ hb => hb)
  | vec v =>
    have hMut : Ends types exports s leaks spare Stop.IsHard (fun v => [.vec v]) (exec v.asMut s) :=
      asMut_ends hs (fun h => .vec { v with handle := h }) (fun _ => rfl) (fun _ => rfl) (fun _ _ hb => ⟨hb, hi.2⟩)
    exact hMut.map fun _ => rfl

theorem asRef_gives {item : Item V} {t : Tokens} (hi : item.Valid types t) :
    Tokens.Gives types t t [item.asRef] := by
  have hMode : item.asRef.handleOf.mode ≠ .owned := by
    cases item <;> exact nofun
  refine .borrowed ?_ hMode
  cases item with
  | string _ => exact Handle.backed_of_mode hMode _
  | handle _ => exact Handle.backed_of_mode hMode _
  | vec _ => exact ⟨Handle.backed_of_mode hMode _, hi.2⟩

theorem perform_ends (hd : Declared types exports) (hs : s.Sound types exports [] leaks spare)
    (hHeld : ∀ i ∈ held, i.Valid types s.tokens) (op : Op V) :
    Ends types exports s leaks spare op.Stops id (exec (op.perform held) s) := by
  have hAny : ∀ stop, Stop.IsHard stop → True := fun _ _ => trivial
  cases op with
  | newString =>
    refine .resolved (exec_bridge_cases hd hs) (fun _ => trivial) hs fun b hb => ?_
    exact ((createString_ends hb.1 hs).weaken hAny).map fun _ => rfl
  | fromText t =>
    refine .resolved (exec_bridge_cases hd hs) (fun _ => trivial) hs fun b hb => ?_
    exact ((ofText_ends hb.1 t hs).weaken hAny).map fun _ => rfl
  | own name value => exact (boxOwned_ends hd name value hs).map fun _ => rfl
  | newVec kind =>
    refine .resolved (exec_kind_cases hd hs kind) (fun _ => trivial) hs fun w hw => ?_
    exact ((createVec_ends hw hs).weaken hAny).map fun _ => rfl
  | fromList kind args =>
    refine .resolved (exec_kind_cases hd hs kind) (fun _ => trivial) hs fun w hw => ?_
    cases hValues : args.mapM (Arg.element? held w.form) with
    | none => exact .returned hs (.none _)
    | some values =>
      have hAll := elements?_valid hHeld hValues
      have hList := ofList_ends hw values (fun x hx => (hAll x hx).1) hs fun x hx => (hAll x hx).2
      exact (hList.weaken hAny).map fun _ => rfl
  | push place arg =>
    refine onVec_ends place hs hHeld fun v hw => ?_
    cases hArg : arg.element? held v.witness.form with
    | none => exact .returned hs (.none _)
    | some x =>
      obtain ⟨hx, hb⟩ := element?_valid hHeld hArg
      exact ((push_ends hw hx hs hb).weaken hAny).map fun _ => rfl
  | pop place =>
    refine onVec_ends place hs hHeld fun v hw => ?_
    exact ((pop_ends hw hs).weaken fun _ hStop => hStop.2).map fun _ => rfl
  | collect place =>
    refine onVec_ends place hs hHeld fun v hw => ?_
    exact ((collect_ends hw hs).weaken fun _ hStop => hStop.2).map fun _ => rfl
  | get place i =>
    refine onVec_ends place hs hHeld fun v hw => ?_
    exact ((get_ends i hw hs).weaken hAny).map fun _ => rfl
  | getMut place i =>
    refine onVec_ends place hs hHeld fun v hw => ?_
    exact ((getMut_ends i hw hs).weaken hAny).map fun _ => rfl
  | asRef place =>
    rw [Op.perform]
    cases hFound : held[place]? with
    | none => exact .returned hs (.none _)
    | some item => exact .returned hs (asRef_gives (hHeld item (List.mem_of_getElem? hFound)))
  | asMut place =>
    rw [Op.perform]
    cases hFound : held[place]? with
    | none => exact .returned hs (.none _)
    | some item =>
      exact ((itemAsMut_ends hs (hHeld item (List.mem_of_getElem? hFound))).weaken hAny).map fun _ => rfl
  | free place =>
    rw [Op.perform]
    cases hFound : held[place]? with
    | none => exact .returned hs (.none _)
    | some item =>
      obtain ⟨s', hFree, hs', hf, hGrants, -⟩ := exec_free hs (hHeld item (List.mem_of_getElem? hFound)).backed
      dsimp only
      rw [exec_bind_ok hFree]
      exact .returned hs' (.spent hf hGrants)

end Session

namespace Play

variable {V : Type} {types : List Text} {exports : List (Text × Export V)} {leaks : List UInt32} {p : Play V}

/-- What every run keeps. As long as nothing has stopped, nothing has leaked, and every token is still held. -/
structure Keeps (types : List Text) (exports : List (Text × Export V)) (p : Play V) (leaks : List UInt32) :
    Prop where
  sound : p.session.Sound types exports [] leaks []
  holds : p.session.tokens.Holds types p.held
  quiet : p.trapped = false → leaks = [] ∧
    ∀ g ∈ p.session.tokens.grants, ∃ i ∈ p.held, i.handleOf.mode = .owned ∧ i.handleOf.token = g.token

theorem step_keeps (hd : Declared types exports) (hk : p.Keeps types exports leaks) (op : Op V) :
    ∃ leaks', (p.step op).Keeps types exports leaks' := by
  have hEnds := Session.perform_ends hd hk.sound hk.holds.valid op
  unfold step
  generalize exec (op.perform p.held) p.session = out at hEnds
  cases hEnds with
  | @returned items s' hs hg =>
    refine ⟨leaks, hs, hk.holds.append hg, fun hQuiet => ⟨(hk.quiet hQuiet).1, ?_⟩⟩
    intro g hMem
    rcases hg.held g hMem with hOld | ⟨i, hi, hOwned⟩
    · obtain ⟨i, hi, hOwned⟩ := (hk.quiet hQuiet).2 g hOld
      exact ⟨i, List.mem_append_left _ hi, hOwned⟩
    · exact ⟨i, List.mem_append_right _ hi, hOwned⟩
  | refused hP hs hg =>
    refine ⟨leaks, hs, hk.holds.follows hg.follows, fun hQuiet => ⟨(hk.quiet hQuiet).1, ?_⟩⟩
    intro g hMem
    rcases hg.held g hMem with hOld | ⟨i, hi, -⟩
    · exact (hk.quiet hQuiet).2 g hOld
    · cases hi
  | @stopped stop s' lost hHard hP hs hf =>
    -- from here on an object may be without an owner, and nothing is said about the tokens
    cases stop with
    | refused why => exact absurd rfl (hHard why)
    | trapped why => exact ⟨lost, hs, hk.holds.follows hf, nofun⟩
    | crashed => exact ⟨lost, hs, hk.holds.follows hf, nofun⟩

theorem run_keeps (hd : Declared types exports) (ops : List (Op V)) (hk : p.Keeps types exports leaks) :
    ∃ leaks', (p.run ops).Keeps types exports leaks' := by
  induction ops generalizing p leaks with
  | nil => exact ⟨leaks, hk⟩
  | cons op rest ih =>
    obtain ⟨leaks', hStep⟩ := step_keeps hd hk op
    exact ih hStep

end Play

end Marshal
