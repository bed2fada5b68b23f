import Marshal.Proofs.Managed.Bound

/-! # Operations of the managed side

Every operation on a sound session ends in one of three ways. It returns, and whatever was minted on the way is
held by what it returns; it is refused, and nothing was minted; or it stops because a rule of the boundary was
broken, and an object may have leaked. The session is sound in every case.
-/
set_option autoImplicit false
namespace Marshal

open Step

inductive Item (V : Type) where
  | string (s : OwnedString V)
  | handle (h : Handle (Export V))
  | vec (v : OwnedVec V)

namespace Item

variable {V : Type}

def handleOf : Item V → Handle (Export V)
  | string s => s.handle
  | handle h => h
  | vec v => v.handle

/-- The handle is backed, and the functions of a vector are those of its type. -/
def Valid (types : List Text) (t : Tokens) : Item V → Prop
  | vec v => v.handle.Backed t ∧ v.witness.Bound types
  | item => item.handleOf.Backed t

variable {types : List Text} {t t' : Tokens} {i : Item V}

theorem Valid.backed (hi : i.Valid types t) : i.handleOf.Backed t := by
  cases i with
  | vec v => exact hi.1
  | string _ => exact hi
  | handle _ => exact hi

theorem Valid.follows (hi : i.Valid types t) (hf : t.Follows t') : i.Valid types t' := by
  cases i with
  | vec v => exact ⟨hi.1.follows hf, hi.2⟩
  | string s => exact Handle.Backed.follows hi hf
  | handle h => exact Handle.Backed.follows hi hf

end Item

def Element.items {V : Type} : Element V → List (Item V)
  | datum _ => []
  | string s => [.string s]
  | handle h => [.handle h]

/-- The element is what the vector's elements are. -/
def Element.Suits {V : Type} : ElementForm V → Element V → Prop
  | .scalar _, .datum _ => True
  | .string _, .string _ => True
  | .handle _, .handle _ => True
  | _, _ => False

def Item.Apart {V : Type} (i j : Item V) : Prop :=
  i.handleOf.mode = .owned → j.handleOf.mode = .owned → i.handleOf.token ≠ j.handleOf.token

/-- What a caller holds is valid, and each item that owns has a token of its own. -/
structure Tokens.Holds {V : Type} (types : List Text) (t : Tokens) (items : List (Item V)) : Prop where
  valid : ∀ i ∈ items, i.Valid types t
  apart : items.Pairwise Item.Apart

/-- What was minted on the way from one state of the tokens to another is held by the items, all of them new. -/
structure Tokens.Gives {V : Type} (types : List Text) (t t' : Tokens) (items : List (Item V)) : Prop where
  follows : t.Follows t'
  holds : t'.Holds types items
  fresh : ∀ i ∈ items, i.handleOf.mode = .owned → t.next ≤ i.handleOf.token
  held : ∀ g ∈ t'.grants, g ∈ t.grants ∨ ∃ i ∈ items, i.handleOf.mode = .owned ∧ i.handleOf.token = g.token

namespace Tokens

variable {V : Type} {types : List Text} {t t' t'' : Tokens} {items items' : List (Item V)} {i : Item V}

theorem Holds.nil (t : Tokens) : t.Holds types ([] : List (Item V)) := ⟨List.forall_mem_nil _, .nil⟩

theorem Holds.follows (h : t.Holds types items) (hf : t.Follows t') : t'.Holds types items :=
  ⟨fun i hi => (h.valid i hi).follows hf, h.apart⟩

theorem Holds.append (h : t.Holds types items) (hg : Gives types t t' items') :
    t'.Holds types (items ++ items') := by
  refine ⟨List.forall_mem_append.mpr ⟨(h.follows hg.follows).valid, hg.holds.valid⟩, ?_⟩
  refine List.pairwise_append.mpr ⟨h.apart, hg.holds.apart, ?_⟩
  intro i hi j hj hOwned hOwned'
  have hBelow := ((h.valid i hi).backed hOwned).1
  have hAbove := hg.fresh j hj hOwned'
  omega

end Tokens

namespace Tokens.Gives

variable {V : Type} {types : List Text} {t t' t'' : Tokens} {items items' : List (Item V)} {i : Item V}

theorem spent (hf : t.Follows t') (hGrants : ∀ g ∈ t'.grants, g ∈ t.grants) :
    Gives types t t' ([] : List (Item V)) :=
  ⟨hf, .nil t', List.forall_mem_nil _, fun g hg => .inl (hGrants g hg)⟩

theorem none (t : Tokens) : Gives types t t ([] : List (Item V)) := spent (.refl t) fun _ hg => hg

theorem one (hf : t.Follows t') (hValid : i.Valid types t')
    (hFresh : i.handleOf.mode = .owned → t.next ≤ i.handleOf.token)
    (hHeld : ∀ g ∈ t'.grants, g ∈ t.grants ∨ i.handleOf.mode = .owned ∧ i.handleOf.token = g.token) :
    Gives types t t' [i] where
  follows := hf
  holds := ⟨List.forall_mem_singleton.mpr hValid, List.pairwise_singleton ..⟩
  fresh := List.forall_mem_singleton.mpr hFresh
  held g hg := (hHeld g hg).imp_right fun hOwned => ⟨i, List.mem_cons_self, hOwned⟩

theorem borrowed (hValid : i.Valid types t) (hMode : i.handleOf.mode ≠ .owned) : Gives types t t [i] :=
  one (.refl t) hValid (fun hOwned => absurd hOwned hMode) fun _ hg => .inl hg

theorem trans (h : Gives types t t' items) (h' : Gives types t' t'' items') :
    Gives types t t'' (items ++ items') where
  follows := h.follows.trans h'.follows
  holds := h.holds.append h'
  fresh := List.forall_mem_append.mpr
    ⟨h.fresh, fun i hi hOwned => Nat.le_trans h.follows.next_le (h'.fresh i hi hOwned)⟩
  held := by
    intro g hg
    rcases h'.held g hg with hOld | ⟨i, hi, hOwned⟩
    · refine (h.held g hOld).imp_right ?_
      rintro ⟨i, hi, hOwned⟩
      exact ⟨i, List.mem_append_left _ hi, hOwned⟩
    · exact .inr ⟨i, List.mem_append_right _ hi, hOwned⟩

end Tokens.Gives

namespace Session

variable {V α β : Type} {types : List Text} {exports : List (Text × Export V)} {leaks spare : List UInt32}
  {s s₁ : Session V} {P Q : Stop → Prop} {mine : α → List (Item V)} {out : Except Stop α × Session V}

/-- How an operation ends whose result gives its caller the items `mine`, and whose stops are `P`. -/
inductive Ends (types : List Text) (exports : List (Text × Export V)) (s : Session V) (leaks spare : List UInt32)
    (P : Stop → Prop) (mine : α → List (Item V)) : Except Stop α × Session V → Prop
  | returned {a : α} {s' : Session V} (hs : s'.Sound types exports [] leaks spare)
      (hg : Tokens.Gives types s.tokens s'.tokens (mine a)) :
      Ends types exports s leaks spare P mine (.ok a, s')
  | refused {why : Failure} {s' : Session V} (hP : P (.refused why)) (hs : s'.Sound types exports [] leaks spare)
      (hg : Tokens.Gives types s.tokens s'.tokens ([] : List (Item V))) :
      Ends types exports s leaks spare P mine (.error (.refused why), s')
  | stopped {stop : Stop} {s' : Session V} (lost : List UInt32) (hHard : stop.IsHard) (hP : P stop)
      (hs : s'.Sound types exports [] lost spare) (hf : s.tokens.Follows s'.tokens) :
      Ends types exports s leaks spare P mine (.error stop, s')

theorem Ends.halted {stop : Stop} (hs : s.Sound types exports [] leaks spare) (hHard : stop.IsHard) (hP : P stop) :
    Ends types exports s leaks spare P mine (.error stop, s) :=
  .stopped leaks hHard hP hs (.refl _)

theorem Ends.weaken (h : Ends types exports s leaks spare P mine out) (hPQ : ∀ stop, P stop → Q stop) :
    Ends types exports s leaks spare Q mine out := by
  cases h with
  | returned hs hg => exact .returned hs hg
  | refused hP hs hg => exact .refused (hPQ _ hP) hs hg
  | stopped lost hHard hP hs hf => exact .stopped lost hHard (hPQ _ hP) hs hf

theorem Ends.bind {x : Step (Session V) α} {f : α → Step (Session V) β} {mine' : β → List (Item V)}
    (h : Ends types exports s leaks spare P mine (exec x s₁))
    (hNext : ∀ a s₂, exec x s₁ = (.ok a, s₂) → s₂.Sound types exports [] leaks spare →
      Tokens.Gives types s.tokens s₂.tokens (mine a) → Ends types exports s leaks spare P mine' (exec (f a) s₂)) :
    Ends types exports s leaks spare P mine' (exec (x >>= f) s₁) := by
  generalize hOut : exec x s₁ = out at h
  cases h with
  | returned hs hg =>
    rw [exec_bind_ok hOut]
    exact hNext _ _ hOut hs hg
  | refused hP hs hg =>
    rw [exec_bind_error hOut]
    exact .refused hP hs hg
  | stopped lost hHard hP hs hf =>
    rw [exec_bind_error hOut]
    exact .stopped lost hHard hP hs hf

theorem Ends.map {x : Step (Session V) α} {f : α → β} {mine' : β → List (Item V)}
    (h : Ends types exports s leaks spare P mine (exec x s₁)) (hMine : ∀ a, mine' (f a) = mine a) :
    Ends types exports s leaks spare P mine' (exec (x >>= fun a => pure (f a)) s₁) :=
  h.bind fun a _ _ hs hg => .returned hs (hMine a ▸ hg)

theorem Ends.resolved {x : Step (Session V) β} {f : β → Step (Session V) α} {R : β → Prop}
    (h : (∃ why, exec x s = (.error (.refused why), s)) ∨ ∃ b, exec x s = (.ok b, s) ∧ R b)
    (hP : ∀ why, P (.refused why)) (hs : s.Sound types exports [] leaks spare)
    (hNext : ∀ b, R b → Ends types exports s leaks spare P mine (exec (f b) s)) :
    Ends types exports s leaks spare P mine (exec (x >>= f) s) := by
  rcases h with ⟨why, hExec⟩ | ⟨b, hExec, hb⟩
  · rw [exec_bind_error hExec]
    exact .refused (hP why) hs (.none _)
  · rw [exec_bind_ok hExec]
    exact hNext b hb

theorem Ends.after {items : List (Item V)} (h : Ends types exports s₁ leaks spare P mine out)
    (hNever : ∀ stop, P stop → stop.IsHard) (hg : Tokens.Gives types s.tokens s₁.tokens items) :
    Ends types exports s leaks spare P (fun a => items ++ mine a) out := by
  cases h with
  | returned hs hg' => exact .returned hs (hg.trans hg')
  | refused hP => exact absurd rfl (hNever _ hP _)
  | stopped lost hHard hP hs hf => exact .stopped lost hHard hP hs (hg.follows.trans hf)

/-! ## Making objects -/

theorem exec_callAddress_cases {f : Export V} {args : List Datum} {name : Text}
    (hc : Owner.Creates types exports f args name) (hs : s.Sound types exports [] leaks spare) :
    (∃ stop s', exec (callAddress f args) s = (.error stop, s') ∧ stop.IsHard ∧
        s'.Sound types exports [] leaks spare ∧ s'.tokens = s.tokens) ∨
      ∃ addr s', exec (callAddress f args) s = (.ok addr, s') ∧
        s'.Sound types exports [⟨addr, name⟩] leaks spare ∧ s'.tokens = s.tokens := by
  rcases hc s.owner _ _ _ hs.owner with ⟨stop, o, hExec, hHard, hOwner⟩ | ⟨addr, o, hExec, hOwner⟩
  · exact .inl ⟨stop, { s with owner := o }, exec_bind_error (exec_onOwner hExec), hHard, ⟨hOwner, hs.tokens⟩, rfl⟩
  · exact .inr ⟨addr, { s with owner := o }, exec_bind_ok (exec_onOwner hExec), ⟨hOwner, hs.tokens⟩, rfl⟩

theorem construct_ends {f release : Export V} {args : List Datum} {name : Text} {wrap : Handle (Export V) → α}
    (hc : Owner.Creates types exports f args name) (hRelease : release = .destructor)
    (hs : s.Sound types exports [] leaks spare) (it : Handle (Export V) → Item V)
    (hMine : ∀ h, mine (wrap h) = [it h]) (hHandle : ∀ h, (it h).handleOf = h)
    (hValid : ∀ h t, h.Backed t → (it h).Valid types t) :
    Ends types exports s leaks spare Stop.IsHard mine (exec (do
      let addr ← callAddress f args
      let h ← lift name addr .owned release
      return wrap h) s) := by
  subst hRelease
  rcases exec_callAddress_cases hc hs with ⟨stop, s', hExec, hHard, hs', hTokens⟩ | ⟨addr, s₁, hExec, hs₁, hTokens⟩
  · rw [exec_bind_error hExec]
    exact .stopped leaks hHard hHard hs' (hTokens ▸ .refl _)
  · obtain ⟨h, s', hLift, hs', hb, hToken, hf, hHeld⟩ := exec_lift_owned hs₁
    rw [exec_bind_ok hExec, exec_bind_ok hLift]
    rw [hTokens] at hf hHeld hToken
    refine .returned hs' ?_
    rw [hMine]
    exact .one hf (hValid h _ hb) (fun _ => Nat.le_of_eq (by rw [hHandle, hToken])) (by rwa [hHandle])

theorem Ends.andFinally_release {x : Step (Session V) α} {ptr : UInt32} (hTokens : s₁.tokens = s.tokens)
    (h : Ends types exports s₁ leaks (Heap.blockAt ptr ++ spare) P mine (exec x s₁)) :
    Ends types exports s leaks spare P mine (exec (andFinally x (onHeap (Heap.release ptr))) s₁) := by
  have hRelease : ∀ {s₂ : Session V} {lost : List UInt32},
      s₂.Sound types exports [] lost (Heap.blockAt ptr ++ spare) →
      ∃ o, exec (onHeap (Heap.release ptr)) s₂ = (.ok (), { s₂ with owner := o }) ∧
        Sound types exports { s₂ with owner := o } [] lost spare := by
    intro s₂ lost hs
    obtain ⟨o, hExec, hOwner⟩ := Owner.exec_release hs.owner
    exact ⟨o, exec_onOwner hExec, hOwner, hs.tokens⟩
  rw [exec_andFinally]
  generalize hOut : exec x s₁ = out at h
  cases h with
  | returned hs hg =>
    obtain ⟨o, hExec, hs'⟩ := hRelease hs
    dsimp only
    rw [exec_bind_ok hExec]
    exact .returned hs' (hTokens ▸ hg)
  | refused hP hs hg =>
    obtain ⟨o, hExec, hs'⟩ := hRelease hs
    dsimp only
    rw [exec_bind_ok hExec]
    exact .refused hP hs' (hTokens ▸ hg)
  | stopped lost hHard hP hs hf =>
    obtain ⟨o, hExec, hs'⟩ := hRelease hs
    dsimp only
    rw [exec_bind_ok hExec]
    exact .stopped lost hHard hP hs' (hTokens ▸ hf)

/-! ## Strings -/

section Strings

variable {ops : StringOps V}

theorem createString_ends (ho : ops.Bound types) (hs : s.Sound types exports [] leaks spare) :
    Ends types exports s leaks spare Stop.IsHard (fun x => [.string x]) (exec ops.create s) := by
  obtain ⟨type, hNew⟩ := ho.new
  have hc : Owner.Creates types exports ops.new [] Owner.stringType :=
    hNew ▸ Owner.string_new_creates ho.declared type
  exact construct_ends hc ho.free hs (fun h => .string ⟨ops, h⟩) (fun _ => rfl) (fun _ => rfl) (fun _ _ hb => hb)

theorem copyView_ends (ho : ops.Bound types) (v : View) (hs : s.Sound types exports [] leaks spare) :
    Ends types exports s leaks spare Stop.IsHard (fun x => [.string x]) (exec (ops.copyView v) s) := by
  obtain ⟨type, hNew⟩ := ho.newWithStr
  have hc : Owner.Creates types exports ops.newWithStr [.view v.start v.len] Owner.stringType :=
    hNew ▸ Owner.string_newWithStr_creates ho.declared type v.start v.len
  exact construct_ends hc ho.free hs (fun h => .string ⟨ops, h⟩) (fun _ => rfl) (fun _ => rfl) (fun _ _ hb => hb)

theorem ofText_ends (ho : ops.Bound types) (t : Text) (hs : s.Sound types exports [] leaks spare) :
    Ends types exports s leaks spare Stop.IsHard (fun x => [.string x]) (exec (ops.ofText t) s) := by
  unfold StringOps.ofText
  cases Text.isUtf8 t with
  | false => exact .halted hs (Stop.isHard_trapped _) (Stop.isHard_trapped _)
  | true =>
    show Ends types exports s leaks spare _ _ (exec (if t.isEmpty then ops.create else _) s)
    split
    · exact createString_ends ho hs
    -- the text goes in through a block of its own, which is spare while the string is made
    have hSpare : s.owner.Sound types exports ([] ++ s.tokens.titles) leaks ([] ++ spare) := hs.owner
    rcases Heap.exec_allocateBytes_cases hs.owner.table.accounts.valid t with
      ⟨why, h', hAlloc, hr, -⟩ | ⟨ptr, h', hAlloc, hc⟩
    · have hExec := exec_trapRefusal_refused (f := fun why => .wrap .encode .allocation why Owner.stringType)
        (exec_onHeap hAlloc)
      rw [exec_bind_error hExec]
      exact .stopped leaks (Stop.isHard_trapped _) (Stop.isHard_trapped _) ⟨hSpare.withHeap hr, hs.tokens⟩
        (.refl _)
    · rw [exec_bind_ok (exec_trapRefusal_ok (exec_onHeap hAlloc))]
      exact .andFinally_release rfl (copyView_ends ho _ ⟨hSpare.withHeap hc.replaced, hs.tokens⟩)

end Strings

/-! ## Values of foreign types -/

def boxOwned (name : Text) (value : V) : Step (Session V) (Handle (Export V)) := do
  let type ← HandleType.resolve name
  type.owned (← onOwner (Owner.box name (.guest value)))

theorem boxOwned_ends (hd : Declared types exports) (name : Text) (value : V)
    (hs : s.Sound types exports [] leaks spare) :
    Ends types exports s leaks spare (fun _ => True) (fun h => [.handle h]) (exec (boxOwned name value) s) := by
  refine .resolved (exec_handleType_cases hd hs name) (fun _ => trivial) hs ?_
  rintro type ⟨rfl, hBound⟩
  rcases Owner.exec_box_cases [] (.guest value) hs.owner hBound.declared (fun _ => trivial) (fun _ => rfl)
    trivial with ⟨r, hBox⟩ | ⟨addr, o, hBox, hOwner⟩
  · rw [exec_bind_error (exec_onOwner hBox)]
    exact .refused trivial hs (.none _)
  · have hs₁ : Sound types exports { s with owner := o } [⟨addr, type.name⟩] leaks spare := ⟨hOwner, hs.tokens⟩
    obtain ⟨h, s', hLift, hs', hb, hToken, hf, hHeld⟩ := exec_lift_owned hs₁
    rw [exec_bind_ok (exec_onOwner hBox), HandleType.owned, HandleType.lift, hBound.release, hLift]
    exact .returned hs' (.one hf hb (fun _ => Nat.le_of_eq hToken.symm) hHeld)

/-! ## Elements of vectors -/

def found : Option (Element V) → List (Item V)
  | none => []
  | some x => x.items

theorem exec_requireMutable_cases (v : OwnedVec V) (op : Text) (s : Session V) :
    (∃ why, exec (v.requireMutable op) s = (.error (.trapped why), s) ∧ (Stop.trapped why).IsTame) ∨
      exec (v.requireMutable op) s = (.ok (), s) := by
  unfold OwnedVec.requireMutable
  split
  · refine .inl ⟨_, rfl, ?_⟩
    rintro _ ⟨⟩ phase
    exact Bool.and_false _
  · exact .inr rfl

theorem exec_lower_cases {elem : Text} {form : ElementForm V} {x : Element V} (hForm : form.Lifts types elem)
    (hx : x.Suits form) (hs : s.Sound types exports [] leaks spare) (hb : ∀ i ∈ x.items, i.Valid types s.tokens) :
    (∃ why, exec x.lower s = (.error (.trapped why), s)) ∨
      ∃ w s', exec x.lower s = (.ok (.u32 w.addr), s') ∧ s'.Sound types exports [w] leaks spare ∧
        Tokens.Gives types s.tokens s'.tokens ([] : List (Item V)) := by
  have hMove : ∀ h : Handle (Export V), h.Backed s.tokens →
      (∃ why, exec (return .u32 (← mustTransfer h) : Step (Session V) Datum) s = (.error (.trapped why), s)) ∨
        ∃ w s', exec (return .u32 (← mustTransfer h) : Step (Session V) Datum) s = (.ok (.u32 w.addr), s') ∧
          s'.Sound types exports [w] leaks spare ∧ Tokens.Gives types s.tokens s'.tokens ([] : List (Item V)) := by
    intro h hBacked
    rcases exec_mustTransfer_cases hs hBacked with ⟨why, hExec⟩ | ⟨s', hExec, hs', hf, hGrants⟩
    · exact .inl ⟨why, exec_bind_error hExec⟩
    · exact .inr ⟨⟨h.addr, h.typeName⟩, s', exec_bind_ok hExec, hs', .spent hf hGrants⟩
  cases x with
  | datum d => cases form <;> first | exact hForm.elim | exact hx.elim
  | string str => exact hMove str.handle (hb _ List.mem_cons_self)
  | handle h => exact hMove h (hb _ List.mem_cons_self)

theorem Sound.leak {w : Title} (hs : s.Sound types exports [w] leaks spare) :
    s.Sound types exports [] (w.addr :: leaks) spare :=
  ⟨hs.owner.setTable ⟨hs.owner.table.accounts.leak, hs.owner.table.unborrowed, hs.owner.table.isOpen⟩, hs.tokens⟩

theorem exec_liftAddress_owned {elem : Text} {form : ElementForm V} {addr : UInt32}
    (hForm : form.Lifts types elem) (hs : s.Sound types exports [⟨addr, elem⟩] leaks spare) :
    ∃ x s', exec (form.liftAddress addr .owned) s = (.ok (some x), s') ∧ s'.Sound types exports [] leaks spare ∧
      Tokens.Gives types s.tokens s'.tokens x.items := by
  have hNull : addr ≠ 0 := Object.title_ne_zero hs.owner.table
  obtain ⟨h, s', hLift, hs', hb, hToken, hf, hHeld⟩ := exec_lift_owned hs
  cases form with
  | scalar _ => exact hForm.elim
  | string ops =>
    obtain ⟨rfl, hBound⟩ := hForm
    refine ⟨.string ⟨ops, h⟩, s', ?_, hs', .one hf hb (fun _ => Nat.le_of_eq hToken.symm) hHeld⟩
    rw [ElementForm.liftAddress, if_neg hNull, StringOps.lift, hBound.free]
    exact exec_bind_ok (exec_bind_ok hLift)
  | handle type =>
    obtain ⟨rfl, hBound⟩ := hForm
    refine ⟨.handle h, s', ?_, hs', .one hf hb (fun _ => Nat.le_of_eq hToken.symm) hHeld⟩
    rw [ElementForm.liftAddress, if_neg hNull, HandleType.lift, hBound.release]
    exact exec_bind_ok hLift

theorem liftReply_borrowed_ends {mode : Mode} (hMode : mode ≠ .owned) (form : ElementForm V) (r : Reply)
    (hs : s.Sound types exports [] leaks spare) :
    Ends types exports s leaks spare Stop.IsHard found (exec (form.liftReply mode r) s) := by
  have hCrash : Ends types exports s leaks spare Stop.IsHard (found (V := V)) (.error .crashed, s) :=
    .halted hs Stop.isHard_crashed Stop.isHard_crashed
  have hAddress : ∀ addr, Ends types exports s leaks spare Stop.IsHard found
      (exec (form.liftAddress addr mode) s) := by
    intro addr
    unfold ElementForm.liftAddress
    split
    · exact .returned hs (.none _)
    cases form with
    | scalar _ => exact hCrash
    | string ops =>
      obtain ⟨h, hLift, hBorrowed⟩ := exec_lift_borrowed hMode Owner.stringType addr ops.free s
      have hExec : exec (ops.lift addr mode) s = (.ok ⟨ops, h⟩, s) := exec_bind_ok hLift
      dsimp only
      rw [exec_bind_ok hExec]
      exact .returned hs (.borrowed (Handle.backed_of_mode hBorrowed _) hBorrowed)
    | handle type =>
      obtain ⟨h, hLift, hBorrowed⟩ := exec_lift_borrowed hMode type.name addr type.release s
      have hExec : exec (type.lift addr mode) s = (.ok h, s) := hLift
      dsimp only
      rw [exec_bind_ok hExec]
      exact .returned hs (.borrowed (Handle.backed_of_mode hBorrowed _) hBorrowed)
  unfold ElementForm.liftReply
  split
  · rename_i a
    refine .returned hs ?_
    cases a.toOption <;> exact .none _
  · exact hAddress _
  · exact hCrash

/-! ## Vectors -/

section Vectors

variable {w : Witness V} {v : OwnedVec V} {x : Element V}

theorem createVec_ends (hw : w.Bound types) (hs : s.Sound types exports [] leaks spare) :
    Ends types exports s leaks spare Stop.IsHard (fun v => [.vec v]) (exec (OwnedVec.create w) s) := by
  have hc : w.free = .destructor ∧ Owner.Creates types exports w.new [] w.typeName := by
    cases hw with
    | scalars elem hVec hElem hForm hCalls =>
      refine ⟨hCalls.free, ?_⟩
      rw [hCalls.new, Witness.typeName, hElem]
      exact Owner.vec_new_creates hVec
    | objects hElem hVec hForm hCalls =>
      refine ⟨hCalls.free, ?_⟩
      rw [hCalls.new]
      exact Owner.refVec_new_creates hElem hVec
  exact construct_ends hc.2 hc.1 hs (fun h => .vec ⟨w, h⟩) (fun _ => rfl) (fun _ => rfl) (fun _ _ hb => ⟨hb, hw⟩)

theorem push_ends (hw : v.witness.Bound types) (hx : x.Suits v.witness.form)
    (hs : s.Sound types exports [] leaks spare) (hb : ∀ i ∈ x.items, i.Valid types s.tokens) :
    Ends types exports s leaks spare Stop.IsHard (fun _ => []) (exec (v.push x) s) := by
  unfold OwnedVec.push
  rcases exec_requireMutable_cases v "push" s with ⟨why, hExec, -⟩ | hExec
  · rw [exec_bind_error hExec]
    exact .halted hs (Stop.isHard_trapped _) (Stop.isHard_trapped _)
  rw [exec_bind_ok hExec]
  cases hw with
  | scalars elem hVec hElem hForm hCalls =>
    rw [hForm] at hx
    cases x with
    | string _ => exact hx.elim
    | handle _ => exact hx.elim
    | datum d =>
      have hLower : exec (Element.datum d : Element V).lower s = (.ok d, s) := rfl
      rw [exec_bind_ok hLower, hCalls.push, call, Owner.call_vec]
      rcases Owner.VecForm.exec_push_scalar hs.owner (declaredType types (vecTypeName elem.name)) elem
        v.addr d with ⟨stop, o, hPush, hHard, hOwner⟩ | ⟨o, hPush, hOwner⟩
      · rw [exec_bind_error (exec_onOwner hPush)]
        exact .stopped leaks hHard hHard ⟨hOwner, hs.tokens⟩ (.refl _)
      · rw [exec_bind_ok (exec_onOwner hPush)]
        exact .returned ⟨hOwner, hs.tokens⟩ (.none _)
  | objects hElem hVec hForm hCalls =>
    rcases exec_lower_cases hForm hx hs hb with ⟨why, hLower⟩ | ⟨title, s₁, hLower, hs₁, hSpent⟩
    · rw [exec_bind_error hLower]
      exact .halted hs (Stop.isHard_trapped _) (Stop.isHard_trapped _)
    -- the handle has given up the object before the vector is asked, so a stop from here on leaks it
    rw [exec_bind_ok hLower, hCalls.push, call, Owner.call_refVec]
    refine Ends.after ?_ (fun _ hHard => hHard) hSpent
    rcases Owner.VecForm.exec_push_object hs₁.owner hElem hVec v.addr with
      ⟨stop, o, hPush, hHard, hOwner⟩ | ⟨o, hPush, hOwner⟩
    · rw [exec_bind_error (exec_onOwner hPush)]
      have hs' : Sound types exports { s₁ with owner := o } [title] leaks spare := ⟨hOwner, hs₁.tokens⟩
      exact .stopped _ hHard hHard hs'.leak (.refl _)
    · rw [exec_bind_ok (exec_onOwner hPush)]
      exact .returned ⟨hOwner, hs₁.tokens⟩ (.none _)

theorem pop_ends (hw : v.witness.Bound types) (hs : s.Sound types exports [] leaks spare) :
    Ends types exports s leaks spare (fun stop => stop.IsHard ∧ stop.IsTame) found (exec v.pop s) := by
  unfold OwnedVec.pop
  rcases exec_requireMutable_cases v "pop" s with ⟨why, hExec, hTame⟩ | hExec
  · rw [exec_bind_error hExec]
    exact .halted hs (Stop.isHard_trapped _) ⟨Stop.isHard_trapped _, hTame⟩
  rw [exec_bind_ok hExec]
  cases hw with
  | scalars elem hVec hElem hForm hCalls =>
    rw [hCalls.pop, call, Owner.call_vec]
    rcases Owner.VecForm.exec_pop_scalar hs.owner (declaredType types (vecTypeName elem.name)) elem v.addr with
      ⟨stop, o, hPop, hHard, hTame, hOwner⟩ | ⟨d, o, hPop, hOwner⟩
    · rw [exec_bind_error (exec_onOwner hPop)]
      exact .stopped leaks hHard ⟨hHard, hTame⟩ ⟨hOwner, hs.tokens⟩ (.refl _)
    · rw [exec_bind_ok (exec_onOwner hPop)]
      refine .returned ⟨hOwner, hs.tokens⟩ ?_
      cases (OptionAggregate.ofOption elem d).toOption <;> exact .none _
  | objects hElem hVec hForm hCalls =>
    rw [hCalls.pop, call, Owner.call_refVec]
    rcases Owner.VecForm.exec_pop_object hs.owner hElem hVec v.addr with
      ⟨stop, o, hPop, hHard, hTame, hOwner⟩ | ⟨o, hPop, hOwner⟩ | ⟨a, o, hPop, hOwner⟩
    · rw [exec_bind_error (exec_onOwner hPop)]
      exact .stopped leaks hHard ⟨hHard, hTame⟩ ⟨hOwner, hs.tokens⟩ (.refl _)
    · rw [exec_bind_ok (exec_onOwner hPop)]
      exact .returned ⟨hOwner, hs.tokens⟩ (.none _)
    · have hs₁ : Sound types exports { s with owner := o } [⟨a, v.witness.elem⟩] leaks spare :=
        ⟨hOwner, hs.tokens⟩
      obtain ⟨y, s', hLift, hs', hGives⟩ := exec_liftAddress_owned hForm hs₁
      rw [exec_bind_ok (exec_onOwner hPop), ElementForm.liftReply, hLift]
      exact .returned hs' hGives

theorem look_ends {op : VecOp} {kind : BorrowKind} {mode : Mode} {f : Export V} (i : UInt64)
    (hOp : op = .get ∧ kind = .shared ∨ op = .getMut ∧ kind = .exclusive) (hMode : mode ≠ .owned)
    (hw : v.witness.Bound types) (hf : ∀ g : VecOp → Export V, v.witness.Calls g → f = g op)
    (hs : s.Sound types exports [] leaks spare) :
    Ends types exports s leaks spare Stop.IsHard found
      (exec (do v.witness.form.liftReply mode (← call f [.u32 v.addr, .usize i])) s) := by
  have hLook : ∃ r o, exec (Owner.call f [.u32 v.addr, .usize i]) s.owner = (r, o) ∧
      o.Sound types exports ([] ++ s.tokens.titles) leaks spare ∧ ∀ stop, r = .error stop → stop.IsHard := by
    cases hw with
    | scalars elem hVec hElem hForm hCalls =>
      rw [hf _ hCalls]
      rcases hOp with ⟨rfl, rfl⟩ | ⟨rfl, rfl⟩
      · exact Owner.VecForm.exec_elementAt (Owner.VecForm.scalar_lawful ..) hs.owner v.addr i .shared
      · exact Owner.VecForm.exec_elementAt (Owner.VecForm.scalar_lawful ..) hs.owner v.addr i .exclusive
    | objects hElem hVec hForm hCalls =>
      rw [hf _ hCalls]
      rcases hOp with ⟨rfl, rfl⟩ | ⟨rfl, rfl⟩
      · exact Owner.VecForm.exec_elementAt (Owner.VecForm.reference_lawful ..) hs.owner v.addr i .shared
      · exact Owner.VecForm.exec_elementAt (Owner.VecForm.reference_lawful ..) hs.owner v.addr i .exclusive
  obtain ⟨r, o, hExec, hOwner, hHard⟩ := hLook
  cases r with
  | error stop =>
    rw [call, exec_bind_error (exec_onOwner hExec)]
    exact .stopped leaks (hHard stop rfl) (hHard stop rfl) ⟨hOwner, hs.tokens⟩ (.refl _)
  | ok reply =>
    rw [call, exec_bind_ok (exec_onOwner hExec)]
    have hs₁ : Sound types exports { s with owner := o } [] leaks spare := ⟨hOwner, hs.tokens⟩
    have hSame : Tokens.Gives types s.tokens s.tokens ([] : List (Item V)) := .none _
    exact (liftReply_borrowed_ends hMode v.witness.form reply hs₁).after (fun _ hHard => hHard) hSame

theorem get_ends (i : UInt64) (hw : v.witness.Bound types) (hs : s.Sound types exports [] leaks spare) :
    Ends types exports s leaks spare Stop.IsHard found (exec (v.get i) s) :=
  look_ends i (.inl ⟨rfl, rfl⟩) (by decide) hw (fun _ hCalls => hCalls.get) hs

theorem getMut_ends (i : UInt64) (hw : v.witness.Bound types) (hs : s.Sound types exports [] leaks spare) :
    Ends types exports s leaks spare Stop.IsHard found (exec (v.getMut i) s) := by
  unfold OwnedVec.getMut
  rcases exec_requireMutable_cases v "get_mut" s with ⟨why, hExec, -⟩ | hExec
  · rw [exec_bind_error hExec]
    exact .halted hs (Stop.isHard_trapped _) (Stop.isHard_trapped _)
  · rw [exec_bind_ok hExec]
    exact look_ends i (.inr ⟨rfl, rfl⟩) (by decide) hw (fun _ hCalls => hCalls.getMut) hs

theorem pushAll_ends (hw : v.witness.Bound types) (values : List (Element V))
    (hx : ∀ x ∈ values, x.Suits v.witness.form) (hs : s.Sound types exports [] leaks spare)
    (hb : ∀ x ∈ values, ∀ i ∈ x.items, i.Valid types s.tokens) :
    Ends types exports s leaks spare Stop.IsHard (fun _ => []) (exec (v.pushAll values) s) := by
  induction values generalizing s with
  | nil => exact .returned hs (.none _)
  | cons x rest ih =>
    refine (push_ends hw (hx x List.mem_cons_self) hs (hb x List.mem_cons_self)).bind fun _ s₁ _ hs₁ hg => ?_
    refine (ih (fun y hy => hx y (List.mem_cons_of_mem x hy)) hs₁ ?_).after (fun _ hHard => hHard) hg
    intro y hy i hi
    exact (hb y (List.mem_cons_of_mem x hy) i hi).follows hg.follows

theorem create_witness {s' : Session V} (h : exec (OwnedVec.create w) s = (.ok v, s')) : v.witness = w := by
  obtain ⟨addr, s₁, -, hLift⟩ := exec_bind_eq_ok.mp h
  obtain ⟨handle, s₂, -, hPure⟩ := exec_bind_eq_ok.mp hLift
  cases hPure
  rfl

theorem ofList_ends (hw : w.Bound types) (values : List (Element V)) (hx : ∀ x ∈ values, x.Suits w.form)
    (hs : s.Sound types exports [] leaks spare) (hb : ∀ x ∈ values, ∀ i ∈ x.items, i.Valid types s.tokens) :
    Ends types exports s leaks spare Stop.IsHard (fun v => [.vec v]) (exec (OwnedVec.ofList w values) s) := by
  refine (createVec_ends hw hs).bind fun v s₁ hCreate hs₁ hg => ?_
  have hWitness : v.witness = w := create_witness hCreate
  have hPush := pushAll_ends (hWitness ▸ hw) values (hWitness ▸ hx) hs₁ fun x hx i hi =>
    (hb x hx i hi).follows hg.follows
  exact (hPush.after (fun _ hHard => hHard) hg).map fun _ => rfl

theorem popAll_ends (hw : v.witness.Bound types) (count : Nat) (hs : s.Sound types exports [] leaks spare) :
    Ends types exports s leaks spare (fun stop => stop.IsHard ∧ stop.IsTame) (List.flatMap Element.items)
      (exec (v.popAll count) s) := by
  induction count generalizing s with
  | zero => exact .returned hs (.none _)
  | succ count ih =>
    refine (pop_ends hw hs).bind fun x s₁ _ hs₁ hg => ?_
    cases x with
    | none => exact .returned hs₁ hg
    | some x => exact ((ih hs₁).after (fun _ hStop => hStop.1) hg).map fun _ => rfl

theorem exec_bound (v : OwnedVec V) (s : Session V) : ∃ n, exec v.bound s = (.ok n, s) := by
  unfold OwnedVec.bound
  rw [exec_bind_ok (exec_get s)]
  split <;> exact ⟨_, rfl⟩

theorem collect_ends (hw : v.witness.Bound types) (hs : s.Sound types exports [] leaks spare) :
    Ends types exports s leaks spare (fun stop => stop.IsHard ∧ stop.IsTame) (List.flatMap Element.items)
      (exec v.collect s) := by
  obtain ⟨n, hBound⟩ := exec_bound v s
  rw [OwnedVec.collect, exec_bind_ok hBound]
  exact popAll_ends hw (n + 1) hs

theorem asMut_ends {h : Handle (Export V)} {wrap : Handle (Export V) → α}
    (hs : s.Sound types exports [] leaks spare) (it : Handle (Export V) → Item V)
    (hMine : ∀ h, mine (wrap h) = [it h]) (hHandle : ∀ h, (it h).handleOf = h)
    (hValid : ∀ h t, h.Backed t → (it h).Valid types t) :
    Ends types exports s leaks spare Stop.IsHard mine (exec (return wrap (← asMut h)) s) := by
  unfold asMut
  cases hMut : h.asMut with
  | error r => exact .halted hs (Stop.isHard_trapped _) (Stop.isHard_trapped _)
  | ok b =>
    have hMode : b.mode ≠ .owned := by
      unfold Handle.asMut at hMut
      split at hMut
      · cases hMut
      · obtain rfl := Except.ok.inj hMut
        exact nofun
    refine .returned hs ?_
    rw [hMine]
    exact .borrowed (hValid b _ (Handle.backed_of_mode hMode _)) (by rwa [hHandle])

end Vectors

end Session

end Marshal
