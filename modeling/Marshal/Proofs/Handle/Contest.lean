import Marshal.Proofs.Managed.Tokens

/-! # Competing for a handle

Any number of callers may free a handle, move its object on and borrow it at the same time. All that they share and
change is the token of the handle, and spending it is one atomic step. Whoever spends it has the object: a transfer
is done then, and a destructor is called later, when others may have gone on. So however the steps of the calls
mix, the object is destroyed or moved once, and by nobody who has only borrowed it.
-/
set_option autoImplicit false
namespace Marshal

/-! ## One of many -/

theorem countP_replaced {α : Type} (p : α → Bool) (before after : List α) (a : α) :
    (before ++ a :: after).countP p = before.countP p + after.countP p + (p a).toNat := by
  simp only [List.countP_append, List.countP_cons]
  cases p a <;> simp +arith

theorem forall_mem_replaced {α : Type} {P : α → Prop} {before after : List α} {a a' : α}
    (hAll : ∀ x ∈ before ++ a :: after, P x) (hNew : P a') : ∀ x ∈ before ++ a' :: after, P x := by
  rw [List.forall_mem_append, List.forall_mem_cons] at hAll ⊢
  exact ⟨hAll.1, hNew, hAll.2.2⟩

/-! ## Calls -/

inductive HandleRequest where
  | free
  | transfer
  | mustTransfer
  | asRef
  | asMut
deriving DecidableEq

def HandleRequest.givesUp : HandleRequest → Bool
  | free | transfer | mustTransfer => true
  | asRef | asMut => false

inductive HandleEnding (δ : Type) where
  | nothing
  | destroyed (destructor : δ) (addr : UInt32)
  | transferred (addr : UInt32) (moved : Bool)
  | borrowed (h : Handle δ)
  | trapped (why : Report)

/-- How far a call has come; a destructor is due from when the token is spent until it has been called. -/
inductive HandleStage (δ : Type) where
  | begun
  | due (destructor : δ) (addr : UInt32)
  | ended (how : HandleEnding δ)

structure HandleCall (δ : Type) where
  handle : Handle δ
  request : HandleRequest
  stage : HandleStage δ := .begun

/-- The tokens, and every call that was started. -/
structure Contest (δ : Type) where
  tokens : Tokens
  calls : List (HandleCall δ) := []

variable {δ : Type}

/-- The object was neither destroyed nor moved, and what was lent does not own it. -/
def HandleEnding.IsIdle : HandleEnding δ → Prop
  | nothing | transferred _ false | trapped _ => True
  | borrowed g => g.mode ≠ .owned
  | destroyed _ _ | transferred _ true => False

namespace HandleStage

def won? : HandleStage δ → Option UInt32
  | due _ addr | ended (.destroyed _ addr) | ended (.transferred addr true) => some addr
  | _ => none

def isDue : HandleStage δ → Bool
  | due _ _ => true
  | _ => false

def isEnded : HandleStage δ → Bool
  | ended _ => true
  | _ => false

def isDestroyed : HandleStage δ → Bool
  | ended (.destroyed _ _) => true
  | _ => false

def isMoved : HandleStage δ → Bool
  | ended (.transferred _ true) => true
  | _ => false

@[simp] theorem won?_begun : (begun : HandleStage δ).won? = none := rfl

@[simp] theorem won?_due (d : δ) (addr : UInt32) : (due d addr).won? = some addr := rfl

@[simp] theorem won?_destroyed (d : δ) (addr : UInt32) : (ended (.destroyed d addr)).won? = some addr := rfl

theorem isSome_won?_of_isDestroyed {stage : HandleStage δ} (h : stage.isDestroyed = true) :
    stage.won?.isSome = true := by
  unfold isDestroyed at h
  split at h
  · rfl
  · cases h

theorem isSome_won?_of_isMoved {stage : HandleStage δ} (h : stage.isMoved = true) : stage.won?.isSome = true := by
  unfold isMoved at h
  split at h
  · rfl
  · cases h

theorem isSome_won? (stage : HandleStage δ) :
    stage.won?.isSome.toNat = stage.isDue.toNat + (stage.isDestroyed.toNat + stage.isMoved.toNat) := by
  rcases stage with _ | ⟨_, _⟩ | (_ | _ | ⟨_, _ | _⟩ | _ | _) <;> rfl

theorem won?_of_isIdle {how : HandleEnding δ} (h : how.IsIdle) : (ended how).won? = none := by
  rcases how with _ | ⟨_, _⟩ | ⟨_, _ | _⟩ | _ | _
  · rfl
  · exact h.elim
  · rfl
  · exact h.elim
  · rfl
  · rfl

end HandleStage

namespace Handle

def act (h : Handle δ) (t : Tokens) : HandleRequest → HandleStage δ × Tokens
  | .free =>
    match h.free t with
    | (some (destructor, addr), t) => (.due destructor addr, t)
    | (none, t) => (.ended .nothing, t)
  | .transfer =>
    let ((addr, moved), t) := h.transfer t
    (.ended (.transferred addr moved), t)
  | .mustTransfer =>
    match h.mustTransfer t with
    | .ok (addr, t) => (.ended (.transferred addr true), t)
    | .error why => (.ended (.trapped why), t)
  | .asRef => (.ended (.borrowed h.asRef), t)
  | .asMut =>
    match h.asMut with
    | .ok g => (.ended (.borrowed g), t)
    | .error why => (.ended (.trapped why), t)

variable {h : Handle δ} {t : Tokens} {request : HandleRequest}

theorem owns_of_mode (hMode : h.mode ≠ .owned) (t : Tokens) : h.owns t = false := by
  simp [owns, hMode]

theorem mode_of_owns (hOwns : h.owns t = true) : h.mode = .owned := by
  by_contra hMode
  cases (owns_of_mode hMode t).symm.trans hOwns

theorem asMut_mode {g : Handle δ} (hMut : h.asMut = .ok g) : g.mode = .borrowedMut := by
  unfold asMut at hMut
  split at hMut
  · cases hMut
  · rw [← Except.ok.inj hMut]

theorem act_idle (hIdle : request.givesUp = true → h.owns t = false) :
    ∃ how, h.act t request = (.ended how, t) ∧ how.IsIdle := by
  cases request with
  | free =>
    have hSpend := spend?_of_not_owns (hIdle rfl)
    exact ⟨.nothing, by simp [act, free, hSpend], trivial⟩
  | transfer =>
    have hSpend := spend?_of_not_owns (hIdle rfl)
    exact ⟨.transferred h.addr false, by simp [act, transfer, hSpend], trivial⟩
  | mustTransfer =>
    have hSpend := spend?_of_not_owns (hIdle rfl)
    exact ⟨.trapped (.notOwned h.typeName h.addr h.mode.name), by simp [act, mustTransfer, hSpend], trivial⟩
  | asRef => exact ⟨.borrowed h.asRef, rfl, Mode.noConfusion⟩
  | asMut =>
    cases hMut : h.asMut with
    | error why => exact ⟨.trapped why, by simp [act, hMut], trivial⟩
    | ok g =>
      refine ⟨.borrowed g, by simp [act, hMut], fun hOwned => ?_⟩
      cases hOwned.symm.trans (asMut_mode hMut)

/-- With the token, the caller has the object and the handle does not own it any more. -/
theorem act_wins {d : δ} (hOwns : h.owns t = true) (hGives : request.givesUp = true) (hd : h.destructor = some d)
    (hNull : h.addr ≠ 0) :
    ∃ stage t', h.act t request = (stage, t') ∧ h.owns t' = false ∧
      (stage = .due d h.addr ∨ stage = .ended (.transferred h.addr true)) := by
  obtain ⟨t', hSpend, hSpent, -⟩ := spend?_of_owns hOwns
  cases request with
  | free => exact ⟨.due d h.addr, t', by simp [act, free, hSpend, hNull, hd], hSpent, .inl rfl⟩
  | transfer =>
    exact ⟨.ended (.transferred h.addr true), t', by simp [act, transfer, hSpend], hSpent, .inr rfl⟩
  | mustTransfer =>
    exact ⟨.ended (.transferred h.addr true), t', by simp [act, mustTransfer, hSpend], hSpent, .inr rfl⟩
  | asRef => cases hGives
  | asMut => cases hGives

theorem act_isDestroyed (h : Handle δ) (t : Tokens) (request : HandleRequest) :
    (h.act t request).1.isDestroyed = false := by
  unfold act
  split
  · split <;> rfl
  · rfl
  · split <;> rfl
  · rfl
  · split <;> rfl

end Handle

namespace Contest

def destructorCalls (c : Contest δ) : Nat := c.calls.countP (·.stage.isDestroyed)

def transfers (c : Contest δ) : Nat := c.calls.countP (·.stage.isMoved)

def wins (c : Contest δ) : Nat := c.calls.countP (·.stage.won?.isSome)

/-- One atomic step. A call is started on the handle or on what an earlier call has borrowed; it acts on the
tokens; and a destructor that is due is called. -/
inductive Step (h : Handle δ) : Contest δ → Contest δ → Prop
  | start {c : Contest δ} {g : Handle δ} (request : HandleRequest)
      (hKnown : g = h ∨ ∃ call ∈ c.calls, call.stage = .ended (.borrowed g)) :
      Step h c { c with calls := c.calls ++ [{ handle := g, request }] }
  | act {t t' : Tokens} {before after : List (HandleCall δ)} {g : Handle δ} {request : HandleRequest}
      {stage : HandleStage δ} (hAct : g.act t request = (stage, t')) :
      Step h ⟨t, before ++ ⟨g, request, .begun⟩ :: after⟩ ⟨t', before ++ ⟨g, request, stage⟩ :: after⟩
  | destroy {t : Tokens} {before after : List (HandleCall δ)} {g : Handle δ} {request : HandleRequest}
      {d : δ} {addr : UInt32} :
      Step h ⟨t, before ++ ⟨g, request, .due d addr⟩ :: after⟩
        ⟨t, before ++ ⟨g, request, .ended (.destroyed d addr)⟩ :: after⟩

/-- Where any steps lead from the given tokens, with no call started. -/
inductive Run (h : Handle δ) (t : Tokens) : Contest δ → Prop
  | start : Run h t { tokens := t }
  | step {c c' : Contest δ} (hRun : Run h t c) (hStep : Step h c c') : Run h t c'

/-- The call is on the handle or on something borrowed from it, and gets hold of the handle's object only, and only
through the handle. -/
structure Fits (h : Handle δ) (call : HandleCall δ) : Prop where
  handle : call.handle = h ∨ call.handle.mode ≠ .owned
  borrowed : ∀ g, call.stage = .ended (.borrowed g) → g.mode ≠ .owned
  won : ∀ addr, call.stage.won? = some addr → call.handle = h ∧ addr = h.addr
  due : ∀ d addr, call.stage = .due d addr → h.destructor = some d

/-- The token is there, or one call has got the object for it. -/
structure Valid (h : Handle δ) (c : Contest δ) : Prop where
  fits : ∀ call ∈ c.calls, Fits h call
  balance : (h.owns c.tokens).toNat + c.wins = 1
  waiting : h.owns c.tokens = true →
    ∀ call ∈ c.calls, call.handle = h → call.request.givesUp = true → call.stage = .begun

variable {h g : Handle δ} {c c' : Contest δ} {t : Tokens} {before after : List (HandleCall δ)}
  {request : HandleRequest}

theorem wins_replaced (t : Tokens) (call : HandleCall δ) : wins ⟨t, before ++ call :: after⟩ =
    before.countP (·.stage.won?.isSome) + after.countP (·.stage.won?.isSome) + call.stage.won?.isSome.toNat :=
  countP_replaced ..

theorem fits_begun (hHandle : g = h ∨ g.mode ≠ .owned) (request : HandleRequest) :
    Fits h { handle := g, request } where
  handle := hHandle
  borrowed _ hEnd := by cases hEnd
  won _ hWon := by cases hWon
  due _ _ hDue := by cases hDue

theorem fits_idle {how : HandleEnding δ} (hHandle : g = h ∨ g.mode ≠ .owned) (hIdle : how.IsIdle) :
    Fits h ⟨g, request, .ended how⟩ where
  handle := hHandle
  borrowed g' hEnd := by
    cases hEnd
    exact hIdle
  won addr hWon := by
    rw [HandleStage.won?_of_isIdle hIdle] at hWon
    cases hWon
  due _ _ hDue := by cases hDue

theorem Valid.start (hv : c.Valid h) (request : HandleRequest)
    (hKnown : g = h ∨ ∃ call ∈ c.calls, call.stage = .ended (.borrowed g)) :
    Valid h { c with calls := c.calls ++ [{ handle := g, request }] } := by
  have hHandle : g = h ∨ g.mode ≠ .owned := by
    refine hKnown.imp_right ?_
    rintro ⟨call, hCall, hLent⟩
    exact (hv.fits call hCall).borrowed g hLent
  refine ⟨?_, ?_, fun hOwns => ?_⟩
  · exact List.forall_mem_append.mpr ⟨hv.fits, List.forall_mem_singleton.mpr (fits_begun hHandle request)⟩
  · simpa [wins, List.countP_append] using hv.balance
  · exact List.forall_mem_append.mpr ⟨hv.waiting hOwns, List.forall_mem_singleton.mpr fun _ _ => rfl⟩

variable {d : δ}

theorem Valid.act {t' : Tokens} {stage : HandleStage δ} (hd : h.destructor = some d) (hNull : h.addr ≠ 0)
    (hv : Valid h ⟨t, before ++ ⟨g, request, .begun⟩ :: after⟩) (hAct : g.act t request = (stage, t')) :
    Valid h ⟨t', before ++ ⟨g, request, stage⟩ :: after⟩ := by
  have hHandle : g = h ∨ g.mode ≠ .owned := (hv.fits ⟨g, request, .begun⟩ (by simp)).handle
  have hBalance := hv.balance
  rw [wins_replaced] at hBalance
  by_cases hWins : g = h ∧ request.givesUp = true ∧ h.owns t = true
  · -- the token is spent, and from here on the call has the object
    obtain ⟨rfl, hGives, hOwns⟩ := hWins
    obtain ⟨stage', t'', hAct', hSpent, hStage⟩ := Handle.act_wins hOwns hGives hd hNull
    obtain ⟨rfl, rfl⟩ := Prod.mk.inj (hAct.symm.trans hAct')
    have hWon : stage.won? = some g.addr := by
      rcases hStage with rfl | rfl <;> rfl
    refine ⟨forall_mem_replaced hv.fits ⟨.inl rfl, ?_, ?_, ?_⟩, ?_, fun hOwns' => ?_⟩
    · rintro g' rfl
      rcases hStage with hStage | hStage <;> cases hStage
    · intro addr hAddr
      exact ⟨rfl, Option.some.inj (hAddr.symm.trans hWon)⟩
    · rintro d' addr rfl
      rcases hStage with hStage | hStage <;> cases hStage
      exact hd
    · rw [wins_replaced]
      simp only [hOwns, hSpent, hWon] at hBalance ⊢
      simpa using hBalance
    · cases hSpent.symm.trans hOwns'
  · have hIdle : request.givesUp = true → g.owns t = false := by
      intro hGives
      rcases hHandle with rfl | hMode
      · exact Bool.eq_false_iff.mpr fun hOwns => hWins ⟨rfl, hGives, hOwns⟩
      · exact Handle.owns_of_mode hMode t
    obtain ⟨how, hAct', hHow⟩ := Handle.act_idle hIdle
    obtain ⟨rfl, rfl⟩ := Prod.mk.inj (hAct.symm.trans hAct')
    refine ⟨forall_mem_replaced hv.fits (fits_idle hHandle hHow), ?_, fun hOwns => ?_⟩
    · rw [wins_replaced]
      simpa [HandleStage.won?_of_isIdle hHow] using hBalance
    · refine forall_mem_replaced (hv.waiting hOwns) fun hSame hGives => ?_
      exact absurd ⟨hSame, hGives, hOwns⟩ hWins

theorem Valid.destroy {addr : UInt32} (hv : Valid h ⟨t, before ++ ⟨g, request, .due d addr⟩ :: after⟩) :
    Valid h ⟨t, before ++ ⟨g, request, .ended (.destroyed d addr)⟩ :: after⟩ := by
  have hCall := hv.fits ⟨g, request, .due d addr⟩ (by simp)
  refine ⟨forall_mem_replaced hv.fits ⟨hCall.handle, ?_, hCall.won, ?_⟩, ?_, fun hOwns => ?_⟩
  · intro g' hEnd
    cases hEnd
  · intro d' addr' hDue
    cases hDue
  · simpa [wins_replaced] using hv.balance
  · -- whoever has a destructor to call is past the token
    refine forall_mem_replaced (hv.waiting hOwns) fun hSame hGives => ?_
    cases hv.waiting hOwns ⟨g, request, .due d addr⟩ (by simp) hSame hGives

theorem Step.valid (hd : h.destructor = some d) (hNull : h.addr ≠ 0) (hStep : Step h c c')
    (hv : c.Valid h) : c'.Valid h := by
  cases hStep with
  | start request hKnown => exact hv.start request hKnown
  | act hAct => exact hv.act hd hNull hAct
  | destroy => exact hv.destroy

theorem Run.valid (hOwns : h.owns t = true) (hd : h.destructor = some d) (hNull : h.addr ≠ 0)
    (hRun : Run h t c) : c.Valid h := by
  induction hRun with
  | start => exact ⟨List.forall_mem_nil _, by rw [hOwns]; rfl, fun _ => List.forall_mem_nil _⟩
  | step _ hStep ih => exact hStep.valid hd hNull ih

/-- Who has the object has called the destructor, is about to, or has moved it on. -/
theorem wins_eq (c : Contest δ) :
    c.wins = c.calls.countP (·.stage.isDue) + (c.destructorCalls + c.transfers) := by
  obtain ⟨t, calls⟩ := c
  simp only [wins, destructorCalls, transfers]
  induction calls with
  | nil => rfl
  | cons call rest ih =>
    have hCall := call.stage.isSome_won?
    simp only [List.countP_cons, ih]
    revert hCall
    cases call.stage.won?.isSome <;> cases call.stage.isDue <;> cases call.stage.isDestroyed <;>
      cases call.stage.isMoved <;> simp +arith

/-- The object is destroyed or moved on once, through the handle. -/
structure SingleWinner (h : Handle δ) (c : Contest δ) : Prop where
  atMostOne : c.destructorCalls + c.transfers ≤ 1
  exactlyOne : (∀ call ∈ c.calls, call.stage.isEnded = true) →
    (∃ call ∈ c.calls, call.handle = h ∧ call.request.givesUp = true) → c.destructorCalls + c.transfers = 1
  object : ∀ call ∈ c.calls, ∀ addr, call.stage.won? = some addr → addr = h.addr
  /-- Who has only borrowed neither frees nor transfers. -/
  borrowed : ∀ call ∈ c.calls, call.handle.mode ≠ .owned → call.stage.won? = none

theorem Valid.singleWinner (hOwned : h.mode = .owned) (hv : c.Valid h) : c.SingleWinner h := by
  have hBalance := hv.balance
  have hWins := c.wins_eq
  refine ⟨by omega, fun hEnded hAsked => ?_, fun call hCall addr hWon => ?_, fun call hCall hMode => ?_⟩
  · obtain ⟨call, hCall, hSame, hGives⟩ := hAsked
    have hSpent : h.owns c.tokens = false := by
      refine Bool.eq_false_iff.mpr fun hOwns => ?_
      have hOver := hEnded call hCall
      rw [hv.waiting hOwns call hCall hSame hGives] at hOver
      cases hOver
    have hNone : c.calls.countP (·.stage.isDue) = 0 := by
      refine List.countP_eq_zero.mpr fun call hCall hDue => ?_
      have hOver := hEnded call hCall
      cases hStage : call.stage with
      | due => rw [hStage] at hOver; cases hOver
      | begun => rw [hStage] at hDue; cases hDue
      | ended => rw [hStage] at hDue; cases hDue
    rw [hSpent, Bool.toNat_false] at hBalance
    omega
  · exact ((hv.fits call hCall).won addr hWon).2
  · refine Option.eq_none_iff_forall_ne_some.mpr fun addr hWon => hMode ?_
    rw [((hv.fits call hCall).won addr hWon).1, hOwned]

theorem Run.singleWinner (hOwns : h.owns t = true) (hd : h.destructor = some d) (hNull : h.addr ≠ 0)
    (hRun : Run h t c) : c.SingleWinner h :=
  (hRun.valid hOwns hd hNull).singleWinner (Handle.mode_of_owns hOwns)

end Contest

end Marshal
