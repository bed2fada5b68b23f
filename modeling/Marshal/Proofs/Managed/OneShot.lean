import Marshal.Managed.Calls
import Marshal.Proofs.Handle.Contest
import Marshal.Proofs.Owner.TypeChecks

/-! # Calling a boxed callback once

A boxed callback is called or freed by any number of callers at the same time. To call it, its handle is given up,
the box is taken out of the table and what was in it runs; to free it, its handle is given up and the box is dropped.
Each of these is a step of its own. As only one caller can give the handle up, only one comes near the box.
-/
set_option autoImplicit false
namespace Marshal

open Step

variable {V : Type}

/-! ## The box -/

namespace Owner

variable {o o' : Owner V} {addr : UInt32} {label : Text}

def HoldsCallback (o : Owner V) (addr : UInt32) (label : Text) : Prop :=
  ∃ e, o.table.store.entry? addr = some e ∧ e.value = .callback label ∧ e.isBorrowed = false

theorem HoldsCallback.exec_unbox (hBox : o.HoldsCallback addr label) :
    o.Parted addr (exec (unbox addr) o).2 ∧
      ∀ object, (exec (unbox addr) o).1 = .ok object → object = .callback label := by
  obtain ⟨e, hFound, hValue, hIdle⟩ := hBox
  rcases exec_unbox_cases addr o with ⟨why, -, hNot⟩ | ⟨e', r, o', hFound', hUnbox, hParted⟩
  · cases hNot.symm.trans (Table.isFree_eq_true_iff.mpr ⟨e, hFound, hIdle⟩)
  obtain rfl := Option.some.inj (hFound.symm.trans hFound')
  rw [hUnbox]
  refine ⟨hParted, fun object hObject => ?_⟩
  cases r with
  | error => cases hObject
  | ok => rw [← Except.ok.inj hObject, hValue]

theorem HoldsCallback.exec_drop (hBox : o.HoldsCallback addr label) (hNull : addr ≠ 0) :
    o.Parted addr (exec (call .destructor [.u32 addr]) o).2 := by
  obtain ⟨e, hFound, hValue, hIdle⟩ := hBox
  have hDrop : o.Parted addr (exec (drop addr) o).2 := by
    rcases Table.exec_detach_cases addr o.table with ⟨r, -, hBorrowed⟩ | ⟨e', hFound', -, hDetach⟩
    · cases hIdle.symm.trans (hBorrowed e hFound)
    obtain rfl := Option.some.inj (hFound.symm.trans hFound')
    obtain ⟨_, _, value, _, _⟩ := e
    obtain rfl : value = .callback label := hValue
    have hRelease := Heap.exec_release o.table.heap addr
    rw [drop, exec_bind_ok (exec_get o), exec_onTable, Object.dropWith, if_neg hNull, exec_bind, exec_attempt,
      Table.remove, exec_bind]
    cases hFreed : o.table.heap.free? addr <;> rw [hFreed] at hRelease <;> rw [hDetach hRelease] <;> exact ⟨rfl, rfl⟩
  show o.Parted addr (exec (drop addr >>= fun _ => pure Reply.none) o).2
  rw [exec_bind_pure]
  exact hDrop

end Owner

/-! ## Callers -/

/-- What a caller has done with the address it was given for the handle. -/
inductive CallbackUse (V : Type) where
  | unused
  | opened (object : Object V)
  | ran (outcome : Except Stop Unit)
  | failed (why : Stop)

namespace CallbackUse

def ofUnbox (addr : UInt32) : Except Stop (Object V) → CallbackUse V
  | .ok object => opened object
  | .error stop => failed (Owner.unopened addr stop)

def isUnused : CallbackUse V → Bool
  | unused => true
  | _ => false

def isRan : CallbackUse V → Bool
  | ran _ => true
  | _ => false

def isOpened : CallbackUse V → Bool
  | opened _ => true
  | _ => false

theorem isUnused_ofUnbox (addr : UInt32) (r : Except Stop (Object V)) : (ofUnbox addr r).isUnused = false := by
  cases r <;> rfl

theorem isRan_ofUnbox (addr : UInt32) (r : Except Stop (Object V)) : (ofUnbox addr r).isRan = false := by
  cases r <;> rfl

end CallbackUse

/-- A call of a boxed callback, or the freeing of it. -/
structure CallbackCall (V : Type) where
  asked : HandleCall (Export V)
  use : CallbackUse V := .unused

namespace CallbackCall

def hasParted (call : CallbackCall V) : Bool := call.asked.stage.isDestroyed || !call.use.isUnused

def hasFreed (call : CallbackCall V) : Bool := call.asked.stage.isDue || call.asked.stage.isDestroyed

def isOver (call : CallbackCall V) : Bool :=
  call.asked.stage.isEnded && !(call.asked.stage.isMoved && (call.use.isUnused || call.use.isOpened))

theorem lost_of_isOver {call : CallbackCall V} (hOver : call.isOver = true) (hNot : call.hasParted = false) :
    call.asked.stage.isDestroyed = false ∧ call.asked.stage.isMoved = false := by
  obtain ⟨hDestroyed, hUsed⟩ := Bool.or_eq_false_iff.mp hNot
  have hUnused : call.use.isUnused = true := by simpa using hUsed
  rw [isOver, hUnused, Bool.true_or, Bool.and_true] at hOver
  exact ⟨hDestroyed, by simpa using ((Bool.and_eq_true _ _).mp hOver).2⟩

theorem won_of_hasFreed {call : CallbackCall V} (hFreed : call.hasFreed = true) :
    call.asked.stage.won?.isSome = true ∧ call.asked.stage.isMoved = false := by
  obtain ⟨⟨handle, request, stage⟩, use⟩ := call
  cases stage with
  | begun => cases hFreed
  | due => exact ⟨rfl, rfl⟩
  | ended how =>
    cases how with
    | destroyed => exact ⟨rfl, rfl⟩
    | nothing => cases hFreed
    | transferred => cases hFreed
    | borrowed => cases hFreed
    | trapped => cases hFreed

end CallbackCall

structure Race (V : Type) where
  session : Session V
  calls : List (CallbackCall V) := []

/-- The box of the callback is in the table, by itself, and the handle owns it. -/
structure OwnedCallback.Boxed (f : OwnedCallback V) (s : Session V) (label : Text) : Prop where
  owns : f.handle.owns s.tokens = true
  notNull : f.handle.addr ≠ 0
  functions : f.call = .callBoxed ∧ f.handle.destructor = some .destructor
  box : s.owner.HoldsCallback f.handle.addr label

theorem Callbacks.lift_boxed {s s' : Session V} {f : OwnedCallback V} {addr : UInt32} {label : Text}
    (hBox : s.owner.HoldsCallback addr label) (hNull : addr ≠ 0)
    (hLift : exec (Callbacks.lift ⟨.callBoxed, .destructor⟩ addr) s = (.ok f, s')) : f.Boxed s' label := by
  obtain ⟨hCallback, rfl⟩ := Prod.mk.inj hLift
  obtain rfl := Except.ok.inj hCallback
  refine ⟨?_, hNull, ⟨rfl, rfl⟩, hBox⟩
  simp [Handle.owns, Tokens.isHeld]

namespace Race

def contest (x : Race V) : Contest (Export V) := ⟨x.session.tokens, x.calls.map (·.asked)⟩

def isBoxed (x : Race V) (addr : UInt32) : Bool := (x.session.owner.table.store.entry? addr).isSome

def journal (x : Race V) : List (Deed (Object V)) := x.session.owner.table.journal

def started (x : Race V) (f : OwnedCallback V) (request : HandleRequest) : Race V :=
  { x with calls := x.calls ++ [{ asked := { handle := f.handle, request } }] }

/-- One atomic step. A call gives the handle up, takes the box out of the table, and runs what was in it; freeing
gives the handle up and drops the box. -/
inductive Step (f : OwnedCallback V) : Race V → Race V → Prop
  | start {x : Race V} {request : HandleRequest} (hRequest : request = .mustTransfer ∨ request = .free) :
      Step f x (x.started f request)
  | act {s : Session V} {tokens : Tokens} {before after : List (CallbackCall V)} {request : HandleRequest}
      {stage : HandleStage (Export V)} {use : CallbackUse V}
      (hAct : f.handle.act s.tokens request = (stage, tokens)) :
      Step f ⟨s, before ++ ⟨⟨f.handle, request, .begun⟩, use⟩ :: after⟩
        ⟨{ s with tokens }, before ++ ⟨⟨f.handle, request, stage⟩, use⟩ :: after⟩
  | drop {s : Session V} {o : Owner V} {before after : List (CallbackCall V)} {request : HandleRequest}
      {release : Export V} {addr : UInt32} {use : CallbackUse V} {answer : Except Stop Reply}
      (hCall : exec (Owner.call release [.u32 addr]) s.owner = (answer, o)) :
      Step f ⟨s, before ++ ⟨⟨f.handle, request, .due release addr⟩, use⟩ :: after⟩
        ⟨{ s with owner := o }, before ++ ⟨⟨f.handle, request, .ended (.destroyed release addr)⟩, use⟩ :: after⟩
  | unbox {s : Session V} {o : Owner V} {before after : List (CallbackCall V)} {addr : UInt32}
      {r : Except Stop (Object V)} (hCall : f.call = .callBoxed) (hUnbox : exec (Owner.unbox addr) s.owner = (r, o)) :
      Step f ⟨s, before ++ ⟨⟨f.handle, .mustTransfer, .ended (.transferred addr true)⟩, .unused⟩ :: after⟩
        ⟨{ s with owner := o },
          before ++ ⟨⟨f.handle, .mustTransfer, .ended (.transferred addr true)⟩, .ofUnbox addr r⟩ :: after⟩
  | run {s : Session V} {o : Owner V} {before after : List (CallbackCall V)} {asked : HandleCall (Export V)}
      {object : Object V} {outcome : Except Stop Unit}
      (hRun : exec (Owner.runObject object) s.owner = (outcome, o)) :
      Step f ⟨s, before ++ ⟨asked, .opened object⟩ :: after⟩
        ⟨{ s with owner := o }, before ++ ⟨asked, .ran outcome⟩ :: after⟩

/-- How often the box leaves the table in a step. -/
def departures (addr : UInt32) (x x' : Race V) : Nat := (x.isBoxed addr && !x'.isBoxed addr).toNat

/-- Where any steps lead from a session, with no call started, and how often the box has left the table on the way. -/
inductive Run (f : OwnedCallback V) (s : Session V) : Nat → Race V → Prop
  | start : Run f s 0 { session := s }
  | step {n : Nat} {x x' : Race V} (hRun : Run f s n x) (hStep : Step f x x') :
      Run f s (n + departures f.handle.addr x x') x'

/-- Who has used the address was given it, and has found the callback in the box. -/
structure Fits (f : OwnedCallback V) (label : Text) (call : CallbackCall V) : Prop where
  handle : call.asked.handle = f.handle
  request : call.asked.request.givesUp = true
  used : call.use.isUnused = false → call.asked.stage.isMoved = true
  opened : ∀ object, call.use = .opened object → object = .callback label

/-- Who has been at the box is counted, and it is in the table until then. -/
structure Valid (f : OwnedCallback V) (s : Session V) (label : Text) (n : Nat) (x : Race V) : Prop where
  contest : Contest.Run f.handle s.tokens x.contest
  fits : ∀ call ∈ x.calls, Fits f label call
  parted : x.calls.countP (·.hasParted) = n
  boxed : n = 0 → x.session.owner.HoldsCallback f.handle.addr label
  gone : n ≠ 0 → x.isBoxed f.handle.addr = false
  journal : x.journal = s.owner.table.journal ++
    List.replicate (x.calls.countP (·.use.isRan)) (.called (.callback label))

variable {f : OwnedCallback V} {s s' : Session V} {label : Text} {n : Nat} {x x' : Race V} {o : Owner V}
  {before after : List (CallbackCall V)} {call call' : CallbackCall V} {addr : UInt32}

theorem contest_replaced (s : Session V) (call : CallbackCall V) : contest ⟨s, before ++ call :: after⟩ =
    ⟨s.tokens, before.map (·.asked) ++ call.asked :: after.map (·.asked)⟩ := by
  simp [contest]

theorem contest_wins (x : Race V) : x.contest.wins = x.calls.countP (·.asked.stage.won?.isSome) :=
  List.countP_map ..

theorem Step.contest {t : Tokens} (hStep : Step f x x') (hRun : Contest.Run f.handle t x.contest) :
    Contest.Run f.handle t x'.contest := by
  cases hStep with
  | @start _ request =>
    have hNext := hRun.step (.start request (.inl rfl))
    simpa [Race.contest, started] using hNext
  | act hAct =>
    rw [contest_replaced] at hRun ⊢
    exact hRun.step (.act hAct)
  | drop =>
    rw [contest_replaced] at hRun ⊢
    exact hRun.step .destroy
  | unbox =>
    rw [contest_replaced] at hRun ⊢
    exact hRun
  | run =>
    rw [contest_replaced] at hRun ⊢
    exact hRun

theorem departures_of_store (hStore : x'.session.owner.table.store = x.session.owner.table.store) :
    departures addr x x' = 0 := by
  simp [departures, isBoxed, hStore]

theorem isBoxed_of_parted (hParted : o.Parted addr x.session.owner) : x.isBoxed addr = false := by
  simp [isBoxed, hParted.store, Store.entry?_erase]

theorem departures_of_parted (hBox : x.session.owner.HoldsCallback addr label)
    (hParted : x.session.owner.Parted addr x'.session.owner) : departures addr x x' = 1 := by
  obtain ⟨e, hFound, -⟩ := hBox
  rw [departures, isBoxed_of_parted hParted, isBoxed, hFound]
  rfl

theorem Fits.moved_of_isRan (hf : Fits f label call) (hRan : call.use.isRan = true) :
    call.asked.stage.isMoved = true := by
  refine hf.used ?_
  cases hUse : call.use with
  | ran => rfl
  | unused => rw [hUse] at hRan; cases hRan
  | opened => rfl
  | failed => rfl

theorem Fits.won_of_isRan (hf : Fits f label call) (hRan : call.use.isRan = true) :
    call.asked.stage.won?.isSome = true :=
  HandleStage.isSome_won?_of_isMoved (hf.moved_of_isRan hRan)

theorem Fits.won_of_hasParted (hf : Fits f label call) (hParted : call.hasParted = true) :
    call.asked.stage.won?.isSome = true := by
  rcases (Bool.or_eq_true _ _).mp hParted with hDestroyed | hUsed
  · exact HandleStage.isSome_won?_of_isDestroyed hDestroyed
  · exact HandleStage.isSome_won?_of_isMoved (hf.used (by simpa using hUsed))

theorem Fits.unused (hf : Fits f label call) (hNot : call.asked.stage.isMoved = false) : call.use.isUnused = true := by
  by_contra hUsed
  have hMoved := hf.used (Bool.eq_false_iff.mpr hUsed)
  rw [hNot] at hMoved
  cases hMoved

theorem Valid.contestValid (hb : f.Boxed s label) (hv : Valid f s label n x) : x.contest.Valid f.handle :=
  hv.contest.valid hb.owns hb.functions.2 hb.notNull

theorem Valid.wins_le (hb : f.Boxed s label) (hv : Valid f s label n x) :
    x.calls.countP (·.asked.stage.won?.isSome) ≤ 1 := by
  have hBalance := (hv.contestValid hb).balance
  rw [contest_wins] at hBalance
  omega

theorem Valid.others (hb : f.Boxed s label) (hv : Valid f s label n ⟨s', before ++ call :: after⟩)
    (hWon : call.asked.stage.won?.isSome = true) {p : CallbackCall V → Bool}
    (hp : ∀ c, Fits f label c → p c = true → c.asked.stage.won?.isSome = true) :
    (before ++ call :: after).countP p = (p call).toNat := by
  have hFits := List.forall_mem_append.mp hv.fits
  have hBefore : before.countP p ≤ before.countP (·.asked.stage.won?.isSome) :=
    List.countP_mono_left fun c hc => hp c (hFits.1 c hc)
  have hAfter : after.countP p ≤ after.countP (·.asked.stage.won?.isSome) :=
    List.countP_mono_left fun c hc => hp c (hFits.2 c (List.mem_cons_of_mem _ hc))
  have hWins := hv.wins_le hb
  rw [countP_replaced, hWon, Bool.toNat_true] at hWins
  rw [countP_replaced]
  omega

/-- As long as the one who has the handle has not been at the box, nobody has. -/
theorem Valid.first (hb : f.Boxed s label) (hv : Valid f s label n ⟨s', before ++ call :: after⟩)
    (hWon : call.asked.stage.won?.isSome = true) (hNot : call.hasParted = false) : n = 0 := by
  rw [← hv.parted, hv.others hb hWon fun _ hf => hf.won_of_hasParted, hNot]
  rfl

theorem Valid.start (hv : Valid f s label n x) {request : HandleRequest}
    (hRequest : request = .mustTransfer ∨ request = .free)
    (hContest : Contest.Run f.handle s.tokens (x.started f request).contest) :
    Valid f s label n (x.started f request) := by
  refine ⟨hContest, ?_, ?_, hv.boxed, hv.gone, ?_⟩
  · refine List.forall_mem_append.mpr ⟨hv.fits, List.forall_mem_singleton.mpr ⟨rfl, ?_, ?_, ?_⟩⟩
    · rcases hRequest with rfl | rfl <;> rfl
    · intro hUsed
      cases hUsed
    · intro object hOpened
      cases hOpened
  · rw [started, List.countP_append, hv.parted]
    rfl
  · rw [started, List.countP_append]
    exact hv.journal

variable {tokens : Tokens}

theorem Valid.replace (hv : Valid f s label n ⟨s', before ++ call :: after⟩)
    (hContest : Contest.Run f.handle s.tokens (Race.contest ⟨{ s' with tokens }, before ++ call' :: after⟩))
    (hFits : Fits f label call') (hParted : call'.hasParted = call.hasParted) (hUse : call'.use = call.use) :
    Valid f s label n ⟨{ s' with tokens }, before ++ call' :: after⟩ := by
  refine ⟨hContest, forall_mem_replaced hv.fits hFits, ?_, hv.boxed, hv.gone, ?_⟩
  · rw [← hv.parted, countP_replaced, countP_replaced, hParted]
  · rw [countP_replaced, hUse, ← countP_replaced]
    exact hv.journal

theorem Valid.part (hb : f.Boxed s label) (hv : Valid f s label n ⟨s', before ++ call :: after⟩)
    (hContest : Contest.Run f.handle s.tokens (Race.contest ⟨{ s' with owner := o }, before ++ call' :: after⟩))
    (hWon : call.asked.stage.won?.isSome = true) (hNot : call.hasParted = false) (hFits : Fits f label call')
    (hNew : call'.hasParted = true) (hRan : call'.use.isRan = call.use.isRan)
    (hParted : s'.owner.Parted f.handle.addr o) :
    Valid f s label (n + departures f.handle.addr ⟨s', before ++ call :: after⟩
      ⟨{ s' with owner := o }, before ++ call' :: after⟩) ⟨{ s' with owner := o }, before ++ call' :: after⟩ := by
  obtain rfl := hv.first hb hWon hNot
  have hCount := hv.parted
  rw [departures_of_parted (hv.boxed rfl) hParted]
  refine ⟨hContest, forall_mem_replaced hv.fits hFits, ?_, fun hZero => ?_, fun _ => isBoxed_of_parted hParted, ?_⟩
  · rw [countP_replaced, hNot, Bool.toNat_false, Nat.add_zero] at hCount
    rw [countP_replaced, hCount, hNew, Bool.toNat_true]
  · cases hZero
  · rw [countP_replaced, hRan, ← countP_replaced]
    exact hParted.journal.trans hv.journal

theorem Valid.run (hv : Valid f s label n ⟨s', before ++ call :: after⟩)
    (hContest : Contest.Run f.handle s.tokens (Race.contest ⟨{ s' with owner := o }, before ++ call' :: after⟩))
    (hFits : Fits f label call') (hParted : call'.hasParted = call.hasParted) (hRan : call.use.isRan = false)
    (hNew : call'.use.isRan = true) (hStore : o.table.store = s'.owner.table.store)
    (hJournal : o.table.journal = s'.owner.table.journal ++ [.called (.callback label)]) :
    Valid f s label n ⟨{ s' with owner := o }, before ++ call' :: after⟩ := by
  refine ⟨hContest, forall_mem_replaced hv.fits hFits, ?_, fun hZero => ?_, fun hLeft => ?_, ?_⟩
  · rw [← hv.parted, countP_replaced, countP_replaced, hParted]
  · obtain ⟨e, hFound, hCallback⟩ := hv.boxed hZero
    exact ⟨e, by rwa [hStore], hCallback⟩
  · have hGone := hv.gone hLeft
    rwa [isBoxed, ← hStore] at hGone
  · have hBefore := hv.journal
    rw [countP_replaced, hRan, Bool.toNat_false, Nat.add_zero] at hBefore
    rw [countP_replaced, hNew, Bool.toNat_true, List.replicate_succ', ← List.append_assoc, ← hBefore]
    exact hJournal

theorem Valid.stay (hStore : x'.session.owner.table.store = x.session.owner.table.store) (hv : Valid f s label n x') :
    Valid f s label (n + departures f.handle.addr x x') x' := by
  rwa [departures_of_store hStore]

theorem Valid.won (hb : f.Boxed s label) (hv : Valid f s label n ⟨s', before ++ call :: after⟩)
    (hWon : call.asked.stage.won? = some addr) : addr = f.handle.addr := by
  have hHandle := (hv.contestValid hb).fits call.asked (List.mem_map_of_mem (by simp))
  exact (hHandle.won addr hWon).2

theorem Step.valid (hb : f.Boxed s label) (hStep : Step f x x') (hv : Valid f s label n x) :
    Valid f s label (n + departures f.handle.addr x x') x' := by
  have hContest := hStep.contest hv.contest
  cases hStep with
  | start hRequest => exact .stay rfl (hv.start hRequest hContest)
  | @act s' tokens before after request stage use hAct =>
    have hCall := hv.fits ⟨⟨f.handle, request, .begun⟩, use⟩ (by simp)
    have hUnused := hCall.unused rfl
    have hStage : stage.isDestroyed = false := by rw [← f.handle.act_isDestroyed s'.tokens request, hAct]
    refine .stay rfl (hv.replace hContest ⟨rfl, hCall.request, fun hUsed => ?_, hCall.opened⟩ ?_ rfl)
    · cases hUnused.symm.trans hUsed
    · rw [CallbackCall.hasParted, hStage]
      rfl
  | @drop s' o before after request release addr use answer hDrop =>
    have hCall := hv.fits ⟨⟨f.handle, request, .due release addr⟩, use⟩ (by simp)
    have hUnused := hCall.unused rfl
    have hHandle := (hv.contestValid hb).fits ⟨f.handle, request, .due release addr⟩ (by simp [Race.contest])
    obtain rfl : release = .destructor := Option.some.inj ((hHandle.due _ _ rfl).symm.trans hb.functions.2)
    obtain rfl := hv.won hb rfl
    have hNot : CallbackCall.hasParted (V := V) ⟨⟨f.handle, request, .due .destructor f.handle.addr⟩, use⟩ = false := by
      simp [CallbackCall.hasParted, hUnused, HandleStage.isDestroyed]
    have hParted := (hv.boxed (hv.first hb rfl hNot)).exec_drop hb.notNull
    rw [hDrop] at hParted
    refine hv.part hb hContest rfl hNot ⟨rfl, hCall.request, fun hUsed => ?_, hCall.opened⟩ rfl rfl hParted
    cases hUnused.symm.trans hUsed
  | @unbox s' o before after addr r _ hUnbox =>
    obtain rfl := hv.won hb rfl
    obtain ⟨hParted, hObject⟩ := (hv.boxed (hv.first hb rfl rfl)).exec_unbox
    rw [hUnbox] at hParted hObject
    refine hv.part hb hContest rfl rfl ⟨rfl, rfl, fun _ => rfl, fun object hOpened => ?_⟩ ?_
      (CallbackUse.isRan_ofUnbox _ r) hParted
    · cases r with
      | error => cases hOpened
      | ok object' => rw [← CallbackUse.opened.inj hOpened, hObject object' rfl]
    · rw [CallbackCall.hasParted, CallbackUse.isUnused_ofUnbox]
      rfl
  | @run s' o before after asked object outcome hRun =>
    have hCall := hv.fits ⟨asked, .opened object⟩ (by simp)
    obtain rfl := hCall.opened object rfl
    obtain ⟨-, rfl⟩ := Prod.mk.inj hRun
    refine .stay rfl (hv.run hContest ⟨hCall.handle, hCall.request, fun _ => hCall.used rfl, fun object hOpened => ?_⟩
      rfl rfl rfl rfl rfl)
    cases hOpened

theorem Run.valid (hb : f.Boxed s label) (hRun : Run f s n x) : Valid f s label n x := by
  induction hRun with
  | start =>
    refine ⟨.start, List.forall_mem_nil _, rfl, fun _ => hb.box, fun hLeft => absurd rfl hLeft, ?_⟩
    exact (List.append_nil _).symm
  | step _ hStep ih => exact hStep.valid hb ih

/-- The callback runs at most once, and not when it is freed; its box leaves the table at most once, and has left it
once every call is over. -/
structure OneShot (f : OwnedCallback V) (s : Session V) (label : Text) (n : Nat) (x : Race V) : Prop where
  runs : ∃ k ≤ 1, x.journal = s.owner.table.journal ++ List.replicate k (.called (.callback label))
  freed : ∀ call ∈ x.calls, call.hasFreed = true → x.journal = s.owner.table.journal
  atMostOnce : n ≤ 1
  once : (∀ call ∈ x.calls, call.isOver = true) → x.calls ≠ [] → n = 1
  gone : n = 1 → x.isBoxed f.handle.addr = false

theorem Valid.freed (hb : f.Boxed s label) (hv : Valid f s label n x) (hCall : call ∈ x.calls)
    (hFreed : call.hasFreed = true) : x.journal = s.owner.table.journal := by
  obtain ⟨s', calls⟩ := x
  obtain ⟨before, after, rfl⟩ := List.append_of_mem hCall
  obtain ⟨hWon, hKept⟩ := CallbackCall.won_of_hasFreed hFreed
  have hNotRan : call.use.isRan = false := by
    refine Bool.eq_false_iff.mpr fun hRan => ?_
    have hMoved := (hv.fits call hCall).moved_of_isRan hRan
    cases hKept.symm.trans hMoved
  have hNone : (before ++ call :: after).countP (·.use.isRan) = 0 := by
    rw [hv.others hb hWon fun _ hf => hf.won_of_isRan, hNotRan]
    rfl
  rw [hv.journal, hNone]
  exact List.append_nil _

theorem Valid.oneShot (hb : f.Boxed s label) (hv : Valid f s label n x) : x.OneShot f s label n := by
  have hWins := hv.wins_le hb
  have hCount := hv.parted
  have hParted : x.calls.countP (·.hasParted) ≤ x.calls.countP (·.asked.stage.won?.isSome) :=
    List.countP_mono_left fun c hc => (hv.fits c hc).won_of_hasParted
  have hRan : x.calls.countP (·.use.isRan) ≤ x.calls.countP (·.asked.stage.won?.isSome) :=
    List.countP_mono_left fun c hc => (hv.fits c hc).won_of_isRan
  refine ⟨⟨_, Nat.le_trans hRan hWins, hv.journal⟩, fun call hCall => hv.freed hb hCall, by omega,
    fun hOver hSome => ?_, fun hOne => hv.gone (by omega)⟩
  by_contra hNever
  have hLost : ∀ call ∈ x.calls, call.asked.stage.isDestroyed = false ∧ call.asked.stage.isMoved = false := by
    intro call hCall
    have hZero : x.calls.countP (·.hasParted) = 0 := by omega
    have hKept : call.hasParted = false := Bool.eq_false_iff.mpr (List.countP_eq_zero.mp hZero call hCall)
    exact CallbackCall.lost_of_isOver (hOver call hCall) hKept
  have hOnce : x.contest.destructorCalls + x.contest.transfers = 1 := by
    refine (hv.contest.singleWinner hb.owns hb.functions.2 hb.notNull).exactlyOne ?_ ?_
    · refine List.forall_mem_map.mpr fun call hCall => ?_
      exact ((Bool.and_eq_true _ _).mp (hOver call hCall)).1
    · obtain ⟨call, hCall⟩ := List.exists_mem_of_ne_nil _ hSome
      exact ⟨call.asked, List.mem_map_of_mem hCall, (hv.fits call hCall).handle, (hv.fits call hCall).request⟩
  have hNoDestructor : x.contest.destructorCalls = 0 :=
    List.countP_eq_zero.mpr (List.forall_mem_map.mpr fun call hCall => Bool.eq_false_iff.mp (hLost call hCall).1)
  have hNoTransfer : x.contest.transfers = 0 :=
    List.countP_eq_zero.mpr (List.forall_mem_map.mpr fun call hCall => Bool.eq_false_iff.mp (hLost call hCall).2)
  omega

/-! ## Calls that nothing interrupts -/

theorem exec_run_refused {why : Report} (hTransfer : f.handle.mustTransfer s.tokens = .error why) :
    exec f.run s = (.error (.trapped (.report why)), s) := by
  have hMust : exec (Session.mustTransfer f.handle) s = (.error (.trapped (.report why)), s) := by
    rw [Session.mustTransfer, exec_bind_ok (exec_get s), hTransfer]
    rfl
  exact exec_bind_error hMust

theorem exec_run_moved (hCall : f.call = .callBoxed)
    (hTransfer : f.handle.mustTransfer s.tokens = .ok (addr, tokens)) :
    (exec f.run s).2 = { s with owner := (exec (Owner.callBoxed addr) s.owner).2, tokens } := by
  have hMust : exec (Session.mustTransfer f.handle) s = (.ok addr, { s with tokens }) := by
    rw [Session.mustTransfer, exec_bind_ok (exec_get s), hTransfer]
    rfl
  rw [OwnedCallback.run, exec_bind_ok hMust, exec_bind_pure, hCall, Session.call, Session.onOwner, exec_within]
  show { s with owner := (exec (Owner.callBoxed addr >>= fun _ => pure Reply.none) s.owner).2, tokens } = _
  rw [exec_bind_pure]

theorem exec_free_due {release : Export V} (hFree : f.handle.free s.tokens = (some (release, addr), tokens)) :
    (exec (Session.free f.handle) s).2 =
      { s with owner := (exec (Owner.call release [.u32 addr]) s.owner).2, tokens } := by
  rw [Session.free, exec_bind_ok (exec_get s), hFree]
  show (exec (Session.call release [.u32 addr] >>= fun _ => pure ()) { s with tokens }).2 = _
  rw [exec_bind_pure, Session.call, Session.onOwner, exec_within]

theorem exec_free_nothing (hFree : f.handle.free s.tokens = (none, tokens)) :
    (exec (Session.free f.handle) s).2 = { s with tokens } := by
  rw [Session.free, exec_bind_ok (exec_get s), hFree]
  rfl

/-- One more request, started at `x` and run to its end, leaves the session `s'`. -/
def Completes (f : OwnedCallback V) (s : Session V) (x : Race V) (request : HandleRequest) (s' : Session V) : Prop :=
  ∃ m call, Run f s m ⟨s', x.calls ++ [call]⟩ ∧ call.asked.request = request ∧ call.isOver = true

/-- Calling or freeing the callback is such steps, one after the other. -/
structure Sequential (f : OwnedCallback V) (s : Session V) (x : Race V) : Prop where
  call : x.Completes f s .mustTransfer (exec f.run x.session).2
  free : x.Completes f s .free (exec (Session.free f.handle) x.session).2

theorem Run.calling (hCall : f.call = .callBoxed) (hRun : Run f s n x) :
    x.Completes f s .mustTransfer (exec f.run x.session).2 := by
  have hStarted := hRun.step (.start (.inl rfl))
  cases hTransfer : f.handle.mustTransfer x.session.tokens with
  | error why =>
    have hAct : f.handle.act x.session.tokens .mustTransfer = (.ended (.trapped why), x.session.tokens) := by
      rw [Handle.act, hTransfer]
    rw [exec_run_refused hTransfer]
    exact ⟨_, _, hStarted.step (.act hAct), rfl, rfl⟩
  | ok moved =>
    obtain ⟨addr, tokens⟩ := moved
    have hAct : f.handle.act x.session.tokens .mustTransfer = (.ended (.transferred addr true), tokens) := by
      rw [Handle.act, hTransfer]
    have hMoved := hStarted.step (.act hAct)
    rw [exec_run_moved hCall hTransfer]
    rcases hUnbox : exec (Owner.unbox addr) x.session.owner with ⟨stop | object, o⟩
    · rw [Owner.exec_callBoxed_error hUnbox]
      exact ⟨_, _, hMoved.step (.unbox hCall hUnbox), rfl, rfl⟩
    · rw [Owner.exec_callBoxed_ok hUnbox]
      exact ⟨_, _, (hMoved.step (.unbox hCall hUnbox)).step (.run rfl), rfl, rfl⟩

theorem Run.freeing (hRun : Run f s n x) : x.Completes f s .free (exec (Session.free f.handle) x.session).2 := by
  have hStarted := hRun.step (.start (.inr rfl))
  rcases hFree : f.handle.free x.session.tokens with ⟨_ | ⟨release, addr⟩, tokens⟩
  · have hAct : f.handle.act x.session.tokens .free = (.ended .nothing, tokens) := by
      rw [Handle.act, hFree]
    rw [exec_free_nothing hFree]
    exact ⟨_, _, hStarted.step (.act hAct), rfl, rfl⟩
  · have hAct : f.handle.act x.session.tokens .free = (.due release addr, tokens) := by
      rw [Handle.act, hFree]
    rw [exec_free_due hFree]
    exact ⟨_, _, (hStarted.step (.act hAct)).step (.drop rfl), rfl, rfl⟩

end Race

/-- Whatever the order of the steps, a handle gives its object away once; so a boxed callback is called or freed
once. -/
theorem OwnedCallback.one_shot_ownership :
    (∀ {δ : Type} (h : Handle δ) (d : δ) (t : Tokens), h.owns t = true → h.destructor = some d → h.addr ≠ 0 →
      ∀ c, Contest.Run h t c → c.SingleWinner h) ∧
    (∀ {V : Type} (f : OwnedCallback V) (s : Session V) (label : Text), f.Boxed s label →
      ∀ n x, Race.Run f s n x → x.OneShot f s label n ∧ x.Sequential f s) := by
  refine ⟨fun h d t hOwns hd hNull c hRun => hRun.singleWinner hOwns hd hNull, fun f s label hb n x hRun => ?_⟩
  exact ⟨(hRun.valid hb).oneShot hb, hRun.calling hb.functions.1, hRun.freeing⟩

theorem Race.exists_raced :
    ∃ (f : OwnedCallback Nat) (s : Session Nat) (n : Nat) (x : Race Nat), s.owner.Reached ∧ f.Boxed s "f" ∧
      Run f s n x ∧ x.calls.map (·.asked.request) = [.mustTransfer, .free] ∧
      (∀ call ∈ x.calls, call.isOver = true) ∧ x.journal = [.called (.callback "f")] := by
  obtain ⟨o, o', hReached, hBox, hUnbox, hJournal⟩ : ∃ o o' : Owner Nat, o.Reached ∧ o.HoldsCallback 16 "f" ∧
      exec (Owner.unbox 16) o = (.ok (.callback "f"), o') ∧ o'.table.journal = [] := by
    have hRun : Owner.Reached (V := Nat) _ := .create {} rfl
    have hRun := hRun.act (.boxCallback "f")
    exact ⟨_, _, hRun, ⟨_, rfl, rfl, rfl⟩, rfl, rfl⟩
  obtain ⟨f, s, rfl, hAddr, hb⟩ : ∃ (f : OwnedCallback Nat) (s : Session Nat), s.owner = o ∧ f.handle.addr = 16 ∧
      f.Boxed s "f" := ⟨_, _, rfl, rfl, Callbacks.lift_boxed (s := { owner := o }) hBox (by decide) rfl⟩
  obtain ⟨t, hSpend, hSpent, -⟩ := Handle.spend?_of_owns hb.owns
  have hCall : f.handle.act s.tokens .mustTransfer = (.ended (.transferred 16 true), t) := by
    simp [Handle.act, Handle.mustTransfer, hSpend, hAddr]
  have hFree : f.handle.act t .free = (.ended .nothing, t) := by
    simp [Handle.act, Handle.free, Handle.spend?_of_not_owns hSpent]
  have hRun := (Run.start.step (.start (f := f) (x := { session := s }) (.inl rfl))).step (.start (.inr rfl))
  -- the call gets the handle, and the freeing ends before the box is opened
  have hRun := hRun.step (.act hCall : Step f ⟨s, [] ++ _ :: [_]⟩ _)
  have hRun := hRun.step (.act hFree : Step f ⟨{ s with tokens := t }, [_] ++ _ :: []⟩ _)
  have hRun := hRun.step (.unbox hb.functions.1 hUnbox : Step f ⟨{ s with tokens := t }, [] ++ _ :: [_]⟩ _)
  have hRun := hRun.step (.run rfl : Step f ⟨{ s with owner := o', tokens := t }, [] ++ _ :: [_]⟩ _)
  refine ⟨f, s, _, _, hReached, hb, hRun, rfl, ?_, ?_⟩
  · exact List.forall_mem_cons.mpr ⟨rfl, List.forall_mem_singleton.mpr rfl⟩
  · show o'.table.journal ++ [.called (.callback "f")] = _
    rw [hJournal]
    rfl

theorem OwnedCallback.one_shot_ownership_raced :
    ∃ (f : OwnedCallback Nat) (s : Session Nat) (x : Race Nat), s.owner.Reached ∧ f.Boxed s "f" ∧ Race.Run f s 1 x ∧
      x.calls.map (·.asked.request) = [.mustTransfer, .free] ∧ x.journal = [.called (.callback "f")] ∧
      x.OneShot f s "f" 1 ∧ x.Sequential f s ∧ x.contest.SingleWinner f.handle := by
  obtain ⟨f, s, n, x, hReached, hb, hRun, hCalls, hOver, hJournal⟩ := Race.exists_raced
  obtain ⟨hShot, hWhole⟩ := one_shot_ownership.2 f s "f" hb n x hRun
  have hStarted : x.calls ≠ [] := by
    intro hNil
    rw [hNil] at hCalls
    cases hCalls
  obtain rfl : n = 1 := hShot.once hOver hStarted
  exact ⟨f, s, x, hReached, hb, hRun, hCalls, hJournal, hShot, hWhole,
    one_shot_ownership.1 f.handle _ s.tokens hb.owns hb.functions.2 hb.notNull _ (hRun.valid hb).contest⟩

end Marshal
