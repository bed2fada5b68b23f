import Mathlib.Logic.Relation
import Marshal.Proofs.Owner.Declared

/-! # The executor and its worker

Those who spawn, the worker and whoever closes act in any order, one atomic step at a time. The worker takes
the task at the head of the queue, finishes it, and leaves when the executor is closed and nothing is queued;
the one who closed waits for that. Whoever finds the executor closed already does not wait for anything.

Nothing is lost, doubled or moved in the queue, so the calls of asynchronous functions complete in the order
in which they were accepted, each with its own context and answer.
-/
set_option autoImplicit false
namespace Marshal

open Step

inductive Closing where
  | none
  | begun
  | returned
deriving DecidableEq

/-- An executor, whether its worker has left, and how far closing it has come. -/
structure Pool (α : Type) where
  executor : Executor α
  left : Bool := false
  closing : Closing := .none

/-- What the worker and those who close do. -/
inductive WorkEvent where
  | taken
  | finished
  | left
  | closing
  | closedBefore
  | closed
deriving DecidableEq

inductive PoolEvent (α : Type) where
  | accepted (task : α)
  | rejected (task : α) (why : Report)
  | work (event : WorkEvent)

namespace Executor

variable {α : Type}

def started (e : Executor α) : List α := e.finished ++ e.running.toList

theorem spawn_eq_ok {e e' : Executor α} {task : α} (h : e.spawn task = .ok e') :
    e.closed = false ∧ e.queue.length < e.depth ∧ e' = { e with queue := e.queue ++ [task] } := by
  unfold spawn at h
  split at h
  · cases h
  · split at h
    · rename_i hOpen hRoom
      exact ⟨by simpa using hOpen, hRoom, (Except.ok.inj h).symm⟩
    · cases h

variable {e : Executor α}

theorem takeNext_of_idle (hIdle : e.running = none) {task : α} {queue : List α}
    (hQueue : e.queue = task :: queue) : e.takeNext = { e with running := some task, queue } := by
  simp only [takeNext, hIdle, hQueue]

theorem finish_of_busy {task : α} (hBusy : e.running = some task) :
    e.finish = { e with running := none, finished := e.finished ++ [task] } := by
  simp only [finish, hBusy]

theorem takeNext_of_empty (hQueue : e.queue = []) : e.takeNext = e := by
  unfold takeNext
  split
  · rename_i hSome
    rw [hQueue] at hSome
    cases hSome
  · rfl

theorem repeat_succ_apply {β : Type} (f : β → β) (n : Nat) (b : β) :
    Nat.repeat f (n + 1) b = Nat.repeat f n (f b) := by
  induction n with
  | zero => rfl
  | succ n ih =>
    show f (Nat.repeat f (n + 1) b) = f (Nat.repeat f n (f b))
    rw [ih]

theorem repeat_advance_of_busy (queue : List α) (task : α) (e : Executor α) (hBusy : e.running = some task)
    (hQueue : e.queue = queue) :
    Nat.repeat (advance fun _ => true) (queue.length + 1) e =
      { e with running := none, queue := [], finished := e.finished ++ task :: queue } := by
  induction queue generalizing task e with
  | nil =>
    show e.advance (fun _ => true) = _
    simp only [advance, hBusy, if_pos, finish_of_busy hBusy]
    rw [takeNext_of_empty (by exact hQueue), hQueue]
  | cons next queue ih =>
    have hRound : e.advance (fun _ => true) =
        { e with running := some next, queue, finished := e.finished ++ [task] } := by
      simp only [advance, hBusy, if_pos, finish_of_busy hBusy]
      exact takeNext_of_idle rfl hQueue
    rw [List.length_cons, repeat_succ_apply, hRound, ih next _ rfl rfl, List.append_assoc]
    rfl

theorem settle_all (e : Executor α) :
    e.settle (fun _ => true) = { e with running := none, queue := [], finished := e.started ++ e.queue } := by
  unfold settle pending started
  cases hRunning : e.running with
  | some task =>
    simp only [Option.toList_some, List.length_singleton]
    -- the last round finds nothing left to do
    show advance _ (Nat.repeat _ (e.queue.length + 1) e) = _
    rw [repeat_advance_of_busy e.queue task e hRunning rfl, List.append_assoc]
    rfl
  | none =>
    simp only [Option.toList_none, List.length_nil, List.append_nil]
    rw [repeat_succ_apply]
    simp only [advance, hRunning]
    cases hQueue : e.queue with
    | nil =>
      rw [takeNext_of_empty hQueue, List.append_nil]
      show e = _
      rw [← hRunning, ← hQueue]
    | cons task queue =>
      rw [takeNext_of_idle hRunning hQueue]
      exact repeat_advance_of_busy queue task _ rfl rfl

end Executor

namespace Pool

variable {α : Type}

inductive Step : Pool α → PoolEvent α → Pool α → Prop
  | accept {p : Pool α} {task : α} {e : Executor α} (hSpawn : p.executor.spawn task = .ok e) :
      Step p (.accepted task) { p with executor := e }
  | reject {p : Pool α} {task : α} {why : Report} (hSpawn : p.executor.spawn task = .error why) :
      Step p (.rejected task why) p
  | take {p : Pool α} (hHere : p.left = false) (hIdle : p.executor.running = none)
      (hQueue : p.executor.queue ≠ []) : Step p (.work .taken) { p with executor := p.executor.takeNext }
  | finish {p : Pool α} (hBusy : p.executor.running ≠ none) :
      Step p (.work .finished) { p with executor := p.executor.finish }
  | leave {p : Pool α} (hIdle : p.executor.running = none) (hQueue : p.executor.queue = [])
      (hClosed : p.executor.closed = true) : Step p (.work .left) { p with left := true }
  | closeBegin {p : Pool α} (hOpen : p.executor.closed = false) :
      Step p (.work .closing) { p with executor := p.executor.close, closing := .begun }
  | closeBefore {p : Pool α} (hClosed : p.executor.closed = true) : Step p (.work .closedBefore) p
  | closeReturn {p : Pool α} (hBegun : p.closing = .begun) (hLeft : p.left = true) :
      Step p (.work .closed) { p with closing := .returned }

/-- What happened to a new executor, newest first, and where that has led. -/
inductive Run (depth : Int) : List (PoolEvent α) → Pool α → Prop
  | start : Run depth [] { executor := .create depth }
  | step {trace : List (PoolEvent α)} {p p' : Pool α} {event : PoolEvent α} (hRun : Run depth trace p)
      (hStep : Step p event p') : Run depth (event :: trace) p'

def accepted : List (PoolEvent α) → List α
  | [] => []
  | .accepted task :: earlier => accepted earlier ++ [task]
  | _ :: earlier => accepted earlier

/-- The queue is in order, and nobody has left before the work was done. -/
structure Valid (trace : List (PoolEvent α)) (p : Pool α) : Prop where
  order : p.executor.started ++ p.executor.queue = accepted trace
  bounded : p.executor.queue.length ≤ p.executor.depth
  left : p.left = true → p.executor.closed = true ∧ p.executor.running = none ∧ p.executor.queue = []
  closing : p.executor.closed = true ↔ p.closing ≠ .none
  returned : p.closing = .returned → p.left = true

theorem Valid.start (depth : Int) : Valid [] ({ executor := .create depth } : Pool α) := by
  constructor
  · rfl
  · exact Nat.zero_le _
  · nofun
  · exact ⟨nofun, fun h => absurd rfl h⟩
  · nofun

variable {trace : List (PoolEvent α)} {p : Pool α} {depth : Int}

theorem Step.valid {p p' : Pool α} {event : PoolEvent α} (hStep : Step p event p')
    (hv : p.Valid trace) : p'.Valid (event :: trace) := by
  cases hStep with
  | accept hSpawn =>
    obtain ⟨hOpen, hRoom, rfl⟩ := Executor.spawn_eq_ok hSpawn
    constructor
    · show p.executor.started ++ (p.executor.queue ++ [_]) = accepted trace ++ [_]
      rw [← List.append_assoc, hv.order]
    · simpa using Nat.succ_le_of_lt hRoom
    · intro hLeft
      have hClosed := (hv.left hLeft).1
      rw [hOpen] at hClosed
      cases hClosed
    · exact hv.closing
    · exact hv.returned
  | reject => exact ⟨hv.order, hv.bounded, hv.left, hv.closing, hv.returned⟩
  | take hHere hIdle hQueue =>
    obtain ⟨task, queue, hQueue⟩ := List.exists_cons_of_ne_nil hQueue
    have hOrder : _ = accepted (.work .taken :: trace) := hv.order
    have hBounded := hv.bounded
    rw [hQueue] at hOrder hBounded
    rw [Executor.started, hIdle] at hOrder
    rw [Executor.takeNext_of_idle hIdle hQueue]
    constructor
    · simpa [Executor.started] using hOrder
    · exact Nat.le_of_succ_le hBounded
    · intro hLeft
      rw [hHere] at hLeft
      cases hLeft
    · exact hv.closing
    · exact hv.returned
  | finish hBusy =>
    obtain ⟨task, hBusy⟩ := Option.ne_none_iff_exists'.mp hBusy
    have hOrder : _ = accepted (.work .finished :: trace) := hv.order
    rw [Executor.started, hBusy] at hOrder
    rw [Executor.finish_of_busy hBusy]
    constructor
    · simpa [Executor.started] using hOrder
    · exact hv.bounded
    · intro hLeft
      have hIdle := (hv.left hLeft).2.1
      rw [hBusy] at hIdle
      cases hIdle
    · exact hv.closing
    · exact hv.returned
  | leave hIdle hQueue hClosed =>
    exact ⟨hv.order, hv.bounded, fun _ => ⟨hClosed, hIdle, hQueue⟩, hv.closing, fun _ => rfl⟩
  | closeBegin hOpen =>
    constructor
    · exact hv.order
    · exact hv.bounded
    · intro hLeft
      exact ⟨rfl, (hv.left hLeft).2⟩
    · exact ⟨fun _ => nofun, fun _ => rfl⟩
    · nofun
  | closeBefore => exact ⟨hv.order, hv.bounded, hv.left, hv.closing, hv.returned⟩
  | closeReturn hBegun hLeft =>
    have hClosed := (hv.left hLeft).1
    exact ⟨hv.order, hv.bounded, hv.left, ⟨fun _ => nofun, fun _ => hClosed⟩, fun _ => hLeft⟩

def Works : Pool α → Pool α → Prop :=
  Relation.ReflTransGen fun p p' => Step p (.work .taken) p' ∨ Step p (.work .finished) p'

theorem works_takeNext (hHere : p.left = false) (hIdle : p.executor.running = none) :
    p.Works { p with executor := p.executor.takeNext } := by
  by_cases hQueue : p.executor.queue = []
  · rw [Executor.takeNext_of_empty hQueue]
    exact .refl
  · exact .single (.inl (.take hHere hIdle hQueue))

theorem works_advance (hHere : p.left = false) (ready : α → Bool) :
    p.Works { p with executor := p.executor.advance ready } := by
  unfold Executor.advance
  cases hRunning : p.executor.running with
  | none => exact works_takeNext hHere hRunning
  | some task =>
    by_cases hReady : ready task = true
    · simp only [hReady, if_true]
      have hFinish : Step p (.work .finished) { p with executor := p.executor.finish } := .finish (by simp [hRunning])
      refine .head (.inr hFinish) (works_takeNext hHere ?_)
      rw [Executor.finish_of_busy hRunning]
    · simp only [hReady]
      exact .refl

theorem works_settle (hHere : p.left = false) (ready : α → Bool) :
    p.Works { p with executor := p.executor.settle ready } := by
  unfold Executor.settle
  induction p.executor.pending + 1 with
  | zero => exact .refl
  | succ n ih =>
    have hRound := works_advance (p := { p with executor := Nat.repeat (.advance ready) n p.executor }) hHere ready
    exact ih.trans hRound

theorem Run.works {p p' : Pool α} (hRun : Run depth trace p)
    (hWorks : p.Works p') : ∃ later, Run depth (later ++ trace) p' ∧ accepted (later ++ trace) = accepted trace := by
  induction hWorks with
  | refl => exact ⟨[], hRun, rfl⟩
  | tail _ hStep ih =>
    obtain ⟨later, hLater, hSame⟩ := ih
    rcases hStep with hStep | hStep
    · exact ⟨.work .taken :: later, hLater.step hStep, hSame⟩
    · exact ⟨.work .finished :: later, hLater.step hStep, hSame⟩

theorem Run.valid (hRun : Run depth trace p) : p.Valid trace := by
  induction hRun with
  | start => exact .start depth
  | step hRun hStep ih => exact hStep.valid ih

theorem Run.depth_eq (hRun : Run depth trace p) :
    p.executor.depth = if depth < 1 then Executor.defaultDepth else depth.toNat := by
  induction hRun with
  | start => rfl
  | step hRun hStep ih =>
    cases hStep with
    | accept hSpawn =>
      obtain ⟨-, -, rfl⟩ := Executor.spawn_eq_ok hSpawn
      exact ih
    | take hHere hIdle hQueue =>
      obtain ⟨task, queue, hQueue⟩ := List.exists_cons_of_ne_nil hQueue
      rw [Executor.takeNext_of_idle hIdle hQueue]
      exact ih
    | finish hBusy =>
      obtain ⟨task, hBusy⟩ := Option.ne_none_iff_exists'.mp hBusy
      rw [Executor.finish_of_busy hBusy]
      exact ih
    | reject | leave | closeBegin | closeBefore | closeReturn => exact ih

theorem Run.closing_iff (hRun : Run depth trace p) :
    (p.closing ≠ .none ↔ .work .closing ∈ trace) ∧ (p.closing = .returned ↔ .work .closed ∈ trace) := by
  induction hRun with
  | start => simp
  | @step trace p _ _ hRun hStep ih =>
    cases hStep with
    | closeBegin hOpen =>
      have hNone : p.closing = .none := by
        by_contra hStage
        have hClosed := hRun.valid.closing.mpr hStage
        rw [hOpen] at hClosed
        cases hClosed
      rw [hNone] at ih
      simpa using ih.2
    | closeReturn hBegun =>
      have hMem := ih.1.mp (by simp [hBegun])
      simpa using hMem
    | accept | reject | take | finish | leave | closeBefore => simpa using ih

theorem Run.returns (hRun : Run depth trace p)
    (hBegun : p.closing = .begun) : ∃ later p', Run depth (.work .closed :: later ++ trace) p' := by
  have hClosed := hRun.valid.closing.mpr (by simp [hBegun])
  cases hHere : p.left with
  | true => exact ⟨[], _, hRun.step (.closeReturn hBegun hHere)⟩
  | false =>
    obtain ⟨later, hLater, -⟩ := hRun.works (works_settle hHere fun _ => true)
    rw [Executor.settle_all] at hLater
    have hLeft := hLater.step (.leave rfl rfl hClosed)
    exact ⟨.work .left :: later, _, hLeft.step (.closeReturn hBegun rfl)⟩

theorem Run.of_append {later : List (PoolEvent α)} (hRun : Run depth (later ++ trace) p) : ∃ q, Run depth trace q := by
  induction later generalizing p with
  | nil => exact ⟨p, hRun⟩
  | cons event later ih =>
    obtain _ | ⟨hRun, -⟩ := hRun
    exact ih hRun

theorem Run.closed_iff (hRun : Run depth trace p) : p.executor.closed = true ↔ .work .closing ∈ trace :=
  hRun.valid.closing.trans hRun.closing_iff.1

theorem Run.accepted_of_closing {later : List (PoolEvent α)} (hRun : Run depth (later ++ trace) p)
    (hClosing : .work .closing ∈ trace) : accepted (later ++ trace) = accepted trace := by
  induction later generalizing p with
  | nil => rfl
  | cons event later ih =>
    obtain _ | ⟨hRun, hStep⟩ := hRun
    cases hStep with
    | accept hSpawn =>
      have hClosed := hRun.closed_iff.mpr (List.mem_append_right later hClosing)
      cases hClosed.symm.trans (Executor.spawn_eq_ok hSpawn).1
    | reject | take | finish | leave | closeBegin | closeBefore | closeReturn => exact ih hRun

/-- Who finds the executor closed knows that nothing more is accepted; some of what was may still be waiting. -/
theorem Run.closedBefore {later earlier : List (PoolEvent α)}
    (hRun : Run depth (later ++ .work .closedBefore :: earlier) p) :
    .work .closing ∈ earlier ∧ accepted (later ++ .work .closedBefore :: earlier) = accepted earlier := by
  obtain ⟨q, _ | ⟨hBefore, hStep⟩⟩ := hRun.of_append
  cases hStep with
  | closeBefore hClosed =>
    have hClosing := hBefore.closed_iff.mp hClosed
    exact ⟨hClosing, hRun.accepted_of_closing (List.mem_cons_of_mem _ hClosing)⟩

/-- What an executor promises. -/
structure Delivers (depth : Int) (trace : List (PoolEvent α)) (p : Pool α) : Prop where
  order : p.executor.started ++ p.executor.queue = accepted trace
  size : p.executor.depth = if depth < 1 then Executor.defaultDepth else depth.toNat
  bounded : p.executor.queue.length ≤ p.executor.depth
  closed : p.executor.closed = true ↔ .work .closing ∈ trace
  refuses : ∀ task, (∃ why, p.executor.spawn task = .error why) ↔
    .work .closing ∈ trace ∨ p.executor.queue.length = p.executor.depth
  /-- A task that was only ever rejected has not begun. -/
  idle : ∀ task, .accepted task ∉ trace → task ∉ p.executor.started
  drained : .work .closed ∈ trace → p.executor.finished = accepted trace ∧ p.executor.pending = 0
  /-- Who comes to close and finds that done waits for nothing. The tasks accepted by then are all there will be. -/
  closedBefore : ∀ later earlier, trace = later ++ .work .closedBefore :: earlier →
    .work .closing ∈ earlier ∧ accepted trace = accepted earlier
  /-- Closing gets through. -/
  returns : .work .closing ∈ trace → .work .closed ∉ trace → ∃ later p', Run depth (.work .closed :: later ++ trace) p'
  /-- The worker as it is run here takes some of the steps above. -/
  settles : p.left = false → ∀ ready, p.Works { p with executor := p.executor.settle ready }
  closes : p.executor.close.settle (fun _ => true) =
    { p.executor with running := none, queue := [], finished := accepted trace, closed := true }

theorem mem_accepted {task : α} : task ∈ accepted trace ↔ .accepted task ∈ trace := by
  fun_induction accepted trace with
  | case1 => simp
  | case2 earlier other ih => simp [ih, or_comm]
  | case3 event earlier hOther ih =>
    rw [ih, List.mem_cons]
    constructor
    · exact .inr
    · rintro (rfl | hMem)
      · exact absurd rfl (hOther task)
      · exact hMem

theorem Valid.refuses (hv : p.Valid trace) (task : α) : (∃ why, p.executor.spawn task = .error why) ↔
      p.executor.closed = true ∨ p.executor.queue.length = p.executor.depth := by
  have hBounded := hv.bounded
  unfold Executor.spawn
  split
  · simp_all
  · split
    · simp_all
      omega
    · simp_all
      omega

theorem Run.delivers (hRun : Run depth trace p) : Delivers depth trace p := by
  have hv := hRun.valid
  have hClosed := hRun.closed_iff
  constructor
  case order => exact hv.order
  case size => exact hRun.depth_eq
  case bounded => exact hv.bounded
  case closed => exact hClosed
  case refuses =>
    intro task
    rw [hv.refuses task, hClosed]
  case idle =>
    intro task hNever hMem
    have hMem := List.mem_append_left p.executor.queue hMem
    rw [hv.order, mem_accepted] at hMem
    exact hNever hMem
  case drained =>
    intro hMem
    obtain ⟨-, hIdle, hQueue⟩ := hv.left (hv.returned (hRun.closing_iff.2.mpr hMem))
    have hOrder := hv.order
    rw [Executor.started, hIdle, hQueue] at hOrder
    exact ⟨by simpa using hOrder, by simp [Executor.pending, hIdle, hQueue]⟩
  case closedBefore =>
    rintro later earlier rfl
    exact hRun.closedBefore
  case returns =>
    intro hBegun hPending
    have hNone := hRun.closing_iff.1.mpr hBegun
    have hReturned := mt hRun.closing_iff.2.mp hPending
    apply hRun.returns
    cases hStage : p.closing with
    | none => exact absurd hStage hNone
    | begun => rfl
    | returned => exact absurd hStage hReturned
  case settles => exact fun hHere => works_settle hHere
  case closes =>
    rw [Executor.settle_all, ← hv.order]
    rfl

end Pool

end Marshal
