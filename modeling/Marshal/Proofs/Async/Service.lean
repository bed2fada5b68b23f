import Marshal.Managed.Calls
import Marshal.Proofs.Async.Executor

/-! # Asynchronous functions answer once

An owner publishes asynchronous functions and accepts calls of them, while its worker runs and somebody
closes it. A task that the worker finishes hands its answer to the context of its call. The answers that are
due can be read off the history alone: one for each call that was accepted, the function as it was published
applied to the argument of that call. They are given in that order, each once.
-/
set_option autoImplicit false
namespace Marshal

open Step

variable {V : Type}

def Task.completion (task : Task) : UInt32 × UInt32 := (task.context, task.body.run task.arg)

/-- An owner with its worker, and what the worker has handed to contexts so far. -/
structure Service (V : Type) where
  owner : Owner V
  left : Bool := false
  closing : Closing := .none
  completions : List (UInt32 × UInt32) := []

inductive ServiceEvent where
  | published (name : Text) (body : AsyncBody)
  | called (symbol : Text) (arg context : UInt32) (answer : Except Stop Unit)
  | work (event : WorkEvent)
  | other

namespace Service

def pool (s : Service V) : Pool Task := ⟨s.owner.executor, s.left, s.closing⟩

def withPool (s : Service V) (p : Pool Task) : Service V :=
  { s with owner := { s.owner with executor := p.executor }, left := p.left, closing := p.closing }

inductive Step : Service V → ServiceEvent → Service V → Prop
  | publish {s : Service V} {name : Text} {body : AsyncBody} {o : Owner V}
      (hExec : exec (Owner.exportAsync name body) s.owner = (.ok (), o)) :
      Step s (.published name body) { s with owner := o }
  | call {s : Service V} {name symbol : Text} {body : AsyncBody} {arg context : UInt32}
      {answer : Except Stop Unit} {o : Owner V} (hFound : s.owner.export? name = some (.async symbol body))
      (hExec : exec (Owner.spawn symbol ⟨body, arg, context⟩) s.owner = (answer, o)) :
      Step s (.called name arg context answer) { s with owner := o }
  | finish {s : Service V} {task : Task} {p : Pool Task} (hBusy : s.owner.executor.running = some task)
      (hStep : s.pool.Step (.work .finished) p) :
      Step s (.work .finished) { s.withPool p with completions := s.completions ++ [task.completion] }
  | work {s : Service V} {event : WorkEvent} {p : Pool Task} (hOther : event ≠ .finished)
      (hStep : s.pool.Step (.work event) p) : Step s (.work event) (s.withPool p)
  /-- Whatever else the owner does leaves the executor and the asynchronous functions alone. -/
  | other {s : Service V} {o : Owner V} (hSame : o.executor = s.owner.executor)
      (hAsync : ∀ name symbol body,
        o.export? name = some (.async symbol body) ↔ s.owner.export? name = some (.async symbol body)) :
      Step s .other { s with owner := o }

/-- What happened to an owner, newest first, and where that has led. -/
inductive Run (o : Owner V) : List ServiceEvent → Service V → Prop
  | start : Run o [] { owner := o }
  | step {trace : List ServiceEvent} {s s' : Service V} {event : ServiceEvent} (hRun : Run o trace s)
      (hStep : Step s event s') : Run o (event :: trace) s'

def published : List ServiceEvent → Text → Option AsyncBody
  | [], _ => none
  | .published name body :: earlier, symbol =>
    if Symbol.ofFunction name = symbol then some body else published earlier symbol
  | _ :: earlier, symbol => published earlier symbol

def accepted : List ServiceEvent → List Task
  | [] => []
  | .called symbol arg context (.ok ()) :: earlier =>
    accepted earlier ++ ((published earlier symbol).map fun body => ⟨body, arg, context⟩).toList
  | _ :: earlier => accepted earlier

def poolTrace : List ServiceEvent → List (PoolEvent Task)
  | [] => []
  | .called symbol arg context (.ok ()) :: earlier =>
    ((published earlier symbol).map fun body => .accepted ⟨body, arg, context⟩).toList ++ poolTrace earlier
  | .work event :: earlier => .work event :: poolTrace earlier
  | _ :: earlier => poolTrace earlier

end Service

namespace Owner

variable {o : Owner V}

theorem exec_spawn_ok {symbol : Text} {task : Task} {e : Executor Task}
    (h : o.executor.spawn task = .ok e) : exec (spawn symbol task) o = (.ok (), { o with executor := e }) := by
  rw [spawn, exec_bind_ok (exec_get o), h]
  rfl

theorem exec_spawn_error {symbol : Text} {task : Task} {r : Report} (h : o.executor.spawn task = .error r) :
    exec (spawn symbol task) o = (.error (.trapped (.wrap .async r.kind (.report r) symbol)), o) := by
  rw [spawn, exec_bind_ok (exec_get o), h]
  rfl

theorem export?_append {name : Text} (hNew : o.export? name = none) (f : Export V) (symbol : Text) :
    { o with exports := o.exports ++ [(name, f)] }.export? symbol =
      if name = symbol then some f else o.export? symbol := by
  unfold export? at hNew ⊢
  rw [List.find?_append]
  split
  · rename_i hName
    subst hName
    rw [Option.map_eq_none_iff.mp hNew]
    simp
  · rename_i hName
    simp [hName]

theorem create_async {config : Config} (h : create config = .ok o) : (∃ depth, o.executor = .create depth) ∧
      ∀ name symbol body, o.export? name ≠ some (.async symbol body) := by
  cases hBackend : (config.withDefaults 1).validate with
  | error r =>
    rw [create, hBackend] at h
    cases h
  | ok backend =>
    rw [create, hBackend] at h
    obtain rfl := Except.ok.inj h
    refine ⟨⟨_, rfl⟩, ?_⟩
    intro name symbol body hFound
    have hMem := mem_of_export? hFound
    change _ ∈ [(Symbol.callBoxed, Export.callBoxed), (Symbol.freeBoxed, .destructor)] at hMem
    simp at hMem

end Owner

def Registry.completeEach (r : Registry) (completions : List (UInt32 × UInt32)) : Registry :=
  completions.foldl (fun r c => (r.complete c.1 (.u32 c.2)).2) r

namespace Session

theorem exec_completeAll {tasks : List Task} {t : Session V} (hDone : (exec (completeAll tasks) t).1 = .ok ()) :
    (exec (completeAll tasks) t).2 =
      { t with registry := t.registry.completeEach (tasks.map Task.completion) } := by
  induction tasks generalizing t with
  | nil => rfl
  | cons task rest ih =>
    rw [completeAll, exec_bind_ok (exec_get t)] at hDone ⊢
    rw [List.map_cons, Registry.completeEach, List.foldl_cons]
    rcases hOut : t.registry.complete task.context (.u32 (task.body.run task.arg)) with ⟨_ | _, registry⟩
    · simp only [hOut, exec_bind_ok (exec_modify _ t), exec_trap] at hDone
      cases hDone
    · simp only [hOut, exec_bind_ok (exec_modify _ t), Task.completion] at hDone ⊢
      exact ih hDone

theorem exec_deliver {t : Session V} (hDone : (exec deliver t).1 = .ok ()) :
    (exec deliver t).2 = { t with
      delivered := t.owner.executor.finished.length
      registry := t.registry.completeEach ((t.owner.executor.finished.drop t.delivered).map Task.completion) } := by
  rw [deliver, exec_bind_ok (exec_get t), exec_bind_ok (exec_set _ t)] at hDone ⊢
  exact exec_completeAll hDone

end Session

namespace Service

/-- The owner's functions are those the history shows, and its executor ran as such a one does. -/
structure Valid (depth : Int) (trace : List ServiceEvent) (s : Service V) : Prop where
  functions : ∀ name symbol body, s.owner.export? name = some (.async symbol body) ↔
    symbol = name ∧ published trace name = some body
  run : Pool.Run depth (poolTrace trace) s.pool
  completions : s.completions = s.owner.executor.finished.map Task.completion

theorem accepted_poolTrace (trace : List ServiceEvent) : Pool.accepted (poolTrace trace) = accepted trace := by
  fun_induction accepted trace with
  | case1 => rfl
  | case2 symbol arg context earlier ih =>
    cases hBody : published earlier symbol with
    | none => simpa [poolTrace, hBody] using ih
    | some body => simp [poolTrace, hBody, Pool.accepted, ih]
  | case3 event earlier hOther ih =>
    rw [← ih]
    cases event with
    | published | work | other => rfl
    | called symbol arg context answer =>
      cases answer with
      | error => rfl
      | ok => exact absurd rfl (hOther symbol arg context)

variable {trace : List ServiceEvent}

theorem mem_poolTrace {event : WorkEvent} : .work event ∈ poolTrace trace ↔ .work event ∈ trace := by
  fun_induction poolTrace trace with
  | case1 => simp
  | case2 symbol arg context earlier ih => cases published earlier symbol <;> simp [ih]
  | case3 other earlier ih => simp [ih]
  | case4 event earlier hCalled hWork ih =>
    rw [ih, List.mem_cons]
    constructor
    · exact .inr
    · rintro (rfl | hMem)
      · exact absurd rfl (hWork _)
      · exact hMem

theorem poolTrace_suffix (later earlier : List ServiceEvent) : poolTrace earlier <:+ poolTrace (later ++ earlier) := by
  induction later with
  | nil => exact List.suffix_rfl
  | cons event later ih =>
    refine ih.trans ?_
    cases event with
    | published | other => exact List.suffix_rfl
    | work => exact List.suffix_cons _ _
    | called symbol arg context answer =>
      cases answer with
      | error => exact List.suffix_rfl
      | ok => exact List.suffix_append _ _

theorem finished_of_step {p p' : Pool Task} {event : WorkEvent} (hStep : p.Step (.work event) p')
    (hOther : event ≠ .finished) : p'.executor.finished = p.executor.finished := by
  cases hStep with
  | take hHere hIdle hQueue =>
    obtain ⟨task, queue, hQueue⟩ := List.exists_cons_of_ne_nil hQueue
    rw [Executor.takeNext_of_idle hIdle hQueue]
  | finish => exact absurd rfl hOther
  | leave | closeBegin | closeBefore | closeReturn => rfl

theorem Valid.start {config : Config} {o : Owner V} (h : Owner.create config = .ok o) :
    ∃ depth, Valid depth [] ({ owner := o } : Service V) := by
  obtain ⟨⟨depth, hIdle⟩, hNone⟩ := Owner.create_async h
  refine ⟨depth, ?_, ?_, ?_⟩
  · intro name symbol body
    simp [hNone, published]
  · rw [pool, hIdle]
    exact .start
  · rw [hIdle]
    rfl

theorem Step.valid {depth : Int} {s s' : Service V} {event : ServiceEvent}
    (hStep : Step s event s') (hv : s.Valid depth trace) : s'.Valid depth (event :: trace) := by
  cases hStep with
  | @publish name body o hExec =>
    rcases Owner.exec_exportAs_cases (Symbol.ofFunction name) (.async (Symbol.ofFunction name) body) s.owner with
      ⟨why, hTaken⟩ | ⟨hNew, hNone⟩
    · rw [Owner.exportAsync, hTaken] at hExec
      cases hExec
    · rw [Owner.exportAsync, hNew] at hExec
      obtain rfl := (Prod.mk.inj hExec).2
      refine ⟨fun symbol target body' => ?_, hv.run, hv.completions⟩
      rw [Owner.export?_append hNone, published]
      split
      · rename_i hName
        simp [hName, eq_comm]
      · exact hv.functions symbol target body'
  | @call name symbol body arg context answer o hFound hExec =>
    obtain ⟨rfl, hBody⟩ := (hv.functions name symbol body).mp hFound
    cases hSpawn : s.owner.executor.spawn ⟨body, arg, context⟩ with
    | error r =>
      rw [Owner.exec_spawn_error hSpawn] at hExec
      obtain ⟨rfl, rfl⟩ := Prod.mk.inj hExec
      exact ⟨hv.functions, hv.run, hv.completions⟩
    | ok e =>
      rw [Owner.exec_spawn_ok hSpawn] at hExec
      obtain ⟨rfl, rfl⟩ := Prod.mk.inj hExec
      have hRun := hv.run.step (.accept (p := s.pool) hSpawn)
      obtain ⟨-, -, rfl⟩ := Executor.spawn_eq_ok hSpawn
      refine ⟨hv.functions, ?_, hv.completions⟩
      rw [poolTrace, hBody]
      exact hRun
  | @finish task p hBusy hStep =>
    refine ⟨hv.functions, hv.run.step hStep, ?_⟩
    cases hStep
    show s.completions ++ _ = List.map _ s.owner.executor.finish.finished
    rw [hv.completions, Executor.finish_of_busy hBusy, List.map_append]
    rfl
  | @work event p hOther hStep =>
    refine ⟨hv.functions, hv.run.step hStep, ?_⟩
    show s.completions = List.map _ p.executor.finished
    rw [finished_of_step hStep hOther]
    exact hv.completions
  | @other o hSame hAsync =>
    refine ⟨fun name symbol body => ?_, ?_, ?_⟩
    · rw [hAsync]
      exact hv.functions name symbol body
    · have hRun := hv.run
      rw [pool, ← hSame] at hRun
      exact hRun
    · rw [hSame]
      exact hv.completions

theorem Run.valid {config : Config} {o : Owner V} (h : Owner.create config = .ok o)
    {s : Service V} (hRun : Run o trace s) : ∃ depth, s.Valid depth trace := by
  induction hRun with
  | start => exact Valid.start h
  | step _ hStep ih =>
    obtain ⟨depth, hv⟩ := ih
    exact ⟨depth, hStep.valid hv⟩

/-- What callers of asynchronous functions can rely on. -/
structure Answers (trace : List ServiceEvent) (s : Service V) : Prop where
  order : s.completions ++ (s.owner.executor.running.toList ++ s.owner.executor.queue).map Task.completion =
    (accepted trace).map Task.completion
  drained : .work .closed ∈ trace → s.completions = (accepted trace).map Task.completion
  closedBefore : ∀ later earlier, trace = later ++ .work .closedBefore :: earlier →
    .work .closing ∈ earlier ∧ accepted trace = accepted earlier
  /-- A context of trapped calls only is never completed. -/
  never : ∀ context, (∀ symbol arg, .called symbol arg context (.ok ()) ∉ trace) →
    ∀ v, (context, v) ∉ s.completions
  found : ∀ name body, published trace name = some body ↔ s.owner.export? name = some (.async name body)
  traps : ∀ symbol task, .work .closing ∈ trace ∨ s.owner.executor.queue.length = s.owner.executor.depth →
    ∃ why, exec (Owner.spawn symbol task) s.owner = (.error (.trapped why), s.owner)
  accepts : ∀ symbol task, .work .closing ∉ trace → s.owner.executor.queue.length ≠ s.owner.executor.depth →
    ∃ o, exec (Owner.spawn symbol task) s.owner = (.ok (), o)
  /-- Closing the owner in one go leaves no accepted call without its answer. -/
  closes : s.owner.closed = false →
    (exec Owner.close s.owner).2.executor.finished.map Task.completion = (accepted trace).map Task.completion
  /-- A session completes its contexts with what it has not handed on before. -/
  handed : ∀ t : Session V, t.owner = s.owner → (exec Session.deliver t).1 = .ok () →
    (exec Session.deliver t).2 = { t with
      delivered := s.completions.length
      registry := t.registry.completeEach (s.completions.drop t.delivered) }

theorem mem_accepted {task : Task} (h : task ∈ accepted trace) :
    ∃ symbol, .called symbol task.arg task.context (.ok ()) ∈ trace := by
  fun_induction accepted trace with
  | case1 => cases h
  | case2 symbol arg context earlier ih =>
    rcases List.mem_append.mp h with hMem | hMem
    · obtain ⟨symbol', hMem⟩ := ih hMem
      exact ⟨symbol', List.mem_cons_of_mem _ hMem⟩
    · simp only [Option.mem_toList, Option.map_eq_some_iff] at hMem
      obtain ⟨body, -, rfl⟩ := hMem
      exact ⟨symbol, List.mem_cons_self⟩
  | case3 event earlier hOther ih =>
    obtain ⟨symbol, hMem⟩ := ih h
    exact ⟨symbol, List.mem_cons_of_mem event hMem⟩

theorem executor_close {o : Owner V} (hOpen : o.closed = false) :
    (exec Owner.close o).2.executor = o.executor.close.settle fun _ => true := by
  rw [Owner.close, exec_bind_ok (exec_get o)]
  simp only [hOpen, Bool.false_eq_true, if_false]
  rw [exec_bind_ok (exec_modify _ o), exec_bind_ok (exec_get _), Owner.onTable, exec_within]

theorem Valid.answers {depth : Int} {s : Service V} (hv : s.Valid depth trace) : s.Answers trace := by
  have hPool := hv.run.delivers
  have hOrder : s.completions ++ (s.owner.executor.running.toList ++ s.owner.executor.queue).map Task.completion =
      (accepted trace).map Task.completion := by
    rw [← accepted_poolTrace, ← hPool.order, hv.completions, ← List.map_append, ← List.append_assoc]
    rfl
  constructor
  case order => exact hOrder
  case drained =>
    intro hClosed
    rw [← accepted_poolTrace, ← (hPool.drained (mem_poolTrace.mpr hClosed)).1]
    exact hv.completions
  case closedBefore =>
    rintro later earlier rfl
    obtain ⟨poolLater, hTrace⟩ := poolTrace_suffix later (.work .closedBefore :: earlier)
    obtain ⟨hClosing, hAccepted⟩ := hPool.closedBefore poolLater (poolTrace earlier) hTrace.symm
    rw [accepted_poolTrace, accepted_poolTrace] at hAccepted
    exact ⟨mem_poolTrace.mp hClosing, hAccepted⟩
  case never =>
    intro context hNever v hMem
    have hMem := List.mem_append_left
      ((s.owner.executor.running.toList ++ s.owner.executor.queue).map Task.completion) hMem
    rw [hOrder] at hMem
    obtain ⟨task, hTask, hEq⟩ := List.mem_map.mp hMem
    obtain ⟨rfl, -⟩ := Prod.mk.inj hEq
    obtain ⟨symbol, hCalled⟩ := mem_accepted hTask
    exact hNever symbol task.arg hCalled
  case found =>
    intro name body
    simp [hv.functions]
  case traps =>
    intro symbol task hWhy
    obtain ⟨r, hSpawn⟩ := (hPool.refuses task).mpr (by rwa [mem_poolTrace])
    exact ⟨_, Owner.exec_spawn_error hSpawn⟩
  case accepts =>
    intro symbol task hOpen hRoom
    cases hSpawn : s.owner.executor.spawn task with
    | ok e => exact ⟨_, Owner.exec_spawn_ok hSpawn⟩
    | error r =>
      have hWhy := (hPool.refuses task).mp ⟨r, hSpawn⟩
      rw [mem_poolTrace] at hWhy
      exact absurd hWhy (not_or.mpr ⟨hOpen, hRoom⟩)
  case closes =>
    intro hOpen
    rw [executor_close hOpen, ← accepted_poolTrace]
    have hClose := congrArg Executor.finished hPool.closes
    exact congrArg (List.map Task.completion) hClose
  case handed =>
    intro t hOwner hDone
    rw [Session.exec_deliver hDone, hOwner, hv.completions, List.length_map, List.map_drop]

end Service

/-- Accepted tasks are run once, in their order, and asynchronous calls are answered accordingly. All are done when the
one who has closed the executor returns. -/
theorem Executor.runs_accepted_in_order :
    (∀ (α : Type) (depth : Int) (trace : List (PoolEvent α)) (p : Pool α), Pool.Run depth trace p →
      Pool.Delivers depth trace p) ∧
    (∀ (V : Type) (config : Config) (o : Owner V) (trace : List ServiceEvent) (s : Service V),
      Owner.create config = .ok o → Service.Run o trace s → s.Answers trace) := by
  constructor
  · intro α depth trace p hRun
    exact hRun.delivers
  · intro V config o trace s hCreate hRun
    obtain ⟨depth, hv⟩ := Service.Run.valid hCreate hRun
    exact hv.answers

/-- A queue of one place that fills up and an executor that is closed twice, and an owner that is closed while its
worker is busy. -/
theorem Executor.runs_accepted_in_order_closed :
    let tasks : List (PoolEvent Nat) := [.work .closed, .work .left, .work .finished, .work .taken, .work .finished,
      .work .closedBefore, .work .closing, .rejected 8 (fullReport 1), .accepted 9, .work .taken, .accepted 7]
    let symbol := Symbol.ofFunction "double"
    let late : Stop := .trapped (.wrap .async .notInitialized (.report closedReport) symbol)
    let calls : List ServiceEvent := [.work .closed, .work .left, .work .finished, .called symbol 6 2 (.error late),
      .work .closing, .work .taken, .called symbol 5 1 (.ok ()), .published "double" ⟨false, (2 * ·)⟩]
    (∃ p : Pool Nat, Pool.Run 1 tasks p ∧ p.executor.finished = [7, 9] ∧ Pool.Delivers 1 tasks p) ∧
    (∃ (o : Owner Nat) (s : Service Nat), Owner.create {} = .ok o ∧ Service.Run o calls s ∧
      s.completions = [(1, 10)] ∧ s.Answers calls) := by
  intro tasks symbol late calls
  constructor
  · have hRun : Pool.Run 1 tasks _ := .step (.step (.step (.step (.step (.step (.step (.step (.step (.step (.step .start
      (.accept rfl)) (.take rfl rfl nofun)) (.accept rfl)) (.reject rfl)) (.closeBegin rfl)) (.closeBefore rfl))
      (.finish nofun)) (.take rfl rfl nofun)) (.finish nofun)) (.leave rfl rfl rfl)) (.closeReturn rfl rfl)
    exact ⟨_, hRun, rfl, runs_accepted_in_order.1 Nat 1 tasks _ hRun⟩
  · let o : Owner Nat := (exec Owner.exportBoxed
      { table := { heap := .create .linear 1 1024 }, executor := .create 10000,
        config := Config.withDefaults {} 1 }).2
    have hCreate : Owner.create {} = .ok o := rfl
    have hRun : Service.Run o calls _ := .step (.step (.step (.step (.step (.step (.step (.step .start
      (.publish rfl)) (.call rfl rfl)) (.work nofun (.take rfl rfl nofun))) (.work nofun (.closeBegin rfl)))
      (.call rfl rfl)) (.finish rfl (.finish nofun))) (.work nofun (.leave rfl rfl rfl)))
      (.work nofun (.closeReturn rfl rfl))
    exact ⟨o, _, hCreate, hRun, rfl, runs_accepted_in_order.2 Nat {} o calls _ hCreate hRun⟩

/-- Who closes an executor that is being closed returns while one task is running and another is queued. -/
theorem Executor.closed_twice_leaves_tasks :
    ∃ (trace : List (PoolEvent Nat)) (p : Pool Nat), Pool.Run 1 (.work .closedBefore :: trace) p ∧
      Pool.accepted trace = [7, 9] ∧ p.executor.finished = [] ∧ p.executor.running = some 7 ∧
      p.executor.queue = [9] := by
  have hRun : Pool.Run 1 [.work .closedBefore, .work .closing, .accepted 9, .work .taken, .accepted 7] _ :=
    .step (.step (.step (.step (.step .start (.accept rfl)) (.take rfl rfl nofun)) (.accept rfl)) (.closeBegin rfl))
      (.closeBefore rfl)
  exact ⟨_, _, hRun, rfl, rfl, rfl, rfl⟩

end Marshal
