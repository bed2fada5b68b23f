import Marshal.Proofs.Async.Exchange
import Marshal.Proofs.Async.Service

/-! # Traps of asynchronous calls

A call opens its context before the executor is asked for a place in its queue, and a context is closed before its
value is looked at. So a trap in between leaves the registry changed. After a call that was refused, its context is
pending, and as no task has it, it stays so until somebody completes it by hand. After a value of the wrong type, the
context is gone, and its future waits for a value that nobody can deliver any more.
-/
set_option autoImplicit false
namespace Marshal

open Step

/-! ## Registries -/

namespace Registry

def contexts (r : Registry) : List UInt32 := r.pending.map Prod.fst

def Empty (r : Registry) (i : Nat) : Prop := ∃ f, r.futures[i]? = some f ∧ f.inbox = none

/-- Every pending context has an empty future of its own. -/
structure Kept (r : Registry) : Prop where
  contexts : r.contexts.Nodup
  positions : (r.pending.map Prod.snd).Nodup
  empty : ∀ p ∈ r.pending, r.Empty p.2

inductive Use : Registry → Registry → Prop
  | start {r : Registry} (typeName : Text) (hRoom : r.pending.length < 2 ^ 32 - 1) : Use r (r.start typeName).2
  | complete {r : Registry} (context : UInt32) (v : Datum) : Use r (r.complete context v).2
  | await {r : Registry} (i : Nat) : Use r (r.await i).2

def Later : Registry → Registry → Prop := Relation.ReflTransGen Use

variable {r : Registry} {context : UInt32} {v : Datum} {i : Nat}

theorem nextContext_not_mem (hRoom : r.pending.length < 2 ^ 32 - 1) : r.nextContext ∉ r.contexts := by
  intro hMem
  have hIdle := (r.nextContext_free hRoom).2
  rw [isPending_iff.mpr hMem] at hIdle
  cases hIdle

theorem complete_of_mismatch (hNodup : r.contexts.Nodup) (h : (context, i) ∈ r.pending)
    (hType : ∀ f, r.futures[i]? = some f → f.typeName ≠ v.typeName) :
    r.complete context v = (.error (mismatch context v), { r with pending := r.pending.filter (·.1 ≠ context) }) := by
  simp only [complete, find?_pending hNodup h]
  split
  · rename_i f hf
    rw [if_neg (hType f hf)]
  · rfl

theorem complete_cases (hNodup : r.contexts.Nodup) (context : UInt32) (v : Datum) :
    (context ∉ r.contexts ∧ r.complete context v = (.error (.doubleCompletion context), r)) ∨
      ∃ i, (context, i) ∈ r.pending ∧
        ((∃ f, r.futures[i]? = some f ∧ r.complete context v = (.ok (), { r with
            pending := r.pending.filter (·.1 ≠ context)
            futures := r.futures.set i { f with inbox := some v } })) ∨
          (∀ f, r.futures[i]? = some f → f.typeName ≠ v.typeName) ∧ r.complete context v =
            (.error (mismatch context v), { r with pending := r.pending.filter (·.1 ≠ context) })) := by
  by_cases hPending : context ∈ r.contexts
  · obtain ⟨⟨_, i⟩, hMem, rfl⟩ := List.mem_map.mp hPending
    refine .inr ⟨i, hMem, ?_⟩
    by_cases hType : ∃ f, r.futures[i]? = some f ∧ f.typeName = v.typeName
    · obtain ⟨f, hf, hType⟩ := hType
      exact .inl ⟨f, hf, complete_of_pending hNodup hMem hf hType⟩
    · have hOther : ∀ f, r.futures[i]? = some f → f.typeName ≠ v.typeName :=
        fun f hf hSame => hType ⟨f, hf, hSame⟩
      exact .inr ⟨hOther, complete_of_mismatch hNodup hMem hOther⟩
  · exact .inl ⟨hPending, complete_of_not_pending hPending v⟩

theorem await_cases (r : Registry) (i : Nat) :
    (r.await i).2 = r ∨ ∃ f f', r.futures[i]? = some f ∧ f'.typeName = f.typeName ∧
      (f.inbox = none → f'.inbox = none) ∧ (r.await i).2 = r.setFuture i f' := by
  unfold await
  split
  · exact .inl rfl
  · rename_i f hf
    cases hEnter : f.enter with
    | error report => exact .inl rfl
    | ok f₁ =>
      obtain ⟨-, -, rfl⟩ := Future.enter_eq_ok hEnter
      cases hReceive : Future.receive? { f with waiting := true } with
      | none =>
        simp only [hReceive]
        refine .inr ⟨f, _, hf, ?_, ?_, rfl⟩
        · rfl
        · exact id
      | some received =>
        obtain ⟨w, f₂⟩ := received
        simp only [hReceive]
        obtain ⟨-, rfl⟩ := Future.receive?_eq_some hReceive
        refine .inr ⟨f, _, hf, ?_, ?_, rfl⟩
        · rfl
        · exact fun _ => rfl

theorem await_of_empty (h : r.Empty i) : ∃ why, (r.await i).1 = .error why := by
  obtain ⟨f, hf, hInbox⟩ := h
  simp only [await, hf]
  cases hEnter : f.enter with
  | error report => exact ⟨_, rfl⟩
  | ok f' =>
    obtain ⟨-, -, rfl⟩ := Future.enter_eq_ok hEnter
    simp only [Future.receive?, hInbox, Option.map_none]
    exact ⟨_, rfl⟩

theorem pending_await (r : Registry) (i : Nat) : (r.await i).2.pending = r.pending := by
  rcases r.await_cases i with hSame | ⟨f, f', -, -, -, hSet⟩
  · rw [hSame]
  · rw [hSet]
    rfl

theorem Empty.await (h : r.Empty i) (j : Nat) : (r.await j).2.Empty i := by
  obtain ⟨f, hf, hInbox⟩ := h
  rcases r.await_cases j with hSame | ⟨g, g', hg, -, hStill, hSet⟩
  · rw [hSame]
    exact ⟨f, hf, hInbox⟩
  · rw [hSet]
    by_cases hij : j = i
    · subst hij
      obtain rfl := Option.some.inj (hg.symm.trans hf)
      exact ⟨g', List.getElem?_set_self (List.getElem?_eq_some_iff.mp hf).1, hStill hInbox⟩
    · exact ⟨f, (List.getElem?_set_ne hij).trans hf, hInbox⟩

theorem Empty.start (h : r.Empty i) (typeName : Text) : (r.start typeName).2.Empty i := by
  obtain ⟨f, hf, hInbox⟩ := h
  exact ⟨f, List.getElem?_append_left (List.getElem?_eq_some_iff.mp hf).1 ▸ hf, hInbox⟩

theorem Empty.complete (h : r.Empty i) (hNodup : r.contexts.Nodup) (hOther : ∀ p ∈ r.pending, p.1 = context → p.2 ≠ i)
    (v : Datum) : (r.complete context v).2.Empty i := by
  rcases complete_cases hNodup context v with ⟨-, hSame⟩ | ⟨j, hMem, ⟨g, -, hDone⟩ | ⟨-, hLost⟩⟩
  · rwa [hSame]
  · obtain ⟨f, hf, hInbox⟩ := h
    rw [hDone]
    exact ⟨f, (List.getElem?_set_ne (hOther _ hMem rfl)).trans hf, hInbox⟩
  · rw [hLost]
    exact h

theorem contexts_start (r : Registry) (typeName : Text) :
    (r.start typeName).2.contexts = r.nextContext :: r.contexts := rfl

theorem pending_complete (hNodup : r.contexts.Nodup) (context : UInt32) (v : Datum) (p : UInt32 × Nat) :
    p ∈ (r.complete context v).2.pending ↔ p ∈ r.pending ∧ p.1 ≠ context := by
  rcases complete_cases hNodup context v with ⟨hAbsent, hSame⟩ | ⟨j, -, ⟨g, -, hDone⟩ | ⟨-, hLost⟩⟩
  · rw [hSame, iff_self_and]
    rintro hMem rfl
    exact hAbsent (List.mem_map_of_mem hMem)
  · rw [hDone]
    simp
  · rw [hLost]
    simp

theorem pending_complete_sublist (r : Registry) (context : UInt32) (v : Datum) :
    (r.complete context v).2.pending.Sublist r.pending := by
  unfold complete
  split
  · exact List.Sublist.refl _
  · dsimp only
    split
    · split
      · exact List.filter_sublist
      · exact List.filter_sublist
    · exact List.filter_sublist

theorem mem_contexts_complete (hNodup : r.contexts.Nodup) (context : UInt32) (v : Datum) (c : UInt32) :
    c ∈ (r.complete context v).2.contexts ↔ c ∈ r.contexts ∧ c ≠ context := by
  simp only [contexts, List.mem_map, pending_complete hNodup]
  constructor
  · rintro ⟨p, ⟨hMem, hOther⟩, rfl⟩
    exact ⟨⟨p, hMem, rfl⟩, hOther⟩
  · rintro ⟨⟨p, hMem, rfl⟩, hOther⟩
    exact ⟨p, ⟨hMem, hOther⟩, rfl⟩

theorem Kept.empty_registry : ({} : Registry).Kept :=
  ⟨List.nodup_nil, List.nodup_nil, List.forall_mem_nil _⟩

theorem Kept.lt_length (h : r.Kept) {p : UInt32 × Nat} (hp : p ∈ r.pending) : p.2 < r.futures.length := by
  obtain ⟨f, hf, -⟩ := h.empty p hp
  exact (List.getElem?_eq_some_iff.mp hf).1

theorem Kept.start (h : r.Kept) (hRoom : r.pending.length < 2 ^ 32 - 1) (typeName : Text) :
    (r.start typeName).2.Kept := by
  refine ⟨?_, ?_, ?_⟩
  · rw [contexts_start]
    exact List.nodup_cons.mpr ⟨nextContext_not_mem hRoom, h.contexts⟩
  · refine List.nodup_cons.mpr ⟨fun hMem => ?_, h.positions⟩
    obtain ⟨p, hp, hPosition⟩ := List.mem_map.mp hMem
    exact absurd hPosition (Nat.ne_of_lt (h.lt_length hp))
  · intro p hp
    rcases List.mem_cons.mp hp with rfl | hOld
    · exact ⟨_, List.getElem?_concat_length, rfl⟩
    · exact (h.empty p hOld).start typeName

theorem Kept.position_ne (h : r.Kept) {p q : UInt32 × Nat} (hp : p ∈ r.pending) (hq : q ∈ r.pending)
    (hContext : p.1 ≠ q.1) : p.2 ≠ q.2 := by
  intro hPosition
  exact hContext (congrArg Prod.fst (List.inj_on_of_nodup_map h.positions hp hq hPosition))

theorem Kept.complete (h : r.Kept) (context : UInt32) (v : Datum) : (r.complete context v).2.Kept := by
  have hSub := r.pending_complete_sublist context v
  refine ⟨h.contexts.sublist (hSub.map _), h.positions.sublist (hSub.map _), ?_⟩
  intro p hp
  obtain ⟨hOld, hOther⟩ := (pending_complete h.contexts context v p).mp hp
  refine (h.empty p hOld).complete h.contexts (fun q hq hContext => ?_) v
  exact h.position_ne hq hOld (hContext ▸ hOther.symm)

theorem Kept.await (h : r.Kept) (i : Nat) : (r.await i).2.Kept := by
  refine ⟨?_, ?_, ?_⟩
  · rw [Registry.contexts, pending_await]
    exact h.contexts
  · rw [pending_await]
    exact h.positions
  · intro p hp
    rw [pending_await] at hp
    exact (h.empty p hp).await i

variable {r' : Registry}

theorem Use.kept (hUse : Use r r') (h : r.Kept) : r'.Kept := by
  cases hUse with
  | start typeName hRoom => exact h.start hRoom typeName
  | complete context v => exact h.complete context v
  | await i => exact h.await i

theorem Later.kept (hLater : Later r r') (h : r.Kept) : r'.Kept := by
  induction hLater with
  | refl => exact h
  | tail _ hUse ih => exact hUse.kept ih

/-! ### Futures that nobody can reach -/

/-- The future waits, and no pending context is its own. -/
def Lost (r : Registry) (i : Nat) : Prop := r.Empty i ∧ ∀ p ∈ r.pending, p.2 ≠ i

theorem Use.lost (hUse : Use r r') (hKept : r.Kept) (h : r.Lost i) : r'.Lost i := by
  obtain ⟨hEmpty, hNone⟩ := h
  cases hUse with
  | start typeName hRoom =>
    refine ⟨hEmpty.start typeName, fun p hp => ?_⟩
    rcases List.mem_cons.mp hp with rfl | hOld
    · obtain ⟨f, hf, -⟩ := hEmpty
      exact Nat.ne_of_gt (List.getElem?_eq_some_iff.mp hf).1
    · exact hNone p hOld
  | complete context v =>
    refine ⟨hEmpty.complete hKept.contexts (fun p hp _ => hNone p hp) v, fun p hp => ?_⟩
    exact hNone p ((r.pending_complete_sublist context v).subset hp)
  | await j =>
    refine ⟨hEmpty.await j, fun p hp => ?_⟩
    rw [pending_await] at hp
    exact hNone p hp

theorem Later.lost (hLater : Later r r') (hKept : r.Kept) (h : r.Lost i) : r'.Lost i := by
  induction hLater with
  | refl => exact h
  | tail hBefore hUse ih => exact hUse.lost (Later.kept hBefore hKept) ih

theorem Kept.lost_of_mismatch (h : r.Kept) (hMem : (context, i) ∈ r.pending)
    (hType : ∀ f, r.futures[i]? = some f → f.typeName ≠ v.typeName) : (r.complete context v).2.Lost i := by
  have hDone := complete_of_mismatch h.contexts hMem hType
  constructor
  · rw [hDone]
    exact h.empty _ hMem
  · intro p hp
    obtain ⟨hOld, hOther⟩ := (pending_complete h.contexts context v p).mp hp
    exact h.position_ne hOld hMem hOther

end Registry

/-! ## Sessions -/

namespace Executor

variable {α : Type}

theorem takeNext_order (e : Executor α) :
    e.takeNext.started ++ e.takeNext.queue = e.started ++ e.queue ∧ e.takeNext.finished = e.finished := by
  cases hRunning : e.running with
  | some task => simp only [takeNext, hRunning, and_self]
  | none =>
    cases hQueue : e.queue with
    | nil => rw [takeNext_of_empty hQueue, hQueue]; exact ⟨rfl, rfl⟩
    | cons task queue =>
      rw [takeNext_of_idle hRunning hQueue]
      simp [started, hRunning]

theorem finish_order (e : Executor α) :
    e.finish.started ++ e.finish.queue = e.started ++ e.queue ∧ e.finished <+: e.finish.finished := by
  cases hRunning : e.running with
  | some task =>
    rw [finish_of_busy hRunning]
    simp [started, hRunning]
  | none => simp only [finish, hRunning, List.prefix_refl, and_self]

theorem advance_order (ready : α → Bool) (e : Executor α) :
    (e.advance ready).started ++ (e.advance ready).queue = e.started ++ e.queue ∧
      e.finished <+: (e.advance ready).finished := by
  unfold advance
  split
  · split
    · have hTake := e.finish.takeNext_order
      have hFinish := e.finish_order
      rw [hTake.1, hTake.2]
      exact hFinish
    · exact ⟨rfl, List.prefix_refl _⟩
  · have hTake := e.takeNext_order
    rw [hTake.1, hTake.2]
    exact ⟨rfl, List.prefix_refl _⟩

theorem settle_order (ready : α → Bool) (e : Executor α) :
    (e.settle ready).started ++ (e.settle ready).queue = e.started ++ e.queue ∧
      e.finished <+: (e.settle ready).finished := by
  unfold settle
  induction e.pending + 1 with
  | zero => exact ⟨rfl, List.prefix_refl _⟩
  | succ n ih =>
    obtain ⟨hOrder, hFinished⟩ := advance_order ready (Nat.repeat (advance ready) n e)
    exact ⟨hOrder.trans ih.1, ih.2.trans hFinished⟩

end Executor

namespace Registry

def Answers (r : Registry) (c : UInt32) : Prop :=
  ∃ i f, (c, i) ∈ r.pending ∧ r.futures[i]? = some f ∧ f.typeName = (Datum.u32 0).typeName

variable {r : Registry} {c : UInt32}

theorem Answers.mem_contexts (h : r.Answers c) : c ∈ r.contexts := by
  obtain ⟨i, -, hMem, -⟩ := h
  exact List.mem_map_of_mem hMem

theorem Answers.start (h : r.Answers c) (typeName : Text) : (r.start typeName).2.Answers c := by
  obtain ⟨i, f, hMem, hf, hType⟩ := h
  exact ⟨i, f, List.mem_cons_of_mem _ hMem, List.getElem?_append_left (List.getElem?_eq_some_iff.mp hf).1 ▸ hf, hType⟩

theorem exists_getElem?_set {fs : List Future} {i j : Nat} {f f' g : Future} (hg : fs[j]? = some g)
    (hf : fs[i]? = some f) (hType : f'.typeName = f.typeName) :
    ∃ g', (fs.set i f')[j]? = some g' ∧ g'.typeName = g.typeName := by
  by_cases hij : i = j
  · subst hij
    obtain rfl := Option.some.inj (hf.symm.trans hg)
    exact ⟨f', List.getElem?_set_self (List.getElem?_eq_some_iff.mp hf).1, hType⟩
  · exact ⟨g, (List.getElem?_set_ne hij).trans hg, rfl⟩

theorem Answers.complete (h : r.Answers c) (hNodup : r.contexts.Nodup) {context : UInt32} (hOther : c ≠ context)
    (v : Datum) : (r.complete context v).2.Answers c := by
  obtain ⟨i, f, hMem, hf, hType⟩ := h
  have hStill := (pending_complete hNodup context v (c, i)).mpr ⟨hMem, hOther⟩
  rcases complete_cases hNodup context v with ⟨-, hSame⟩ | ⟨j, -, ⟨g, hg, hDone⟩ | ⟨-, hLost⟩⟩
  · rw [hSame]
    exact ⟨i, f, hMem, hf, hType⟩
  · rw [hDone] at hStill ⊢
    have hSame : ({ g with inbox := some v } : Future).typeName = g.typeName := rfl
    obtain ⟨f', hf', hType'⟩ := exists_getElem?_set hf hg hSame
    exact ⟨i, f', hStill, hf', hType'.trans hType⟩
  · rw [hLost] at hStill ⊢
    exact ⟨i, f, hStill, hf, hType⟩

theorem Answers.await (h : r.Answers c) (j : Nat) : (r.await j).2.Answers c := by
  obtain ⟨i, f, hMem, hf, hType⟩ := h
  have hStill : (c, i) ∈ (r.await j).2.pending := by rwa [pending_await]
  rcases r.await_cases j with hSame | ⟨g, g', hg, hType', -, hSet⟩
  · rw [hSame]
    exact ⟨i, f, hMem, hf, hType⟩
  · rw [hSet] at hStill ⊢
    obtain ⟨f', hf', hSameType⟩ := exists_getElem?_set hf hg hType'
    exact ⟨i, f', hStill, hf', hSameType.trans hType⟩

theorem Answers.complete_eq (h : r.Answers c) (hNodup : r.contexts.Nodup) (v : UInt32) :
    (r.complete c (.u32 v)).1 = .ok () := by
  obtain ⟨i, f, hMem, hf, hType⟩ := h
  have hDone := complete_of_pending (v := .u32 v) hNodup hMem hf hType
  rw [hDone]

end Registry

namespace Session

variable {V : Type} {s s' : Session V}

def openTasks (s : Session V) : List Task := (s.owner.executor.started ++ s.owner.executor.queue).drop s.delivered

def openContexts (s : Session V) : List UInt32 := s.openTasks.map Task.context

/-- Every open task has a context of its own that waits for a number. -/
structure Booked (s : Session V) : Prop where
  registry : s.registry.Kept
  delivered : s.delivered ≤ s.owner.executor.finished.length
  nodup : s.openContexts.Nodup
  answers : ∀ c ∈ s.openContexts, s.registry.Answers c

def Stranded (s : Session V) (c : UInt32) : Prop := c ∈ s.registry.contexts ∧ c ∉ s.openContexts

/-- What the session has booked stays so, and what was stranded and is spared stays stranded. -/
def Continues (spared : UInt32 → Prop) (s s' : Session V) : Prop :=
  s.Booked → s'.Booked ∧ ∀ c, spared c → s.Stranded c → s'.Stranded c

variable {spared : UInt32 → Prop}

theorem Continues.trans {s₁ s₂ s₃ : Session V} (h : Continues spared s₁ s₂) (h' : Continues spared s₂ s₃) :
    Continues spared s₁ s₃ := by
  intro hb
  obtain ⟨hb₂, hStranded⟩ := h hb
  obtain ⟨hb₃, hStranded'⟩ := h' hb₂
  exact ⟨hb₃, fun c hc hFirst => hStranded' c hc (hStranded c hc hFirst)⟩

theorem continues_of_same (hRegistry : s'.registry = s.registry) (hTasks : s'.openTasks = s.openTasks)
    (hDelivered : s'.delivered ≤ s'.owner.executor.finished.length) : Continues spared s s' := by
  intro hb
  have hContexts : s'.openContexts = s.openContexts := congrArg (List.map Task.context) hTasks
  refine ⟨⟨hRegistry ▸ hb.registry, hDelivered, hContexts ▸ hb.nodup, ?_⟩, fun c _ hc => ?_⟩
  · rw [hContexts, hRegistry]
    exact hb.answers
  · rw [Stranded, hContexts, hRegistry]
    exact hc

theorem continues_settle (ready : Task → Bool) :
    Continues spared s { s with owner := { s.owner with executor := s.owner.executor.settle ready } } := by
  intro hb
  obtain ⟨hOrder, hFinished⟩ := Executor.settle_order ready s.owner.executor
  refine continues_of_same rfl ?_ (Nat.le_trans hb.delivered hFinished.length_le) hb
  exact congrArg (List.drop s.delivered) hOrder

theorem exec_completeAll_open {tasks : List Task} {t : Session V} (hKept : t.registry.Kept)
    (hNodup : (tasks.map Task.context).Nodup) (hAnswers : ∀ task ∈ tasks, t.registry.Answers task.context) :
    ∃ r, exec (completeAll tasks) t = (.ok (), { t with registry := r }) ∧ r.Kept ∧
      (∀ c, c ∈ r.contexts ↔ c ∈ t.registry.contexts ∧ c ∉ tasks.map Task.context) ∧
      ∀ c ∉ tasks.map Task.context, t.registry.Answers c → r.Answers c := by
  induction tasks generalizing t with
  | nil => exact ⟨t.registry, rfl, hKept, by simp, fun c _ h => h⟩
  | cons task rest ih =>
    obtain ⟨hNew, hRest⟩ := List.nodup_cons.mp hNodup
    have hFirst := hAnswers task List.mem_cons_self
    let v : Datum := .u32 (task.body.run task.arg)
    let r₁ := (t.registry.complete task.context v).2
    have hOk : t.registry.complete task.context v = (.ok (), r₁) :=
      Prod.ext (hFirst.complete_eq hKept.contexts _) rfl
    have hOthers : ∀ other ∈ rest, r₁.Answers other.context := by
      intro other hOther
      refine (hAnswers other (List.mem_cons_of_mem _ hOther)).complete hKept.contexts (fun hSame => ?_) v
      exact hNew (hSame ▸ List.mem_map_of_mem hOther)
    obtain ⟨r, hExec, hKept', hContexts, hStill⟩ :=
      ih (t := { t with registry := r₁ }) (hKept.complete _ v) hRest hOthers
    refine ⟨r, ?_, hKept', fun c => ?_, fun c hc hOld => ?_⟩
    · rw [completeAll, exec_bind_ok (exec_get t), hOk]
      exact hExec
    · rw [hContexts, Registry.mem_contexts_complete hKept.contexts, List.map_cons, List.mem_cons, not_or, and_assoc]
    · rw [List.map_cons, List.mem_cons, not_or] at hc
      exact hStill c hc.2 (hOld.complete hKept.contexts hc.1 v)

theorem openTasks_eq (h : s.delivered ≤ s.owner.executor.finished.length) :
    s.openTasks = s.owner.executor.finished.drop s.delivered ++
      (s.owner.executor.running.toList ++ s.owner.executor.queue) := by
  rw [openTasks, Executor.started, List.append_assoc, List.drop_append_of_le_length h]

theorem continues_deliver (s : Session V) : Continues spared s (exec deliver s).2 := by
  intro hb
  have hTasks := openTasks_eq hb.delivered
  have hContexts : s.openContexts = (s.owner.executor.finished.drop s.delivered).map Task.context ++
      (s.owner.executor.running.toList ++ s.owner.executor.queue).map Task.context := by
    rw [openContexts, hTasks, List.map_append]
  have hNodup := hContexts ▸ hb.nodup
  obtain ⟨hFirst, hLast, hApart⟩ := List.nodup_append'.mp hNodup
  obtain ⟨r, hExec, hKept, hPending, hStill⟩ := exec_completeAll_open
    (t := { s with delivered := s.owner.executor.finished.length }) hb.registry hFirst fun task hTask =>
      hb.answers _ (hContexts ▸ List.mem_append_left _ (List.mem_map_of_mem hTask))
  have hAfter : (exec deliver s).2 =
      { s with delivered := s.owner.executor.finished.length, registry := r } := by
    rw [deliver, exec_bind_ok (exec_get s), exec_bind_ok (exec_set _ s), hExec]
  have hOpen : ({ s with delivered := s.owner.executor.finished.length, registry := r } : Session V).openContexts =
      (s.owner.executor.running.toList ++ s.owner.executor.queue).map Task.context := by
    rw [openContexts, openTasks_eq (Nat.le_refl _), List.drop_length, List.nil_append]
  rw [hAfter]
  refine ⟨⟨hKept, Nat.le_refl _, hOpen ▸ hLast, fun c hc => ?_⟩, fun c _ hc => ⟨?_, ?_⟩⟩
  · rw [hOpen] at hc
    exact hStill c (fun hDone => hApart hDone hc) (hb.answers c (hContexts ▸ List.mem_append_right _ hc))
  · exact (hPending c).mpr ⟨hc.1, fun hDone => hc.2 (hContexts ▸ List.mem_append_left _ hDone)⟩
  · rw [hOpen]
    exact fun hMem => hc.2 (hContexts ▸ List.mem_append_right _ hMem)

theorem continues_work (s : Session V) : Continues spared s (exec work s).2 := by
  rw [work, exec_bind_ok (exec_get s), exec_bind_ok (exec_modify _ s)]
  exact (continues_settle _).trans (continues_deliver _)

theorem continues_openGate (s : Session V) : Continues spared s (exec openGate s).2 := by
  rw [openGate, exec_bind_ok (exec_modify _ s)]
  refine Continues.trans ?_ (continues_work _)
  intro hb
  exact continues_of_same rfl rfl hb.delivered hb

theorem continues_ownerClose (s : Session V) : Continues spared s (exec (onOwner Owner.close) s).2 := by
  intro hb
  rw [onOwner, exec_within]
  cases hClosed : s.owner.closed with
  | true =>
    have hSame : (exec Owner.close s.owner).2 = s.owner := by
      rw [Owner.close, exec_bind_ok (exec_get _)]
      simp only [hClosed, if_true]
      rfl
    rw [hSame]
    exact continues_of_same rfl rfl hb.delivered hb
  | false =>
    have hExecutor := Service.executor_close hClosed
    obtain ⟨hOrder, hFinished⟩ := Executor.settle_order (fun _ => true) s.owner.executor.close
    refine continues_of_same rfl ?_ ?_ hb
    · simp only [openTasks, hExecutor, hOrder]
      rfl
    · simp only [hExecutor]
      exact Nat.le_trans hb.delivered hFinished.length_le

theorem continues_close (s : Session V) : Continues spared s (exec close s).2 := by
  have hGate : Continues spared s (exec openGate s).2 := continues_openGate s
  rw [close, exec_bind]
  rcases hOpened : exec openGate s with ⟨_ | _, s₁⟩
  · rwa [hOpened] at hGate
  · rw [hOpened] at hGate
    refine hGate.trans ?_
    have hOwner : Continues spared s₁ (exec (onOwner Owner.close) s₁).2 := continues_ownerClose s₁
    simp only
    rw [exec_bind]
    rcases hDone : exec (onOwner Owner.close) s₁ with ⟨_ | _, s₂⟩
    · rwa [hDone] at hOwner
    · rw [hDone] at hOwner
      exact hOwner.trans (continues_deliver _)

theorem continues_start (hRoom : s.registry.pending.length < 2 ^ 32 - 1) (typeName : Text) :
    Continues spared s { s with registry := (s.registry.start typeName).2 } := by
  intro hb
  refine ⟨⟨hb.registry.start hRoom typeName, hb.delivered, hb.nodup, ?_⟩, fun c _ hc => ⟨?_, hc.2⟩⟩
  · exact fun c hc => (hb.answers c hc).start typeName
  · exact List.mem_cons_of_mem _ hc.1

theorem continues_complete {context : UInt32} (hIdle : context ∉ s.openContexts) (hSpared : ¬ spared context)
    (v : Datum) : Continues spared s { s with registry := (s.registry.complete context v).2 } := by
  intro hb
  have hNodup := hb.registry.contexts
  refine ⟨⟨hb.registry.complete context v, hb.delivered, hb.nodup, fun c hc => ?_⟩, fun c hKeep hc => ⟨?_, hc.2⟩⟩
  · exact (hb.answers c hc).complete hNodup (ne_of_mem_of_not_mem hc hIdle) v
  · exact (Registry.mem_contexts_complete hNodup context v c).mpr ⟨hc.1, fun hSame => hSpared (hSame ▸ hKeep)⟩

theorem continues_await (s : Session V) (i : Nat) : Continues spared s (exec (AsyncFunction.await i) s).2 := by
  have hAfter : (exec (AsyncFunction.await i) s).2 = { s with registry := (s.registry.await i).2 } := by
    rw [AsyncFunction.await, exec_bind_ok (exec_get s)]
    simp only [exec_bind_ok (exec_modify _ s)]
    split <;> rfl
  rw [hAfter]
  intro hb
  refine ⟨⟨hb.registry.await i, hb.delivered, hb.nodup, fun c hc => (hb.answers c hc).await i⟩,
    fun c _ hc => ⟨?_, hc.2⟩⟩
  rw [Registry.contexts, Registry.pending_await]
  exact hc.1

def opened (s : Session V) : Session V :=
  { s with registry := (s.registry.start (Datum.u32 0).typeName).2 }

theorem owner_opened (s : Session V) : s.opened.owner = s.owner := rfl

variable {f : AsyncFunction V}

theorem exec_start_async {symbol : Text} {body : AsyncBody} (h : f.target = .async symbol body)
    (arg : UInt32) (s : Session V) :
    exec (f.start arg) s = exec (do
      onOwner (Owner.spawn symbol ⟨body, arg, s.registry.nextContext⟩)
      work
      return s.registry.futures.length) s.opened := by
  rw [AsyncFunction.start, exec_bind_ok (exec_get s)]
  simp only [h]
  exact exec_bind_ok (exec_modify _ s)

theorem exec_start_other (h : ∀ symbol body, f.target ≠ .async symbol body) (arg : UInt32)
    (s : Session V) : exec (f.start arg) s = (.error .crashed, s.opened) := by
  rw [AsyncFunction.start, exec_bind_ok (exec_get s)]
  refine (exec_bind_ok (exec_modify _ s)).trans ?_
  split
  · rename_i symbol body hTarget
    exact absurd hTarget (h symbol body)
  · rfl

theorem continues_accept (hRoom : s.registry.pending.length < 2 ^ 32 - 1) {task : Task}
    (hContext : task.context = s.registry.nextContext) :
    Continues spared s { s.opened with
      owner := { s.owner with executor := { s.owner.executor with queue := s.owner.executor.queue ++ [task] } } } := by
  intro hb
  have hNew := Registry.nextContext_not_mem hRoom
  have hOld : ∀ c ∈ s.openContexts, c ∈ s.registry.contexts := fun c hc => (hb.answers c hc).mem_contexts
  have hLength : s.delivered ≤ (s.owner.executor.started ++ s.owner.executor.queue).length := by
    have hDelivered := hb.delivered
    simp only [Executor.started, List.length_append]
    omega
  have hOpen : ({ s.opened with owner := { s.owner with executor :=
      { s.owner.executor with queue := s.owner.executor.queue ++ [task] } } } : Session V).openContexts =
      s.openContexts ++ [s.registry.nextContext] := by
    show ((s.owner.executor.started ++ (s.owner.executor.queue ++ [task])).drop s.delivered).map Task.context = _
    rw [← List.append_assoc, List.drop_append_of_le_length hLength, List.map_append, List.map_singleton, hContext]
    rfl
  have hNumber : s.opened.registry.Answers s.registry.nextContext :=
    ⟨_, _, List.mem_cons_self, List.getElem?_concat_length, rfl⟩
  refine ⟨⟨hb.registry.start hRoom _, hb.delivered, ?_, fun c hc => ?_⟩, fun c _ hc => ⟨?_, fun hMem => ?_⟩⟩
  · rw [hOpen, ← List.concat_eq_append]
    exact hb.nodup.concat fun hMem => hNew (hOld _ hMem)
  · rw [hOpen] at hc
    rcases List.mem_append.mp hc with hc | hc
    · exact (hb.answers c hc).start _
    · exact List.mem_singleton.mp hc ▸ hNumber
  · exact List.mem_cons_of_mem _ hc.1
  · rw [hOpen] at hMem
    rcases List.mem_append.mp hMem with hMem | hMem
    · exact hc.2 hMem
    · exact hNew (List.mem_singleton.mp hMem ▸ hc.1)

def Refuses (s : Session V) : Prop :=
  s.owner.executor.closed = true ∨ s.owner.executor.depth ≤ s.owner.executor.queue.length

def refusal (s : Session V) : Report :=
  if s.owner.executor.closed then Executor.closedReport else Executor.fullReport s.owner.executor.depth

theorem spawn_of_refuses (h : s.Refuses) (task : Task) : s.owner.executor.spawn task = .error s.refusal := by
  unfold Executor.spawn refusal
  split
  · rfl
  · rename_i hOpen
    exact if_neg (Nat.not_lt.mpr (h.resolve_left hOpen))

theorem spawn_of_not_refuses (h : ¬ s.Refuses) (task : Task) :
    s.owner.executor.spawn task = .ok { s.owner.executor with queue := s.owner.executor.queue ++ [task] } := by
  obtain ⟨hOpen, hRoom⟩ := not_or.mp h
  unfold Executor.spawn
  rw [if_neg hOpen, if_pos (Nat.lt_of_not_le hRoom)]

/-- A call that is refused traps, and all that has changed is that its context is open. -/
theorem exec_start_of_refuses {symbol : Text} {body : AsyncBody}
    (hTarget : f.target = .async symbol body) (h : s.Refuses) (arg : UInt32) :
    exec (f.start arg) s =
      (.error (.trapped (.wrap .async s.refusal.kind (.report s.refusal) symbol)), s.opened) := by
  rw [exec_start_async hTarget]
  refine exec_bind_error ?_
  rw [onOwner, exec_within, owner_opened, Owner.exec_spawn_error (spawn_of_refuses h _)]
  rfl

theorem continues_call (hRoom : s.registry.pending.length < 2 ^ 32 - 1) (f : AsyncFunction V) (arg : UInt32) :
    Continues spared s (exec (f.start arg) s).2 := by
  by_cases hTarget : ∃ symbol body, f.target = .async symbol body
  · obtain ⟨symbol, body, hTarget⟩ := hTarget
    by_cases hRefuses : s.Refuses
    · rw [exec_start_of_refuses hTarget hRefuses]
      exact continues_start hRoom _
    · have hSpawn : exec (onOwner (Owner.spawn symbol ⟨body, arg, s.registry.nextContext⟩)) s.opened =
          (.ok (), { s.opened with owner := { s.owner with executor :=
            { s.owner.executor with
              queue := s.owner.executor.queue ++ [⟨body, arg, s.registry.nextContext⟩] } } }) := by
        rw [onOwner, exec_within, owner_opened, Owner.exec_spawn_ok (spawn_of_not_refuses hRefuses _)]
      rw [exec_start_async hTarget, exec_bind_ok hSpawn, exec_bind_pure]
      exact (continues_accept hRoom rfl).trans (continues_work _)
  · rw [exec_start_other fun symbol body hSame => hTarget ⟨symbol, body, hSame⟩]
    exact continues_start hRoom _

/-- What happens to the asynchronous side of a session. Contexts may be opened and completed by hand, but not those of
tasks, nor those that are spared. -/
inductive Moves (spared : UInt32 → Prop) : Session V → Session V → Prop
  | call {s : Session V} (f : AsyncFunction V) (arg : UInt32) (hRoom : s.registry.pending.length < 2 ^ 32 - 1) :
      Moves spared s (exec (f.start arg) s).2
  | await {s : Session V} (i : Nat) : Moves spared s (exec (AsyncFunction.await i) s).2
  | work {s : Session V} : Moves spared s (exec work s).2
  | openGate {s : Session V} : Moves spared s (exec openGate s).2
  | close {s : Session V} : Moves spared s (exec close s).2
  | start {s : Session V} (typeName : Text) (hRoom : s.registry.pending.length < 2 ^ 32 - 1) :
      Moves spared s { s with registry := (s.registry.start typeName).2 }
  | complete {s : Session V} (context : UInt32) (v : Datum) (hIdle : context ∉ s.openContexts)
      (hSpared : ¬ spared context) : Moves spared s { s with registry := (s.registry.complete context v).2 }
  /-- Whatever else the session does leaves the executor, the registry and what was delivered alone. -/
  | other {s s' : Session V} (hExecutor : s'.owner.executor = s.owner.executor) (hRegistry : s'.registry = s.registry)
      (hDelivered : s'.delivered = s.delivered) : Moves spared s s'

def Later (spared : UInt32 → Prop) : Session V → Session V → Prop := Relation.ReflTransGen (Moves spared)

/-- A new session, with an executor that has no tasks, and where it can get. -/
def Reached (s : Session V) : Prop :=
  ∃ s₀ : Session V, (∃ depth, s₀.owner.executor = .create depth) ∧ s₀.registry = {} ∧ s₀.delivered = 0 ∧
    Later (fun _ => False) s₀ s

theorem Moves.continues (h : Moves spared s s') : Continues spared s s' := by
  cases h with
  | call f arg hRoom => exact continues_call hRoom f arg
  | await i => exact continues_await s i
  | work => exact continues_work s
  | openGate => exact continues_openGate s
  | close => exact continues_close s
  | start typeName hRoom => exact continues_start hRoom typeName
  | complete context v hIdle hSpared => exact continues_complete hIdle hSpared v
  | other hExecutor hRegistry hDelivered =>
    intro hb
    refine continues_of_same hRegistry ?_ ?_ hb
    · simp only [openTasks, hExecutor, hDelivered]
    · rw [hExecutor, hDelivered]
      exact hb.delivered

theorem Later.continues (h : Later spared s s') : Continues spared s s' := by
  induction h with
  | refl => exact fun hb => ⟨hb, fun _ _ hc => hc⟩
  | tail _ hMove ih => exact ih.trans hMove.continues

theorem Reached.booked (h : s.Reached) : s.Booked := by
  obtain ⟨s₀, ⟨depth, hExecutor⟩, hRegistry, hDelivered, hLater⟩ := h
  have hNone : s₀.openContexts = [] := by
    rw [openContexts, openTasks, hExecutor, hDelivered]
    rfl
  refine (hLater.continues ⟨?_, ?_, ?_, ?_⟩).1
  · rw [hRegistry]
    exact .empty_registry
  · rw [hDelivered]
    exact Nat.zero_le _
  · rw [hNone]
    exact List.nodup_nil
  · rw [hNone]
    exact List.forall_mem_nil _

theorem Booked.stranded_opened (hb : s.Booked) (hRoom : s.registry.pending.length < 2 ^ 32 - 1) :
    s.opened.Stranded s.registry.nextContext := by
  refine ⟨List.mem_cons_self, fun hMem => ?_⟩
  exact Registry.nextContext_not_mem hRoom (hb.answers _ hMem).mem_contexts

/-- A call that the executor refuses traps and leaves its context pending, for good unless somebody completes it by
hand. A completion that traps leaves everything as it was if the context is not pending, and otherwise gives up the
context, whose future is never filled any more. -/
theorem Reached.async_traps (h : s.Reached) :
    (∀ (f : AsyncFunction V) symbol body arg, f.target = .async symbol body → s.Refuses →
      s.registry.pending.length < 2 ^ 32 - 1 → ∃ why s' c,
        exec (f.start arg) s = (.error (.trapped why), s') ∧
        exec (f.start arg >>= AsyncFunction.await) s = (.error (.trapped why), s') ∧
        s'.owner = s.owner ∧ c ≠ 0 ∧ c ∉ s.registry.contexts ∧ s'.registry.contexts = c :: s.registry.contexts ∧
        ∀ s'', Later (· = c) s' s'' → s''.Stranded c) ∧
    ∀ context v why r, s.registry.complete context v = (.error why, r) →
      (context ∉ s.registry.contexts ∧ why = .doubleCompletion context ∧ r = s.registry) ∨
      ∃ i, (context, i) ∈ s.registry.pending ∧ why = Registry.mismatch context v ∧
        (∀ c, c ∈ r.contexts ↔ c ∈ s.registry.contexts ∧ c ≠ context) ∧
        ∀ r', Registry.Later r r' → ∃ why', (r'.await i).1 = .error why' := by
  have hb := h.booked
  have hKept := hb.registry
  constructor
  · intro f symbol body arg hTarget hRefuses hRoom
    have hExec := exec_start_of_refuses hTarget hRefuses arg
    have hFree := s.registry.nextContext_free hRoom
    refine ⟨_, _, s.registry.nextContext, hExec, exec_bind_error hExec, rfl, hFree.1,
      Registry.nextContext_not_mem hRoom, rfl, fun s'' hLater => ?_⟩
    have hOpening : Continues (· = s.registry.nextContext) s s.opened := continues_start hRoom _
    exact (hLater.continues (hOpening hb).1).2 _ rfl (hb.stranded_opened hRoom)
  · intro context v why r hComplete
    rcases Registry.complete_cases hKept.contexts context v with
      ⟨hAbsent, hSame⟩ | ⟨i, hMem, ⟨f, -, hDone⟩ | ⟨hType, hLost⟩⟩
    · rw [hSame] at hComplete
      cases hComplete
      exact .inl ⟨hAbsent, rfl, rfl⟩
    · rw [hDone] at hComplete
      cases hComplete
    · have hAfter : (s.registry.complete context v).2 = r := congrArg Prod.snd hComplete
      refine .inr ⟨i, hMem, ?_, fun c => ?_, fun r' hLater => ?_⟩
      · rw [hLost] at hComplete
        cases hComplete
        rfl
      · rw [← hAfter, Registry.mem_contexts_complete hKept.contexts]
      · have hGone := hKept.lost_of_mismatch hMem hType
        rw [hAfter] at hGone
        exact Registry.await_of_empty (hLater.lost (hAfter ▸ hKept.complete context v) hGone).1

def late : Session Nat :=
  (exec close { owner := { table := { heap := .create .linear 1 1024 }, executor := .create 1, config := {} } }).2

/-- A session in which a context for a string is open. -/
def waiting : Session Nat :=
  { owner := { table := { heap := .create .linear 1 1024 }, executor := .create 1, config := {} }
    registry := (Registry.start {} "string").2 }

def doubling : AsyncFunction Nat := ⟨"double", .async (Symbol.ofFunction "double") ⟨false, (2 * ·)⟩⟩

theorem reached_late : late.Reached := ⟨_, ⟨1, rfl⟩, rfl, rfl, .single .close⟩

theorem reached_waiting : waiting.Reached :=
  ⟨{ waiting with registry := {} }, ⟨1, rfl⟩, rfl, rfl, .single (.start "string" (by decide))⟩

theorem Reached.async_traps_late :
    (∃ why s' c, exec (doubling.start 5) late = (.error (.trapped why), s') ∧ s'.registry.contexts = [c] ∧
      ∀ s'', Later (· = c) s' s'' → s''.Stranded c) ∧
    ∃ why r i, waiting.registry.complete 1 (.u32 7) = (.error why, r) ∧ (∀ c, c ∉ r.contexts) ∧
      ∀ r', Registry.Later r r' → ∃ why', (r'.await i).1 = .error why' := by
  have hNone : late.registry.contexts = [] := by decide +kernel
  have hOne : waiting.registry.contexts = [1] := by decide +kernel
  constructor
  · obtain ⟨why, s', c, hExec, -, -, -, -, hContexts, hStranded⟩ :=
      reached_late.async_traps.1 doubling _ _ 5 rfl (.inl (by decide +kernel)) (by decide +kernel)
    exact ⟨why, s', c, hExec, hNone ▸ hContexts, hStranded⟩
  · have hComplete : waiting.registry.complete 1 (.u32 7) = (.error (Registry.mismatch 1 (.u32 7)), _) := rfl
    rcases reached_waiting.async_traps.2 1 _ _ _ hComplete with ⟨hAbsent, -⟩ | ⟨i, -, -, hContexts, hLost⟩
    · rw [hOne] at hAbsent
      exact absurd List.mem_cons_self hAbsent
    · refine ⟨_, _, i, hComplete, fun c hc => ?_, hLost⟩
      rw [hContexts, hOne, List.mem_singleton] at hc
      exact hc.2 hc.1

/-- Before the call no context is pending, and after the trap one is; before the completion one is, and after the trap
none. -/
theorem Reached.async_traps_not_undone : late.Reached ∧ waiting.Reached ∧
    (∃ why s', exec (doubling.start 5) late = (.error (.trapped why), s') ∧
      late.registry.contexts = [] ∧ s'.registry.contexts = [1]) ∧
    ∃ r, waiting.registry.complete 1 (.u32 7) = (.error (Registry.mismatch 1 (.u32 7)), r) ∧
      waiting.registry.contexts = [1] ∧ r.contexts = [] := by
  have hClosed : late.Refuses := .inl (by decide +kernel)
  refine ⟨reached_late, reached_waiting, ⟨_, _, exec_start_of_refuses rfl hClosed 5, ?_, ?_⟩, ⟨_, rfl, rfl, rfl⟩⟩
  · decide +kernel
  · decide +kernel

end Session

end Marshal
