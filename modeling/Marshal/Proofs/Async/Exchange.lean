import Mathlib.Algebra.Group.Nat.Defs
import Mathlib.Data.List.Perm.Subperm
import Mathlib.Data.List.Nodup
import Marshal.Async.Registry

/-! # Completing and awaiting

Contexts are started and completed while any number of waiters come and go, one atomic step at a time. Each
value that is delivered is received at most once, by a waiter of the future it was meant for, and it stays
there until somebody does: a waiter that gives up takes nothing with it.
-/
set_option autoImplicit false
namespace Marshal

/-- A registry and the futures that somebody waits for just now. -/
structure Exchange where
  registry : Registry := {}
  inside : List Nat := []

inductive ExchangeEvent where
  | started (typeName : Text) (future : Nat) (context : UInt32)
  | completed (context : UInt32) (v : Datum) (answer : Except Report Unit)
  | entered (future : Nat)
  | refused (future : Nat) (why : Report)
  | received (future : Nat) (v : Datum)
  | abandoned (future : Nat)

namespace Registry

def Free (r : Registry) (context : UInt32) : Prop := context ≠ 0 ∧ r.isPending context = false

variable {r : Registry}

variable {context : UInt32}

theorem isPending_iff : r.isPending context = true ↔ context ∈ r.pending.map Prod.fst := by
  simp [isPending]

theorem add_succ_toUInt32 (context : UInt32) (k : Nat) :
    context + 1 + (k + 1).toUInt32 = context + 1 + 1 + k.toUInt32 := by
  apply UInt32.toNat_inj.mp
  simp
  omega

theorem firstFree_free (r : Registry) {tries k : Nat} (hk : k < tries)
    (hFree : r.Free (context + 1 + k.toUInt32)) : r.Free (r.firstFree tries context) := by
  induction tries generalizing k context with
  | zero => omega
  | succ tries ih =>
    rw [firstFree]
    split
    · rename_i hTaken
      cases k with
      | zero =>
        obtain ⟨hNull, hIdle⟩ := hFree
        simp_all
      | succ k =>
        refine ih (k := k) (by omega) ?_
        rwa [← add_succ_toUInt32]
    · rename_i hNew
      simpa [Free] using hNew

theorem exists_free (r : Registry) (context : UInt32) (hRoom : r.pending.length < 2 ^ 32 - 1) :
    ∃ k < r.pending.length + 2, r.Free (context + 1 + k.toUInt32) := by
  by_contra hNone
  simp only [not_exists, not_and] at hNone
  let tried := (List.range (r.pending.length + 2)).map fun k => context + 1 + k.toUInt32
  have hTaken : tried ⊆ 0 :: r.pending.map Prod.fst := by
    intro c hc
    obtain ⟨k, hk, rfl⟩ := List.mem_map.mp hc
    have hNot := hNone k (List.mem_range.mp hk)
    rw [List.mem_cons, ← isPending_iff]
    simpa [Free, Classical.or_iff_not_imp_left] using hNot
  have hNodup : tried.Nodup := by
    refine List.Nodup.map_on ?_ List.nodup_range
    intro j hj k hk hEq
    have hj := List.mem_range.mp hj
    have hk := List.mem_range.mp hk
    have hEq := congrArg UInt32.toNat (UInt32.add_right_inj _ |>.mp hEq)
    simp only [Nat.toUInt32_eq, UInt32.toNat_ofNat'] at hEq
    omega
  have hLength := (List.subperm_of_subset hNodup hTaken).length_le
  simp [tried] at hLength

theorem nextContext_free (r : Registry) (hRoom : r.pending.length < 2 ^ 32 - 1) : r.Free r.nextContext := by
  obtain ⟨k, hk, hFree⟩ := r.exists_free r.last hRoom
  exact r.firstFree_free hk hFree

theorem complete_of_not_pending (h : context ∉ r.pending.map Prod.fst)
    (v : Datum) : r.complete context v = (.error (.doubleCompletion context), r) := by
  have hNone : r.pending.find? (·.1 = context) = none := by
    refine List.find?_eq_none.mpr fun found hFound hName => h ?_
    have hName : found.1 = context := by simpa using hName
    exact hName ▸ List.mem_map_of_mem hFound
  rw [complete, hNone]

theorem find?_pending {i : Nat} (hNodup : (r.pending.map Prod.fst).Nodup)
    (h : (context, i) ∈ r.pending) : r.pending.find? (·.1 = context) = some (context, i) := by
  cases hFound : r.pending.find? (·.1 = context) with
  | none => simpa using List.find?_eq_none.mp hFound _ h
  | some found =>
    have hName : found.1 = context := by simpa using List.find?_some hFound
    have hSame := List.inj_on_of_nodup_map hNodup (List.mem_of_find?_eq_some hFound) h hName
    rw [hSame]

theorem complete_of_pending {i : Nat} {f : Future} {v : Datum}
    (hNodup : (r.pending.map Prod.fst).Nodup) (h : (context, i) ∈ r.pending) (hf : r.futures[i]? = some f)
    (hType : f.typeName = v.typeName) :
    r.complete context v = (.ok (), { r with
      pending := r.pending.filter (·.1 ≠ context)
      futures := r.futures.set i { f with inbox := some v } }) := by
  simp only [complete, find?_pending hNodup h, hf, hType, if_pos]
  rfl

end Registry

namespace Future

theorem enter_eq_ok {f f' : Future} (h : f.enter = .ok f') :
    f.done = false ∧ f.waiting = false ∧ f' = { f with waiting := true } := by
  unfold enter at h
  split at h
  · cases h
  · rename_i hFree
    simp only [Bool.or_eq_true, not_or, Bool.not_eq_true] at hFree
    exact ⟨hFree.1, hFree.2, (Except.ok.inj h).symm⟩

theorem receive?_eq_some {f f' : Future} {v : Datum} (h : f.receive? = some (v, f')) :
    f.inbox = some v ∧ f' = { f with inbox := none, done := true } := by
  obtain ⟨w, hw, hEq⟩ := Option.map_eq_some_iff.mp h
  obtain ⟨rfl, rfl⟩ := Prod.mk.inj hEq
  exact ⟨hw, rfl⟩

end Future

namespace Exchange

/-- One atomic step. A start needs a context that is left; a waiter gives up when its caller does. -/
inductive Step : Exchange → ExchangeEvent → Exchange → Prop
  | start {x : Exchange} {typeName : Text} {i : Nat} {r : Registry}
      (hRoom : x.registry.pending.length < 2 ^ 32 - 1) (hStart : x.registry.start typeName = (i, r)) :
      Step x (.started typeName i r.last) { x with registry := r }
  | complete {x : Exchange} {context : UInt32} {v : Datum} {answer : Except Report Unit} {r : Registry}
      (hType : ∀ p ∈ x.registry.pending, p.1 = context → ∀ f ∈ x.registry.futures[p.2]?, f.typeName = v.typeName)
      (hComplete : x.registry.complete context v = (answer, r)) :
      Step x (.completed context v answer) { x with registry := r }
  | enter {x : Exchange} {i : Nat} {f f' : Future} (hf : x.registry.futures[i]? = some f)
      (hEnter : f.enter = .ok f') :
      Step x (.entered i) { registry := x.registry.setFuture i f', inside := i :: x.inside }
  | refuse {x : Exchange} {i : Nat} {f : Future} {why : Report} (hf : x.registry.futures[i]? = some f)
      (hEnter : f.enter = .error why) : Step x (.refused i why) x
  | receive {x : Exchange} {i : Nat} {f f' : Future} {v : Datum} (hInside : i ∈ x.inside)
      (hf : x.registry.futures[i]? = some f) (hReceive : f.receive? = some (v, f')) :
      Step x (.received i v) { registry := x.registry.setFuture i f', inside := x.inside.erase i }
  | abandon {x : Exchange} {i : Nat} {f : Future} (hInside : i ∈ x.inside)
      (hf : x.registry.futures[i]? = some f) :
      Step x (.abandoned i) { registry := x.registry.setFuture i f.leave, inside := x.inside.erase i }

/-- What happened to a new registry, newest first, and where that has led. -/
inductive Run : List ExchangeEvent → Exchange → Prop
  | start : Run [] {}
  | step {trace : List ExchangeEvent} {x x' : Exchange} {event : ExchangeEvent} (hRun : Run trace x)
      (hStep : Step x event x') : Run (event :: trace) x'

def owner? : List ExchangeEvent → UInt32 → Option Nat
  | [], _ => none
  | .started _ i context :: earlier, c => if context = c then some i else owner? earlier c
  | _ :: earlier, c => owner? earlier c

/-- The values that contexts were completed with, each with the future of its context. -/
def delivered : List ExchangeEvent → List (Nat × Datum)
  | [] => []
  | .completed context v (.ok ()) :: earlier =>
    ((owner? earlier context).map fun i => (i, v)).toList ++ delivered earlier
  | _ :: earlier => delivered earlier

/-- The values that waiters returned with. -/
def received : List ExchangeEvent → List (Nat × Datum)
  | [] => []
  | .received i v :: earlier => (i, v) :: received earlier
  | _ :: earlier => received earlier

def Delivered (trace : List ExchangeEvent) (i : Nat) : Prop := i ∈ (delivered trace).map Prod.fst

def Received (trace : List ExchangeEvent) (i : Nat) : Prop := i ∈ (received trace).map Prod.fst

structure Shows (trace : List ExchangeEvent) (inside : List Nat) (i : Nat) (f : Future) : Prop where
  inbox : ∀ v, f.inbox = some v ↔ (i, v) ∈ delivered trace ∧ ¬ Received trace i
  done : f.done = true ↔ Received trace i
  waiting : f.waiting = true ↔ i ∈ inside ∨ Received trace i

/-- Contexts are pending as the history has it. -/
structure Registered (trace : List ExchangeEvent) (pending : List (UInt32 × Nat)) (count : Nat) : Prop where
  contexts : (0 :: pending.map Prod.fst).Nodup
  pending_iff : ∀ context i, (context, i) ∈ pending ↔ owner? trace context = some i ∧ ¬ Delivered trace i
  owner_lt : ∀ context i, owner? trace context = some i → i < count
  owner_inj : ∀ c c' i, owner? trace c = some i → owner? trace c' = some i → c = c'
  delivered_lt : ∀ i, Delivered trace i → i < count
  delivered_nodup : ((delivered trace).map Prod.fst).Nodup

/-- Futures and waiters are as the history has it. -/
structure Awaited (trace : List ExchangeEvent) (futures : List Future) (inside : List Nat) : Prop where
  shows : ∀ i f, futures[i]? = some f → Shows trace inside i f
  received_nodup : ((received trace).map Prod.fst).Nodup
  received_delivered : received trace ⊆ delivered trace
  inside_nodup : inside.Nodup
  inside_lt : ∀ i ∈ inside, i < futures.length
  inside_fresh : ∀ i ∈ inside, ¬ Received trace i

structure Valid (trace : List ExchangeEvent) (x : Exchange) : Prop where
  registered : Registered trace x.registry.pending x.registry.futures.length
  awaited : Awaited trace x.registry.futures x.inside

theorem Valid.empty : Valid [] {} := by
  constructor
  · constructor <;> simp [owner?, delivered, Delivered]
  · constructor <;> simp [received]

section Steps

variable {trace : List ExchangeEvent} {pending : List (UInt32 × Nat)} {count : Nat} {futures : List Future}
  {inside : List Nat} {context : UInt32} {i : Nat} {f : Future} {v : Datum}

theorem Awaited.received_lt (ha : Awaited trace futures inside) (hr : Registered trace pending count)
    (h : Received trace i) : i < count := by
  obtain ⟨p, hp, rfl⟩ := List.mem_map.mp h
  exact hr.delivered_lt _ (List.mem_map_of_mem (ha.received_delivered hp))

theorem Registered.start (hr : Registered trace pending count) (hNull : context ≠ 0)
    (hNew : context ∉ pending.map Prod.fst) (typeName : Text) :
    Registered (.started typeName count context :: trace) ((context, count) :: pending) (count + 1) := by
  have hOld : ∀ c, owner? trace c ≠ some count := fun c hc => Nat.lt_irrefl _ (hr.owner_lt c count hc)
  constructor
  · have hNodup := hr.contexts
    rw [List.nodup_cons] at hNodup
    simp only [List.map_cons, List.nodup_cons, List.mem_cons, not_or]
    exact ⟨⟨hNull.symm, hNodup.1⟩, hNew, hNodup.2⟩
  · intro c i
    rw [List.mem_cons, owner?]
    split
    · rename_i hc
      subst hc
      constructor
      · rintro (hEq | hMem)
        · obtain ⟨-, rfl⟩ := Prod.mk.inj hEq
          exact ⟨rfl, fun hd => Nat.lt_irrefl _ (hr.delivered_lt i hd)⟩
        · exact absurd (List.mem_map_of_mem hMem) hNew
      · rintro ⟨hEq, -⟩
        obtain rfl := Option.some.inj hEq
        exact .inl rfl
    · rename_i hc
      rw [hr.pending_iff c i]
      constructor
      · rintro (hEq | hMem)
        · exact absurd (Prod.mk.inj hEq).1.symm hc
        · exact hMem
      · exact .inr
  · intro c i hc
    rw [owner?] at hc
    split at hc
    · cases hc
      exact Nat.lt_succ_self count
    · exact Nat.lt_succ_of_lt (hr.owner_lt c i hc)
  · intro c c' i hc hc'
    rw [owner?] at hc hc'
    split at hc <;> split at hc'
    · simp_all
    · cases hc
      exact absurd hc' (hOld c')
    · cases hc'
      exact absurd hc (hOld c)
    · exact hr.owner_inj c c' i hc hc'
  · intro i hd
    exact Nat.lt_succ_of_lt (hr.delivered_lt i hd)
  · exact hr.delivered_nodup

theorem Awaited.start (ha : Awaited trace futures inside) (hr : Registered trace pending futures.length)
    (typeName : Text) :
    Awaited (.started typeName futures.length context :: trace) (futures ++ [{ context := context, typeName }])
      inside := by
  refine ⟨?_, ha.received_nodup, ha.received_delivered, ha.inside_nodup, ?_, ha.inside_fresh⟩
  rotate_left
  · intro i hi
    rw [List.length_append]
    exact Nat.lt_add_right _ (ha.inside_lt i hi)
  intro i f hf
  rw [List.getElem?_append] at hf
  split at hf
  · have hShows := ha.shows i f hf
    exact ⟨hShows.inbox, hShows.done, hShows.waiting⟩
  · rename_i hEnd
    have hi : i = futures.length := by
      have hBound := (List.getElem?_eq_some_iff.mp hf).1
      simp at hBound
      omega
    subst hi
    simp only [Nat.sub_self, List.getElem?_cons_zero, Option.some.injEq] at hf
    subst hf
    have hNot : ¬ Received trace futures.length := fun h => Nat.lt_irrefl _ (ha.received_lt hr h)
    have hNone : ∀ v, (futures.length, v) ∉ delivered trace := fun v hv =>
      Nat.lt_irrefl _ (hr.delivered_lt _ (List.mem_map_of_mem hv))
    have hOut : futures.length ∉ inside := fun h => Nat.lt_irrefl _ (ha.inside_lt _ h)
    constructor
    · intro v
      exact ⟨nofun, fun h => absurd h.1 (hNone v)⟩
    · exact ⟨nofun, fun h => absurd h hNot⟩
    · exact ⟨nofun, fun h => h.elim (absurd · hOut) (absurd · hNot)⟩

theorem Registered.complete (hr : Registered trace pending count) (hPending : (context, i) ∈ pending) :
    Registered (.completed context v (.ok ()) :: trace) (pending.filter (·.1 ≠ context)) count := by
  obtain ⟨hOwner, hNew⟩ := (hr.pending_iff context i).mp hPending
  have hDelivered : ∀ j, Delivered (.completed context v (.ok ()) :: trace) j ↔ j = i ∨ Delivered trace j := by
    intro j
    simp [Delivered, delivered, hOwner]
  constructor
  · exact hr.contexts.sublist ((List.filter_sublist.map Prod.fst).cons_cons 0)
  · intro c j
    rw [List.mem_filter, hr.pending_iff c j, hDelivered]
    show _ ↔ owner? trace c = some j ∧ _
    by_cases hc : c = context
    · subst hc
      simp only [ne_eq, not_true_eq_false, decide_false, Bool.false_eq_true, and_false, not_or, false_iff]
      rintro ⟨hj, hne, -⟩
      exact hne (Option.some.inj (hj.symm.trans hOwner))
    · have hne : owner? trace c = some j → j ≠ i := by
        rintro hj rfl
        exact hc (hr.owner_inj c context j hj hOwner)
      simp [hc]
      tauto
  · exact hr.owner_lt
  · exact hr.owner_inj
  · intro j hj
    rcases (hDelivered j).mp hj with rfl | hj
    · exact hr.owner_lt context j hOwner
    · exact hr.delivered_lt j hj
  · simp only [delivered, hOwner, Option.map_some, Option.toList_some, List.cons_append, List.nil_append,
      List.map_cons, List.nodup_cons]
    exact ⟨hNew, hr.delivered_nodup⟩

variable {trace' : List ExchangeEvent}

variable {f' : Future}

/-- A future is changed in a way that the history accounts for and that does not touch the others. -/
theorem Awaited.shows_set {inside' : List Nat} (ha : Awaited trace futures inside)
    (hOthers : ∀ j g, j ≠ i → Shows trace inside j g → Shows trace' inside' j g)
    (hChanged : Shows trace' inside' i f') :
    ∀ j g, (futures.set i f')[j]? = some g → Shows trace' inside' j g := by
  intro j g hg
  rw [List.getElem?_set] at hg
  split at hg
  · rename_i hj
    subst hj
    split at hg
    · exact Option.some.inj hg ▸ hChanged
    · cases hg
  · rename_i hj
    exact hOthers j g (Ne.symm hj) (ha.shows j g hg)

theorem Awaited.complete (ha : Awaited trace futures inside) (hOwner : owner? trace context = some i)
    (hNew : ¬ Delivered trace i) (hf : futures[i]? = some f) :
    Awaited (.completed context v (.ok ()) :: trace) (futures.set i { f with inbox := some v }) inside := by
  have hNot : ¬ Received trace i := fun h => by
    obtain ⟨p, hp, rfl⟩ := List.mem_map.mp h
    exact hNew (List.mem_map_of_mem (ha.received_delivered hp))
  have hMem : ∀ p, p ∈ delivered (.completed context v (.ok ()) :: trace) ↔ p = (i, v) ∨ p ∈ delivered trace := by
    intro p
    simp [delivered, hOwner]
  have hShows := ha.shows i f hf
  refine ⟨ha.shows_set ?_ ?_, ha.received_nodup, ?_, ha.inside_nodup, ?_, ha.inside_fresh⟩
  · intro j g hj hOther
    refine ⟨fun w => ?_, hOther.done, hOther.waiting⟩
    rw [hOther.inbox w, hMem]
    refine and_congr ?_ Iff.rfl
    simp [hj]
  · refine ⟨fun w => ?_, hShows.done, hShows.waiting⟩
    rw [hMem]
    constructor
    · intro hw
      exact ⟨.inl (by rw [Option.some.inj hw]), hNot⟩
    · rintro ⟨hEq | hOld, -⟩
      · rw [(Prod.mk.inj hEq).2]
      · exact absurd (List.mem_map_of_mem hOld) hNew
  · exact fun p hp => (hMem p).mpr (.inr (ha.received_delivered hp))
  · simpa using ha.inside_lt

theorem Awaited.enter (ha : Awaited trace futures inside) (hf : futures[i]? = some f)
    (hEnter : f.enter = .ok f') : Awaited (.entered i :: trace) (futures.set i f') (i :: inside) := by
  obtain ⟨hDone, hFree, rfl⟩ := Future.enter_eq_ok hEnter
  have hShows := ha.shows i f hf
  have hNot : ¬ Received trace i := fun h => by simp [hShows.done.mpr h] at hDone
  have hOut : i ∉ inside := fun h => by simp [hShows.waiting.mpr (.inl h)] at hFree
  refine ⟨ha.shows_set ?_ ?_, ha.received_nodup, ha.received_delivered, ?_, ?_, ?_⟩
  · intro j g hj hOther
    refine ⟨hOther.inbox, hOther.done, hOther.waiting.trans (or_congr ?_ Iff.rfl)⟩
    simp [hj]
  · exact ⟨hShows.inbox, hShows.done, by simp⟩
  · exact List.nodup_cons.mpr ⟨hOut, ha.inside_nodup⟩
  · rintro j (_ | ⟨_, hj⟩)
    · simpa using (List.getElem?_eq_some_iff.mp hf).1
    · simpa using ha.inside_lt j hj
  · rintro j (_ | ⟨_, hj⟩)
    · exact hNot
    · exact ha.inside_fresh j hj

theorem Awaited.receive (ha : Awaited trace futures inside) (hInside : i ∈ inside) (hf : futures[i]? = some f)
    (hReceive : f.receive? = some (v, f')) :
    Awaited (.received i v :: trace) (futures.set i f') (inside.erase i) := by
  obtain ⟨hInbox, rfl⟩ := Future.receive?_eq_some hReceive
  have hShows := ha.shows i f hf
  obtain ⟨hDelivered, hNot⟩ := (hShows.inbox v).mp hInbox
  have hReceived : ∀ j, Received (.received i v :: trace) j ↔ j = i ∨ Received trace j := by
    intro j
    simp [Received, received]
  refine ⟨ha.shows_set ?_ ?_, ?_, ?_, ha.inside_nodup.erase i, ?_, ?_⟩
  · intro j g hj hOther
    refine ⟨fun w => ?_, ?_, ?_⟩
    · rw [hOther.inbox w, hReceived, or_iff_right hj]
      rfl
    · rw [hOther.done, hReceived, or_iff_right hj]
    · rw [hOther.waiting, hReceived, or_iff_right hj, List.mem_erase_of_ne hj]
  · refine ⟨fun w => ?_, ?_, ?_⟩
    · simp [hReceived]
    · simp [hReceived]
    · simp [hReceived, hShows.waiting, hInside]
  · exact List.nodup_cons.mpr ⟨hNot, ha.received_nodup⟩
  · exact List.cons_subset.mpr ⟨hDelivered, ha.received_delivered⟩
  · intro j hj
    simpa using ha.inside_lt j (List.mem_of_mem_erase hj)
  · intro j hj
    obtain ⟨hne, hj⟩ := (ha.inside_nodup.mem_erase_iff).mp hj
    rw [hReceived, or_iff_right hne]
    exact ha.inside_fresh j hj

theorem Awaited.abandon (ha : Awaited trace futures inside) (hInside : i ∈ inside) (hf : futures[i]? = some f) :
    Awaited (.abandoned i :: trace) (futures.set i f.leave) (inside.erase i) := by
  have hShows := ha.shows i f hf
  refine ⟨ha.shows_set ?_ ?_, ha.received_nodup, ha.received_delivered, ha.inside_nodup.erase i, ?_, ?_⟩
  · intro j g hj hOther
    refine ⟨hOther.inbox, hOther.done, hOther.waiting.trans (or_congr ?_ Iff.rfl)⟩
    rw [List.mem_erase_of_ne hj]
  · refine ⟨hShows.inbox, hShows.done, ⟨nofun, ?_⟩⟩
    rintro (hMem | hReceived)
    · exact absurd rfl ((ha.inside_nodup.mem_erase_iff).mp hMem).1
    · exact absurd hReceived (ha.inside_fresh i hInside)
  · intro j hj
    simpa using ha.inside_lt j (List.mem_of_mem_erase hj)
  · intro j hj
    exact ha.inside_fresh j (List.mem_of_mem_erase hj)

theorem Registered.unchanged (hr : Registered trace pending count)
    (hOwner : owner? trace' = owner? trace) (hDelivered : delivered trace' = delivered trace) :
    Registered trace' pending count := by
  obtain ⟨h₁, h₂, h₃, h₄, h₅, h₆⟩ := hr
  simp only [Delivered, ← hOwner, ← hDelivered] at h₂ h₃ h₄ h₅ h₆
  exact ⟨h₁, h₂, h₃, h₄, h₅, h₆⟩

theorem Registered.set (hr : Registered trace pending futures.length) :
    Registered trace pending (futures.set i f).length := by
  rwa [List.length_set]

theorem Awaited.unchanged (ha : Awaited trace futures inside)
    (hDelivered : delivered trace' = delivered trace) (hReceived : received trace' = received trace) :
    Awaited trace' futures inside := by
  obtain ⟨h₁, h₂, h₃, h₄, h₅, h₆⟩ := ha
  simp only [Received, ← hDelivered, ← hReceived] at h₂ h₃ h₆
  refine ⟨fun i f hf => ?_, h₂, h₃, h₄, h₅, h₆⟩
  obtain ⟨hInbox, hDone, hWaiting⟩ := h₁ i f hf
  simp only [Received, ← hDelivered, ← hReceived] at hInbox hDone hWaiting
  exact ⟨hInbox, hDone, hWaiting⟩

end Steps

theorem Step.valid {trace : List ExchangeEvent} {x x' : Exchange} {event : ExchangeEvent}
    (hStep : Step x event x') (hv : x.Valid trace) : x'.Valid (event :: trace) := by
  obtain ⟨hr, ha⟩ := hv
  cases hStep with
  | @start typeName i r hRoom hStart =>
    obtain ⟨rfl, rfl⟩ := Prod.mk.inj hStart
    obtain ⟨hNull, hIdle⟩ := x.registry.nextContext_free hRoom
    refine ⟨?_, ha.start hr typeName⟩
    simp only [List.length_append, List.length_singleton]
    refine hr.start hNull (fun hMem => ?_) typeName
    rw [Registry.isPending_iff.mpr hMem] at hIdle
    cases hIdle
  | @complete context v answer r hType hComplete =>
    by_cases hPending : context ∈ x.registry.pending.map Prod.fst
    · obtain ⟨⟨_, i⟩, hMem, rfl⟩ := List.mem_map.mp hPending
      obtain ⟨hOwner, hNew⟩ := (hr.pending_iff _ i).mp hMem
      have hf := List.getElem?_eq_getElem (hr.owner_lt _ i hOwner)
      rw [Registry.complete_of_pending hr.contexts.of_cons hMem hf (hType _ hMem rfl _ hf)] at hComplete
      obtain ⟨rfl, rfl⟩ := Prod.mk.inj hComplete
      refine ⟨?_, ha.complete hOwner hNew hf⟩
      simp only [List.length_set]
      exact hr.complete hMem
    · rw [Registry.complete_of_not_pending hPending] at hComplete
      obtain ⟨rfl, rfl⟩ := Prod.mk.inj hComplete
      exact ⟨hr.unchanged rfl rfl, ha.unchanged rfl rfl⟩
  | enter hf hEnter => exact ⟨Registered.set (hr.unchanged rfl rfl), ha.enter hf hEnter⟩
  | refuse => exact ⟨hr.unchanged rfl rfl, ha.unchanged rfl rfl⟩
  | receive hInside hf hReceive => exact ⟨Registered.set (hr.unchanged rfl rfl), ha.receive hInside hf hReceive⟩
  | abandon hInside hf => exact ⟨Registered.set (hr.unchanged rfl rfl), ha.abandon hInside hf⟩

variable {x : Exchange}

theorem Run.valid {trace : List ExchangeEvent} (hRun : Run trace x) : x.Valid trace := by
  induction hRun with
  | start => exact .empty
  | step _ hStep ih => exact hStep.valid ih

/-- What those who start, complete and await can rely on. -/
structure ExactlyOnce (trace : List ExchangeEvent) (x : Exchange) : Prop where
  contexts : (x.registry.pending.map Prod.fst).Nodup ∧ 0 ∉ x.registry.pending.map Prod.fst
  pending_iff : ∀ context i,
    (context, i) ∈ x.registry.pending ↔ owner? trace context = some i ∧ ¬ Delivered trace i
  /-- A pending context has an empty future of its own; completing it fills that one. -/
  completes : ∀ context i, (context, i) ∈ x.registry.pending → ∃ f, x.registry.futures[i]? = some f ∧
    f.inbox = none ∧ ∀ v : Datum, f.typeName = v.typeName → ∃ r, x.registry.complete context v = (.ok (), r) ∧
      (∀ p, p ∈ r.pending ↔ p ∈ x.registry.pending ∧ p ≠ (context, i)) ∧
      r.futures = x.registry.futures.set i { f with inbox := some v }
  refuses : ∀ context v, context ∉ x.registry.pending.map Prod.fst →
    x.registry.complete context v = (.error (.doubleCompletion context), x.registry)
  /-- At most one waiter of a future returns with a value. -/
  once : ((received trace).map Prod.fst).Nodup
  /-- That value is the one its context was completed with. -/
  exact : ((delivered trace).map Prod.fst).Nodup ∧ received trace ⊆ delivered trace
  alone : x.inside.Nodup
  /-- A value that was delivered waits for the next who awaits it. -/
  kept : ∀ i v, (i, v) ∈ delivered trace → ¬ Received trace i → i ∉ x.inside →
    ∃ r, x.registry.await i = (.ok v, r)
  /-- Whoever waits already can receive it. -/
  ready : ∀ i v, (i, v) ∈ delivered trace → i ∈ x.inside → ∃ x', Step x (.received i v) x'

theorem Valid.completes {trace : List ExchangeEvent} (hv : x.Valid trace) {context : UInt32} {i : Nat}
    (h : (context, i) ∈ x.registry.pending) : ∃ f, x.registry.futures[i]? = some f ∧
      f.inbox = none ∧ ∀ v : Datum, f.typeName = v.typeName → ∃ r, x.registry.complete context v = (.ok (), r) ∧
        (∀ p, p ∈ r.pending ↔ p ∈ x.registry.pending ∧ p ≠ (context, i)) ∧
        r.futures = x.registry.futures.set i { f with inbox := some v } := by
  obtain ⟨hr, ha⟩ := hv
  obtain ⟨hOwner, hNew⟩ := (hr.pending_iff context i).mp h
  have hNodup := hr.contexts.of_cons
  have hf := List.getElem?_eq_getElem (hr.owner_lt context i hOwner)
  refine ⟨_, hf, ?_, fun v hType => ⟨_, Registry.complete_of_pending hNodup h hf hType, ?_, rfl⟩⟩
  · refine Option.eq_none_iff_forall_ne_some.mpr fun v hv => ?_
    exact hNew (List.mem_map_of_mem (((ha.shows i _ hf).inbox v).mp hv).1)
  · intro p
    rw [List.mem_filter]
    refine and_congr_right fun hp => ?_
    have hSame : p = (context, i) ↔ p.1 = context :=
      ⟨fun hEq => congrArg Prod.fst hEq, fun hEq => List.inj_on_of_nodup_map hNodup hp h hEq⟩
    simp [hSame]

theorem Valid.inbox {trace : List ExchangeEvent} (hv : x.Valid trace) {i : Nat} {v : Datum}
    (hDelivered : (i, v) ∈ delivered trace) (hNot : ¬ Received trace i) :
    ∃ f, x.registry.futures[i]? = some f ∧ f.inbox = some v ∧ Shows trace x.inside i f := by
  have hLt := hv.registered.delivered_lt i (List.mem_map_of_mem hDelivered)
  have hf := List.getElem?_eq_getElem hLt
  have hShows := hv.awaited.shows i _ hf
  exact ⟨_, hf, (hShows.inbox v).mpr ⟨hDelivered, hNot⟩, hShows⟩

theorem Valid.kept {trace : List ExchangeEvent} (hv : x.Valid trace) {i : Nat} {v : Datum}
    (hDelivered : (i, v) ∈ delivered trace) (hNot : ¬ Received trace i) (hOut : i ∉ x.inside) :
    ∃ r, x.registry.await i = (.ok v, r) := by
  obtain ⟨f, hf, hInbox, hShows⟩ := hv.inbox hDelivered hNot
  have hDone : f.done = false := by simpa [hNot] using hShows.done
  have hFree : f.waiting = false := by simpa [hNot, hOut] using hShows.waiting
  simp [Registry.await, hf, Future.enter, hDone, hFree, Future.receive?, hInbox]

theorem Valid.ready {trace : List ExchangeEvent} (hv : x.Valid trace) {i : Nat} {v : Datum}
    (hDelivered : (i, v) ∈ delivered trace) (hInside : i ∈ x.inside) : ∃ x', Step x (.received i v) x' := by
  obtain ⟨f, hf, hInbox, -⟩ := hv.inbox hDelivered (hv.awaited.inside_fresh i hInside)
  have hReceive : f.receive? = some (v, { f with inbox := none, done := true }) := by
    simp [Future.receive?, hInbox]
  exact ⟨_, .receive hInside hf hReceive⟩

/-- Completion is exactly once, whatever the order of steps. -/
theorem Run.exactlyOnce {trace : List ExchangeEvent} {x : Exchange} (hRun : Run trace x) :
    x.ExactlyOnce trace := by
  have hv := hRun.valid
  have ⟨hr, ha⟩ := hv
  constructor
  case contexts => exact (List.nodup_cons.mp hr.contexts).symm
  case pending_iff => exact hr.pending_iff
  case completes => exact fun context i h => hv.completes h
  case refuses => exact fun context v h => Registry.complete_of_not_pending h v
  case once => exact ha.received_nodup
  case exact => exact ⟨hr.delivered_nodup, ha.received_delivered⟩
  case alone => exact ha.inside_nodup
  case kept => exact fun i v hDelivered hNot hOut => hv.kept hDelivered hNot hOut
  case ready => exact fun i v hDelivered hInside => hv.ready hDelivered hInside

/-- A waiter gives up, the value is delivered, another receives it, and the context is completed again. -/
theorem Run.exactlyOnce_abandoned :
    let trace : List ExchangeEvent := [.completed 1 (.u32 8) (.error (.doubleCompletion 1)), .received 0 (.u32 7),
      .refused 0 (Future.awaitedReport 1), .entered 0, .completed 1 (.u32 7) (.ok ()), .abandoned 0, .entered 0,
      .started (Datum.u32 0).typeName 1 2, .started (Datum.u32 0).typeName 0 1]
    ∃ x : Exchange, Run trace x ∧ x.registry.pending = [(2, 1)] ∧ x.ExactlyOnce trace := by
  intro trace
  have hRun : Run trace _ := .step (.step (.step (.step (.step (.step (.step (.step (.step .start
    (.start (by decide) rfl)) (.start (by decide) rfl)) (.enter rfl rfl)) (.abandon (by decide) rfl))
    (.complete (by decide) rfl)) (.enter rfl rfl)) (.refuse rfl rfl)) (.receive (by decide) rfl rfl))
    (.complete (by decide) rfl)
  exact ⟨_, hRun, rfl, hRun.exactlyOnce⟩

end Exchange

end Marshal
