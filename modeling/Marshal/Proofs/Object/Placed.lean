import Marshal.Proofs.Object.Replay

/-! # Reachable tables

However a table is used, with any number of observers and borrows, every object has a live address to itself. Unlike
what an observer knows this does not depend on how often an object is borrowed.
-/
set_option autoImplicit false
namespace Marshal

open Step

variable {V : Type}

theorem Heap.mem_addrs_release {h h' : Heap} {addr a : UInt32} (hNull : addr ≠ 0)
    (hRelease : exec (Heap.release addr) h = (.ok (), h')) : a ∈ h'.addrs ↔ a ∈ h.addrs ∧ a ≠ addr := by
  rw [Heap.exec_release] at hRelease
  cases hFree : h.free? addr with
  | error r =>
    rw [hFree] at hRelease
    cases hRelease
  | ok h₁ =>
    rw [hFree] at hRelease
    cases hRelease
    unfold Heap.free? at hFree
    rw [if_neg hNull] at hFree
    split at hFree
    · cases hFree
    · cases hFree
      simp only [Heap.addrs, List.mem_map, List.mem_filter]
      constructor
      · rintro ⟨b, ⟨hb, hNe⟩, rfl⟩
        exact ⟨⟨b, hb, rfl⟩, of_decide_eq_true hNe⟩
      · rintro ⟨⟨b, hb, rfl⟩, hNe⟩
        exact ⟨b, ⟨hb, by simpa using hNe⟩, rfl⟩

namespace Table

/-- Every object is at a live address of its own. -/
structure Placed (t : Table V) : Prop where
  numbered : t.heap.Numbered
  live : ∀ x ∈ t.store.entries, x.addr ∈ t.heap.addrs
  nodup : (t.store.entries.map Entry.addr).Nodup
  nonzero : ∀ x ∈ t.store.entries, x.addr ≠ 0
  isOpen : t.store.closed = false

namespace Placed

variable {t t' : Table V} {addr : UInt32}

theorem same (hp : t.Placed) (hHeap : t'.heap = t.heap) (hStore : t'.store = t.store) : t'.Placed := by
  obtain ⟨hn, hLive, hNodup, hNonzero, hOpen⟩ := hp
  exact ⟨hHeap ▸ hn, hHeap ▸ hStore ▸ hLive, hStore ▸ hNodup, hStore ▸ hNonzero, hStore ▸ hOpen⟩

theorem setHeap (hp : t.Placed) {h : Heap} (hn : h.Numbered) (hLive : ∀ x ∈ t.store.entries, x.addr ∈ h.addrs) :
    Placed { t with heap := h } :=
  ⟨hn, hLive, hp.nodup, hp.nonzero, hp.isOpen⟩

theorem use (hp : t.Placed) {u : HeapUse} (hSpares : u.Spares t.cells) (hFits : u.Fits t.heap) :
    Placed { t with heap := (exec u.perform t.heap).2 } := by
  obtain ⟨hn, hKept⟩ := hp.numbered.use hFits hSpares
  exact hp.setHeap hn fun x hx => hKept _ (mem_cells hx) (hp.live x hx)

theorem exec_detach (hp : t.Placed) (addr : UInt32) :
    (∃ why, exec (detach addr) t = (.error (.refused why), t) ∧
        ∀ x ∈ t.store.entries, x.addr = addr → x.isBorrowed = true) ∨
      ∃ x h, x ∈ t.store.entries ∧ x.addr = addr ∧ x.isBorrowed = false ∧
        exec (Heap.release addr) t.heap = (.ok (), h) ∧
        exec (detach addr) t = (.ok x, { t with heap := h, store := t.store.erase addr }) ∧
        Placed { t with heap := h, store := t.store.erase addr } := by
  rcases exec_detach_cases addr t with ⟨r, hRefused, hBorrowed⟩ | ⟨x, hFound, hIdle, hDetach⟩
  · refine .inl ⟨.report r, hRefused, ?_⟩
    rintro x hx rfl
    exact hBorrowed x (Store.entry?_of_mem hp.nodup hx)
  · obtain ⟨hx, rfl⟩ := Store.entry?_eq_some hFound
    obtain ⟨h, hRelease, hn, hKept⟩ := hp.numbered.exec_release_live (hp.live x hx)
    refine .inr ⟨x, h, hx, rfl, hIdle, hRelease, hDetach hRelease, hn, ?_, ?_, ?_, hp.isOpen⟩
    · intro y hy
      obtain ⟨hy, hNe⟩ := List.mem_filter.mp hy
      exact hKept _ (hp.live y hy) (of_decide_eq_true hNe)
    · exact hp.nodup.sublist (List.filter_sublist.map _)
    · exact fun y hy => hp.nonzero y (List.mem_filter.mp hy).1

theorem tidied (ht : Tidied t t') (hp : t.Placed) : t'.Placed := by
  induction ht with
  | done t => exact hp
  | use u hSpares hFits _ ih => exact ih (hp.use hSpares hFits)
  | note d _ ih => exact ih (hp.same rfl rfl)
  | @remove t t₁ t₂ t' x destroy addr hDetach hDestroy _ _ ihInner ihRest =>
    rcases hp.exec_detach addr with ⟨why, hRefused, -⟩ | ⟨x', h, -, -, -, -, hDetach', hp₁⟩
    · cases hDetach.symm.trans hRefused
    · cases hDetach.symm.trans hDetach'
      rw [exec_remove_of_detach hDetach hDestroy] at ihRest
      exact ihRest ((ihInner hp₁).same rfl rfl)

variable {destroy : V → Step (Table V) Unit}

theorem remove (hp : t.Placed) (hNeat : t.Neat destroy addr) :
    (∃ why, exec (Table.remove destroy addr) t = (.error (.refused why), t)) ∨
      ∃ v t', exec (Table.remove destroy addr) t = (.ok v, t') ∧ t'.Placed := by
  rcases hp.exec_detach addr with ⟨why, hRefused, -⟩ | ⟨x, h, -, -, -, -, hDetach, hp₁⟩
  · exact .inl ⟨why, exec_bind_error hRefused⟩
  · obtain ⟨t₂, hDestroy, hTidied⟩ := hNeat x _ hDetach
    exact .inr ⟨x.value, _, exec_remove_of_detach hDetach hDestroy, (hp₁.tidied hTidied).same rfl rfl⟩

theorem removeAll (addrs : List UInt32) (hp : t.Placed)
    (hNeat : t.NeatAll destroy addrs) : (exec (Table.removeAll destroy addrs) t).2.Placed := by
  induction addrs generalizing t with
  | nil => exact hp
  | cons addr rest ih =>
    obtain ⟨hFirst, hRest⟩ := hNeat
    rw [Table.removeAll]
    rcases hp.remove hFirst with ⟨why, hRefused⟩ | ⟨v, t₁, hRemove, hp₁⟩
    · rw [exec_attempt_refused hRefused] at hRest
      rw [exec_bind_ok (exec_attempt_refused hRefused)]
      exact ih hp hRest
    · rw [exec_attempt_ok hRemove] at hRest
      rw [exec_bind_ok (exec_attempt_ok hRemove)]
      exact ih hp₁ hRest

theorem boxedAt (hp : t.Placed) {h : Heap} (hn : h.Numbered) (hNew : addr ∈ h.addrs)
    (hKept : ∀ x ∈ t.store.entries, x.addr ∈ h.addrs) (hFree : t.store.entry? addr = none) (hNull : addr ≠ 0)
    (id : UInt32) (value : V) : (t.boxedAt h addr id value).Placed := by
  refine ⟨hn, List.forall_mem_cons.mpr ⟨hNew, hKept⟩, List.nodup_cons.mpr ⟨?_, hp.nodup⟩,
    List.forall_mem_cons.mpr ⟨hNull, hp.nonzero⟩, hp.isOpen⟩
  intro hMem
  obtain ⟨x, hx, hAddr⟩ := List.mem_map.mp hMem
  have hFound := Store.entry?_of_mem hp.nodup hx
  rw [hAddr] at hFound
  cases hFree.symm.trans hFound

theorem modify (hp : t.Placed) {f : Entry V → Entry V} (hf : ∀ x, x.addr = addr → (f x).addr = addr) :
    Placed { t with store := t.store.modify addr f } := by
  have hSame : ∀ x : Entry V, (if x.addr = addr then f x else x).addr = x.addr := by
    intro x
    split
    · rename_i hEq
      rw [hf x hEq, hEq]
    · rfl
  have hAddrs : (t.store.modify addr f).entries.map Entry.addr = t.store.entries.map Entry.addr := by
    rw [Store.modify, List.map_map]
    exact List.map_congr_left fun x _ => hSame x
  refine ⟨hp.numbered, ?_, hAddrs ▸ hp.nodup, ?_, hp.isOpen⟩
  · intro y hy
    obtain ⟨x, hx, rfl⟩ := List.mem_map.mp hy
    rw [hSame]
    exact hp.live x hx
  · intro y hy
    obtain ⟨x, hx, rfl⟩ := List.mem_map.mp hy
    rw [hSame]
    exact hp.nonzero x hx

theorem insert (hp : t.Placed) (id : UInt32) (value : V) : (exec (Table.insert id value) t).2.Placed := by
  rcases exec_insert_cases ⟨hp.numbered, hp.live⟩ id value with
    ⟨stop, h, hl, hExec⟩ | ⟨addr, h, hl, hNew, hNull, hFree, hExec⟩
  · rw [hExec]
    exact hp.setHeap hl.numbered hl.live
  · rw [hExec]
    exact (hp.boxedAt hl.numbered hNew hl.live hFree hNull id value).same rfl rfl

theorem take (hp : t.Placed) (addr : UInt32) : (exec (Table.take addr) t).2.Placed := by
  rcases hp.exec_detach addr with ⟨why, hRefused, -⟩ | ⟨x, h, -, -, -, -, hDetach, hp₁⟩
  · rw [Table.take, exec_bind_error hRefused]
    exact hp
  · rw [Table.take, exec_bind_ok hDetach]
    exact hp₁.same rfl rfl

theorem borrow (hp : t.Placed) (addr : UInt32) (kind : BorrowKind) : (exec (Table.borrow addr kind) t).2.Placed := by
  rcases t.exec_borrow_cases addr kind with ⟨why, hRefused, -⟩ | ⟨x, id, -, -, hExec⟩
  · rw [hRefused]
    exact hp
  · rw [hExec]
    refine (hp.modify fun y hy => ?_).same rfl rfl
    rw [Entry.addr_borrow, hy]

theorem giveBack (hp : t.Placed) (addr : UInt32) (kind : BorrowKind) :
    (exec (Table.giveBack addr kind) t).2.Placed := by
  rcases t.exec_giveBack_cases addr kind with ⟨hNone, -⟩ | ⟨x, x', id, hFound, hBack, hExec⟩
  · rw [hNone]
    exact hp
  · rw [hExec]
    refine (hp.modify fun _ _ => ?_).same rfl rfl
    rw [(Entry.giveBack?_same hBack).1, (Store.entry?_eq_some hFound).2]

end Placed

end Table

/-- Destructors do no more than they may. -/
def TableCall.Tidy (t : Table V) : TableCall V → Prop
  | .remove destroy addr => t.Neat destroy addr
  | .clear destroy => t.NeatAll destroy (t.store.sorted.map Entry.addr)
  | _ => True

theorem TableCall.placed_perform {t : Table V} (hp : t.Placed) {c : TableCall V} (hTidy : c.Tidy t) :
    (exec c.perform t).2.Placed := by
  cases c with
  | insert id value =>
    rw [perform, exec_map]
    exact hp.insert id value
  | remove destroy addr =>
    rw [perform, exec_map]
    rcases hp.remove hTidy with ⟨why, hExec⟩ | ⟨v, t', hExec, hp'⟩
    · rw [hExec]
      exact hp
    · rw [hExec]
      exact hp'
  | take addr =>
    rw [perform, exec_map]
    exact hp.take addr
  | borrow addr kind =>
    rw [perform, exec_map]
    exact hp.borrow addr kind
  | giveBack addr kind =>
    rw [perform, exec_map]
    exact hp.giveBack addr kind
  | clear destroy =>
    rw [perform, exec_map, Table.clear, exec_bind_ok (exec_get t)]
    exact hp.removeAll _ hTidy

namespace Table

/-- The tables that calls on a new table lead to, with observers that come and go. Between the calls others use the
heap. -/
inductive Reachable (m : Memory) : Table V → Prop
  | start : Reachable m { heap := { memory := m } }
  | subscribe {t : Table V} (hRun : Reachable m t) : Reachable m (exec Table.subscribe t).2
  | unsubscribe {t : Table V} (id : Nat) (hRun : Reachable m t) : Reachable m (exec (Table.unsubscribe id) t).2
  | call {t : Table V} (c : TableCall V) (hRun : Reachable m t) (hTidy : c.Tidy t) : Reachable m (exec c.perform t).2
  | others {t : Table V} (u : HeapUse) (hRun : Reachable m t) (hSpares : u.Spares t.cells) (hFits : u.Fits t.heap) :
      Reachable m { t with heap := (exec u.perform t.heap).2 }

theorem Reachable.placed {m : Memory} {t : Table V} (hRun : Reachable m t) : t.Placed := by
  induction hRun with
  | start => exact ⟨.start m, List.forall_mem_nil _, List.nodup_nil, List.forall_mem_nil _, rfl⟩
  | subscribe _ ih => exact ih.same rfl rfl
  | unsubscribe _ _ ih => exact ih.same rfl rfl
  | call c _ hTidy ih => exact TableCall.placed_perform ih hTidy
  | others u _ hSpares hFits ih => exact ih.use hSpares hFits

end Table

end Marshal
