import Marshal.Proofs.Heap.Shared
import Marshal.Proofs.Object.Store

/-! # The table and its heap

A table shares its heap with others and runs destructors that may use the heap as well, but nobody else frees
or writes its cells and no destructor calls the table. Then the store and the heap never disagree: what is in
the store is what was boxed and not yet taken out, each object in a live cell that is marked with its type. So
freeing a cell never fails, and an operation that is refused has done nothing.
-/
set_option autoImplicit false
namespace Marshal

open Step

inductive TableCall (V : Type) where
  | insert (typeId : UInt32) (value : V)
  | remove (destroy : V → Step (Table V) Unit) (addr : UInt32)
  | take (addr : UInt32)
  | borrow (addr : UInt32) (kind : BorrowKind)
  | giveBack (addr : UInt32) (kind : BorrowKind)
  | clear (destroy : V → Step (Table V) Unit)

inductive TableAnswer (V : Type) where
  | address (addr : UInt32)
  | value (v : V)
  | flag (b : Bool)
  | done

variable {V : Type}

namespace Table

def cells (t : Table V) : List Block := t.store.entries.map fun e => ⟨e.addr, cellSize, cellSize⟩

def holdings (t : Table V) : List (UInt32 × UInt32) := t.store.entries.map fun e => (e.addr, e.typeId)

/-- Destroying the value keeps to itself: the store stays as it is and the cells are spared. It may trap, but
it has nobody to report an error to. -/
structure Gentle (destroy : V → Step (Table V) Unit) (v : V) (t : Table V) : Prop where
  store : (exec (destroy v) t).2.store = t.store
  closed : (exec (destroy v) t).2.closed = t.closed
  heap : t.heap.Used t.cells (exec (destroy v) t).2.heap
  hard : ∀ why, (exec (destroy v) t).1 ≠ .error (.refused why)

/-- Destroying any object of the table after it was taken out, with others possibly gone before, is gentle. -/
def Aloof (destroy : V → Step (Table V) Unit) (t : Table V) : Prop :=
  ∀ e ∈ t.store.entries, ∀ t₁ : Table V, t₁.store.entries ⊆ t.store.entries →
    e.addr ∉ t₁.store.entries.map Entry.addr → Gentle destroy e.value t₁

end Table

namespace TableCall

open Table

def perform : TableCall V → Step (Table V) (TableAnswer V)
  | .insert typeId value => .address <$> Table.insert typeId value
  | .remove destroy addr => .value <$> Table.remove destroy addr
  | .take addr => .value <$> Table.take addr
  | .borrow addr kind => (fun _ => .done) <$> Table.borrow addr kind
  | .giveBack addr kind => .flag <$> Table.giveBack addr kind
  | .clear destroy => (fun _ => .done) <$> Table.clear destroy

def destructor? : TableCall V → Option (V → Step (Table V) Unit)
  | .remove destroy _ => some destroy
  | .clear destroy => some destroy
  | _ => none

def Aloof (c : TableCall V) (t : Table V) : Prop := ∀ destroy, c.destructor? = some destroy → Table.Aloof destroy t

/-- The removals that dropping several objects in turn comes to, newest first. One that is refused does not
stop the rest. -/
def removals (destroy : V → Step (Table V) Unit) :
    List UInt32 → Table V → List (TableCall V × Except Stop (TableAnswer V))
  | [], _ => []
  | addr :: rest, t =>
    match exec (TableCall.remove destroy addr).perform t with
    | (.ok a, t') => removals destroy rest t' ++ [(.remove destroy addr, .ok a)]
    | (.error (.refused why), t') => removals destroy rest t' ++ [(.remove destroy addr, .error (.refused why))]
    | (.error stop, _) => [(.remove destroy addr, .error stop)]

/-- What a call adds to the history: its answer, and before that the removals that clearing comes to. -/
def record (c : TableCall V) (t : Table V) : List (TableCall V × Except Stop (TableAnswer V)) :=
  (c, (exec c.perform t).1) :: match c with
    | .clear destroy => removals destroy (t.store.sorted.map Entry.addr) t
    | _ => []

end TableCall

/-- The cells that are out after one more call. A removal that was not refused has released the cell, however
its destructor went. -/
def Roster.next (out : List (UInt32 × UInt32)) :
    TableCall V × Except Stop (TableAnswer V) → List (UInt32 × UInt32)
  | (.insert typeId _, .ok (.address addr)) => (addr, typeId) :: out
  | (.remove _ _, .error (.refused _)) => out
  | (.remove _ addr, _) => out.filter (·.1 ≠ addr)
  | (.take addr, .ok _) => out.filter (·.1 ≠ addr)
  | _ => out

def roster (trace : List (TableCall V × Except Stop (TableAnswer V))) : List (UInt32 × UInt32) :=
  trace.foldr (fun call out => Roster.next out call) []

/-- The calls made on a new table, newest first, and the table they leave. Between them others use the heap. -/
inductive TableRun (m : Memory) : List (TableCall V × Except Stop (TableAnswer V)) → Table V → Prop
  | start : TableRun m [] { heap := { memory := m } }
  | call {trace : List (TableCall V × Except Stop (TableAnswer V))} {t : Table V} (c : TableCall V)
      (hRun : TableRun m trace t) (hAloof : c.Aloof t) : TableRun m (c.record t ++ trace) (exec c.perform t).2
  | others {trace : List (TableCall V × Except Stop (TableAnswer V))} {t t' : Table V} (hRun : TableRun m trace t)
      (hStore : t'.store = t.store) (hClosed : t'.closed = t.closed) (hHeap : t.heap.Used t.cells t'.heap) :
      TableRun m trace t'

theorem Entry.giveBack?_same {e e' : Entry V} {kind : BorrowKind} (h : e.giveBack? kind = some e') :
    e'.addr = e.addr ∧ e'.typeId = e.typeId := by
  cases kind with
  | shared =>
    simp only [Entry.giveBack?] at h
    split at h
    · cases h
    · exact Option.some.inj h ▸ ⟨rfl, rfl⟩
  | exclusive =>
    simp only [Entry.giveBack?] at h
    split at h
    · exact Option.some.inj h ▸ ⟨rfl, rfl⟩
    · cases h

namespace Table

/-- Every object is in a cell of its own. -/
structure Housed (t : Table V) : Prop where
  valid : t.heap.Valid
  cell : ∀ e ∈ t.store.entries, IsCell t.heap e.addr e.typeId
  nodup : (t.store.entries.map Entry.addr).Nodup
  isOpen : t.closed = false ∧ t.store.closed = false

variable {t t' : Table V}

theorem IsCell.keeps {h h' : Heap} {blocks : List Block} {addr id : UInt32} (hc : IsCell h addr id)
    (hk : Heap.Keeps blocks h h') (hMem : ⟨addr, cellSize, cellSize⟩ ∈ blocks) : IsCell h' addr id := by
  refine ⟨hk.live _ hMem hc.live, hc.aligned, ?_⟩
  rw [← hc.marked]
  refine Memory.slice_congr fun i hLow hHigh => hk.bytes _ hMem hc.live i ⟨hLow, ?_⟩
  have hSize : 4 ≤ cellSize.toNat := by decide
  exact Nat.lt_of_lt_of_le hHigh (Nat.add_le_add_left hSize addr.toNat)

variable {destroy : V → Step (Table V) Unit} {e : Entry V} {c : TableCall V}

theorem mem_cells (he : e ∈ t.store.entries) : ⟨e.addr, cellSize, cellSize⟩ ∈ t.cells :=
  List.mem_map_of_mem (f := fun e : Entry V => (⟨e.addr, cellSize, cellSize⟩ : Block)) he

theorem Housed.others (ht : t.Housed) (hStore : t'.store = t.store) (hClosed : t'.closed = t.closed)
    (hHeap : t.heap.Used t.cells t'.heap) : t'.Housed := by
  have hk := hHeap.keeps ht.valid
  refine ⟨hk.valid, ?_, ?_, ?_⟩
  · rw [hStore]
    exact fun e he => (ht.cell e he).keeps hk (mem_cells he)
  · rw [hStore]
    exact ht.nodup
  · rw [hStore, hClosed]
    exact ht.isOpen

theorem Housed.addr_live (ht : t.Housed) (he : e ∈ t.store.entries) : e.addr ∈ t.heap.addrs :=
  Heap.mem_addrs_iff.mpr ⟨_, (ht.cell e he).live, rfl⟩

/-! ## Boxing -/

theorem Housed.boxedAt (ht : t.Housed) {h : Heap} {addr id : UInt32} (hBoxed : Boxed t.heap addr id h) (value : V) :
    (t.boxedAt h addr id value).Housed := by
  have hk : Heap.Keeps t.cells t.heap h := hBoxed.replaced.keeps fun b _ => by simp
  refine ⟨hk.valid, ?_, ?_, ht.isOpen⟩
  · intro e he
    rcases List.mem_cons.mp he with rfl | he
    · exact hBoxed.cell
    · exact (ht.cell e he).keeps hk (mem_cells he)
  · refine List.nodup_cons.mpr ⟨?_, ht.nodup⟩
    intro hMem
    obtain ⟨e, he, hEq⟩ := List.mem_map.mp hMem
    exact hBoxed.replaced.not_mem_new (ht.addr_live he) (by simp) (hEq ▸ List.mem_cons_self)

theorem Housed.told (ht : t.Housed) (event : Event V) : (t.told event).Housed :=
  ⟨ht.valid, ht.cell, ht.nodup, ht.isOpen⟩

theorem exec_insert_housed (ht : t.Housed) (id : UInt32) (value : V) :
    (∃ why, exec (insert id value) t = (.error (.refused why), t)) ∨
      ∃ addr t', exec (insert id value) t = (.ok addr, t') ∧ t'.Housed ∧ t'.holdings = (addr, id) :: t.holdings := by
  rcases exec_insert_boxed ht.valid ht.isOpen (fun e he => ht.addr_live he) id value with
    ⟨-, r, hRefused⟩ | ⟨addr, h, hBoxed, hExec⟩
  · exact .inl ⟨_, hRefused⟩
  · exact .inr ⟨addr, _, hExec, (ht.boxedAt hBoxed value).told _, rfl⟩

/-! ## Taking out -/

theorem holdings_erase (t : Table V) (h : Heap) (addr : UInt32) :
    { t with heap := h, store := t.store.erase addr }.holdings = t.holdings.filter (·.1 ≠ addr) := by
  simp only [holdings, Store.erase, List.filter_map]
  rfl

theorem Housed.erase (ht : t.Housed) (he : e ∈ t.store.entries) {h : Heap}
    (hFreed : Heap.Freed t.heap ⟨e.addr, cellSize, cellSize⟩ h) :
    Housed { t with heap := h, store := t.store.erase e.addr } := by
  have hr := hFreed.replaced ht.valid (ht.cell e he).live
  refine ⟨hr.valid, ?_, ht.nodup.sublist (List.filter_sublist.map _), ht.isOpen⟩
  intro e' he'
  obtain ⟨he', hNe⟩ := List.mem_filter.mp he'
  have hKeeps : Heap.Keeps [⟨e'.addr, cellSize, cellSize⟩] t.heap h := hr.keeps (by simpa using hNe)
  exact (ht.cell e' he').keeps hKeeps List.mem_cons_self

theorem exec_detach_housed (ht : t.Housed) (addr : UInt32) :
    (∃ why, exec (detach addr) t = (.error (.refused why), t) ∧
        ∀ e ∈ t.store.entries, e.addr = addr → e.isBorrowed = true) ∨
      ∃ e h, e ∈ t.store.entries ∧ e.addr = addr ∧ e.isBorrowed = false ∧
        exec (detach addr) t = (.ok e, { t with heap := h, store := t.store.erase addr }) ∧
        Housed { t with heap := h, store := t.store.erase addr } := by
  rcases exec_detach_cases addr t with ⟨r, hRefused, hBorrowed⟩ | ⟨e, hFound, hIdle, hDetach⟩
  · refine .inl ⟨.report r, hRefused, ?_⟩
    rintro e he rfl
    exact hBorrowed e (Store.entry?_of_mem ht.nodup he)
  · obtain ⟨he, rfl⟩ := Store.entry?_eq_some hFound
    obtain ⟨h, hRelease, hFreed⟩ := Heap.exec_release_live ht.valid (ht.cell e he).live
    exact .inr ⟨e, h, he, rfl, hIdle, hDetach hRelease, ht.erase he hFreed⟩

/-- The object is gone and the rest is as it was. -/
structure Without (t : Table V) (addr : UInt32) (t' : Table V) : Prop where
  housed : t'.Housed
  store : t'.store = t.store.erase addr

theorem Without.holdings {addr : UInt32} (hw : t.Without addr t') : t'.holdings = t.holdings.filter (·.1 ≠ addr) := by
  rw [← holdings_erase t t.heap addr, Table.holdings, hw.store]
  rfl

theorem exec_take_housed (ht : t.Housed) (addr : UInt32) :
    (∃ why, exec (take addr) t = (.error (.refused why), t)) ∨
      ∃ v t', exec (take addr) t = (.ok v, t') ∧ t.Without addr t' := by
  rw [take]
  rcases exec_detach_housed ht addr with ⟨why, hRefused, -⟩ | ⟨e, h, -, -, -, hExec, hHoused⟩
  · exact .inl ⟨why, exec_bind_error hRefused⟩
  · exact .inr ⟨e.value, _, (exec_bind_ok hExec).trans (exec_bind_ok (exec_notify ..)), hHoused.told _, rfl⟩

/-- Dropping is refused, or the object is gone, even when its destructor stops short. -/
theorem exec_remove_housed (ht : t.Housed) (addr : UInt32)
    (hGentle : ∀ e ∈ t.store.entries, ∀ t₁ : Table V, t₁.store.entries ⊆ t.store.entries →
      e.addr ∉ t₁.store.entries.map Entry.addr → Gentle destroy e.value t₁) :
    (∃ why, exec (remove destroy addr) t = (.error (.refused why), t) ∧
        ∀ e ∈ t.store.entries, e.addr = addr → e.isBorrowed = true) ∨
      ∃ e t', e ∈ t.store.entries ∧ e.addr = addr ∧ e.isBorrowed = false ∧ t.Without addr t' ∧
        (exec (remove destroy addr) t = (.ok e.value, t') ∨
          ∃ stop t₁, (∀ why, stop ≠ .refused why) ∧ (exec (destroy e.value) t₁).1 = .error stop ∧
            exec (remove destroy addr) t = (.error stop, t')) := by
  rw [remove]
  rcases exec_detach_housed ht addr with ⟨why, hRefused, hBorrowed⟩ | ⟨e, h, he, hAddr, hIdle, hExec, hHoused⟩
  · exact .inl ⟨why, exec_bind_error hRefused, hBorrowed⟩
  · have hg : Gentle destroy e.value { t with heap := h, store := t.store.erase addr } := by
      refine hGentle e he _ (fun _ hMem => (List.mem_filter.mp hMem).1) ?_
      rw [hAddr]
      intro hMem
      obtain ⟨e', he', hEq⟩ := List.mem_map.mp hMem
      simp [Store.erase, hEq] at he'
    have hWithout : t.Without addr (exec (destroy e.value) { t with heap := h, store := t.store.erase addr }).2 :=
      ⟨hHoused.others hg.store hg.closed hg.heap, hg.store⟩
    rw [exec_bind_ok hExec, exec_bind]
    have hHard := hg.hard
    rcases hOut : exec (destroy e.value) { t with heap := h, store := t.store.erase addr } with ⟨stop | ⟨⟩, t'⟩
    · rw [hOut] at hWithout hHard
      exact .inr ⟨e, t', he, hAddr, hIdle, hWithout, .inr ⟨stop, _, fun why hEq => hHard why (by rw [hEq]),
        congrArg Prod.fst hOut, rfl⟩⟩
    · rw [hOut] at hWithout
      exact .inr ⟨e, _, he, hAddr, hIdle, ⟨hWithout.housed.told _, hWithout.store⟩, .inl rfl⟩

/-! ## Borrowing -/

theorem Housed.modify (ht : t.Housed) (addr : UInt32) {f : Entry V → Entry V}
    (hSame : ∀ e ∈ t.store.entries, e.addr = addr → (f e).addr = e.addr ∧ (f e).typeId = e.typeId) :
    Housed { t with store := t.store.modify addr f } ∧
      { t with store := t.store.modify addr f }.holdings = t.holdings := by
  have hEntry : ∀ e ∈ t.store.entries, (if e.addr = addr then f e else e).addr = e.addr ∧
      (if e.addr = addr then f e else e).typeId = e.typeId := by
    intro e he
    split
    · exact hSame e he ‹_›
    · exact ⟨rfl, rfl⟩
  refine ⟨⟨ht.valid, ?_, ?_, ht.isOpen⟩, ?_⟩
  · intro e' he'
    obtain ⟨e, he, rfl⟩ := List.mem_map.mp he'
    simp only [(hEntry e he).1, (hEntry e he).2]
    exact ht.cell e he
  · have hAddrs : (t.store.modify addr f).entries.map Entry.addr = t.store.entries.map Entry.addr := by
      simp only [Store.modify, List.map_map]
      exact List.map_congr_left fun e he => (hEntry e he).1
    exact hAddrs ▸ ht.nodup
  · simp only [Table.holdings, Store.modify, List.map_map]
    exact List.map_congr_left fun e he => by
      simp only [Function.comp_apply, (hEntry e he).1, (hEntry e he).2]

theorem exec_borrow_housed (ht : t.Housed) (addr : UInt32) (kind : BorrowKind) :
    (∃ why, exec (borrow addr kind) t = (.error (.refused why), t)) ∨
      ∃ t', exec (borrow addr kind) t = (.ok (), t') ∧ t'.Housed ∧ t'.holdings = t.holdings := by
  rw [borrow]
  cases hBorrow : t.store.borrow addr kind with
  | error r =>
    refine .inl ⟨.report r, exec_bind_error ?_⟩
    rw [exec_onStore, hBorrow]
    rfl
  | ok store =>
    have hStore : exec (onStore fun s => (s.borrow addr kind).map fun s => ((), s)) t =
        (.ok (), { t with store }) := by
      rw [exec_onStore, hBorrow]
      rfl
    obtain rfl : t.store.modify addr (·.borrow kind) = store := by
      unfold Store.borrow at hBorrow
      split at hBorrow
      · cases hBorrow
      · split at hBorrow
        · exact Except.ok.inj hBorrow
        · cases hBorrow
    obtain ⟨hHoused, hHoldings⟩ := ht.modify addr (f := (·.borrow kind))
      (fun e _ _ => by cases kind <;> exact ⟨rfl, rfl⟩)
    exact .inr ⟨_, (exec_bind_ok hStore).trans (exec_bind_ok (exec_get _)), hHoused.told _, hHoldings⟩

theorem exec_giveBack_housed (ht : t.Housed) (addr : UInt32) (kind : BorrowKind) :
    exec (giveBack addr kind) t = (.ok false, t) ∨
      ∃ t', exec (giveBack addr kind) t = (.ok true, t') ∧ t'.Housed ∧ t'.holdings = t.holdings := by
  rw [giveBack, exec_bind_ok (exec_get t)]
  cases hFound : t.store.entry? addr with
  | none =>
    have hNone : t.store.giveBack? addr kind = none := by
      rw [Store.giveBack?, hFound]
      rfl
    simp only [hNone]
    exact .inl rfl
  | some e =>
    obtain ⟨he, rfl⟩ := Store.entry?_eq_some hFound
    cases hBack : e.giveBack? kind with
    | none =>
      have hNone : t.store.giveBack? e.addr kind = none := by
        rw [Store.giveBack?, hFound]
        show (e.giveBack? kind >>= _) = none
        rw [hBack]
        rfl
      simp only [hNone]
      exact .inl rfl
    | some e' =>
      have hStore : t.store.giveBack? e.addr kind = some (t.store.modify e.addr fun _ => e') := by
        rw [Store.giveBack?, hFound]
        show (e.giveBack? kind >>= _) = _
        rw [hBack]
        rfl
      obtain ⟨hHoused, hHoldings⟩ := ht.modify e.addr (f := fun _ => e') fun x hx hAddr => by
        rw [List.inj_on_of_nodup_map ht.nodup hx he hAddr]
        exact Entry.giveBack?_same hBack
      simp only [hStore]
      exact .inr ⟨_, rfl, hHoused.told _, hHoldings⟩

/-! ## Clearing -/

theorem Without.subset {addr : UInt32} (hw : t.Without addr t') : t'.store.entries ⊆ t.store.entries := by
  rw [hw.store]
  exact fun _ hMem => (List.mem_filter.mp hMem).1

theorem Aloof.subset (hAloof : Aloof destroy t) (hSub : t'.store.entries ⊆ t.store.entries) : Aloof destroy t' :=
  fun e he t₁ hSub₁ => hAloof e (hSub he) t₁ fun _ hMem => hSub (hSub₁ hMem)

open TableCall in
theorem exec_removeAll (addrs : List UInt32) (ht : t.Housed) (hAloof : Aloof destroy t) :
    (exec (removeAll destroy addrs) t).2.Housed ∧
      (exec (removeAll destroy addrs) t).2.holdings =
        (removals destroy addrs t).foldr (fun call out => Roster.next out call) t.holdings ∧
      ((exec (removeAll destroy addrs) t).1 = .ok () ∧
          (exec (removeAll destroy addrs) t).2.store.entries =
            t.store.entries.filter (fun e => e.isBorrowed || e.addr ∉ addrs) ∨
        ∃ stop, (exec (removeAll destroy addrs) t).1 = .error stop ∧ (∀ why, stop ≠ .refused why) ∧
          ∃ e ∈ t.store.entries, ∃ t₁, (exec (destroy e.value) t₁).1 = .error stop) := by
  induction addrs generalizing t with
  | nil => exact ⟨ht, rfl, .inl ⟨rfl, by simp [removeAll]⟩⟩
  | cons addr rest ih =>
    rw [removeAll, removals, perform, exec_map]
    rcases exec_remove_housed ht addr hAloof with ⟨why, hExec, hBorrowed⟩ |
      ⟨e, t', he, hAddr, hIdle, hWithout, hExec | ⟨stop, t₁, hHard, hStop, hExec⟩⟩
    · rw [exec_bind_ok (exec_attempt_refused hExec), hExec]
      simp only [Except.map, List.foldr_append, List.foldr_cons, List.foldr_nil, Roster.next]
      obtain ⟨hHoused, hHoldings, hEnd⟩ := ih ht hAloof
      refine ⟨hHoused, hHoldings, hEnd.imp_left fun ⟨hOk, hEntries⟩ => ⟨hOk, hEntries.trans ?_⟩⟩
      refine List.filter_congr fun x hx => ?_
      by_cases hx' : x.addr = addr
      · simp [hBorrowed x hx hx']
      · simp [hx']
    · rw [exec_bind_ok (exec_attempt_ok hExec), hExec]
      simp only [Except.map, List.foldr_append, List.foldr_cons, List.foldr_nil, Roster.next]
      obtain ⟨hHoused, hHoldings, hEnd⟩ := ih hWithout.housed (hAloof.subset hWithout.subset)
      rw [hWithout.holdings] at hHoldings
      refine ⟨hHoused, hHoldings, ?_⟩
      rcases hEnd with ⟨hOk, hEntries⟩ | ⟨stop, hErr, hHard, x, hx, hStop⟩
      · refine .inl ⟨hOk, ?_⟩
        rw [hEntries, hWithout.store, Store.erase, List.filter_filter]
        refine List.filter_congr fun x hx => ?_
        by_cases hx' : x.addr = addr
        · have hSame := List.inj_on_of_nodup_map ht.nodup hx he (hx'.trans hAddr.symm)
          simp [hSame, hAddr, hIdle]
        · simp [hx']
      · exact .inr ⟨stop, hErr, hHard, x, hWithout.subset hx, hStop⟩
    · have hAttempt : exec (attempt (remove destroy addr)) t = (.error stop, t') := by
        rw [exec_attempt, hExec]
        cases stop with
        | refused why => exact absurd rfl (hHard why)
        | trapped | crashed => rfl
      rw [exec_bind_error hAttempt, hExec]
      refine ⟨hWithout.housed, ?_, .inr ⟨stop, rfl, hHard, e, he, t₁, hStop⟩⟩
      cases stop with
      | refused why => exact absurd rfl (hHard why)
      | trapped | crashed => exact hWithout.holdings

theorem exec_clear (destroy : V → Step (Table V) Unit) (t : Table V) :
    exec (clear destroy) t = exec (removeAll destroy (t.store.sorted.map Entry.addr)) t := by
  rw [clear, exec_bind_ok (exec_get t)]

/-! ## Every run -/

/-- What one call does to a table whose objects are all housed. -/
structure Performed (c : TableCall V) (t : Table V) : Prop where
  housed : (exec c.perform t).2.Housed
  holdings : (exec c.perform t).2.holdings =
    (c.record t).foldr (fun call out => Roster.next out call) t.holdings
  unchanged : (∃ why, (exec c.perform t).1 = .error (.refused why)) ∨ (exec c.perform t).1 = .ok (.flag false) →
    (exec c.perform t).2 = t
  /-- Only a destructor can stop it short. -/
  stops : ∀ stop, (exec c.perform t).1 = .error stop → (∃ why, stop = .refused why) ∨
    ∃ destroy, c.destructor? = some destroy ∧
      ∃ e ∈ t.store.entries, ∃ t₁, (exec (destroy e.value) t₁).1 = .error stop

theorem Performed.refused (ht : t.Housed) (hSingle : c.record t = [(c, (exec c.perform t).1)])
    {why : Failure} (hExec : exec c.perform t = (.error (.refused why), t)) : Performed c t := by
  refine ⟨by rwa [hExec], ?_, fun _ => by rw [hExec], fun stop hStop => ?_⟩
  · rw [hSingle, hExec]
    cases c <;> rfl
  · rw [hExec] at hStop
    exact .inl ⟨why, (Except.error.inj hStop).symm⟩

theorem Performed.answered (hSingle : c.record t = [(c, (exec c.perform t).1)])
    {a : TableAnswer V} (hExec : exec c.perform t = (.ok a, t')) (hHoused : t'.Housed)
    (hHoldings : t'.holdings = Roster.next t.holdings (c, .ok a)) (hFlag : a ≠ .flag false) : Performed c t := by
  refine ⟨by rwa [hExec], ?_, fun h => ?_, fun stop hStop => ?_⟩
  · rw [hSingle, hExec]
    exact hHoldings
  · rw [hExec] at h
    rcases h with ⟨why, hEq⟩ | hEq
    · cases hEq
    · exact absurd (Except.ok.inj hEq) hFlag
  · rw [hExec] at hStop
    cases hStop

theorem Performed.stopped {stop : Stop} (hExec : (exec c.perform t).1 = .error stop)
    (hHard : ∀ why, stop ≠ .refused why) (hHoused : (exec c.perform t).2.Housed)
    (hHoldings : (exec c.perform t).2.holdings = (c.record t).foldr (fun call out => Roster.next out call) t.holdings)
    (hDestroy : c.destructor? = some destroy)
    (he : e ∈ t.store.entries) {t₁ : Table V} (hStop : (exec (destroy e.value) t₁).1 = .error stop) :
    Performed c t := by
  refine ⟨hHoused, hHoldings, fun h => ?_, fun stop' hStop' => ?_⟩
  · rw [hExec] at h
    rcases h with ⟨why, hEq⟩ | hEq
    · exact absurd (Except.error.inj hEq) (hHard why)
    · cases hEq
  · obtain rfl := Except.error.inj (hExec.symm.trans hStop')
    exact .inr ⟨destroy, hDestroy, e, he, t₁, hStop⟩

theorem performed_remove (ht : t.Housed) (hAloof : Aloof destroy t)
    (addr : UInt32) : Performed (.remove destroy addr) t := by
  have hPerform := exec_map TableAnswer.value (remove destroy addr) t
  rcases exec_remove_housed ht addr hAloof with ⟨why, hExec, -⟩ |
    ⟨e, t', he, -, -, hWithout, hExec | ⟨stop, t₁, hHard, hStop, hExec⟩⟩
  · rw [hExec] at hPerform
    exact .refused ht rfl hPerform
  · rw [hExec] at hPerform
    exact .answered rfl hPerform hWithout.housed hWithout.holdings nofun
  · rw [hExec] at hPerform
    have hPerform : exec (TableCall.remove destroy addr).perform t = (.error stop, t') := hPerform
    refine .stopped (by rw [hPerform]) hHard (by rw [hPerform]; exact hWithout.housed) ?_ rfl he hStop
    show _ = Roster.next t.holdings (.remove destroy addr, (exec (TableCall.remove destroy addr).perform t).1)
    rw [hPerform]
    cases stop with
    | refused why => exact absurd rfl (hHard why)
    | trapped | crashed => exact hWithout.holdings

theorem performed_clear (ht : t.Housed) (hAloof : Aloof destroy t) : Performed (.clear destroy) t := by
  have hPerform := exec_map (fun _ => (TableAnswer.done : TableAnswer V)) (clear destroy) t
  rw [exec_clear] at hPerform
  obtain ⟨hHoused, hHoldings, hEnd⟩ := exec_removeAll (t.store.sorted.map Entry.addr) ht hAloof
  generalize exec (removeAll destroy (t.store.sorted.map Entry.addr)) t = out at hPerform hHoused hHoldings hEnd
  have hPerform : exec (TableCall.clear destroy).perform t = (out.1.map fun _ => .done, out.2) := hPerform
  have hRecord : ∀ answer, ((TableCall.clear destroy, answer) :: TableCall.removals destroy
      (t.store.sorted.map Entry.addr) t).foldr (fun call out => Roster.next out call) t.holdings = out.2.holdings := by
    intro answer
    exact hHoldings.symm
  rcases hEnd with ⟨hOk, -⟩ | ⟨stop, hErr, hHard, e, he, t₁, hStop⟩
  · rw [hOk] at hPerform
    refine ⟨by rwa [hPerform], by rw [TableCall.record, hRecord, hPerform], fun h => ?_, fun stop hStop => ?_⟩
    · rw [hPerform] at h
      rcases h with ⟨why, hEq⟩ | hEq <;> cases hEq
    · rw [hPerform] at hStop
      cases hStop
  · rw [hErr] at hPerform
    refine .stopped (by rw [hPerform]; rfl) hHard (by rwa [hPerform]) ?_ rfl he hStop
    rw [TableCall.record, hRecord, hPerform]

theorem performed (ht : t.Housed) (c : TableCall V) (hAloof : c.Aloof t) : Performed c t := by
  cases c with
  | insert id value =>
    have hPerform := exec_map (TableAnswer.address (V := V)) (insert id value) t
    rcases exec_insert_housed ht id value with ⟨why, hExec⟩ | ⟨addr, t', hExec, hHoused, hHoldings⟩
    · rw [hExec] at hPerform
      exact .refused ht rfl hPerform
    · rw [hExec] at hPerform
      exact .answered rfl hPerform hHoused hHoldings nofun
  | remove destroy addr => exact performed_remove ht (hAloof destroy rfl) addr
  | take addr =>
    have hPerform := exec_map TableAnswer.value (take addr) t
    rcases exec_take_housed ht addr with ⟨why, hExec⟩ | ⟨v, t', hExec, hWithout⟩
    · rw [hExec] at hPerform
      exact .refused ht rfl hPerform
    · rw [hExec] at hPerform
      exact .answered rfl hPerform hWithout.housed hWithout.holdings nofun
  | borrow addr kind =>
    have hPerform := exec_map (fun _ => (TableAnswer.done : TableAnswer V)) (borrow addr kind) t
    rcases exec_borrow_housed ht addr kind with ⟨why, hExec⟩ | ⟨t', hExec, hHoused, hHoldings⟩
    · rw [hExec] at hPerform
      exact .refused ht rfl hPerform
    · rw [hExec] at hPerform
      exact .answered rfl hPerform hHoused hHoldings nofun
  | giveBack addr kind =>
    have hPerform := exec_map (TableAnswer.flag (V := V)) (giveBack addr kind) t
    rcases exec_giveBack_housed ht addr kind with hExec | ⟨t', hExec, hHoused, hHoldings⟩
    · rw [hExec] at hPerform
      have hPerform : exec (TableCall.giveBack addr kind).perform t = (.ok (.flag false), t) := hPerform
      refine ⟨by rwa [hPerform], ?_, fun _ => by rw [hPerform], fun stop hStop => ?_⟩
      · rw [hPerform]
        rfl
      · rw [hPerform] at hStop
        cases hStop
    · rw [hExec] at hPerform
      exact .answered rfl hPerform hHoused hHoldings nofun
  | clear destroy => exact performed_clear ht (hAloof destroy rfl)

end Table

variable {trace : List (TableCall V × Except Stop (TableAnswer V))}

theorem TableRun.housed {m : Memory} (hPages : m.pages ≤ m.maxPages) (hLimit : m.maxPages ≤ 65535)
    {t : Table V} (hRun : TableRun m trace t) :
    t.Housed ∧ t.holdings = roster trace := by
  induction hRun with
  | start => exact ⟨⟨.of_memory hPages hLimit, List.forall_mem_nil _, .nil, rfl, rfl⟩, rfl⟩
  | call c _ hAloof ih =>
    have hp := Table.performed ih.1 c hAloof
    refine ⟨hp.housed, ?_⟩
    rw [hp.holdings, ih.2, roster, roster, List.foldr_append]
  | others _ hStore hClosed hHeap ih =>
    refine ⟨ih.1.others hStore hClosed hHeap, ?_⟩
    rw [Table.holdings, hStore]
    exact ih.2

/-- The store and the heap agree. -/
structure Table.Agrees (trace : List (TableCall V × Except Stop (TableAnswer V))) (t : Table V) : Prop where
  /-- The objects are those that were boxed and not yet taken out. -/
  roster : ∀ addr id, (∃ e ∈ t.store.entries, e.addr = addr ∧ e.typeId = id) ↔ (addr, id) ∈ roster trace
  cell : ∀ e ∈ t.store.entries, ⟨e.addr, 8, 8⟩ ∈ t.heap.live ∧ 8 ∣ e.addr.toNat ∧
    t.heap.memory.slice e.addr.toNat 4 = Word.toBytes 4 e.typeId.toNat
  distinct : (t.store.entries.map Entry.addr).Nodup
  frees : ∀ e ∈ t.store.entries, ∃ h, exec (Heap.release e.addr) t.heap = (.ok (), h)
  /-- Whatever stops a call short, other than a refusal, is a destructor. -/
  stops : ∀ c : TableCall V, c.Aloof t → ∀ stop, (exec c.perform t).1 = .error stop →
    (∃ why, stop = .refused why) ∨ ∃ destroy, c.destructor? = some destroy ∧
      ∃ e ∈ t.store.entries, ∃ t₁, (exec (destroy e.value) t₁).1 = .error stop
  unchanged : ∀ c : TableCall V, c.Aloof t →
    (∃ why, (exec c.perform t).1 = .error (.refused why)) ∨ (exec c.perform t).1 = .ok (.flag false) →
    (exec c.perform t).2 = t
  /-- Clearing leaves what is borrowed. -/
  clears : ∀ destroy, Aloof destroy t → (exec (clear destroy) t).1 = .ok () →
    (exec (clear destroy) t).2.store.entries = t.store.entries.filter Entry.isBorrowed

theorem Table.Housed.clears {t : Table V} (ht : t.Housed) {destroy : V → Step (Table V) Unit}
    (hAloof : Table.Aloof destroy t) (hOk : (exec (Table.clear destroy) t).1 = .ok ()) :
    (exec (Table.clear destroy) t).2.store.entries = t.store.entries.filter Entry.isBorrowed := by
  rw [Table.exec_clear] at hOk ⊢
  obtain ⟨-, -, ⟨-, hEntries⟩ | ⟨stop, hErr, -⟩⟩ := Table.exec_removeAll (t.store.sorted.map Entry.addr) ht hAloof
  · rw [hEntries]
    refine List.filter_congr fun e he => ?_
    have hMem : e.addr ∈ t.store.sorted.map Entry.addr :=
      List.mem_map_of_mem (List.mem_mergeSort.mpr he)
    simp [hMem]
  · rw [hOk] at hErr
    cases hErr

/-- After every run on a new table, its store and its heap agree. -/
theorem TableRun.agrees {m : Memory} (hPages : m.pages ≤ m.maxPages) (hLimit : m.maxPages ≤ 65535)
    {trace : List (TableCall V × Except Stop (TableAnswer V))} {t : Table V} (hRun : TableRun m trace t) :
    t.Agrees trace := by
  obtain ⟨ht, hRoster⟩ := hRun.housed hPages hLimit
  constructor
  case roster =>
    intro addr id
    rw [← hRoster, Table.holdings, List.mem_map]
    simp only [Prod.mk.injEq]
  case cell =>
    intro e he
    obtain ⟨hLive, hAligned, hMarked⟩ := ht.cell e he
    exact ⟨hLive, hAligned, hMarked⟩
  case distinct => exact ht.nodup
  case frees =>
    intro e he
    obtain ⟨h, hExec, -⟩ := Heap.exec_release_live ht.valid (ht.cell e he).live
    exact ⟨h, hExec⟩
  case stops => exact fun c hAloof => (Table.performed ht c hAloof).stops
  case unchanged => exact fun c hAloof => (Table.performed ht c hAloof).unchanged
  case clears => exact fun destroy hAloof => ht.clears hAloof

theorem TableRun.use {m : Memory} {t : Table V}
    (hRun : TableRun m trace t) (c : HeapUse) (hSpares : c.Spares t.cells) :
    TableRun m trace { t with heap := (exec c.perform t.heap).2 } :=
  hRun.others rfl rfl (.use c .refl hSpares)

/-- A borrowed object is not removed; another one is, although its destructor crashes, and its cell is used again. -/
theorem TableRun.agrees_reused :
    let m : Memory := { pages := 1, maxPages := 65535, byte := fun _ => 9 }
    ∃ (trace : List (TableCall Bool × Except Stop (TableAnswer Bool))) (t : Table Bool), TableRun m trace t ∧
      trace.length = 6 ∧ t.holdings = [(56, 7), (48, 5)] ∧ t.Agrees trace := by
  intro m
  let destroy : Bool → Step (Table Bool) Unit := fun v => if v then Step.crash else pure ()
  have hAloof : ∀ t, Table.Aloof destroy t := by
    rintro t ⟨addr, id, value, shared, exclusive⟩ _ t₁ _ _
    cases value <;> exact ⟨rfl, rfl, .refl, nofun⟩
  have hNone : ∀ (c : TableCall Bool) t, c.destructor? = none → c.Aloof t := by
    intro c t hNone destroy hSome
    rw [hNone] at hSome
    cases hSome
  have hRemove : ∀ addr t, (TableCall.remove destroy addr).Aloof t := by
    intro addr t destroy' hSome
    exact Option.some.inj hSome ▸ hAloof t
  have hShared := (TableRun.start (V := Bool) (m := m)).use (.alloc 24 0) trivial
  have hBoth := (hShared.call (.insert 5 false) (hNone _ _ rfl)).call (.insert 6 true) (hNone _ _ rfl)
  have hBorrowed := hBoth.call (.borrow 48 .shared) (hNone _ _ rfl)
  have hOne := (hBorrowed.call (.remove destroy 48) (hRemove _ _)).call (.remove destroy 56) (hRemove _ _)
  have hRun := hOne.call (.insert 7 false) (hNone _ _ rfl)
  exact ⟨_, _, hRun, rfl, by decide +kernel, hRun.agrees (by decide) (by decide)⟩

end Marshal
