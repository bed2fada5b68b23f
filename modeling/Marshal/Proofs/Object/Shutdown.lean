import Marshal.Proofs.Object.Loss
import Marshal.Proofs.Object.Placed

/-! # Closing a table with borrows outstanding

A table is closed in two stages. Objects that nobody borrows are dropped one by one; a destructor may drop others on
its way, which are then gone when their turn comes. The rest is swept out of the store at once, and there the stages
differ: the destructors of borrowed objects run too, but their cells stay live and their end is not announced.
-/
set_option autoImplicit false
namespace Marshal

open Step

variable {V : Type}

def HeapUse.takes : HeapUse → Bool
  | .alloc _ _ => true
  | _ => false

theorem HeapUse.Spares.subset {u : HeapUse} {blocks blocks' : List Block} (h : u.Spares blocks)
    (hSub : blocks' ⊆ blocks) : u.Spares blocks' := by
  cases u with
  | alloc size align => trivial
  | free addr => exact fun b hb => h b (hSub hb)
  | write offset data => exact fun b hb => h b (hSub hb)
  | grow delta => trivial

theorem HeapUse.addrs_of_gives {u : HeapUse} (hGives : u.takes = false) {cells : List Block} (hSpares : u.Spares cells)
    (h : Heap) : (∀ a ∈ (exec u.perform h).2.addrs, a ∈ h.addrs) ∧
      ∀ b ∈ cells, b.addr ∈ h.addrs → b.addr ∈ (exec u.perform h).2.addrs := by
  cases u with
  | alloc size align => cases hGives
  | free addr =>
    rw [perform]
    by_cases hNull : addr = 0
    · rw [hNull, Heap.exec_release_null]
      exact ⟨fun _ => id, fun _ _ => id⟩
    · rcases hRelease : exec (Heap.release addr) h with ⟨stop | ⟨⟩, h'⟩
      · rw [Heap.exec_release] at hRelease
        cases hFree : h.free? addr <;> rw [hFree] at hRelease <;> cases hRelease
        exact ⟨fun _ => id, fun _ _ => id⟩
      · refine ⟨fun a ha => ((Heap.mem_addrs_release hNull hRelease).mp ha).1, fun b hb hLive => ?_⟩
        exact (Heap.mem_addrs_release hNull hRelease).mpr ⟨hLive, hSpares b hb⟩
  | write offset data =>
    rw [perform, Heap.exec_change]
    cases h.memory.write offset data <;> exact ⟨fun _ => id, fun _ _ => id⟩
  | grow delta =>
    rw [perform, exec_map, Heap.growPages, exec_bind_ok (exec_get h)]
    rcases h.memory.grow delta with ⟨_ | m, previous⟩ <;> exact ⟨fun _ => id, fun _ _ => id⟩

namespace Table

variable {mark : V → List (Deed V)} {cells : List Block} {t t₁ t₂ t' : Table V} {destroy : V → Step (Table V) Unit}

/-! ## What destructors do -/

/-- Destructors give memory back and write to it, without touching the cells, and drop other objects. The destructor of
an object enters what `mark` says of its value in the journal before it does anything else; when it is done the drop is
announced. -/
inductive Disposal (mark : V → List (Deed V)) (cells : List Block) : Table V → Table V → Prop
  | done (t : Table V) : Disposal mark cells t t
  | use {t t' : Table V} (u : HeapUse) (hGives : u.takes = false) (hSpares : u.Spares cells)
      (hRest : Disposal mark cells { t with heap := (exec u.perform t.heap).2 } t') : Disposal mark cells t t'
  | drop {t t₁ t₂ t' : Table V} (x : Entry V) (hDetach : exec (detach x.addr) t = (.ok x, t₁))
      (hInner : Disposal mark cells { t₁ with journal := t₁.journal ++ mark x.value } t₂)
      (hRest : Disposal mark cells (t₂.told x.farewell) t') : Disposal mark cells t t'

/-- Objects have been dropped, and this is all that has changed outside their cells but for memory given back. -/
structure Disposed (mark : V → List (Deed V)) (cells : List Block) (t : Table V) (gone : List (Entry V))
    (t' : Table V) : Prop where
  placed : t'.Placed
  entries : t.store.entries.Perm (gone ++ t'.store.entries)
  idle : ∀ x ∈ gone, x.isBorrowed = false
  journal : ∃ marks, t'.journal = t.journal ++ marks ∧ marks.Perm (gone.flatMap fun x => mark x.value)
  told : ∃ events, t'.observers = t.observers.map (fun (id, seen) => (id, seen ++ events)) ∧
    events.Perm (gone.map Entry.farewell)
  live : ∀ a ∈ t'.heap.addrs, a ∈ t.heap.addrs ∧ ∀ x ∈ gone, x.addr ≠ a
  kept : ∀ b ∈ cells, b.addr ∈ t.heap.addrs → (∀ x ∈ gone, x.addr ≠ b.addr) → b.addr ∈ t'.heap.addrs
  closed : t'.closed = t.closed

namespace Disposed

theorem refl (hp : t.Placed) : t.Disposed mark cells [] t :=
  ⟨hp, .refl _, List.forall_mem_nil _, ⟨[], (List.append_nil _).symm, .refl _⟩, ⟨[], by simp, .refl _⟩,
    fun a ha => ⟨ha, List.forall_mem_nil _⟩, fun _ _ hLive _ => hLive, rfl⟩

theorem trans {gone gone' : List (Entry V)} (hd : t.Disposed mark cells gone t₁)
    (hd' : t₁.Disposed mark cells gone' t₂) : t.Disposed mark cells (gone ++ gone') t₂ := by
  obtain ⟨marks, hJournal, hMarks⟩ := hd.journal
  obtain ⟨marks', hJournal', hMarks'⟩ := hd'.journal
  obtain ⟨events, hTold, hEvents⟩ := hd.told
  obtain ⟨events', hTold', hEvents'⟩ := hd'.told
  refine ⟨hd'.placed, ?_, List.forall_mem_append.mpr ⟨hd.idle, hd'.idle⟩, ⟨marks ++ marks', ?_, ?_⟩,
    ⟨events ++ events', ?_, ?_⟩, ?_, ?_, hd'.closed.trans hd.closed⟩
  · rw [List.append_assoc]
    exact hd.entries.trans (hd'.entries.append_left gone)
  · rw [hJournal', hJournal, List.append_assoc]
  · rw [List.flatMap_append]
    exact hMarks.append hMarks'
  · rw [hTold', hTold, List.map_map]
    exact List.map_congr_left fun seen _ => by simp
  · rw [List.map_append]
    exact hEvents.append hEvents'
  · intro a ha
    obtain ⟨ha, hLater⟩ := hd'.live a ha
    obtain ⟨ha, hEarlier⟩ := hd.live a ha
    exact ⟨ha, List.forall_mem_append.mpr ⟨hEarlier, hLater⟩⟩
  · intro b hb hLive hNone
    obtain ⟨hEarlier, hLater⟩ := List.forall_mem_append.mp hNone
    exact hd'.kept b hb (hd.kept b hb hLive hEarlier) hLater

theorem drop {x : Entry V} {inner : List (Entry V)} (hp : t.Placed) (hDetach : exec (detach x.addr) t = (.ok x, t₁))
    (hInner : Disposed mark cells { t₁ with journal := t₁.journal ++ mark x.value } inner t₂) :
    t.Disposed mark cells (x :: inner) (t₂.told x.farewell) := by
  rcases hp.exec_detach x.addr with ⟨why, hRefused, -⟩ | ⟨y, h, hx, -, hIdle, hRelease, hDetach', hp₁⟩
  · cases hDetach.symm.trans hRefused
  cases hDetach.symm.trans hDetach'
  obtain ⟨marks, hJournal, hMarks⟩ := hInner.journal
  obtain ⟨events, hTold, hEvents⟩ := hInner.told
  have hAddrs := fun a => Heap.mem_addrs_release (a := a) (hp.nonzero x hx) hRelease
  refine ⟨hInner.placed.same rfl rfl, ?_, List.forall_mem_cons.mpr ⟨hIdle, hInner.idle⟩,
    ⟨mark x.value ++ marks, ?_, ?_⟩, ⟨events ++ [x.farewell], ?_, ?_⟩, ?_, ?_, hInner.closed⟩
  · have hFirst : t.store.entries.Perm (x :: (t.store.erase x.addr).entries) := perm_cons_filter Entry.addr hp.nodup hx
    exact hFirst.trans (hInner.entries.cons x)
  · show t₂.journal = _
    rw [hJournal, List.append_assoc]
  · exact hMarks.append_left _
  · rw [Table.told, hTold, List.map_map]
    exact List.map_congr_left fun seen _ => by simp
  · exact List.perm_append_comm.trans (hEvents.cons _)
  · intro a ha
    obtain ⟨hBefore, hOthers⟩ := hInner.live a ha
    obtain ⟨hBefore, hNe⟩ := (hAddrs a).mp hBefore
    exact ⟨hBefore, List.forall_mem_cons.mpr ⟨hNe.symm, hOthers⟩⟩
  · intro b hb hLive hNone
    obtain ⟨hNe, hOthers⟩ := List.forall_mem_cons.mp hNone
    exact hInner.kept b hb ((hAddrs b.addr).mpr ⟨hLive, hNe.symm⟩) hOthers

variable {gone : List (Entry V)} {x y : Entry V}

theorem mem (hd : t.Disposed mark cells gone t') (hx : x ∈ t'.store.entries) : x ∈ t.store.entries :=
  hd.entries.mem_iff.mpr (List.mem_append_right _ hx)

theorem apart (hd : t.Disposed mark cells gone t') (hp : t.Placed) (hx : x ∈ gone) (hy : y ∈ t'.store.entries) :
    x.addr ≠ y.addr := by
  have hNodup := (hd.entries.map Entry.addr).nodup_iff.mp hp.nodup
  rw [List.map_append] at hNodup
  exact (List.nodup_append.mp hNodup).2.2 _ (List.mem_map_of_mem hx) _ (List.mem_map_of_mem hy)

end Disposed

theorem cells_subset (h : t₁.store.entries ⊆ t.store.entries) : t₁.cells ⊆ t.cells := List.map_subset _ h

theorem Disposal.disposed (h : Disposal mark cells t t') (hp : t.Placed) (hCells : t.cells ⊆ cells) :
    ∃ gone, t.Disposed mark cells gone t' := by
  induction h with
  | done t => exact ⟨[], .refl hp⟩
  | @use t t' u hGives hSpares _ ih =>
    have hFits : u.Fits t.heap := by
      cases u with
      | alloc size align => cases hGives
      | _ => trivial
    obtain ⟨hLess, hKept⟩ := HeapUse.addrs_of_gives hGives hSpares t.heap
    have hp₁ := hp.use (hSpares.subset hCells) hFits
    have hFirst : t.Disposed mark cells [] { t with heap := (exec u.perform t.heap).2 } :=
      ⟨hp₁, .refl _, List.forall_mem_nil _, ⟨[], (List.append_nil _).symm, .refl _⟩, ⟨[], by simp, .refl _⟩,
        fun a ha => ⟨hLess a ha, List.forall_mem_nil _⟩, fun b hb hLive _ => hKept b hb hLive, rfl⟩
    obtain ⟨gone, hRest⟩ := ih hp₁ hCells
    exact ⟨gone, hFirst.trans hRest⟩
  | @drop t t₁ t₂ t' x hDetach _ _ ihInner ihRest =>
    obtain ⟨-, hStore⟩ := exec_detach_ok hDetach
    have hSub₁ : t₁.store.entries ⊆ t.store.entries := hStore ▸ List.filter_subset_self _
    rcases hp.exec_detach x.addr with ⟨why, hRefused, -⟩ | ⟨y, h, -, -, -, -, hDetach', hp₁⟩
    · cases hDetach.symm.trans hRefused
    cases hDetach.symm.trans hDetach'
    obtain ⟨inner, hInner⟩ := ihInner (hp₁.same rfl rfl) (List.Subset.trans (cells_subset hSub₁) hCells)
    have hDrop := Disposed.drop hp hDetach hInner
    obtain ⟨rest, hRest⟩ := ihRest hDrop.placed (List.Subset.trans (cells_subset fun y => hDrop.mem) hCells)
    exact ⟨_, hDrop.trans hRest⟩

/-! ## The two stages -/

/-- The destructor does not trap, and is one of those described by `Disposal`. -/
def Orderly (mark : V → List (Deed V)) (cells : List Block) (destroy : V → Step (Table V) Unit) (v : V) (t : Table V) :
    Prop :=
  ∃ t', exec (destroy v) t = (.ok (), t') ∧ Disposal mark cells { t with journal := t.journal ++ mark v } t'

def OrderlyRemovals (mark : V → List (Deed V)) (cells : List Block) (destroy : V → Step (Table V) Unit) :
    List UInt32 → Table V → Prop
  | [], _ => True
  | addr :: rest, t =>
    (∀ x t₁, exec (detach addr) t = (.ok x, t₁) → Orderly mark cells destroy x.value t₁) ∧
      OrderlyRemovals mark cells destroy rest (exec (Step.attempt (remove destroy addr)) t).2

def OrderlySweep (mark : V → List (Deed V)) (cells : List Block) (destroy : V → Step (Table V) Unit) :
    List V → Table V → Prop
  | [], _ => True
  | v :: rest, t => Orderly mark cells destroy v t ∧ OrderlySweep mark cells destroy rest (exec (destroy v) t).2

theorem Orderly.remove (hp : t.Placed) (hCells : t.cells ⊆ cells) {addr : UInt32}
    (hOrderly : ∀ x t₁, exec (detach addr) t = (.ok x, t₁) → Orderly mark cells destroy x.value t₁) :
    ∃ r gone t', exec (attempt (Table.remove destroy addr)) t = (.ok r, t') ∧ t.Disposed mark cells gone t' ∧
      ∀ x ∈ t'.store.entries, x.addr = addr → x.isBorrowed = true := by
  rcases hp.exec_detach addr with ⟨why, hRefused, hBorrowed⟩ | ⟨x, h, hx, rfl, -, -, hDetach, hp₁⟩
  · exact ⟨_, [], t, exec_attempt_refused (exec_bind_error hRefused), .refl hp, hBorrowed⟩
  obtain ⟨t₂, hDestroy, hDisposal⟩ := hOrderly x _ hDetach
  have hSub : (t.store.erase x.addr).entries ⊆ t.store.entries := List.filter_subset_self _
  obtain ⟨inner, hInner⟩ := hDisposal.disposed (hp₁.same rfl rfl) (List.Subset.trans (List.map_subset _ hSub) hCells)
  have hDrop := Disposed.drop hp hDetach hInner
  refine ⟨_, x :: inner, _, exec_attempt_ok (exec_remove_of_detach hDetach hDestroy), hDrop, ?_⟩
  exact fun y hy hAddr => absurd hAddr.symm (hDrop.apart hp List.mem_cons_self hy)

theorem OrderlyRemovals.removeAll (addrs : List UInt32) (hp : t.Placed) (hCells : t.cells ⊆ cells)
    (hOrderly : OrderlyRemovals mark cells destroy addrs t) :
    ∃ gone t', exec (Table.removeAll destroy addrs) t = (.ok (), t') ∧ t.Disposed mark cells gone t' ∧
      ∀ x ∈ t'.store.entries, x.addr ∈ addrs → x.isBorrowed = true := by
  induction addrs generalizing t with
  | nil => exact ⟨[], t, rfl, .refl hp, nofun⟩
  | cons addr rest ih =>
    obtain ⟨hFirst, hRest⟩ := hOrderly
    obtain ⟨r, gone, t₁, hExec, hd, hBorrowed⟩ := Orderly.remove hp hCells hFirst
    rw [hExec] at hRest
    obtain ⟨gone', t', hExec', hd', hBorrowed'⟩ :=
      ih hd.placed (List.Subset.trans (cells_subset fun x => hd.mem) hCells) hRest
    refine ⟨gone ++ gone', t', (exec_bind_ok hExec).trans hExec', hd.trans hd', ?_⟩
    intro x hx hMem
    rcases List.mem_cons.mp hMem with hAddr | hMem
    · exact hBorrowed x (hd'.mem hx) hAddr
    · exact hBorrowed' x hx hMem

/-- What destructors do when the store is empty already: there is nothing that they could drop. -/
structure Swept (cells : List Block) (t t' : Table V) : Prop where
  same : ∃ h, t' = { t with heap := h }
  live : ∀ a ∈ t'.heap.addrs, a ∈ t.heap.addrs
  kept : ∀ b ∈ cells, b.addr ∈ t.heap.addrs → b.addr ∈ t'.heap.addrs

theorem Swept.trans (h : Swept cells t t₁) (h' : Swept cells t₁ t₂) : Swept cells t t₂ := by
  obtain ⟨heap, rfl⟩ := h.same
  obtain ⟨heap', rfl⟩ := h'.same
  exact ⟨⟨heap', rfl⟩, fun a ha => h.live a (h'.live a ha), fun b hb hLive => h'.kept b hb (h.kept b hb hLive)⟩

theorem Disposal.swept (h : Disposal mark cells t t') (hEmpty : t.store.entries = []) : Swept cells t t' := by
  induction h with
  | done t => exact ⟨⟨t.heap, rfl⟩, fun _ => id, fun _ _ => id⟩
  | use u hGives hSpares _ ih =>
    obtain ⟨hLess, hKept⟩ := HeapUse.addrs_of_gives hGives hSpares _
    exact Swept.trans ⟨⟨_, rfl⟩, hLess, hKept⟩ (ih hEmpty)
  | drop x hDetach _ _ _ _ =>
    obtain ⟨hFound, -⟩ := exec_detach_ok hDetach
    rw [hEmpty] at hFound
    cases hFound

theorem OrderlySweep.destroyAll (values : List V) (hEmpty : t.store.entries = [])
    (hOrderly : OrderlySweep mark cells destroy values t) :
    ∃ t', exec (Table.destroyAll destroy values) t = (.ok (), t') ∧
      Swept cells { t with journal := t.journal ++ values.flatMap mark } t' := by
  induction values generalizing t with
  | nil =>
    refine ⟨t, rfl, ⟨t.heap, ?_⟩, fun _ => id, fun _ _ => id⟩
    rw [List.flatMap_nil, List.append_nil]
  | cons v rest ih =>
    obtain ⟨⟨t₁, hExec, hDisposal⟩, hRest⟩ := hOrderly
    have hFirst := hDisposal.swept hEmpty
    obtain ⟨h, rfl⟩ := hFirst.same
    rw [hExec] at hRest
    obtain ⟨t', hExec', hSwept⟩ := @ih { t with heap := h, journal := t.journal ++ mark v } hEmpty hRest
    refine ⟨t', (exec_bind_ok hExec).trans hExec', ?_⟩
    obtain ⟨h', rfl⟩ := hSwept.same
    refine ⟨⟨h', ?_⟩, fun a ha => hFirst.live a (hSwept.live a ha),
      fun b hb hLive => hSwept.kept b hb (hFirst.kept b hb hLive)⟩
    rw [List.flatMap_cons, ← List.append_assoc]

/-! ## Closing -/

/-- No destructor that closing the table runs traps, and each is one of those described by `Disposal`. -/
structure ClosesOrderly (mark : V → List (Deed V)) (destroy : V → Step (Table V) Unit) (t : Table V) : Prop where
  removals : OrderlyRemovals mark t.cells destroy (t.store.sorted.map Entry.addr) { t with closed := true }
  sweep : ∀ t₁, exec (clear destroy) { t with closed := true } = (.ok (), t₁) →
    OrderlySweep mark t.cells destroy t₁.store.close.1 { t₁ with store := t₁.store.close.2 }

/-- The destructor of every object ran once. Only the objects that nobody borrowed were announced, and only their cells
are free. -/
structure Closed (mark : V → List (Deed V)) (t t' : Table V) : Prop where
  empty : t'.store.entries = []
  shut : t'.closed = true ∧ t'.store.closed = true
  destroyed : ∃ marks, t'.journal = t.journal ++ marks ∧ marks.Perm (t.store.entries.flatMap fun x => mark x.value)
  announced : ∃ events, t'.observers = t.observers.map (fun (id, seen) => (id, seen ++ events)) ∧
    events.Perm ((t.store.entries.filter fun x => !x.isBorrowed).map Entry.farewell)
  cells : ∀ x ∈ t.store.entries, x.addr ∈ t'.heap.addrs ↔ x.isBorrowed = true

theorem Disposed.perm_gone {gone : List (Entry V)} (hd : t.Disposed mark cells gone t')
    (hLeft : ∀ x ∈ t'.store.entries, x.isBorrowed = true) :
    (t.store.entries.filter fun x => !x.isBorrowed).Perm gone := by
  have hGone : gone.filter (fun x => !x.isBorrowed) = gone :=
    List.filter_eq_self.mpr fun x hx => by rw [hd.idle x hx]; rfl
  have hNone : t'.store.entries.filter (fun x => !x.isBorrowed) = [] :=
    List.filter_eq_nil_iff.mpr fun x hx => by rw [hLeft x hx]; exact Bool.false_ne_true
  have hPerm := hd.entries.filter fun x => !x.isBorrowed
  rwa [List.filter_append, hGone, hNone, List.append_nil] at hPerm

theorem Placed.exec_close (hp : t.Placed) (hOrderly : t.ClosesOrderly mark destroy) :
    ∃ t', exec (close destroy) t = (.ok (), t') ∧ t.Closed mark t' := by
  let t₀ : Table V := { t with closed := true }
  have hp₀ : t₀.Placed := hp.same rfl rfl
  obtain ⟨gone, t₁, hRemoveAll, hd, hListed⟩ := hOrderly.removals.removeAll _ hp₀ (List.Subset.refl _)
  have hClear : exec (clear destroy) t₀ = (.ok (), t₁) := (exec_bind_ok (exec_get t₀)).trans hRemoveAll
  have hLeft : ∀ x ∈ t₁.store.entries, x.isBorrowed = true :=
    fun x hx => hListed x hx (List.mem_map_of_mem (List.mem_mergeSort.mpr (hd.mem hx)))
  have hStore : t₁.store.close = (t₁.store.sorted.map Entry.value, { entries := [], closed := true }) := by
    rw [Store.close, hd.placed.isOpen]
    rfl
  have hSweep := hOrderly.sweep t₁ hClear
  rw [hStore] at hSweep
  obtain ⟨t', hDestroyAll, hSwept⟩ := hSweep.destroyAll _ rfl
  have hClose : exec (close destroy) t = (.ok (), t') := by
    rw [close, exec_bind_ok (exec_modify ..), exec_bind_ok hClear, exec_bind_ok (exec_get t₁), hStore]
    exact (exec_bind_ok (exec_modify ..)).trans hDestroyAll
  obtain ⟨marks, hJournal, hMarks⟩ := hd.journal
  obtain ⟨events, hTold, hEvents⟩ := hd.told
  obtain ⟨h, rfl⟩ := hSwept.same
  refine ⟨_, hClose, rfl, ⟨hd.closed, rfl⟩, ⟨marks ++ t₁.store.sorted.flatMap fun x => mark x.value, ?_, ?_⟩,
    ⟨events, hTold, hEvents.trans ((hd.perm_gone hLeft).map _).symm⟩, ?_⟩
  · rw [← List.append_assoc, ← hJournal, List.flatMap_map]
  · refine (hMarks.append ((List.mergeSort_perm _ _).flatMap_right _)).trans ?_
    rw [← List.flatMap_append]
    exact (hd.entries.flatMap_right _).symm
  · intro x hx
    rcases List.mem_append.mp (hd.entries.mem_iff.mp hx) with hGone | hStays
    · rw [hd.idle x hGone]
      exact iff_of_false (fun hLive => (hd.live _ (hSwept.live _ hLive)).2 x hGone rfl) Bool.false_ne_true
    · have hKept := hd.kept _ (mem_cells (t := t) hx) (hp.live x hx) fun y hy => hd.apart hp₀ hy hStays
      exact iff_of_true (hSwept.kept _ (mem_cells (t := t) hx) hKept) (hLeft x hStays)

/-! ## Objects that list others

Objects that hold the addresses of others, and drop those that are there, are destroyed in an orderly way in any table.
-/

/-- The tables that destructors find. -/
def Steady (cells : List Block) (t : Table V) : Prop := t.Placed ∧ t.cells ⊆ cells ∨ t.store.entries = []

theorem Steady.exec_detach (hs : t.Steady cells) (addr : UInt32) :
    (∃ why, exec (detach addr) t = (.error (.refused why), t)) ∨
      ∃ x t₁, x.addr = addr ∧ exec (detach addr) t = (.ok x, t₁) ∧ t₁.Steady cells := by
  rcases hs with ⟨hp, hCells⟩ | hEmpty
  · rcases hp.exec_detach addr with ⟨why, hRefused, -⟩ | ⟨x, h, -, hAddr, -, -, hDetach, hp₁⟩
    · exact .inl ⟨why, hRefused⟩
    · have hSub : (t.store.erase addr).entries ⊆ t.store.entries := List.filter_subset_self _
      exact .inr ⟨x, _, hAddr, hDetach, .inl ⟨hp₁, List.Subset.trans (List.map_subset _ hSub) hCells⟩⟩
  · have hNone : t.store.entry? addr = none := by
      rw [Store.entry?, hEmpty]
      rfl
    rcases exec_detach_cases addr t with ⟨r, hRefused, -⟩ | ⟨x, hFound, -⟩
    · exact .inl ⟨.report r, hRefused⟩
    · cases hNone.symm.trans hFound

theorem Steady.same (hs : t.Steady cells) (hHeap : t'.heap = t.heap) (hStore : t'.store = t.store) :
    t'.Steady cells := by
  rcases hs with ⟨hp, hCells⟩ | hEmpty
  · refine .inl ⟨hp.same hHeap hStore, ?_⟩
    rwa [Table.cells, hStore]
  · exact .inr (hStore ▸ hEmpty)

theorem Disposal.steady (h : Disposal mark cells t t') (hs : t.Steady cells) : t'.Steady cells := by
  rcases hs with ⟨hp, hCells⟩ | hEmpty
  · obtain ⟨gone, hd⟩ := h.disposed hp hCells
    exact .inl ⟨hd.placed, List.Subset.trans (cells_subset fun x => hd.mem) hCells⟩
  · obtain ⟨heap, rfl⟩ := (h.swept hEmpty).same
    exact .inr hEmpty

theorem Disposal.trans (h : Disposal mark cells t t₁) (h' : Disposal mark cells t₁ t₂) : Disposal mark cells t t₂ := by
  induction h with
  | done t => exact h'
  | use u hGives hSpares _ ih => exact .use u hGives hSpares (ih h')
  | drop x hDetach hInner _ _ ihRest => exact .drop x hDetach hInner (ihRest h')

variable (hAll : ∀ (v : V) (t₁ : Table V), t₁.Steady cells → Orderly mark cells destroy v t₁)
include hAll

theorem Orderly.exec_remove (hs : t.Steady cells) (addr : UInt32) :
    ∃ r t', exec (attempt (Table.remove destroy addr)) t = (.ok r, t') ∧ Disposal mark cells t t' := by
  rcases hs.exec_detach addr with ⟨why, hRefused⟩ | ⟨x, t₁, rfl, hDetach, hs₁⟩
  · exact ⟨_, t, exec_attempt_refused (exec_bind_error hRefused), .done t⟩
  · obtain ⟨t₂, hDestroy, hInner⟩ := hAll x.value t₁ hs₁
    exact ⟨_, _, exec_attempt_ok (exec_remove_of_detach hDetach hDestroy), .drop x hDetach hInner (.done _)⟩

theorem Orderly.exec_removeAll (addrs : List UInt32) (hs : t.Steady cells) :
    ∃ t', exec (Table.removeAll destroy addrs) t = (.ok (), t') ∧ Disposal mark cells t t' := by
  induction addrs generalizing t with
  | nil => exact ⟨t, rfl, .done t⟩
  | cons addr rest ih =>
    obtain ⟨r, t₁, hExec, hFirst⟩ := Orderly.exec_remove hAll hs addr
    obtain ⟨t', hExec', hRest⟩ := ih (hFirst.steady hs)
    exact ⟨t', (exec_bind_ok hExec).trans hExec', hFirst.trans hRest⟩

theorem Orderly.removals (addrs : List UInt32) (hs : t.Steady cells) : OrderlyRemovals mark cells destroy addrs t := by
  induction addrs generalizing t with
  | nil => trivial
  | cons addr rest ih =>
    obtain ⟨r, t₁, hExec, hFirst⟩ := Orderly.exec_remove hAll hs addr
    refine ⟨fun x t₁ hDetach => ?_, ?_⟩
    · rcases hs.exec_detach addr with ⟨why, hRefused⟩ | ⟨y, t₂, -, hDetach', hs₂⟩
      · cases hDetach.symm.trans hRefused
      · cases hDetach.symm.trans hDetach'
        exact hAll _ _ hs₂
    · rw [hExec]
      exact ih (hFirst.steady hs)

theorem Orderly.sweep (values : List V) (hs : t.Steady cells) : OrderlySweep mark cells destroy values t := by
  induction values generalizing t with
  | nil => trivial
  | cons v rest ih =>
    obtain ⟨t₁, hExec, hDisposal⟩ := hAll v t hs
    refine ⟨⟨t₁, hExec, hDisposal⟩, ?_⟩
    rw [hExec]
    exact ih (hDisposal.steady (hs.same rfl rfl))

omit hAll in
theorem ClosesOrderly.of_orderly (hp : t.Placed)
    (hAll : ∀ (v : V) (t₁ : Table V), t₁.Steady t.cells → Orderly mark t.cells destroy v t₁) :
    t.ClosesOrderly mark destroy := by
  refine ⟨Orderly.removals hAll _ (.inl ⟨hp.same rfl rfl, List.Subset.refl _⟩), fun t₁ _ => ?_⟩
  cases hClosed : t₁.store.closed with
  | true =>
    rw [Store.close, hClosed]
    trivial
  | false =>
    rw [Store.close, hClosed]
    exact Orderly.sweep hAll _ (.inr rfl)

omit hAll

/-- Drops the objects whose addresses the value lists, down to some depth. -/
def dropListed : Nat → List UInt32 → Step (Table (List UInt32)) Unit
  | 0, addrs => note (.destroyed addrs)
  | depth + 1, addrs => do
    note (.destroyed addrs)
    removeAll (dropListed depth) addrs

theorem orderly_dropListed (depth : Nat) (v : List UInt32) {t : Table (List UInt32)} (hs : t.Steady cells) :
    Orderly (fun v => [.destroyed v]) cells (dropListed depth) v t := by
  induction depth generalizing v t with
  | zero => exact ⟨_, exec_modify .., .done _⟩
  | succ depth ih =>
    have hs₁ : Steady cells { t with journal := t.journal ++ [.destroyed v] } := hs.same rfl rfl
    obtain ⟨t', hExec, hDisposal⟩ := Orderly.exec_removeAll (fun v t₁ => ih v) v hs₁
    exact ⟨t', (exec_bind_ok (exec_modify ..)).trans hExec, hDisposal⟩

/-! ## Every reachable table -/

/-- However a table was used before, closing it empties it. An object that is borrowed at the end is destroyed like the
others, but keeps its cell and is not announced. -/
theorem Reachable.exec_close_closed {m : Memory} (hRun : Reachable m t) (hOrderly : t.ClosesOrderly mark destroy) :
    ∃ t', exec (close destroy) t = (.ok (), t') ∧ t.Closed mark t' :=
  hRun.placed.exec_close hOrderly

/-- One object lists another that is gone when its turn comes, and one that lists a borrowed object. -/
theorem Reachable.exec_close_listed :
    ∃ t : Table (List UInt32), Reachable (.create .linear 1 1) t ∧
      t.store.entries.map (fun x => (x.addr, x.value, x.isBorrowed)) =
        [(40, [], true), (32, [40], false), (24, [16, 32], false), (16, [], false)] ∧
      t.ClosesOrderly (fun v => [.destroyed v]) (dropListed 3) ∧
      ∃ t', exec (close (dropListed 3)) t = (.ok (), t') ∧ t.Closed (fun v => [.destroyed v]) t' := by
  have hRun : Reachable (V := List UInt32) (.create .linear 1 1) _ := .start
  have hRun := hRun.subscribe
  have hRun := hRun.call (.insert 1 []) trivial
  have hRun := hRun.call (.insert 1 [16, 32]) trivial
  have hRun := hRun.call (.insert 2 [40]) trivial
  have hRun := hRun.call (.insert 1 []) trivial
  have hRun := hRun.call (.borrow 40 .shared) trivial
  have hOrderly := ClosesOrderly.of_orderly hRun.placed fun v _ hs => orderly_dropListed 3 v hs
  refine ⟨_, hRun, ?_, hOrderly, hRun.exec_close_closed hOrderly⟩
  decide +kernel

/-- A borrowed object is destroyed when its table is closed, but its cell is still live and no observer was told. -/
theorem Reachable.exec_close_keeps_cell :
    ∃ t t' : Table (List UInt32), Reachable (.create .linear 1 1) t ∧ t.store.entries.map Entry.addr = [16] ∧
      t.observers.length = 1 ∧ exec (close (dropListed 0)) t = (.ok (), t') ∧ t'.store.entries = [] ∧
      t'.journal = [.destroyed []] ∧ 16 ∈ t'.heap.addrs ∧
      ∀ seen ∈ t'.observers, ∀ e ∈ seen.2, e.kind ≠ .dropped := by
  have hRun : Reachable (V := List UInt32) (.create .linear 1 1) _ := .start
  have hRun := hRun.subscribe
  have hRun := hRun.call (.insert 1 []) trivial
  have hRun := hRun.call (.borrow 16 .shared) trivial
  obtain ⟨t', hExec, hClosed⟩ := hRun.placed.exec_close
    (.of_orderly hRun.placed fun v _ hs => orderly_dropListed 0 v hs)
  obtain ⟨marks, hJournal, hMarks⟩ := hClosed.destroyed
  obtain ⟨events, hTold, hEvents⟩ := hClosed.announced
  refine ⟨_, t', hRun, by decide +kernel, by decide +kernel, hExec, hClosed.empty, ?_, ?_, ?_⟩
  · rw [hJournal, List.perm_singleton.mp hMarks]
    rfl
  · exact (hClosed.cells _ List.mem_cons_self).mpr rfl
  · rw [hTold, List.perm_nil.mp hEvents]
    decide +kernel

end Table

end Marshal
