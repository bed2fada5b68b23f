import Marshal.Proofs.Object.Watched

/-! # Replaying what an observer saw

An observer that has watched a table from the start can reconstruct it, although dropping one object may drop others,
which are announced first. Vectors of objects are of this kind.
-/
set_option autoImplicit false
namespace Marshal

open Step Event

variable {V : Type}

namespace Table

variable {pending : List UInt32} {t t' : Table V} {events : List (Event V)} {addr : UInt32}

/-! ## Destructors that drop other objects -/

/-- What a destructor may do without trapping: use the heap but not the cells, write to the journal, and drop other
objects, whose destructors do the same. -/
inductive Tidied : Table V → Table V → Prop
  | done (t : Table V) : Tidied t t
  | use {t t' : Table V} (u : HeapUse) (hSpares : u.Spares t.cells) (hFits : u.Fits t.heap)
      (hRest : Tidied { t with heap := (exec u.perform t.heap).2 } t') : Tidied t t'
  | note {t t' : Table V} (d : Deed V) (hRest : Tidied { t with journal := t.journal ++ [d] } t') : Tidied t t'
  | remove {t t₁ t₂ t' : Table V} {x : Entry V} (destroy : V → Step (Table V) Unit) (addr : UInt32)
      (hDetach : exec (detach addr) t = (.ok x, t₁)) (hDestroy : exec (destroy x.value) t₁ = (.ok (), t₂))
      (hInner : Tidied t₁ t₂) (hRest : Tidied (exec (Table.remove destroy addr) t).2 t') : Tidied t t'

/-- If the object can be detached, its destructor does not trap and does no more than it may. -/
def Neat (destroy : V → Step (Table V) Unit) (addr : UInt32) (t : Table V) : Prop :=
  ∀ x t₁, exec (detach addr) t = (.ok x, t₁) → ∃ t₂, exec (destroy x.value) t₁ = (.ok (), t₂) ∧ Tidied t₁ t₂

/-- The same for a sequence of removals, each in the table that the earlier ones leave. -/
def NeatAll (destroy : V → Step (Table V) Unit) : List UInt32 → Table V → Prop
  | [], _ => True
  | addr :: rest, t => Neat destroy addr t ∧ NeatAll destroy rest (exec (Step.attempt (remove destroy addr)) t).2

variable {destroy : V → Step (Table V) Unit}

theorem exec_remove_of_detach {x : Entry V} {t₁ t₂ : Table V}
    (hDetach : exec (detach addr) t = (.ok x, t₁)) (hDestroy : exec (destroy x.value) t₁ = (.ok (), t₂)) :
    exec (remove destroy addr) t =
      (.ok x.value, t₂.told { kind := .dropped, addr, typeId := x.typeId, value := some x.value }) := by
  rw [remove, exec_bind_ok hDetach, exec_bind_ok hDestroy]
  rfl

theorem Watched.tidied (ht : Tidied t t') (hw : t.Watched pending events) :
    ∃ more, t'.Watched pending (events ++ more) := by
  induction ht generalizing pending events with
  | done t => exact ⟨[], by rwa [List.append_nil]⟩
  | use u hSpares hFits _ ih => exact ih (hw.use hSpares hFits)
  | note d _ ih => exact ih (hw.note d)
  | @remove t t₁ t₂ t' x destroy addr hDetach hDestroy _ _ ihInner ihRest =>
    rcases hw.exec_detach addr with ⟨why, hRefused, -⟩ | ⟨x', t₁', -, -, hDetach', hw₁⟩
    · cases hDetach.symm.trans hRefused
    · cases hDetach.symm.trans hDetach'
      -- the inner object is one more that is not announced while its own destructor runs
      obtain ⟨inner, hw₂⟩ := ihInner hw₁
      have hw₃ := hw₂.bury (e := { kind := .dropped, addr, typeId := x.typeId, value := some x.value }) rfl rfl nofun
      rw [exec_remove_of_detach hDetach hDestroy] at ihRest
      obtain ⟨more, hw'⟩ := ihRest hw₃
      exact ⟨_, by rwa [List.append_assoc, List.append_assoc] at hw'⟩

theorem Watched.exec_remove (hw : t.Watched [] events) (hNeat : t.Neat destroy addr) :
    (∃ why, exec (remove destroy addr) t = (.error (.refused why), t) ∧
        ∀ x, t.store.entry? addr = some x → x.isBorrowed = true) ∨
      ∃ x t' more, t.store.entry? addr = some x ∧ x.isBorrowed = false ∧
        exec (remove destroy addr) t = (.ok x.value, t') ∧ t'.Watched [] (events ++ more) := by
  rcases hw.exec_detach addr with ⟨why, hRefused, hBorrowed⟩ | ⟨x, t₁, hFound, hIdle, hDetach, hw₁⟩
  · exact .inl ⟨why, exec_bind_error hRefused, hBorrowed⟩
  · obtain ⟨t₂, hDestroy, hTidied⟩ := hNeat x t₁ hDetach
    obtain ⟨more, hw₂⟩ := hw₁.tidied hTidied
    let e : Event V := { kind := .dropped, addr, typeId := x.typeId, value := some x.value }
    refine .inr ⟨x, t₂.told e, more ++ [e], hFound, hIdle, exec_remove_of_detach hDetach hDestroy, ?_⟩
    rw [← List.append_assoc]
    exact hw₂.bury rfl rfl nofun

theorem Watched.exec_removeAll (addrs : List UInt32) (hw : t.Watched [] events) (hNeat : t.NeatAll destroy addrs) :
    ∃ t' more, exec (removeAll destroy addrs) t = (.ok (), t') ∧ t'.Watched [] (events ++ more) := by
  induction addrs generalizing t events with
  | nil => exact ⟨t, [], rfl, by rwa [List.append_nil]⟩
  | cons addr rest ih =>
    obtain ⟨hFirst, hRest⟩ := hNeat
    rw [removeAll]
    rcases hw.exec_remove hFirst with ⟨why, hRefused, -⟩ | ⟨x, t₁, more, -, -, hRemove, hw₁⟩
    · rw [exec_attempt_refused hRefused] at hRest
      rw [exec_bind_ok (exec_attempt_refused hRefused)]
      exact ih hw hRest
    · rw [exec_attempt_ok hRemove] at hRest
      obtain ⟨t', more', hExec, hw'⟩ := ih hw₁ hRest
      refine ⟨t', more ++ more', ?_, by rwa [← List.append_assoc]⟩
      rw [exec_bind_ok (exec_attempt_ok hRemove)]
      exact hExec

theorem Watched.exec_take (hw : t.Watched [] events) (addr : UInt32) :
    (∃ why, exec (take addr) t = (.error (.refused why), t) ∧
        ∀ x, t.store.entry? addr = some x → x.isBorrowed = true) ∨
      ∃ x t' e, t.store.entry? addr = some x ∧ x.isBorrowed = false ∧ exec (take addr) t = (.ok x.value, t') ∧
        t'.Watched [] (events ++ [e]) := by
  rcases hw.exec_detach addr with ⟨why, hRefused, hBorrowed⟩ | ⟨x, t₁, hFound, hIdle, hDetach, hw₁⟩
  · exact .inl ⟨why, exec_bind_error hRefused, hBorrowed⟩
  · let e : Event V := { kind := .taken, addr, typeId := x.typeId, value := some x.value }
    exact .inr ⟨x, t₁.told e, e, hFound, hIdle, exec_bind_ok hDetach, hw₁.bury rfl rfl nofun⟩

end Table

/-! ## Runs -/

namespace TableCall

/-- Destructors do not trap, and the count of shared borrows stays below `2 ^ 32`. -/
def Allowed (t : Table V) : TableCall V → Prop
  | .remove destroy addr => t.Neat destroy addr
  | .clear destroy => t.NeatAll destroy (t.store.sorted.map Entry.addr)
  | .borrow addr .shared => ∀ x, t.store.entry? addr = some x → x.shared.toNat + 1 < 2 ^ 32
  | _ => True

def Failed : Except Stop (TableAnswer V) → Prop
  | .error _ => True
  | .ok (.flag b) => b = false
  | .ok _ => False

theorem watched_perform {t : Table V} {events : List (Event V)} (hw : t.Watched [] events) {c : TableCall V}
    (hAllowed : c.Allowed t) :
    ∃ more, (exec c.perform t).2.Watched [] (events ++ more) ∧ (Failed (exec c.perform t).1 → more = []) := by
  have hSame : t.Watched [] (events ++ []) := by rwa [List.append_nil]
  cases c with
  | insert id value =>
    rw [perform, exec_map]
    rcases hw.exec_insert id value with ⟨stop, t', hExec, hw'⟩ | ⟨addr, t', e, hExec, hw'⟩
    · rw [hExec]
      exact ⟨[], by rwa [List.append_nil], fun _ => rfl⟩
    · rw [hExec]
      exact ⟨[e], hw', False.elim⟩
  | remove destroy addr =>
    rw [perform, exec_map]
    rcases hw.exec_remove hAllowed with ⟨why, hExec, -⟩ | ⟨x, t', more, -, -, hExec, hw'⟩
    · rw [hExec]
      exact ⟨[], hSame, fun _ => rfl⟩
    · rw [hExec]
      exact ⟨more, hw', False.elim⟩
  | take addr =>
    rw [perform, exec_map]
    rcases hw.exec_take addr with ⟨why, hExec, -⟩ | ⟨x, t', e, -, -, hExec, hw'⟩
    · rw [hExec]
      exact ⟨[], hSame, fun _ => rfl⟩
    · rw [hExec]
      exact ⟨[e], hw', False.elim⟩
  | borrow addr kind =>
    have hFew : kind = .shared → ∀ x, t.store.entry? addr = some x → x.shared.toNat + 1 < 2 ^ 32 := by
      rintro rfl
      exact hAllowed
    rw [perform, exec_map]
    rcases hw.exec_borrow kind hFew with ⟨why, hExec⟩ | ⟨t', e, hExec, hw'⟩
    · rw [hExec]
      exact ⟨[], hSame, fun _ => rfl⟩
    · rw [hExec]
      exact ⟨[e], hw', False.elim⟩
  | giveBack addr kind =>
    rw [perform, exec_map]
    rcases hw.exec_giveBack addr kind with hExec | ⟨t', e, hExec, hw'⟩
    · rw [hExec]
      exact ⟨[], hSame, fun _ => rfl⟩
    · rw [hExec]
      refine ⟨[e], hw', ?_⟩
      rintro ⟨⟩
  | clear destroy =>
    obtain ⟨t', more, hExec, hw'⟩ := hw.exec_removeAll _ hAllowed
    have hClear : exec (Table.clear destroy) t = (.ok (), t') := by
      rw [Table.clear, exec_bind_ok (exec_get t), hExec]
    rw [perform, exec_map, hClear]
    exact ⟨more, hw', False.elim⟩

end TableCall

/-- The tables that calls on a new table with an observer lead to. Between them others use the heap. -/
inductive WatchedRun (m : Memory) : Table V → Prop
  | start : WatchedRun m (exec Table.subscribe { heap := { memory := m } }).2
  | call {t : Table V} (c : TableCall V) (hRun : WatchedRun m t) (hAllowed : c.Allowed t) :
      WatchedRun m (exec c.perform t).2
  | others {t : Table V} (u : HeapUse) (hRun : WatchedRun m t) (hSpares : u.Spares t.cells) (hFits : u.Fits t.heap) :
      WatchedRun m { t with heap := (exec u.perform t.heap).2 }

namespace WatchedRun

variable {m : Memory} {t : Table V}

theorem watched (hRun : WatchedRun m t) : ∃ events, t.Watched [] events := by
  induction hRun with
  | start => exact ⟨[], .start m, List.forall_mem_nil _, rfl, nofun, fun addr _ => ⟨nofun, nofun⟩⟩
  | call c _ hAllowed ih =>
    obtain ⟨events, hw⟩ := ih
    obtain ⟨more, hw', -⟩ := TableCall.watched_perform hw hAllowed
    exact ⟨_, hw'⟩
  | others u _ hSpares hFits ih =>
    obtain ⟨events, hw⟩ := ih
    exact ⟨events, hw.use hSpares hFits⟩

end WatchedRun

/-! ## Vectors of objects -/

namespace Table

theorem Tidied.trans {t t₁ t₂ : Table V} (h : t.Tidied t₁) (h' : t₁.Tidied t₂) : t.Tidied t₂ := by
  induction h with
  | done t => exact h'
  | use u hSpares hFits _ ih => exact .use u hSpares hFits (ih h')
  | note d _ ih => exact .note d (ih h')
  | remove destroy addr hDetach hDestroy hInner _ _ ih => exact .remove destroy addr hDetach hDestroy hInner (ih h')

/-- No object has the cell of one for its buffer. -/
def Separate (t : Table (Object V)) : Prop :=
  ∀ x ∈ t.store.entries, ∀ y ∈ t.store.entries, y.addr ∉ x.value.blocks

theorem exec_detach_ok {t t₁ : Table V} {addr : UInt32} {x : Entry V}
    (h : exec (detach addr) t = (.ok x, t₁)) : x ∈ t.store.entries ∧ t₁.store = t.store.erase addr := by
  rcases exec_detach_cases addr t with ⟨r, hRefused, -⟩ | ⟨y, hFound, -, hDetach⟩
  · cases h.symm.trans hRefused
  · rcases hRelease : exec (Heap.release addr) t.heap with ⟨_ | _, heap⟩ <;> cases h.symm.trans (hDetach hRelease)
    exact ⟨(Store.entry?_eq_some hFound).1, rfl⟩

end Table

namespace Object

variable {t t' : Table (Object V)} {remove : UInt32 → Step (Table (Object V)) (Object V)}

/-- The table was tidied, and no object is new. -/
structure Tidies (t t' : Table (Object V)) : Prop where
  tidied : t.Tidied t'
  subset : t'.store.entries ⊆ t.store.entries

theorem Tidies.separate (h : Tidies t t') (hs : t.Separate) : t'.Separate :=
  fun x hx y hy => hs x (h.subset hx) y (h.subset hy)

variable {addr : UInt32} {t₁ : Table (Object V)}

theorem Tidies.trans (h : Tidies t t₁) (h' : Tidies t₁ t') : Tidies t t' :=
  ⟨h.tidied.trans h'.tidied, List.Subset.trans h'.subset h.subset⟩

theorem tidies_refl (t : Table (Object V)) : Tidies t t := ⟨.done t, List.Subset.refl _⟩

/-- Removing objects tidies up, where it succeeds. -/
def TidyRemoval (remove : UInt32 → Step (Table (Object V)) (Object V)) : Prop :=
  ∀ t t' addr v, t.Separate → exec (remove addr) t = (.ok v, t') → Tidies t t'

theorem tidies_release (hCells : ∀ y ∈ t.store.entries, y.addr ∉ Heap.blockAt addr)
    (hRun : exec (Table.onHeap (Heap.release addr)) t = (.ok (), t')) : Tidies t t' := by
  rw [Table.exec_onHeap] at hRun
  obtain rfl : { t with heap := (exec (Heap.release addr) t.heap).2 } = t' := congrArg Prod.snd hRun
  by_cases hNull : addr = 0
  · rw [hNull, Heap.exec_release_null]
    exact tidies_refl t
  · rw [Heap.blockAt_of_ne hNull] at hCells
    refine ⟨.use (.free addr) ?_ trivial (.done _), List.Subset.refl _⟩
    intro b hb
    obtain ⟨y, hy, rfl⟩ := List.mem_map.mp hb
    simpa using hCells y hy

theorem tidies_discard {buf : Buffer} (hCells : ∀ y ∈ t.store.entries, y.addr ∉ buf.blocks)
    (hRun : exec (Table.onHeap buf.discard) t = (.ok (), t')) : Tidies t t' := by
  unfold Buffer.discard at hRun
  split at hRun
  · cases hRun
    exact tidies_refl t
  · exact tidies_release hCells hRun

theorem tidies_dropOwned (hRemove : TidyRemoval remove) (hs : t.Separate)
    (hRun : exec (dropOwned false remove addr) t = (.ok (), t')) : Tidies t t' := by
  simp only [dropOwned, Bool.false_eq_true, if_false] at hRun
  unfold dropWith at hRun
  split at hRun
  · cases hRun
    exact tidies_refl t
  · obtain ⟨r, t₁, hAttempt, hRest⟩ := exec_bind_eq_ok.mp hRun
    rw [exec_attempt] at hAttempt
    rcases hOut : exec (remove addr) t with ⟨(why | why | _) | v, t₂⟩ <;> rw [hOut] at hAttempt <;> cases hAttempt
    · -- a refusal is a trap
      obtain ⟨t₃, t₄, hGet, hTrap⟩ := exec_bind_eq_ok.mp hRest
      split at hTrap <;> cases hTrap
    · cases hRest
      exact hRemove t _ addr v hs hOut

theorem tidies_dropElements (hRemove : TidyRemoval remove) {buf : Buffer} {positions : List Nat} (hs : t.Separate)
    (hRun : exec (dropElements (dropOwned false remove) buf positions) t = (.ok (), t')) : Tidies t t' := by
  induction positions generalizing t with
  | nil =>
    obtain rfl : t = t' := congrArg Prod.snd hRun
    exact tidies_refl t
  | cons i rest ih =>
    rw [dropElements] at hRun
    obtain ⟨v, t₁, hRead, hRest⟩ := exec_bind_eq_ok.mp hRun
    obtain rfl : t = t₁ := by
      rw [Table.exec_onHeap, Buffer.exec_get?_state] at hRead
      exact congrArg Prod.snd hRead
    split at hRest
    · obtain ⟨_, t₂, hDrop, hRest⟩ := exec_bind_eq_ok.mp hRest
      have hFirst := tidies_dropOwned hRemove hs hDrop
      exact hFirst.trans (ih (hFirst.separate hs) hRest)
    · exact ih hs hRest

theorem tidies_destroy {depth : Nat}
    (hRemove : ∀ d, depth = d + 1 → TidyRemoval (Table.remove (destroy (V := V) false d)))
    {v : Object V} (hs : t.Separate) (hCells : ∀ y ∈ t.store.entries, y.addr ∉ v.blocks)
    (hRun : exec (destroy false depth v) t = (.ok (), t')) : Tidies t t' := by
  cases v with
  | guest value =>
    rw [destroy] at hRun
    cases hRun
    exact ⟨.note _ (.done _), List.Subset.refl _⟩
  | string ptr len =>
    rw [destroy] at hRun
    split at hRun
    · cases hRun
      exact tidies_refl t
    · exact tidies_release hCells hRun
  | vector elem buf =>
    rw [destroy] at hRun
    exact tidies_discard hCells hRun
  | refVector buf =>
    cases depth with
    | zero =>
      rw [destroy] at hRun
      exact tidies_discard hCells hRun
    | succ depth =>
      rw [destroy] at hRun
      obtain ⟨_, t₁, hElements, hDiscard⟩ := exec_bind_eq_ok.mp hRun
      have hFirst := tidies_dropElements (hRemove depth rfl) hs hElements
      exact hFirst.trans (tidies_discard (fun y hy => hCells y (hFirst.subset hy)) hDiscard)
  | callback label =>
    rw [destroy] at hRun
    cases hRun
    exact tidies_refl t

theorem separate_detach {x : Entry (Object V)} (hs : t.Separate)
    (hDetach : exec (Table.detach addr) t = (.ok x, t₁)) :
    t₁.Separate ∧ t₁.store.entries ⊆ t.store.entries ∧ ∀ y ∈ t₁.store.entries, y.addr ∉ x.value.blocks := by
  obtain ⟨hx, hStore⟩ := Table.exec_detach_ok hDetach
  have hSub : t₁.store.entries ⊆ t.store.entries := by
    rw [hStore]
    exact List.filter_sublist.subset
  exact ⟨fun y hy z hz => hs y (hSub hy) z (hSub hz), hSub, fun y hy => hs x hx y (hSub hy)⟩

theorem tidyRemoval (depth : Nat) : TidyRemoval (Table.remove (destroy (V := V) false depth)) := by
  have hLevel : ∀ depth, (∀ d, depth = d + 1 → TidyRemoval (Table.remove (destroy (V := V) false d))) →
      TidyRemoval (Table.remove (destroy (V := V) false depth)) := by
    intro depth hBelow t t' addr v hs hRun
    obtain ⟨x, t₁, hDetach, hRest⟩ := exec_bind_eq_ok.mp hRun
    obtain ⟨_, t₂, hDestroy, hTold⟩ := exec_bind_eq_ok.mp hRest
    obtain ⟨hs₁, hSub, hCells⟩ := separate_detach hs hDetach
    have hInner := tidies_destroy hBelow hs₁ hCells hDestroy
    have hState : (exec (Table.remove (destroy false depth) addr) t).2 = t' := congrArg Prod.snd hRun
    refine ⟨.remove _ addr hDetach hDestroy hInner.tidied (hState ▸ .done t'), ?_⟩
    cases hTold
    exact List.Subset.trans hInner.subset hSub
  induction depth with
  | zero => exact hLevel 0 fun d hd => nomatch hd
  | succ depth ih => exact hLevel (depth + 1) fun d hd => Nat.succ.inj hd ▸ ih

theorem neat_destroy {depth : Nat} (hs : t.Separate)
    (hOk : (exec (Table.remove (destroy false depth) addr) t).1.isOk = true) : t.Neat (destroy false depth) addr := by
  intro x t₁ hDetach
  obtain ⟨hs₁, -, hCells⟩ := separate_detach hs hDetach
  rw [Table.remove, exec_bind_ok hDetach, exec_bind] at hOk
  rcases hDestroy : exec (destroy false depth x.value) t₁ with ⟨stop | ⟨⟩, t₂⟩
  · rw [hDestroy] at hOk
    cases hOk
  · refine ⟨t₂, rfl, (tidies_destroy ?_ hs₁ hCells hDestroy).tidied⟩
    rintro d rfl
    exact tidyRemoval d

end Object

def Store.HoldsFree (s : Store V) (addr : UInt32) : Prop :=
  ∃ x, s.entry? addr = some x ∧ x.shared = 0 ∧ x.exclusive = false

/-- What an observer of the table knows, and what it is told. -/
structure Table.Replays (t : Table V) (events : List (Event V)) : Prop where
  seen : t.observers = [(0, events)]
  holds : ∀ addr id, t.store.typeId? addr = some id ↔
    ∃ e, lastLife? addr events = some e ∧ e.kind = .created ∧ e.typeId = id
  shared : ∀ addr x, t.store.entry? addr = some x →
    x.shared.toNat + tally .borrowReturned .shared addr events = tally .borrowed .shared addr events
  exclusive : ∀ addr x, t.store.entry? addr = some x →
    x.exclusive.toNat + tally .borrowReturned .exclusive addr events = tally .borrowed .exclusive addr events
  exclusion : ∀ addr x, t.store.entry? addr = some x → x.exclusive = true → x.shared = 0
  takes : ∀ addr, (∃ v, (exec (take addr) t).1 = .ok v) ↔ t.store.HoldsFree addr
  removes : ∀ destroy addr, t.Neat destroy addr →
    ((∃ v, (exec (remove destroy addr) t).1 = .ok v) ↔ t.store.HoldsFree addr)
  silent : ∀ c : TableCall V, c.Allowed t → TableCall.Failed (exec c.perform t).1 →
    (exec c.perform t).2.observers = t.observers

theorem Entry.isBorrowed_eq_false_iff {x : Entry V} : x.isBorrowed = false ↔ x.shared = 0 ∧ x.exclusive = false := by
  rw [isBorrowed, Bool.or_eq_false_iff, decide_eq_false_iff_not]
  constructor
  · rintro ⟨hZero, hFlag⟩
    exact ⟨UInt32.toNat_inj.mp (Nat.eq_zero_of_not_pos hZero), hFlag⟩
  · rintro ⟨hZero, hFlag⟩
    exact ⟨by rw [hZero]; decide, hFlag⟩

/-- Whatever is done with a new table, its observer can reconstruct it. -/
theorem WatchedRun.replays {m : Memory} {t : Table V} (hRun : WatchedRun m t) : ∃ events, t.Replays events := by
  obtain ⟨events, hw⟩ := hRun.watched
  have hPresent : ∀ addr x, t.store.entry? addr = some x → x.Mirrors addr events :=
    fun addr x => (hw.mirrors addr List.not_mem_nil).present x
  have hRefused : ∀ addr, (∀ x, t.store.entry? addr = some x → x.isBorrowed = true) → ¬ t.store.HoldsFree addr := by
    rintro addr hBorrowed ⟨x, hFound, hFree⟩
    cases (Entry.isBorrowed_eq_false_iff.mpr hFree).symm.trans (hBorrowed x hFound)
  refine ⟨events, hw.observers, ?_, fun addr x hx => (hPresent addr x hx).shared,
    fun addr x hx => (hPresent addr x hx).exclusive, fun addr x hx => (hPresent addr x hx).exclusion, ?_, ?_, ?_⟩
  · intro addr id
    cases hFound : t.store.entry? addr with
    | none =>
      rw [Store.typeId?, hFound]
      constructor
      · rintro ⟨⟩
      · rintro ⟨e, hLast, hKind, -⟩
        exact absurd hKind ((hw.mirrors addr List.not_mem_nil).absent hFound e hLast)
    | some x =>
      obtain ⟨e, hLast, hKind, hType⟩ := (hPresent addr x hFound).created
      rw [Store.typeId?, hFound, Option.map_some, Option.some.injEq, hLast, ← hType]
      constructor
      · intro hEq
        exact ⟨e, rfl, hKind, hEq⟩
      · rintro ⟨e', hEq, -, hType'⟩
        rwa [Option.some.inj hEq]
  · intro addr
    rcases hw.exec_take addr with ⟨why, hExec, hBorrowed⟩ | ⟨x, t', e, hFound, hIdle, hExec, -⟩
    · rw [hExec]
      refine iff_of_false ?_ (hRefused addr hBorrowed)
      rintro ⟨v, ⟨⟩⟩
    · rw [hExec]
      exact iff_of_true ⟨x.value, rfl⟩ ⟨x, hFound, Entry.isBorrowed_eq_false_iff.mp hIdle⟩
  · intro destroy addr hNeat
    rcases hw.exec_remove hNeat with ⟨why, hExec, hBorrowed⟩ | ⟨x, t', more, hFound, hIdle, hExec, -⟩
    · rw [hExec]
      refine iff_of_false ?_ (hRefused addr hBorrowed)
      rintro ⟨v, ⟨⟩⟩
    · rw [hExec]
      exact iff_of_true ⟨x.value, rfl⟩ ⟨x, hFound, Entry.isBorrowed_eq_false_iff.mp hIdle⟩
  · intro c hAllowed hFailed
    obtain ⟨more, hw', hNone⟩ := TableCall.watched_perform hw hAllowed
    rw [hw'.observers, hw.observers, hNone hFailed, List.append_nil]

/-- A vector of one object is dropped after its element was borrowed and given back: the element goes first. -/
theorem WatchedRun.replays_nested :
    ∃ t : Table (Object Nat), WatchedRun (.create .linear 1 1) t ∧
      t.observers.map (fun (id, seen) => (id, seen.map fun e => (e.kind, e.addr))) =
        [(0, [(.created, 32), (.created, 40), (.borrowed, 32), (.borrowReturned, 32), (.dropped, 32),
          (.dropped, 40)])] ∧
      ∃ events, t.Replays events := by
  have hRun : WatchedRun (V := Object Nat) (.create .linear 1 1) _ := .start
  have hRun := hRun.others (.alloc 16 8) trivial (by unfold HeapUse.Fits Heap.Room; decide)
  have hRun := hRun.call (.insert 1 (.guest 7)) trivial
  have hRun := hRun.others (.write 16 [32, 0, 0, 0])
    (by simp only [HeapUse.Spares, Extent.Apart]; decide +kernel) trivial
  have hRun := hRun.call (.insert 2 (.refVector { addr := 16, len := 1, cap := 4 })) trivial
  have hRun := hRun.call (.borrow 32 .shared) fun x hx =>
    (by decide +kernel : ∀ x ∈ Store.entries _, x.shared.toNat + 1 < 2 ^ 32) x (Store.entry?_eq_some hx).1
  have hRun := hRun.call (.giveBack 32 .shared) trivial
  have hRun := hRun.call (.remove (Object.destroy false 3) 40)
    (Object.neat_destroy (by unfold Table.Separate; decide +kernel) (by decide +kernel))
  refine ⟨_, hRun, ?_, hRun.replays⟩
  decide +kernel

end Marshal
