import Marshal.Proofs.Heap.Numbered
import Marshal.Proofs.Object.Cells
import Marshal.Proofs.Object.Lookup

/-! # A watched table

What an observer has been told mirrors the table: an address holds an object if the last thing heard about its life was
that one was created there, and the borrows of the object are those heard of since. Each operation keeps this up.
Inside a removal there are objects that have left the table without an announcement yet; the invariant carries them
along.
-/
set_option autoImplicit false
namespace Marshal

open Step

variable {V : Type}

/-! ## What the events say -/

namespace Event

def isLife (e : Event V) : Bool :=
  match e.kind with
  | .created | .dropped | .taken => true
  | .borrowed | .borrowReturned => false

def history (addr : UInt32) (events : List (Event V)) : List (Event V) := (events.filter (·.addr = addr)).reverse

def lastLife? (addr : UInt32) (events : List (Event V)) : Option (Event V) := (history addr events).find? isLife

/-- How often a borrow of the kind was taken, or given back, since the object's life began. -/
def tally (what : EventKind) (kind : BorrowKind) (addr : UInt32) (events : List (Event V)) : Nat :=
  ((history addr events).takeWhile (!·.isLife)).countP fun e => e.kind = what ∧ e.borrow = kind

theorem history_append (e : Event V) (addr : UInt32) (events : List (Event V)) :
    history addr (events ++ [e]) = if e.addr = addr then e :: history addr events else history addr events := by
  simp only [history, List.filter_append, List.filter_cons, List.filter_nil, decide_eq_true_eq]
  split <;> simp

variable {e : Event V} {addr : UInt32} {events : List (Event V)}

theorem lastLife?_append (hAddr : e.addr = addr) :
    lastLife? addr (events ++ [e]) = if e.isLife then some e else lastLife? addr events := by
  rw [lastLife?, history_append, if_pos hAddr, List.find?_cons]
  cases e.isLife <;> rfl

theorem lastLife?_append_of_ne (hAddr : e.addr ≠ addr) :
    lastLife? addr (events ++ [e]) = lastLife? addr events := by
  rw [lastLife?, history_append, if_neg hAddr]
  rfl

theorem tally_append_life (hAddr : e.addr = addr) (hLife : e.isLife = true) (what : EventKind) (kind : BorrowKind) :
    tally what kind addr (events ++ [e]) = 0 := by
  rw [tally, history_append, if_pos hAddr, List.takeWhile_cons, hLife]
  rfl

theorem tally_append (hAddr : e.addr = addr) (hLife : e.isLife = false) (what : EventKind) (kind : BorrowKind) :
    tally what kind addr (events ++ [e]) =
      tally what kind addr events + if e.kind = what ∧ e.borrow = kind then 1 else 0 := by
  rw [tally, history_append, if_pos hAddr, List.takeWhile_cons, hLife]
  simp only [Bool.not_false, if_true, List.countP_cons, decide_eq_true_eq]
  rfl

theorem tally_append_of_ne (hAddr : e.addr ≠ addr) (what : EventKind) (kind : BorrowKind) :
    tally what kind addr (events ++ [e]) = tally what kind addr events := by
  rw [tally, history_append, if_neg hAddr]
  rfl

end Event

open Event

/-- The object at the address is the one the events tell of. -/
structure Entry.Mirrors (x : Entry V) (addr : UInt32) (events : List (Event V)) : Prop where
  created : ∃ e, lastLife? addr events = some e ∧ e.kind = .created ∧ e.typeId = x.typeId
  shared : x.shared.toNat + tally .borrowReturned .shared addr events = tally .borrowed .shared addr events
  exclusive : x.exclusive.toNat + tally .borrowReturned .exclusive addr events = tally .borrowed .exclusive addr events
  exclusion : x.exclusive = true → x.shared = 0

theorem Entry.mirrors_created {x : Entry V} {e : Event V} {addr : UInt32} {events : List (Event V)}
    (hAddr : e.addr = addr) (hKind : e.kind = .created) (hType : e.typeId = x.typeId)
    (hFree : x.shared = 0 ∧ x.exclusive = false) : x.Mirrors addr (events ++ [e]) := by
  have hLife : e.isLife = true := by rw [isLife, hKind]
  refine ⟨⟨e, ?_, hKind, hType⟩, ?_, ?_, fun _ => hFree.1⟩
  · rw [lastLife?_append hAddr, if_pos hLife]
  · rw [tally_append_life hAddr hLife, tally_append_life hAddr hLife, hFree.1]
    rfl
  · rw [tally_append_life hAddr hLife, tally_append_life hAddr hLife, hFree.2]
    rfl

namespace Table

/-- What is at the address is what the events tell. -/
structure MirrorsAt (t : Table V) (events : List (Event V)) (addr : UInt32) : Prop where
  present : ∀ x, t.store.entry? addr = some x → x.Mirrors addr events
  absent : t.store.entry? addr = none → ∀ e, lastLife? addr events = some e → e.kind ≠ .created

variable {e : Event V} {f : Memory → Except Report Memory}

theorem MirrorsAt.append {t t' : Table V} {events : List (Event V)} {addr : UInt32}
    (hm : t.MirrorsAt events addr) (hSame : t'.store.entry? addr = t.store.entry? addr) (hNe : e.addr ≠ addr) :
    t'.MirrorsAt (events ++ [e]) addr := by
  constructor
  · intro x hFound
    obtain ⟨hCreated, hShared, hExclusive, hExclusion⟩ := hm.present x (hSame ▸ hFound)
    refine ⟨?_, ?_, ?_, hExclusion⟩
    · rwa [lastLife?_append_of_ne hNe]
    · rwa [tally_append_of_ne hNe, tally_append_of_ne hNe]
    · rwa [tally_append_of_ne hNe, tally_append_of_ne hNe]
  · intro hNone
    rw [lastLife?_append_of_ne hNe]
    exact hm.absent (hSame ▸ hNone)

/-- The observer has seen the events, and they mirror the table, but for the objects that have left it unannounced. -/
structure Watched (pending : List UInt32) (t : Table V) (events : List (Event V)) : Prop where
  numbered : t.heap.Numbered
  live : ∀ x ∈ t.store.entries, x.addr ∈ t.heap.addrs
  observers : t.observers = [(0, events)]
  gone : ∀ addr ∈ pending, t.store.entry? addr = none
  mirrors : ∀ addr, addr ∉ pending → t.MirrorsAt events addr

variable {pending : List UInt32} {t t' : Table V} {events : List (Event V)} {addr : UInt32}

theorem Watched.setHeap (hw : t.Watched pending events) {h : Heap} (hn : h.Numbered)
    (hLive : ∀ x ∈ t.store.entries, x.addr ∈ h.addrs) : Watched pending { t with heap := h } events :=
  ⟨hn, hLive, hw.observers, hw.gone, fun a ha => ⟨(hw.mirrors a ha).present, (hw.mirrors a ha).absent⟩⟩

theorem Watched.use (hw : t.Watched pending events) {u : HeapUse} (hSpares : u.Spares t.cells) (hFits : u.Fits t.heap) :
    Watched pending { t with heap := (exec u.perform t.heap).2 } events := by
  obtain ⟨hn, hKept⟩ := hw.numbered.use hFits hSpares
  exact hw.setHeap hn fun x hx => hKept _ (mem_cells hx) (hw.live x hx)

theorem Watched.note (hw : t.Watched pending events) (d : Deed V) :
    Watched pending { t with journal := t.journal ++ [d] } events :=
  ⟨hw.numbered, hw.live, hw.observers, hw.gone, fun a ha => ⟨(hw.mirrors a ha).present, (hw.mirrors a ha).absent⟩⟩

/-! ## Leaving -/

theorem Watched.exec_detach (hw : t.Watched pending events) (addr : UInt32) :
    (∃ why, exec (detach addr) t = (.error (.refused why), t) ∧
        ∀ x, t.store.entry? addr = some x → x.isBorrowed = true) ∨
      ∃ x t₁, t.store.entry? addr = some x ∧ x.isBorrowed = false ∧ exec (detach addr) t = (.ok x, t₁) ∧
        t₁.Watched (addr :: pending) events := by
  rcases exec_detach_cases addr t with ⟨r, hRefused, hBorrowed⟩ | ⟨x, hFound, hIdle, hDetach⟩
  · exact .inl ⟨.report r, hRefused, hBorrowed⟩
  obtain ⟨hx, rfl⟩ := Store.entry?_eq_some hFound
  obtain ⟨h, hRelease, hn, hKept⟩ := hw.numbered.exec_release_live (hw.live x hx)
  refine .inr ⟨x, _, hFound, hIdle, hDetach hRelease, hn, ?_, hw.observers, ?_, ?_⟩
  · intro y hy
    obtain ⟨hy, hNe⟩ := List.mem_filter.mp hy
    exact hKept _ (hw.live y hy) (of_decide_eq_true hNe)
  · intro a ha
    show Store.entry? (t.store.erase x.addr) a = none
    rw [Store.entry?_erase]
    split
    · rfl
    · rename_i hNe
      exact hw.gone a ((List.mem_cons.mp ha).resolve_left hNe)
  · intro a ha
    have hNe : a ≠ x.addr := fun hEq => ha (hEq ▸ List.mem_cons_self)
    have hSame : Store.entry? (t.store.erase x.addr) a = t.store.entry? a := by
      rw [Store.entry?_erase, if_neg hNe]
    have hm := hw.mirrors a fun hMem => ha (List.mem_cons_of_mem _ hMem)
    exact ⟨fun y hy => hm.present y (hSame ▸ hy), fun hNone => hm.absent (hSame ▸ hNone)⟩

theorem Watched.bury (hw : t.Watched (addr :: pending) events) (hAddr : e.addr = addr)
    (hLife : e.isLife = true) (hKind : e.kind ≠ .created) : (t.told e).Watched pending (events ++ [e]) := by
  have hGone : t.store.entry? addr = none := hw.gone addr List.mem_cons_self
  refine ⟨hw.numbered, hw.live, ?_, fun a ha => hw.gone a (List.mem_cons_of_mem _ ha), ?_⟩
  · rw [told, hw.observers]
    rfl
  · intro a ha
    by_cases hEq : a = addr
    · subst hEq
      constructor
      · intro x hFound
        cases hGone.symm.trans hFound
      · intro _ e' hLast
        rw [lastLife?_append hAddr, if_pos hLife] at hLast
        rwa [← Option.some.inj hLast]
    · have hm := hw.mirrors a fun hMem => (List.mem_cons.mp hMem).elim hEq ha
      exact hm.append rfl (hAddr.trans_ne (Ne.symm hEq))

/-! ## Boxing -/

theorem Watched.create (hw : t.Watched [] events) {h : Heap} {id : UInt32} (value : V) (hn : h.Numbered)
    (hLive : addr ∈ h.addrs) (hKept : ∀ x ∈ t.store.entries, x.addr ∈ h.addrs) (hFree : t.store.entry? addr = none)
    (hAddr : e.addr = addr) (hKind : e.kind = .created) (hType : e.typeId = id) :
    ((t.boxedAt h addr id value).told e).Watched [] (events ++ [e]) := by
  have hSame : ∀ a, a ≠ addr → (t.boxedAt h addr id value).store.entry? a = t.store.entry? a := by
    intro a hNe
    exact List.find?_cons_of_neg (by simpa using hNe.symm)
  have hNew : (t.boxedAt h addr id value).store.entry? addr = some { addr, typeId := id, value } :=
    List.find?_cons_of_pos (by simp)
  refine ⟨hn, ?_, ?_, nofun, ?_⟩
  · intro x hx
    rcases List.mem_cons.mp hx with rfl | hx
    · exact hLive
    · exact hKept x hx
  · rw [told, boxedAt, hw.observers]
    rfl
  · intro a _
    by_cases hEq : a = addr
    · subst hEq
      constructor
      · intro x hFound
        cases hNew.symm.trans hFound
        exact Entry.mirrors_created hAddr hKind hType ⟨rfl, rfl⟩
      · intro hNone
        cases hNew.symm.trans hNone
    · exact (hw.mirrors a List.not_mem_nil).append (hSame a hEq) (hAddr.trans_ne (Ne.symm hEq))

theorem exec_change_ok {m : Memory} (h : f t.heap.memory = .ok m) :
    exec (onHeap (Heap.change f)) t = (.ok (), { t with heap := { t.heap with memory := m } }) := by
  rw [exec_onHeap, Heap.exec_change, h]

theorem exec_change_error {r : Report} (h : f t.heap.memory = .error r) :
    exec (onHeap (Heap.change f)) t = (.error (.refused (.report r)), t) := by
  rw [exec_onHeap, Heap.exec_change, h]

theorem exec_fill_cases (addr id : UInt32) (value : V) (t : Table V) :
    (∃ stop m, exec (fill addr id value) t = (.error stop, { t with heap := { t.heap with memory := m } })) ∨
      ∃ m, addr ≠ 0 ∧ t.store.entry? addr = none ∧
        exec (fill addr id value) t = (.ok (), t.boxedAt { t.heap with memory := m } addr id value) := by
  cases hStored : t.heap.memory.storeAddress addr id with
  | error r => exact .inl ⟨_, t.heap.memory, exec_bind_error (exec_change_error hStored)⟩
  | ok m =>
    rw [fill, exec_bind_ok (exec_change_ok hStored), exec_onStore]
    cases hPut : t.store.put addr id value with
    | error r => exact .inl ⟨.refused (.report r), m, rfl⟩
    | ok store =>
      obtain ⟨hNull, hFree, rfl⟩ := Store.put_eq_ok hPut
      exact .inr ⟨m, hNull, hFree, rfl⟩

/-- The heap is in order, and every object has its cell there. -/
structure Lodges (t : Table V) (h : Heap) : Prop where
  numbered : h.Numbered
  live : ∀ x ∈ t.store.entries, x.addr ∈ h.addrs

theorem exec_insert_cases (hl : t.Lodges t.heap) (id : UInt32) (value : V) :
    (∃ stop h, t.Lodges h ∧ exec (insert id value) t = (.error stop, { t with heap := h })) ∨
      ∃ addr h, t.Lodges h ∧ addr ∈ h.addrs ∧ addr ≠ 0 ∧ t.store.entry? addr = none ∧ exec (insert id value) t =
        (.ok addr, (t.boxedAt h addr id value).told { kind := .created, addr, typeId := id, value := some value }) := by
  rcases Bool.eq_false_or_eq_true t.closed with hClosed | hOpen
  · refine .inl ⟨.refused (.report Store.closedReport), t.heap, hl, ?_⟩
    show exec (insert id value) t = (_, t)
    rw [insert, exec_bind_ok (exec_get t), hClosed]
    rfl
  rw [Table.exec_insert hOpen]
  rcases hl.numbered.exec_allocate cellSize cellSize fun _ => hl.numbered.room_cell with
    ⟨r, hAlloc⟩ | ⟨addr, h₁, hAlloc, hn, hFresh, hAddrs⟩
  · refine .inl ⟨.refused (.report r), t.heap, hl, exec_bind_error ?_⟩
    rw [exec_onHeap, hAlloc]
  have hAlloc' : exec (onHeap (Heap.allocate cellSize cellSize)) t = (.ok addr, { t with heap := h₁ }) := by
    rw [exec_onHeap, hAlloc]
  rw [exec_bind_ok hAlloc']
  have hNew : addr ∈ h₁.addrs := hAddrs ▸ List.mem_cons_self
  have hOld : ∀ x ∈ t.store.entries, x.addr ∈ h₁.addrs := by
    intro x hx
    rw [hAddrs]
    exact List.mem_cons_of_mem _ (hl.live x hx)
  rcases exec_fill_cases addr id value { t with heap := h₁ } with ⟨stop, m, hFill⟩ | ⟨m, hNull, hFree, hFill⟩
  · -- the cell is given up again
    obtain ⟨h₂, hRelease, hn₂, hKept⟩ := (hn.setMemory m).exec_release_live hNew
    have hGiveUp : exec (onHeap (Heap.release addr)) { t with heap := { h₁ with memory := m } } =
        (.ok (), { t with heap := h₂ }) := by
      rw [exec_onHeap, hRelease]
    refine .inl ⟨stop, h₂, ⟨hn₂, fun x hx => ?_⟩, ?_⟩
    · exact hKept _ (hOld x hx) fun hEq => hFresh (hEq ▸ hl.live x hx)
    · exact exec_bind_error ((exec_tryCatch_error hFill).trans (exec_bind_ok hGiveUp))
  · refine .inr ⟨addr, { h₁ with memory := m }, ⟨hn.setMemory m, hOld⟩, hNew, hNull, hFree, ?_⟩
    exact (exec_bind_ok (exec_tryCatch_ok hFill)).trans (exec_bind_ok (exec_notify ..))

theorem Watched.exec_insert (hw : t.Watched [] events) (id : UInt32) (value : V) :
    (∃ stop t', exec (insert id value) t = (.error stop, t') ∧ t'.Watched [] events) ∨
      ∃ addr t' e, exec (insert id value) t = (.ok addr, t') ∧ t'.Watched [] (events ++ [e]) := by
  rcases exec_insert_cases ⟨hw.numbered, hw.live⟩ id value with
    ⟨stop, h, hl, hExec⟩ | ⟨addr, h, hl, hNew, -, hFree, hExec⟩
  · exact .inl ⟨stop, _, hExec, hw.setHeap hl.numbered hl.live⟩
  · exact .inr ⟨addr, _, _, hExec, hw.create value hl.numbered hNew hl.live hFree rfl rfl rfl⟩

/-! ## Borrowing -/

theorem Watched.edit (hw : t.Watched [] events) {x x' : Entry V} (hFound : t.store.entry? addr = some x)
    {f : Entry V → Entry V} (hAddr : ∀ y, y.addr = addr → (f y).addr = addr) (hNew : f x = x')
    (he : e.addr = addr) (hMirrors : x'.Mirrors addr (events ++ [e])) :
    (told e { t with store := t.store.modify addr f }).Watched [] (events ++ [e]) := by
  have hEntry : ∀ a, Store.entry? (t.store.modify addr f) a = if a = addr then some x' else t.store.entry? a := by
    intro a
    rw [Store.entry?_modify hAddr]
    split
    · rename_i hEq
      rw [hEq, hFound, Option.map_some, if_pos (Store.entry?_eq_some hFound).2, hNew]
    · rename_i hNe
      cases hOther : t.store.entry? a with
      | none => rfl
      | some y => rw [Option.map_some, if_neg ((Store.entry?_eq_some hOther).2.trans_ne hNe)]
  refine ⟨hw.numbered, ?_, ?_, nofun, ?_⟩
  · intro y hy
    obtain ⟨z, hz, rfl⟩ := List.mem_map.mp hy
    have hSame : (if z.addr = addr then f z else z).addr = z.addr := by
      split
      · rename_i hEq
        rw [hAddr z hEq, hEq]
      · rfl
    rw [hSame]
    exact hw.live z hz
  · rw [told, hw.observers]
    rfl
  · intro a _
    by_cases hEq : a = addr
    · subst hEq
      have hAt : Store.entry? (t.store.modify a f) a = some x' := by rw [hEntry, if_pos rfl]
      constructor
      · intro y hy
        cases hAt.symm.trans hy
        exact hMirrors
      · intro hNone
        cases hAt.symm.trans hNone
    · refine (hw.mirrors a List.not_mem_nil).append ?_ (he.trans_ne (Ne.symm hEq))
      show Store.entry? (t.store.modify addr f) a = _
      rw [hEntry, if_neg hEq]

end Table

namespace Entry

variable {x x' : Entry V} {addr : UInt32} {events : List (Event V)} {e : Event V} {kind : BorrowKind}

theorem Mirrors.borrow (hm : x.Mirrors addr events) (hAdmits : x.admits kind = true)
    (hFew : kind = .shared → x.shared.toNat + 1 < 2 ^ 32) (hAddr : e.addr = addr) (hKind : e.kind = .borrowed)
    (hBorrow : e.borrow = kind) : (x.borrow kind).Mirrors addr (events ++ [e]) := by
  have hLife : e.isLife = false := by rw [isLife, hKind]
  have hCreated : ∃ e', lastLife? addr (events ++ [e]) = some e' ∧ e'.kind = .created ∧ e'.typeId = x.typeId := by
    rw [lastLife?_append hAddr, hLife]
    exact hm.created
  have hShared := hm.shared
  have hExclusive := hm.exclusive
  cases kind with
  | shared =>
    simp only [admits, Bool.not_eq_true'] at hAdmits
    have hNext : (x.shared + 1).toNat = x.shared.toNat + 1 := by
      rw [UInt32.toNat_add, UInt32.toNat_one, Nat.mod_eq_of_lt (hFew rfl)]
    refine ⟨hCreated, ?_, ?_, ?_⟩
    · simp only [Entry.borrow, tally_append hAddr hLife, hKind, hBorrow, hNext]
      simp
      omega
    · simp only [Entry.borrow, tally_append hAddr hLife, hKind, hBorrow]
      simpa using hExclusive
    · intro hFlag
      cases hAdmits.symm.trans hFlag
  | exclusive =>
    simp only [admits, Bool.and_eq_true, Bool.not_eq_true', decide_eq_true_eq] at hAdmits
    rw [hAdmits.1] at hExclusive
    refine ⟨hCreated, ?_, ?_, fun _ => hAdmits.2⟩
    · simp only [Entry.borrow, tally_append hAddr hLife, hKind, hBorrow]
      simpa using hShared
    · simp only [Entry.borrow, tally_append hAddr hLife, hKind, hBorrow]
      simp at hExclusive ⊢
      omega

theorem Mirrors.giveBack (hm : x.Mirrors addr events) (hBack : x.giveBack? kind = some x') (hAddr : e.addr = addr)
    (hKind : e.kind = .borrowReturned) (hBorrow : e.borrow = kind) : x'.Mirrors addr (events ++ [e]) := by
  have hLife : e.isLife = false := by rw [isLife, hKind]
  have hCreated : ∃ e', lastLife? addr (events ++ [e]) = some e' ∧ e'.kind = .created ∧ e'.typeId = x.typeId := by
    rw [lastLife?_append hAddr, hLife]
    exact hm.created
  have hShared := hm.shared
  have hExclusive := hm.exclusive
  cases kind with
  | shared =>
    simp only [giveBack?] at hBack
    split at hBack
    · cases hBack
    rename_i hSome
    cases hBack
    have hPos : x.shared.toNat ≠ 0 := fun hZero => hSome (UInt32.toNat_inj.mp hZero)
    have hLess : (x.shared - 1).toNat = x.shared.toNat - 1 := by
      rw [UInt32.toNat_sub_of_le]
      · rfl
      · rw [UInt32.le_iff_toNat_le, UInt32.toNat_one]
        omega
    refine ⟨hCreated, ?_, ?_, ?_⟩
    · simp only [tally_append hAddr hLife, hKind, hBorrow, hLess]
      simp
      omega
    · simp only [tally_append hAddr hLife, hKind, hBorrow]
      simpa using hExclusive
    · intro hFlag
      exact absurd (hm.exclusion hFlag) hSome
  | exclusive =>
    simp only [giveBack?] at hBack
    split at hBack
    · rename_i hFlag
      cases hBack
      rw [hFlag] at hExclusive
      refine ⟨hCreated, ?_, ?_, ?_⟩
      · simp only [tally_append hAddr hLife, hKind, hBorrow]
        simpa using hShared
      · simp only [tally_append hAddr hLife, hKind, hBorrow]
        simp at hExclusive ⊢
        omega
      · rintro ⟨⟩
    · cases hBack

end Entry

namespace Table

variable {pending : List UInt32} {t t' : Table V} {events : List (Event V)} {addr : UInt32}

theorem Watched.exec_borrow (hw : t.Watched [] events) (kind : BorrowKind)
    (hFew : kind = .shared → ∀ x, t.store.entry? addr = some x → x.shared.toNat + 1 < 2 ^ 32) :
    (∃ why, exec (borrow addr kind) t = (.error (.refused why), t)) ∨
      ∃ t' e, exec (borrow addr kind) t = (.ok (), t') ∧ t'.Watched [] (events ++ [e]) := by
  rcases t.exec_borrow_cases addr kind with ⟨why, hRefused, -⟩ | ⟨x, id, hFound, hAdmits, hExec⟩
  · exact .inl ⟨why, hRefused⟩
  · have hm := (hw.mirrors addr List.not_mem_nil).present x hFound
    have hCount := fun hKind => hFew hKind x hFound
    refine .inr ⟨_, _, hExec, hw.edit hFound ?_ rfl rfl (hm.borrow hAdmits hCount rfl rfl rfl)⟩
    intro y hy
    rw [Entry.addr_borrow, hy]

theorem Watched.exec_giveBack (hw : t.Watched [] events) (addr : UInt32) (kind : BorrowKind) :
    exec (giveBack addr kind) t = (.ok false, t) ∨
      ∃ t' e, exec (giveBack addr kind) t = (.ok true, t') ∧ t'.Watched [] (events ++ [e]) := by
  rcases t.exec_giveBack_cases addr kind with ⟨hNone, -⟩ | ⟨x, x', id, hFound, hBack, hExec⟩
  · exact .inl hNone
  · have hm := (hw.mirrors addr List.not_mem_nil).present x hFound
    refine .inr ⟨_, _, hExec, hw.edit hFound ?_ rfl rfl (hm.giveBack hBack rfl rfl rfl)⟩
    intro _ _
    rw [(Entry.giveBack?_same hBack).1, (Store.entry?_eq_some hFound).2]

end Table

end Marshal
