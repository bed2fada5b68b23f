import Marshal.Proofs.Object.Accounts
import Marshal.Proofs.Object.Store

/-! # Steps of the object table

A table is sound when it is open, nobody borrows from it and its accounts are in order. Boxing an object
gives a title to it; detaching one turns what it owned into titles and spare blocks; a borrow that is given
back leaves no trace.
-/
set_option autoImplicit false
namespace Marshal

open Step

namespace Entries

variable {V : Type} {es : Entries V} {e : Entry (Object V)}

theorem modify_perm (hNodup : es.addrs.Nodup) (he : e ∈ es) (f : Entry (Object V) → Entry (Object V)) :
    (es.map fun x => if x.addr = e.addr then f x else x).Perm (f e :: es.filter (·.addr ≠ e.addr)) := by
  have hMap := (perm_cons_filter Entry.addr hNodup he).map fun x => if x.addr = e.addr then f x else x
  rw [List.map_cons, if_pos rfl] at hMap
  have hRest : (es.filter (·.addr ≠ e.addr)).map (fun x => if x.addr = e.addr then f x else x) =
      es.filter (·.addr ≠ e.addr) := by
    rw [List.map_congr_left (g := id), List.map_id]
    intro x hx
    exact if_neg (by simpa using (List.mem_filter.mp hx).2)
  rwa [hRest] at hMap

end Entries

namespace Store

variable {V : Type} {s : Store (Object V)} {e : Entry (Object V)}

theorem typeId?_eq_some_iff (hNodup : Entries.addrs s.entries |>.Nodup) {addr id : UInt32} :
    s.typeId? addr = some id ↔ Entries.HasType s.entries addr id := by
  constructor
  · intro h
    obtain ⟨e, hFound, rfl⟩ := Option.map_eq_some_iff.mp h
    obtain ⟨he, hAddr⟩ := entry?_eq_some hFound
    exact ⟨e, he, hAddr, rfl⟩
  · rintro ⟨e, he, rfl, rfl⟩
    rw [typeId?, entry?_of_mem hNodup he]
    rfl

end Store

namespace Table

variable {V α : Type}

/-- The table is open, nothing is borrowed, and everything has its owner. -/
structure Sound (types : List Text) (t : Table (Object V)) (titles : List Title) (leaks spare : List UInt32) :
    Prop where
  accounts : Accounts types t.heap t.store.entries titles leaks spare
  unborrowed : ∀ e ∈ t.store.entries, e.shared = 0 ∧ e.exclusive = false
  isOpen : t.closed = false ∧ t.store.closed = false

variable {types : List Text} {titles : List Title} {leaks spare : List UInt32} {t : Table (Object V)}

theorem Sound.told (hs : t.Sound types titles leaks spare) (e : Event (Object V)) :
    (t.told e).Sound types titles leaks spare :=
  ⟨hs.accounts, hs.unborrowed, hs.isOpen⟩

/-! ## Taking an object out -/

theorem exec_detach {w : Title} (hs : t.Sound types (w :: titles) leaks spare) :
    ∃ e t' elem, e ∈ t.store.entries ∧ exec (detach w.addr) t = (.ok e, t') ∧
      t'.Sound types (titlesOf elem (e.value.slots t.heap.memory) ++ titles) leaks (e.value.blocks ++ spare) ∧
      t'.heap.memory = t.heap.memory ∧ t'.store.size + 1 = t.store.size := by
  obtain ⟨-, e, he, hAddr, -⟩ := hs.accounts.titled w List.mem_cons_self
  have hPerm := perm_cons_filter Entry.addr hs.accounts.addrs_nodup he
  obtain ⟨elem, hOut⟩ := (hs.accounts.perm_entries hPerm).takeOut hAddr.symm
  have hCell : Accounts types t.heap (t.store.entries.filter (·.addr ≠ e.addr))
      (titlesOf elem (e.value.slots t.heap.memory) ++ titles) leaks
      (Heap.blockAt e.addr ++ (e.value.blocks ++ spare)) := by
    rw [Heap.blockAt_of_ne (hs.accounts.addr_ne_zero he)]
    exact hOut
  obtain ⟨h', hRelease, hLoose, hMemory⟩ := hCell.exec_release
  have hFound := Store.entry?_of_mem hs.accounts.addrs_nodup he
  have hDetach := exec_detach_idle hFound (Entry.isBorrowed_of_free (hs.unborrowed e he)) hRelease
  rw [← hAddr]
  refine ⟨e, _, elem, he, hDetach, ⟨hLoose, ?_, hs.isOpen⟩, hMemory, hPerm.length_eq.symm⟩
  intro e' he'
  exact hs.unborrowed e' (List.mem_filter.mp he').1

/-! ## Borrowing

Nothing but the entry at the address changes, so what a borrow does is said by the entry before the rest. -/

structure Turned (t : Table (Object V)) (h : Heap) (es : Entries V) (t' : Table (Object V)) : Prop where
  heap : t'.heap = h
  entries : t'.store.entries.Perm es
  closed : t'.closed = t.closed ∧ t'.store.closed = t.store.closed

theorem Sound.turned {h : Heap} {es : Entries V} {t' : Table (Object V)} {titles' : List Title}
    {leaks' spare' : List UInt32} (hs : t.Sound types titles leaks spare) (ht : t.Turned h es t')
    (ha : Accounts types h es titles' leaks' spare') (hFree : ∀ e ∈ es, e.shared = 0 ∧ e.exclusive = false) :
    t'.Sound types titles' leaks' spare' := by
  refine ⟨ht.heap ▸ ha.perm_entries ht.entries.symm, fun e he => hFree e (ht.entries.mem_iff.mp he), ?_⟩
  rw [ht.closed.1, ht.closed.2]
  exact hs.isOpen

theorem Turned.trans {h h' : Heap} {es es' : Entries V} {t₁ t₂ : Table (Object V)} (ht : t.Turned h es t₁)
    (ht' : t₁.Turned h' es' t₂) : t.Turned h' es' t₂ :=
  ⟨ht'.heap, ht'.entries, ht'.closed.1.trans ht.closed.1, ht'.closed.2.trans ht.closed.2⟩

variable {e : Entry (Object V)} {rest : Entries V}

theorem admits_of_free (hFree : e.shared = 0 ∧ e.exclusive = false) (kind : BorrowKind) :
    e.admits kind = true := by
  cases kind <;> simp [Entry.admits, hFree.1, hFree.2]

theorem giveBack?_borrow (hFree : e.shared = 0 ∧ e.exclusive = false) (kind : BorrowKind) (v : Object V) :
    ({ e.borrow kind with value := v } : Entry (Object V)).giveBack? kind = some { e with value := v } := by
  obtain ⟨addr, id, value, shared, exclusive⟩ := e
  obtain ⟨rfl, rfl⟩ := hFree
  cases kind with
  | shared => simp [Entry.borrow, Entry.giveBack?]
  | exclusive => rfl

theorem modify_perm (hNodup : (Entries.addrs (e :: rest)).Nodup) (hAt : t.store.entries.Perm (e :: rest))
    (f : Entry (Object V) → Entry (Object V)) :
    (t.store.modify e.addr f).entries.Perm (f e :: rest) := by
  have he : e ∈ t.store.entries := hAt.mem_iff.mpr List.mem_cons_self
  have hAll : (Entries.addrs t.store.entries).Nodup := (hAt.map Entry.addr).nodup_iff.mpr hNodup
  have hRest : (t.store.entries.filter (·.addr ≠ e.addr)).Perm rest :=
    ((perm_cons_filter Entry.addr hAll he).symm.trans hAt).cons_inv
  exact (Entries.modify_perm hAll he f).trans (hRest.cons _)

theorem exec_borrow (hNodup : (Entries.addrs (e :: rest)).Nodup) (hAt : t.store.entries.Perm (e :: rest))
    {kind : BorrowKind} (hAdmits : e.admits kind = true) :
    ∃ t', exec (borrow e.addr kind) t = (.ok (), t') ∧ t.Turned t.heap (e.borrow kind :: rest) t' := by
  have he : e ∈ t.store.entries := hAt.mem_iff.mpr List.mem_cons_self
  have hAll : (Entries.addrs t.store.entries).Nodup := (hAt.map Entry.addr).nodup_iff.mpr hNodup
  have hStore : exec (onStore fun s => (s.borrow e.addr kind).map fun s => ((), s)) t =
      (.ok (), { t with store := t.store.modify e.addr (·.borrow kind) }) := by
    rw [exec_onStore, Store.borrow, Store.entry?_of_mem hAll he]
    simp only [hAdmits]
    rfl
  refine ⟨_, (exec_bind_ok hStore).trans (exec_bind_ok (exec_get _)), rfl, ?_, rfl, rfl⟩
  exact modify_perm hNodup hAt _

theorem exec_giveBack (hNodup : (Entries.addrs (e :: rest)).Nodup) (hAt : t.store.entries.Perm (e :: rest))
    {kind : BorrowKind} {e' : Entry (Object V)} (hBack : e.giveBack? kind = some e') :
    ∃ t', exec (giveBack e.addr kind) t = (.ok true, t') ∧ t.Turned t.heap (e' :: rest) t' := by
  have he : e ∈ t.store.entries := hAt.mem_iff.mpr List.mem_cons_self
  have hAll : (Entries.addrs t.store.entries).Nodup := (hAt.map Entry.addr).nodup_iff.mpr hNodup
  have hStore : t.store.giveBack? e.addr kind = some (t.store.modify e.addr fun _ => e') := by
    rw [Store.giveBack?, Store.entry?_of_mem hAll he]
    show (e.giveBack? kind >>= fun e' => some (t.store.modify e.addr fun _ => e')) = _
    rw [hBack]
    rfl
  let typeId := ((t.store.modify e.addr fun _ => e').typeId? e.addr).getD 0
  refine ⟨told { kind := .borrowReturned, addr := e.addr, typeId, borrow := kind }
    { t with store := t.store.modify e.addr fun _ => e' }, ?_, rfl, modify_perm hNodup hAt fun _ => e', rfl, rfl⟩
  rw [giveBack, exec_bind_ok (exec_get t)]
  simp only [hStore]
  rfl

theorem exec_setValue (hNodup : (Entries.addrs (e :: rest)).Nodup) (hAt : t.store.entries.Perm (e :: rest))
    (v : Object V) :
    ∃ t', exec (setValue e.addr v) t = (.ok (), t') ∧ t.Turned t.heap ({ e with value := v } :: rest) t' :=
  ⟨_, rfl, rfl, modify_perm hNodup hAt fun e => { e with value := v }, rfl, rfl⟩

end Table

end Marshal
