import Marshal.Object.Table
import Marshal.Proofs.Heap.Replaced

/-! # Entries and their cells

What the store finds and records, and what boxing a value does to any table whose entries have live cells:
the new cell is marked with its type, and the value is recorded there.
-/
set_option autoImplicit false
namespace Marshal

open Step

namespace Store

variable {V : Type} {s : Store V} {e : Entry V}

theorem entry?_eq_some {addr : UInt32} (h : s.entry? addr = some e) : e ∈ s.entries ∧ e.addr = addr :=
  ⟨List.mem_of_find?_eq_some h, by simpa using List.find?_some h⟩

theorem entry?_of_mem (hNodup : (s.entries.map Entry.addr).Nodup) (he : e ∈ s.entries) :
    s.entry? e.addr = some e := by
  cases hFound : s.entry? e.addr with
  | none => simpa using List.find?_eq_none.mp hFound e he
  | some e' =>
    obtain ⟨he', hAddr⟩ := entry?_eq_some hFound
    rw [List.inj_on_of_nodup_map hNodup he' he hAddr]

theorem entry?_eq_none {addr : UInt32} (h : addr ∉ s.entries.map Entry.addr) : s.entry? addr = none := by
  refine List.find?_eq_none.mpr fun e he => ?_
  have hNe : e.addr ≠ addr := fun hEq => h (hEq ▸ List.mem_map_of_mem he)
  simpa using hNe

theorem entry?_perm {s' : Store V} (hNodup : (s.entries.map Entry.addr).Nodup) (hPerm : s'.entries.Perm s.entries)
    (addr : UInt32) : s'.entry? addr = s.entry? addr := by
  cases hFound : s.entry? addr with
  | none =>
    refine entry?_eq_none fun hMem => ?_
    obtain ⟨e, he, rfl⟩ := List.mem_map.mp ((hPerm.map Entry.addr).mem_iff.mp hMem)
    cases hFound.symm.trans (entry?_of_mem hNodup he)
  | some e =>
    obtain ⟨he, rfl⟩ := entry?_eq_some hFound
    exact entry?_of_mem ((hPerm.map Entry.addr).nodup_iff.mpr hNodup) (hPerm.mem_iff.mpr he)

theorem put_of_fresh {addr : UInt32} (hNull : addr ≠ 0) (hOpen : s.closed = false)
    (hFresh : addr ∉ s.entries.map Entry.addr) (id : UInt32) (value : V) :
    s.put addr id value = .ok { s with entries := { addr, typeId := id, value } :: s.entries } := by
  rw [put, if_neg hNull, hOpen, entry?_eq_none hFresh]
  rfl

end Store

theorem Entry.isBorrowed_of_free {V : Type} {e : Entry V} (hFree : e.shared = 0 ∧ e.exclusive = false) :
    e.isBorrowed = false := by
  rw [isBorrowed, hFree.1, hFree.2]
  rfl

namespace Table

variable {V α : Type} {t : Table V}

theorem exec_onHeap (x : Step Heap α) (t : Table V) :
    exec (onHeap x) t = ((exec x t.heap).1, { t with heap := (exec x t.heap).2 }) :=
  exec_within ..

theorem exec_onStore (f : Store V → Except Report (α × Store V)) (t : Table V) :
    exec (onStore f) t = match f t.store with
      | .ok (a, store) => (.ok a, { t with store })
      | .error r => (.error (.refused (.report r)), t) := by
  rw [onStore, exec_update]
  cases f t.store <;> rfl

/-- An object is detached unless it is borrowed. It has left the store even when its cell cannot be freed. -/
theorem exec_detach_cases (addr : UInt32) (t : Table V) :
    (∃ r, exec (detach addr) t = (.error (.refused (.report r)), t) ∧
        ∀ x, t.store.entry? addr = some x → x.isBorrowed = true) ∨
      ∃ x, t.store.entry? addr = some x ∧ x.isBorrowed = false ∧ ∀ {r : Except Stop Unit} {h : Heap},
        exec (Heap.release addr) t.heap = (r, h) →
          exec (detach addr) t = (r.map fun _ => x, { t with heap := h, store := t.store.erase addr }) := by
  rw [detach, exec_bind, exec_onStore, Store.take]
  cases t.store.entry? addr with
  | none =>
    refine .inl ⟨_, rfl, fun x hx => ?_⟩
    cases hx
  | some x =>
    cases hIdle : x.isBorrowed with
    | true =>
      simp only [hIdle]
      refine .inl ⟨_, rfl, fun y hy => ?_⟩
      rwa [← Option.some.inj hy]
    | false =>
      simp only [hIdle]
      refine .inr ⟨x, rfl, hIdle, fun {r h} hRelease => ?_⟩
      show exec (onHeap (Heap.release addr) >>= fun _ => pure x) { t with store := t.store.erase addr } = _
      rw [exec_bind_pure, exec_onHeap, hRelease]

theorem exec_detach_idle {e : Entry V} {h : Heap} (hFound : t.store.entry? e.addr = some e)
    (hIdle : e.isBorrowed = false) (hRelease : exec (Heap.release e.addr) t.heap = (.ok (), h)) :
    exec (detach e.addr) t = (.ok e, { t with heap := h, store := t.store.erase e.addr }) := by
  rcases exec_detach_cases e.addr t with ⟨r, -, hBorrowed⟩ | ⟨x, hx, -, hDetach⟩
  · cases hIdle.symm.trans (hBorrowed e hFound)
  · obtain rfl := Option.some.inj (hFound.symm.trans hx)
    exact hDetach hRelease

def told (e : Event V) (t : Table V) : Table V :=
  { t with observers := t.observers.map fun (id, seen) => (id, seen ++ [e]) }

@[simp] theorem exec_notify (e : Event V) (t : Table V) : exec (notify e) t = (.ok (), t.told e) := rfl

def fill (addr id : UInt32) (value : V) : Step (Table V) Unit := do
  onHeap (Heap.change fun m => m.storeAddress addr id)
  onStore fun s => (s.put addr id value).map fun s => ((), s)

theorem exec_insert (hOpen : t.closed = false) (id : UInt32) (value : V) :
    exec (insert id value) t = exec (onHeap (Heap.allocate cellSize cellSize) >>= fun addr => do
      tryCatch (fill addr id value) fun e => do
        onHeap (Heap.release addr)
        throw e
      notify { kind := .created, addr, typeId := id, value := some value }
      return addr) t := by
  rw [insert, exec_bind_ok (exec_get t), hOpen]
  rfl

/-- The block is a cell whose first four bytes are the type. -/
structure IsCell (h : Heap) (addr id : UInt32) : Prop where
  live : ⟨addr, cellSize, cellSize⟩ ∈ h.live
  aligned : 8 ∣ addr.toNat
  marked : h.memory.slice addr.toNat 4 = Word.toBytes 4 id.toNat

/-- The heap has a new cell; everything else is as it was. -/
structure Boxed (h : Heap) (addr id : UInt32) (h' : Heap) : Prop where
  replaced : Heap.Replaced h [] [addr] h'
  live : h'.live = ⟨addr, cellSize, cellSize⟩ :: h.live
  cell : IsCell h' addr id

theorem exec_mark {h h₁ : Heap} {addr : UInt32} (ha : Heap.Allocated h cellSize cellSize addr h₁) (id : UInt32) :
    ∃ h₂, exec (Heap.change fun m => m.storeAddress addr id) h₁ = (.ok (), h₂) ∧ Boxed h addr id h₂ := by
  have hb : ⟨addr, cellSize, cellSize⟩ ∈ h₁.live := ha.live ▸ List.mem_cons_self
  have hLength := Word.length_toBytes 4 id.toNat
  have hFits : 0 + (Word.toBytes 4 id.toNat).length ≤ cellSize.toNat := by
    rw [hLength]
    decide
  have hBytes : addr.toNat + cellSize.toNat ≤ h₁.memory.bytes := ha.valid.live_bytes hb
  refine ⟨_, Heap.exec_write (by omega), ha.replaced.trans (Heap.replaced_of_write ha.valid hb hFits), ha.live,
    hb, ha.aligned, ?_⟩
  have hSelf := h₁.memory.slice_overwrite_self addr.toNat (Word.toBytes 4 id.toNat)
  rwa [hLength] at hSelf

theorem exec_fill {h₂ : Heap} {addr id : UInt32} (value : V) (hOpen : t.store.closed = false)
    (hMark : exec (Heap.change fun m => m.storeAddress addr id) t.heap = (.ok (), h₂)) (hNull : addr ≠ 0)
    (hFresh : addr ∉ t.store.entries.map Entry.addr) :
    exec (fill addr id value) t = (.ok (), { t with
      heap := h₂
      store := { t.store with entries := { addr, typeId := id, value } :: t.store.entries } }) := by
  have hMark' : exec (onHeap (Heap.change fun m => m.storeAddress addr id)) t =
      (.ok (), { t with heap := h₂ }) := by
    rw [exec_onHeap, hMark]
  rw [fill, exec_bind_ok hMark', exec_onStore, Store.put_of_fresh hNull hOpen hFresh]
  rfl

def boxedAt (t : Table V) (h : Heap) (addr id : UInt32) (value : V) : Table V :=
  { t with
    heap := h
    store := { t.store with entries := { addr, typeId := id, value } :: t.store.entries } }

theorem exec_insert_boxed (hv : t.heap.Valid) (hOpen : t.closed = false ∧ t.store.closed = false)
    (hLive : ∀ e ∈ t.store.entries, e.addr ∈ t.heap.addrs) (id : UInt32) (value : V) :
    (t.heap.Refuses cellSize cellSize ∧ ∃ r, exec (insert id value) t = (.error (.refused (.report r)), t)) ∨
      ∃ addr h, Boxed t.heap addr id h ∧ exec (insert id value) t =
        (.ok addr, (t.boxedAt h addr id value).told { kind := .created, addr, typeId := id, value := some value }) := by
  rw [exec_insert hOpen.1]
  rcases Heap.exec_allocate_cases hv cellSize cellSize with ⟨r, hAlloc⟩ | ⟨addr, h₁, hAlloc, ha⟩
  · refine .inl ⟨⟨r, hAlloc⟩, r, exec_bind_error ?_⟩
    rw [exec_onHeap, hAlloc]
  have hAlloc' : exec (onHeap (Heap.allocate cellSize cellSize)) t = (.ok addr, { t with heap := h₁ }) := by
    rw [exec_onHeap, hAlloc]
  obtain ⟨h₂, hMark, hBoxed⟩ := exec_mark ha id
  have hNull : addr ≠ 0 := hBoxed.replaced.valid.live_addr_ne_zero hBoxed.cell.live
  have hFresh : addr ∉ t.store.entries.map Entry.addr := by
    intro hMem
    obtain ⟨e, he, rfl⟩ := List.mem_map.mp hMem
    exact hBoxed.replaced.not_mem_new (hLive e he) (by simp) List.mem_cons_self
  have hFill := exec_fill (t := { t with heap := h₁ }) value hOpen.2 hMark hNull hFresh
  refine .inr ⟨addr, h₂, hBoxed, ?_⟩
  rw [exec_bind_ok hAlloc', exec_bind_ok (exec_tryCatch_ok hFill)]
  exact exec_bind_ok (exec_notify ..)

end Table

end Marshal
