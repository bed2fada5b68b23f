import Marshal.Proofs.Object.Table

/-! # Dropping an object

Whoever holds the title to an object can drop it, and this always succeeds: the object leaves the table,
everything it owns is dropped in turn, and all their blocks are freed. The nesting is bounded by the number
of objects, because each has left the table before its own destructor runs.
-/
set_option autoImplicit false
namespace Marshal
namespace Object

open Step

variable {V : Type} {types : List Text} {titles : List Title} {leaks spare : List UInt32}
  {t : Table (Object V)}

/-- Removing the object of any title succeeds, in a table with at most `size` objects. -/
def Removes (types : List Text) (size : Nat) (remove : UInt32 → Step (Table (Object V)) (Object V)) : Prop :=
  ∀ (t : Table (Object V)) (w : Title) (titles : List Title) (leaks spare : List UInt32),
    t.Sound types (w :: titles) leaks spare → t.store.size ≤ size →
      ∃ v t', exec (remove w.addr) t = (.ok v, t') ∧ t'.Sound types titles leaks spare ∧
        t'.heap.memory = t.heap.memory ∧ t'.store.size < t.store.size

theorem title_ne_zero {w : Title} (hs : t.Sound types (w :: titles) leaks spare) : w.addr ≠ 0 := by
  obtain ⟨-, e, he, hAddr, -⟩ := hs.accounts.titled w List.mem_cons_self
  exact hAddr ▸ hs.accounts.addr_ne_zero he

variable {remove : UInt32 → Step (Table (Object V)) (Object V)}

theorem exec_dropWith {size : Nat}
    (hRemove : Removes types size remove) {w : Title} (hs : t.Sound types (w :: titles) leaks spare)
    (hSize : t.store.size ≤ size) :
    ∃ t', exec (dropWith remove w.addr) t = (.ok (), t') ∧ t'.Sound types titles leaks spare ∧
      t'.heap.memory = t.heap.memory ∧ t'.store.size < t.store.size := by
  obtain ⟨v, t', hExec, hSound⟩ := hRemove t w titles leaks spare hs hSize
  refine ⟨t', ?_, hSound⟩
  rw [dropWith, if_neg (title_ne_zero hs)]
  exact exec_bind_ok (exec_attempt_ok hExec)

/-- The loop over the elements of a vector that has left the table. Its slots have become titles, and every
round spends the first of them. -/
theorem exec_dropElements {size : Nat}
    (hRemove : Removes types size remove) {buf : Buffer} {h : Heap} (hv : h.Valid) (hFits : buf.Fits h .u32)
    {elem : Text} {positions : List Nat} (hPositions : ∀ i ∈ positions, i < buf.len.toNat)
    (hs : t.Sound types (titlesOf elem (positions.map fun i => (buf.word h.memory .u32 i).toUInt32) ++ titles)
      leaks spare) (hMemory : t.heap.memory = h.memory) (hSize : t.store.size ≤ size) :
    ∃ t', exec (dropElements (dropOwned false remove) buf positions) t = (.ok (), t') ∧
      t'.Sound types titles leaks spare ∧ t'.heap.memory = t.heap.memory ∧ t'.store.size ≤ t.store.size := by
  induction positions generalizing t with
  | nil => exact ⟨t, rfl, hs, rfl, Nat.le_refl _⟩
  | cons i rest ih =>
    have hi := hPositions i List.mem_cons_self
    have hIndex : i.toUInt32.toNat = i := UInt32.toNat_ofNat_of_lt' (Nat.lt_trans hi buf.len.toNat_lt)
    -- the slots are read from the memory as it was at first, which dropping does not write to
    have hRead : exec (Table.onHeap (buf.get? .u32 i.toUInt32)) t =
        (.ok (some (.u32 (buf.word h.memory .u32 i).toUInt32)), t) := by
      rw [Table.exec_onHeap, Buffer.exec_get?_memory hMemory,
        Buffer.exec_get?_address hv hFits (by rw [hIndex]; exact hi), hIndex]
    obtain ⟨t₁, hDrop, hs₁, hMemory₁, hSize₁⟩ := exec_dropWith hRemove hs hSize
    obtain ⟨t', hRest, hs', hMemory', hSize'⟩ := ih (fun j hj => hPositions j (List.mem_cons_of_mem i hj)) hs₁
      (hMemory₁.trans hMemory) (by omega)
    refine ⟨t', ?_, hs', hMemory'.trans hMemory₁, by omega⟩
    rw [dropElements, exec_bind_ok hRead]
    exact (exec_bind_ok hDrop).trans hRest

theorem exec_discard {buf : Buffer} (hs : t.Sound types titles leaks (buf.blocks ++ spare)) :
    ∃ t', exec (Table.onHeap buf.discard) t = (.ok (), t') ∧ t'.Sound types titles leaks spare ∧
      t'.heap.memory = t.heap.memory ∧ t'.store.size = t.store.size := by
  obtain ⟨h', hExec, hReplaced, hMemory⟩ := Buffer.exec_discard hs.accounts.valid fun a ha =>
    hs.accounts.spare_live (List.mem_append_left spare ha)
  refine ⟨{ t with heap := h' }, ?_, ⟨hs.accounts.replaceSpare hReplaced, hs.unborrowed, hs.isOpen⟩, hMemory, rfl⟩
  rw [Table.exec_onHeap, hExec]

theorem exec_destroy {depth : Nat}
    (hRemove : ∀ d, depth = d + 1 → Removes types d (Table.remove (destroy (V := V) false d)))
    {v : Object V} {h : Heap} (hv : h.Valid) (hFits : v.Fits h) {elem : Text}
    (hs : t.Sound types (titlesOf elem (v.slots h.memory) ++ titles) leaks (v.blocks ++ spare))
    (hMemory : t.heap.memory = h.memory) (hSize : t.store.size < depth) :
    ∃ t', exec (destroy false depth v) t = (.ok (), t') ∧ t'.Sound types titles leaks spare ∧
      t'.heap.memory = t.heap.memory ∧ t'.store.size ≤ t.store.size := by
  cases v with
  | guest value =>
    rw [destroy]
    exact ⟨{ t with journal := t.journal ++ [.destroyed (guest value)] }, rfl,
      ⟨hs.accounts, hs.unborrowed, hs.isOpen⟩, rfl, Nat.le_refl _⟩
  | callback _ =>
    rw [destroy]
    exact ⟨t, rfl, hs, rfl, Nat.le_refl _⟩
  | string ptr len =>
    obtain ⟨h', hExec, hAccounts, hMemory'⟩ := Accounts.exec_release hs.accounts
    refine ⟨{ t with heap := h' }, ?_, ⟨hAccounts, hs.unborrowed, hs.isOpen⟩, hMemory', Nat.le_refl _⟩
    rw [destroy]
    split
    · rename_i hNull
      rw [hNull, Heap.exec_release_null] at hExec
      obtain rfl : t.heap = h' := congrArg Prod.snd hExec
      rfl
    · rw [Table.exec_onHeap, hExec]
  | vector _ buf =>
    obtain ⟨t', hExec, hs', hMemory', hSize'⟩ := exec_discard hs
    exact ⟨t', by rw [destroy]; exact hExec, hs', hMemory', Nat.le_of_eq hSize'⟩
  | refVector buf =>
    obtain ⟨d, rfl⟩ : ∃ d, depth = d + 1 := ⟨depth - 1, by omega⟩
    rw [slots, Buffer.words, List.map_map] at hs
    obtain ⟨t₁, hDrop, hs₁, hMemory₁, hSize₁⟩ := exec_dropElements (hRemove d rfl) hv hFits
      (fun i hi => List.mem_range.mp hi) hs hMemory (Nat.le_of_lt_succ hSize)
    obtain ⟨t', hExec, hs', hMemory', hSize'⟩ := exec_discard hs₁
    refine ⟨t', ?_, hs', hMemory'.trans hMemory₁, by omega⟩
    rw [destroy, exec_bind_ok hDrop, hExec]

theorem removes (types : List Text) (depth : Nat) :
    Removes types depth (Table.remove (destroy (V := V) false depth)) := by
  induction depth with
  | zero =>
    intro t w titles leaks spare hs hSize
    obtain ⟨e, t₁, elem, he, hDetach, hs₁, hMemory₁, hSize₁⟩ := Table.exec_detach hs
    omega
  | succ depth ih =>
    intro t w titles leaks spare hs hSize
    obtain ⟨e, t₁, elem, he, hDetach, hs₁, hMemory₁, hSize₁⟩ := Table.exec_detach hs
    -- with the object out of it the table is smaller, so its elements can be dropped one level down
    have hBelow : ∀ d, depth + 1 = d + 1 → Removes types d (Table.remove (destroy (V := V) false d)) :=
      fun d hd => Nat.succ.inj hd ▸ ih
    obtain ⟨t₂, hDestroy, hs₂, hMemory₂, hSize₂⟩ := exec_destroy hBelow hs.accounts.valid
      (hs.accounts.fits e he) hs₁ hMemory₁ (by omega)
    let event : Event (Object V) := { kind := .dropped, addr := w.addr, typeId := e.typeId, value := some e.value }
    refine ⟨e.value, t₂.told event, ?_, hs₂.told event, hMemory₂.trans hMemory₁, ?_⟩
    · rw [Table.remove, exec_bind_ok hDetach, exec_bind_ok hDestroy]
      rfl
    · show t₂.store.size < t.store.size
      omega

end Object

end Marshal
