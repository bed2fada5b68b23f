import Marshal.Proofs.Object.Loss

/-! # Closing the table

While everything is being closed, an element of a vector may be dropped with the vector or on its own, whichever comes
first: dropping it again is refused, and nobody minds. So the order of the addresses does not matter, and neither does
the depth that the destructors reach. What is not borrowed is dropped once, and what is borrowed stays until the
end.
-/
set_option autoImplicit false
namespace Marshal

open Step

variable {V : Type} {t : Table (Object V)} {spare : List UInt32}

theorem Table.exec_attempt_remove {destroy : Object V → Step (Table (Object V)) Unit} (ht : t.Accounted spare)
    (addr : UInt32)
    (hDestroy : ∀ e ∈ t.store.entries, ∀ t₁, t.Loses { entries := [e], blocks := [e.addr] } t₁ →
      t₁.Accounted (e.value.blocks ++ spare) →
        ∃ gone t₂, exec (destroy e.value) t₁ = (.ok (), t₂) ∧ t₁.Loses (.under e.value gone) t₂) :
    ∃ r gone t', exec (attempt (remove destroy addr)) t = (.ok r, t') ∧ t.Loses (.of gone) t' ∧
      ∀ e ∈ t'.store.entries, e.addr = addr → e.isBorrowed = true := by
  cases hFree : t.isFree addr with
  | false =>
    obtain ⟨r, hDetach⟩ := exec_detach_unfree hFree
    refine ⟨_, [], t, exec_attempt_refused (exec_bind_error hDetach), .refl ht.valid, ?_⟩
    intro e he hAddr
    have hFound := Store.entry?_of_mem ht.addrs_nodup he
    rw [isFree, ← hAddr, hFound] at hFree
    simpa using hFree
  | true =>
    obtain ⟨e, hFound, hIdle⟩ := isFree_eq_true_iff.mp hFree
    obtain ⟨he, rfl⟩ := Store.entry?_eq_some hFound
    obtain ⟨t₁, hDetach, hl₁, ht₁⟩ := exec_detach_loses ht hFound hIdle
    obtain ⟨gone, t₂, hExec, hl₂⟩ := hDestroy e he t₁ hl₁ ht₁
    obtain ⟨hRemove, hLoses⟩ := exec_remove_loses hDetach hl₁ hExec hl₂
    refine ⟨_, e :: gone, _, exec_attempt_ok hRemove, hLoses, ?_⟩
    intro e' he' hAddr
    have hNodup := (hLoses.entries.map Entry.addr).nodup_iff.mp ht.addrs_nodup
    rw [List.map_append] at hNodup
    have hApart := (List.nodup_append.mp hNodup).2.2 e.addr (List.mem_map_of_mem List.mem_cons_self)
    exact absurd hAddr.symm (hApart e'.addr (List.mem_map_of_mem he'))

namespace Object

theorem exec_dropElements_closing {drop : UInt32 → Step (Table (Object V)) Unit} {spare : List UInt32}
    (hDrop : ∀ (a : UInt32) (t : Table (Object V)), t.Accounted spare →
      ∃ gone t', exec (drop a) t = (.ok (), t') ∧ t.Loses (.of gone) t')
    {buf : Buffer} {h : Heap} (hv : h.Valid) (hFits : buf.Fits h .u32) {positions : List Nat}
    (hPositions : ∀ i ∈ positions, i < buf.len.toNat) (ht : t.Accounted spare) (hMemory : t.heap.memory = h.memory) :
    ∃ gone t', exec (dropElements drop buf positions) t = (.ok (), t') ∧ t.Loses (.of gone) t' := by
  induction positions generalizing t with
  | nil => exact ⟨[], t, rfl, .refl ht.valid⟩
  | cons i rest ih =>
    obtain ⟨gone, t₁, hExec, hl₁⟩ := hDrop (buf.word h.memory .u32 i).toUInt32 t ht
    obtain ⟨gone', t', hRest, hl'⟩ := ih (fun j hj => hPositions j (List.mem_cons_of_mem i hj)) (hl₁.of_accounted ht)
      (hl₁.memory.trans hMemory)
    refine ⟨gone ++ gone', t', ?_, hl₁.of_trans hl'⟩
    rw [exec_dropElements_cons hv hFits hMemory (hPositions i List.mem_cons_self), exec_bind_ok hExec, hRest]

theorem exec_destroy_closing (depth : Nat) {v : Object V} {h : Heap} (hv : h.Valid) (hFits : v.Fits h)
    (ht : t.Accounted (v.blocks ++ spare)) (hMemory : t.heap.memory = h.memory) :
    ∃ gone t', exec (destroy true depth v) t = (.ok (), t') ∧ t.Loses (.under v gone) t' := by
  induction depth generalizing t v h spare with
  | zero => exact ⟨[], exec_destroy_loses _ nofun ht⟩
  | succ depth ih =>
    by_cases hNests : v.Nests (depth + 1)
    · obtain ⟨_, buf, ⟨⟩, rfl⟩ := hNests
      have hDrop : ∀ (a : UInt32) (t : Table (Object V)), t.Accounted (buf.blocks ++ spare) →
          ∃ gone t', exec (dropOwned true (Table.remove (destroy true depth)) a) t = (.ok (), t') ∧
            t.Loses (.of gone) t' := by
        intro a t ht
        obtain ⟨r, gone, t', hExec, hLoses, -⟩ := Table.exec_attempt_remove ht a fun e he t₁ hl₁ ht₁ =>
          ih ht.valid (ht.fits e he) ht₁ hl₁.memory
        exact ⟨gone, t', exec_bind_ok hExec, hLoses⟩
      obtain ⟨gone, t₁, hExec, hLoses⟩ := exec_dropElements_closing hDrop hv hFits
        (fun i hi => List.mem_range.mp hi) ht hMemory
      exact ⟨gone, exec_destroy_nested ht hExec hLoses⟩
    · exact ⟨[], exec_destroy_loses _ hNests ht⟩

end Object

namespace Table

theorem exec_removeAll_closing (depth : Nat) (addrs : List UInt32) (ht : t.Accounted spare) :
    ∃ gone t', exec (removeAll (Object.destroy true depth) addrs) t = (.ok (), t') ∧ t.Loses (.of gone) t' ∧
      ∀ e ∈ t'.store.entries, e.addr ∈ addrs → e.isBorrowed = true := by
  induction addrs generalizing t with
  | nil => exact ⟨[], t, rfl, .refl ht.valid, nofun⟩
  | cons addr rest ih =>
    obtain ⟨r, gone, t₁, hExec, hl₁, hFirst⟩ := exec_attempt_remove ht addr fun e he t₁ hl₁ ht₁ =>
      Object.exec_destroy_closing depth ht.valid (ht.fits e he) ht₁ hl₁.memory
    obtain ⟨gone', t', hRest, hl', hLater⟩ := ih (hl₁.of_accounted ht)
    refine ⟨gone ++ gone', t', (exec_bind_ok hExec).trans hRest, hl₁.of_trans hl', ?_⟩
    intro e he hMem
    rcases List.mem_cons.mp hMem with hAddr | hMem
    · exact hFirst e (hl'.mem he) hAddr
    · exact hLater e he hMem

theorem exec_close_loses (depth : Nat) (ht : t.Accounted spare)
    (hFree : ∀ e ∈ t.store.entries, e.isBorrowed = false) (hOpen : t.store.closed = false) :
    ∃ t', ({ t with closed := true } : Table (Object V)).Loses (.of t.store.entries) t' ∧ t'.store.entries = [] ∧
      exec (close (Object.destroy true depth)) t =
        (.ok (), { t' with store := { entries := [], closed := true } }) := by
  let t₀ : Table (Object V) := { t with closed := true }
  have ht₀ : t₀.Accounted spare := ⟨ht.valid, ht.cells, ht.fits⟩
  obtain ⟨gone, t', hClear, hLoses, hLeft⟩ := exec_removeAll_closing depth (t₀.store.sorted.map Entry.addr) ht₀
  have hNone : t'.store.entries = [] := by
    refine List.eq_nil_iff_forall_not_mem.mpr fun e he => ?_
    have hListed : e.addr ∈ t₀.store.sorted.map Entry.addr :=
      List.mem_map_of_mem ((List.mergeSort_perm _ _).mem_iff.mpr (hLoses.mem he))
    have hBorrowed := hLeft e he hListed
    rw [hFree e (hLoses.mem he)] at hBorrowed
    cases hBorrowed
  have hGone : gone.Perm t.store.entries := by
    have hEntries := hLoses.entries
    rw [hNone, List.append_nil] at hEntries
    exact hEntries.symm
  refine ⟨t', hLoses.perm (Loss.perm_of hGone), hNone, ?_⟩
  have hClose : t'.store.close = ([], { entries := [], closed := true }) := by
    rw [Store.close, hLoses.closed.2, if_neg (by simp [t₀, hOpen]), Store.sorted, hNone,
      List.mergeSort_nil]
    rfl
  have hClear' : exec (clear (Object.destroy true depth)) t₀ = (.ok (), t') := (exec_bind_ok (exec_get t₀)).trans hClear
  rw [close, exec_bind_ok (exec_modify ..), exec_bind_ok hClear', exec_bind_ok (exec_get t'), hClose]
  rfl

end Table

end Marshal
