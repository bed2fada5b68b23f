import Marshal.Proofs.Heap.Replaced

/-! # A heap that others use too

Whoever owns some small blocks of a heap cares about the others only as far as these blocks go. Others may
allocate, free and write, and make the memory grow, as long as they do not free one of the blocks or write
into one: then the blocks stay live and keep their bytes.
-/
set_option autoImplicit false
namespace Marshal

open Step

inductive HeapUse where
  | alloc (size align : UInt32)
  | free (addr : UInt32)
  | write (offset : UInt32) (data : List UInt8)
  | grow (delta : UInt32)

namespace HeapUse

def perform : HeapUse → Step Heap Unit
  | .alloc size align => (fun _ => ()) <$> Heap.allocate size align
  | .free addr => Heap.release addr
  | .write offset data => Heap.change fun m => m.write offset data
  | .grow delta => (fun _ => ()) <$> Heap.growPages delta

/-- None of the blocks is freed, and none of their bytes is written. -/
def Spares (blocks : List Block) : HeapUse → Prop
  | .alloc .. => True
  | .free addr => ∀ b ∈ blocks, b.addr ≠ addr
  | .write offset data => ∀ b ∈ blocks, b.extent.Apart ⟨offset.toNat, data.length⟩
  | .grow _ => True

end HeapUse

namespace Heap

/-- The heap was used in ways that spare the blocks. -/
inductive Used (blocks : List Block) (h : Heap) : Heap → Prop
  | refl : Used blocks h h
  | use {h' : Heap} (c : HeapUse) (hUsed : Used blocks h h') (hSpares : c.Spares blocks) :
      Used blocks h (exec c.perform h').2

/-- The blocks are live and have the bytes they had. -/
structure Keeps (blocks : List Block) (h h' : Heap) : Prop where
  valid : h'.Valid
  live : ∀ b ∈ blocks, b ∈ h.live → b ∈ h'.live
  bytes : ∀ b ∈ blocks, b ∈ h.live → ∀ i, b.extent.Has i → h'.memory.byte i = h.memory.byte i

variable {h h₁ h₂ : Heap} {blocks : List Block}

theorem Keeps.refl (hv : h.Valid) : Keeps blocks h h := ⟨hv, fun _ _ => id, fun _ _ _ _ _ => rfl⟩

theorem Keeps.trans (hk : Keeps blocks h h₁) (hk' : Keeps blocks h₁ h₂) : Keeps blocks h h₂ := by
  refine ⟨hk'.valid, fun b hb hLive => hk'.live b hb (hk.live b hb hLive), ?_⟩
  intro b hb hLive i hi
  rw [hk'.bytes b hb (hk.live b hb hLive) i hi, hk.bytes b hb hLive i hi]

theorem Replaced.keeps {old new : List UInt32} (hr : Replaced h old new h₁) (hApart : ∀ b ∈ blocks, b.addr ∉ old) :
    Keeps blocks h h₁ :=
  ⟨hr.valid, fun b hb hLive => (hr.kept b hLive (hApart b hb)).1,
    fun b hb hLive => (hr.kept b hLive (hApart b hb)).2⟩

theorem Keeps.mono {some : List Block} (hk : Keeps blocks h h₁) (hSome : some ⊆ blocks) : Keeps some h h₁ :=
  ⟨hk.valid, fun b hb => hk.live b (hSome hb), fun b hb => hk.bytes b (hSome hb)⟩

variable {data : List UInt8}

theorem Holds.kept {ptr : UInt32} (hh : h.Holds ptr data) (hk : Keeps (copyBlock ptr data) h h₁) :
    h₁.Holds ptr data := by
  refine ⟨hh.addrs, fun b hb => hk.live b hb (hh.live b hb), hh.room, ?_⟩
  by_cases hNil : data = []
  · subst hNil
    rfl
  · have hb := Holds.block ptr hNil
    have hSame : h₁.memory.slice ptr.toNat data.length = h.memory.slice ptr.toNat data.length := by
      refine Memory.slice_congr fun i hLow hHigh => hk.bytes _ hb (hh.live _ hb) i ⟨hLow, ?_⟩
      exact Nat.lt_of_lt_of_le hHigh (Nat.add_le_add_left (hh.room _ hb) _)
    rw [hSame, hh.contents]

theorem Copied.exec_release {ptr : UInt32} {new : List UInt32}
    (hc : Copied h data ptr h₁) (hr : Replaced h₁ [] new h₂) :
    ∃ h₃, exec (release ptr) h₂ = (.ok (), h₃) ∧ Replaced h₂ (blockAt ptr) [] h₃ := by
  have hHolds : h₂.Holds ptr data := hc.toHolds.kept (hr.keeps fun _ _ => List.not_mem_nil)
  obtain ⟨h₃, hRelease, hBack, -⟩ := exec_release_blockAt hr.valid hHolds.addr_live
  exact ⟨h₃, hRelease, hBack⟩

theorem keeps_write (hv : h.Valid) {offset : UInt32}
    (hApart : ∀ b ∈ blocks, b.extent.Apart ⟨offset.toNat, data.length⟩) :
    Keeps blocks h (exec (change fun m => m.write offset data) h).2 := by
  by_cases hFits : offset.toNat + data.length ≤ h.memory.bytes
  · rw [exec_write hFits]
    refine ⟨hv.setMemory rfl rfl, fun _ _ => id, ?_⟩
    intro b hb _ i hi
    have hOut := (hApart b hb).not_has hi
    simp only [Extent.Has] at hOut
    exact Memory.overwrite_outside _ (by omega)
  · rw [exec_change, Memory.write, if_neg hFits]
    exact .refl hv

theorem Valid.enlarge (hv : h.Valid) {m : Memory} (hPages : h.memory.pages ≤ m.pages) (hFits : m.pages ≤ m.maxPages)
    (hMax : m.maxPages = h.memory.maxPages) : Valid { h with memory := m } := by
  have hBytes : h.memory.bytes ≤ m.bytes := Nat.mul_le_mul_right 65536 hPages
  refine ⟨hFits, hMax ▸ hv.maxPages_le, hv.next_low, ?_, hv.live_within, hv.free_within, hv.live_apart,
    hv.free_nodup, hv.free_apart, hv.live_free_apart, hv.sized, hv.counted⟩
  have hNext := hv.next_high
  show h.next.toNat ≤ max 16 m.bytes
  omega

theorem keeps_grow (hv : h.Valid) (delta : UInt32) : Keeps blocks h (exec (growPages delta) h).2 := by
  rw [growPages, exec_bind_ok (exec_get h)]
  rcases hGrow : h.memory.grow delta with ⟨_ | m, previous⟩
  · exact .refl hv
  · obtain ⟨hFits, hPages, hMax, hKept⟩ := Memory.grow_eq_some hGrow
    refine ⟨hv.enlarge (m := m) (by omega) (by omega) hMax, fun _ _ => id, ?_⟩
    intro b _ hLive i hi
    exact hKept i (Nat.lt_of_lt_of_le hi.2 (hv.live_bytes hLive))

theorem keeps_use (hv : h.Valid) {c : HeapUse} (hSpares : c.Spares blocks) :
    Keeps blocks h (exec c.perform h).2 := by
  cases c with
  | alloc size align =>
    rw [HeapUse.perform, exec_map]
    rcases exec_allocate_cases hv size align with ⟨r, hAlloc⟩ | ⟨addr, h₁, hAlloc, ha⟩
    · rw [hAlloc]
      exact .refl hv
    · rw [hAlloc]
      exact ha.replaced.keeps fun b _ => by simp
  | free addr =>
    rw [HeapUse.perform]
    by_cases hNull : addr = 0
    · rw [hNull, exec_release_null]
      exact .refl hv
    · cases hLive : h.isLive addr with
      | false =>
        rw [exec_release_dead hNull hLive]
        exact .refl hv
      | true =>
        obtain ⟨c, hc, rfl⟩ := isLive_iff.mp hLive
        obtain ⟨h₁, hExec, hFreed⟩ := exec_release_live hv hc
        rw [hExec]
        refine (hFreed.replaced hv hc).keeps fun b hb => ?_
        simpa using hSpares b hb
  | write offset data => exact keeps_write hv hSpares
  | grow delta =>
    rw [HeapUse.perform, exec_map]
    exact keeps_grow hv delta

theorem grows_use (h : Heap) (c : HeapUse) : h.memory.Grows (exec c.perform h).2.memory := by
  cases c with
  | alloc size align =>
    rw [HeapUse.perform, exec_map, allocate, exec_update]
    cases hAlloc : h.alloc? size align with
    | error r => exact .refl _
    | ok found => exact alloc?_grows hAlloc
  | free addr =>
    rw [HeapUse.perform, exec_release]
    cases hFree : h.free? addr with
    | error r => exact .refl _
    | ok h' => exact free?_memory hFree ▸ .refl _
  | write offset data =>
    rw [HeapUse.perform, exec_change]
    cases hWrite : h.memory.write offset data with
    | error r => exact .refl _
    | ok m => exact Memory.grows_write hWrite
  | grow delta =>
    rw [HeapUse.perform, exec_map, growPages, exec_bind_ok (exec_get h)]
    rcases hGrow : h.memory.grow delta with ⟨_ | m, previous⟩
    · exact .refl _
    · exact Memory.grows_grow hGrow

theorem Used.grows (hUsed : Used blocks h h₁) : h.memory.Grows h₁.memory := by
  induction hUsed with
  | refl => exact .refl _
  | use c _ _ ih => exact ih.trans (grows_use _ c)

theorem Used.keeps (hv : h.Valid) (hUsed : Used blocks h h₁) : Keeps blocks h h₁ := by
  induction hUsed with
  | refl => exact .refl hv
  | use c _ hSpares ih => exact ih.trans (keeps_use ih.valid hSpares)

end Heap

end Marshal
