import Mathlib.Data.List.Perm.Basic
import Marshal.Proofs.Heap.Steps

/-! # Replacing blocks

`Replaced h old new h'` says that `h'` has the blocks at `new` in place of those at `old`; every other live
block is still there with the same bytes. Allocating, freeing, and writing into a block are of this form,
and so is every sequence of them.
-/
set_option autoImplicit false
namespace Marshal
namespace Heap

open Step

def addrs (h : Heap) : List UInt32 := h.live.map Block.addr

theorem mem_addrs_iff {h : Heap} {addr : UInt32} : addr ∈ h.addrs ↔ ∃ b ∈ h.live, b.addr = addr :=
  List.mem_map

structure Replaced (h : Heap) (old new : List UInt32) (h' : Heap) : Prop where
  valid : h'.Valid
  live : (h'.addrs ++ old).Perm (new ++ h.addrs)
  kept : ∀ b ∈ h.live, b.addr ∉ old → b ∈ h'.live ∧ ∀ i, b.extent.Has i → h'.memory.byte i = h.memory.byte i

namespace Replaced

variable {h h₁ h₂ : Heap} {old new : List UInt32}

theorem refl (hv : h.Valid) : Replaced h [] [] h :=
  ⟨hv, by simp, fun _ hb _ => ⟨hb, fun _ _ => rfl⟩⟩

theorem frame (hr : Replaced h old new h₁) (same : List UInt32) :
    Replaced h (same ++ old) (same ++ new) h₁ := by
  refine ⟨hr.valid, ?_, ?_⟩
  · calc
      h₁.addrs ++ (same ++ old) |>.Perm (same ++ (h₁.addrs ++ old)) := List.perm_append_comm_assoc ..
      _ |>.Perm (same ++ (new ++ h.addrs)) := hr.live.append_left same
      _ |>.Perm (same ++ new ++ h.addrs) := by rw [List.append_assoc]
  · intro b hb hOld
    exact hr.kept b hb fun hMem => hOld (List.mem_append_right same hMem)

theorem same (hv : h.Valid) (blocks : List UInt32) : Replaced h blocks blocks h := by
  simpa using (refl hv).frame blocks

theorem perm {old' new' : List UInt32} (hr : Replaced h old new h₁) (hOld : old.Perm old') (hNew : new.Perm new') :
    Replaced h old' new' h₁ := by
  refine ⟨hr.valid, ?_, fun b hb hApart => hr.kept b hb fun hMem => hApart (hOld.mem_iff.mp hMem)⟩
  exact (hOld.symm.append_left h₁.addrs).trans (hr.live.trans (hNew.append_right h.addrs))

theorem not_mem_new (hr : Replaced h old new h₁) {addr : UInt32} (hLive : addr ∈ h.addrs)
    (hOld : addr ∉ old) : addr ∉ new := by
  intro hNew
  have hCount := hr.live.count_eq addr
  have hOnce : h₁.addrs.count addr ≤ 1 := List.nodup_iff_count_le_one.mp hr.valid.live_addr_nodup addr
  have hBefore : 0 < h.addrs.count addr := List.count_pos_iff.mpr hLive
  have hAfter : 0 < new.count addr := List.count_pos_iff.mpr hNew
  rw [List.count_append, List.count_append, List.count_eq_zero_of_not_mem hOld] at hCount
  omega

theorem trans {mid old' : List UInt32} (hr : Replaced h old mid h₁)
    (hr' : Replaced h₁ (mid ++ old') new h₂) : Replaced h (old ++ old') new h₂ := by
  refine ⟨hr'.valid, ?_, ?_⟩
  · -- the blocks in between cancel
    have hPerm : (mid ++ (h₂.addrs ++ (old ++ old'))).Perm (mid ++ (new ++ h.addrs)) := by
      calc
        mid ++ (h₂.addrs ++ (old ++ old')) |>.Perm (h₂.addrs ++ (mid ++ old') ++ old) := by
          refine (List.perm_append_comm_assoc ..).trans ?_
          rw [List.append_assoc, List.append_assoc]
          have hSwap : (old ++ old').Perm (old' ++ old) := List.perm_append_comm
          exact (hSwap.append_left mid).append_left _
        _ |>.Perm (new ++ h₁.addrs ++ old) := hr'.live.append_right old
        _ |>.Perm (new ++ (mid ++ h.addrs)) := by
          rw [List.append_assoc]
          exact hr.live.append_left new
        _ |>.Perm (mid ++ (new ++ h.addrs)) := List.perm_append_comm_assoc ..
    exact (List.perm_append_left_iff mid).mp hPerm
  · intro b hb hOld
    have hFirst : b.addr ∉ old := fun hMem => hOld (List.mem_append_left old' hMem)
    have hNew : b.addr ∉ mid := hr.not_mem_new (List.mem_map_of_mem hb) hFirst
    obtain ⟨hb₁, hBytes₁⟩ := hr.kept b hb hFirst
    obtain ⟨hb₂, hBytes₂⟩ := hr'.kept b hb₁ (by
      rw [List.mem_append]
      rintro (hMem | hMem)
      · exact hNew hMem
      · exact hOld (List.mem_append_right old hMem))
    exact ⟨hb₂, fun i hi => (hBytes₂ i hi).trans (hBytes₁ i hi)⟩

end Replaced

variable {h h' : Heap}

theorem Allocated.replaced {size align addr : UInt32} (ha : Allocated h size align addr h') :
    Replaced h [] [addr] h' := by
  refine ⟨ha.valid, ?_, ?_⟩
  · rw [addrs, ha.live, List.append_nil]
    exact List.Perm.refl _
  · intro b hb _
    exact ⟨ha.live ▸ List.mem_cons_of_mem _ hb, ha.kept b hb⟩

theorem Freed.replaced (hv : h.Valid) {b : Block} (hb : b ∈ h.live) (hf : Freed h b h') :
    Replaced h [b.addr] [] h' := by
  refine ⟨hf.valid, ?_, ?_⟩
  · rw [addrs, hf.live, hv.filter_eq_erase hb]
    have hPerm := (List.perm_cons_erase hb).map Block.addr
    exact (List.perm_append_comm.trans hPerm.symm)
  · intro c hc hOld
    refine ⟨?_, fun i _ => by rw [hf.memory]⟩
    rw [hf.live]
    exact List.mem_filter.mpr ⟨hc, by simpa using hOld⟩

theorem replaced_of_write (hv : h.Valid) {b : Block} (hb : b ∈ h.live) {offset : Nat} {data : List UInt8}
    (hFits : offset + data.length ≤ b.capacity.toNat) :
    Replaced h [b.addr] [b.addr]
      { h with memory := h.memory.overwrite (b.addr.toNat + offset) data.toArray } := by
  refine ⟨hv.setMemory rfl rfl, List.perm_append_comm, ?_⟩
  intro c hc hOld
  refine ⟨hc, ?_⟩
  intro i hi
  have hApart := hv.apart_of_ne hc hb (by simpa using hOld)
  simp only [Extent.Apart, Extent.Has, Block.extent] at hApart hi
  exact Memory.overwrite_outside _ (by omega)

def blockAt (addr : UInt32) : List UInt32 := if addr = 0 then [] else [addr]

theorem blockAt_of_ne {addr : UInt32} (hNull : addr ≠ 0) : blockAt addr = [addr] := if_neg hNull

theorem exec_release_blockAt (hv : h.Valid) {addr : UInt32} (hLive : ∀ a ∈ blockAt addr, a ∈ h.addrs) :
    ∃ h', exec (release addr) h = (.ok (), h') ∧ Replaced h (blockAt addr) [] h' ∧ h'.memory = h.memory := by
  by_cases hNull : addr = 0
  · rw [hNull]
    exact ⟨h, exec_release_null h, .refl hv, rfl⟩
  · rw [blockAt_of_ne hNull] at hLive ⊢
    obtain ⟨b, hb, rfl⟩ := mem_addrs_iff.mp (hLive addr List.mem_cons_self)
    obtain ⟨h', hExec, hFreed⟩ := exec_release_live hv hb
    exact ⟨h', hExec, hFreed.replaced hv hb, hFreed.memory⟩

theorem Replaced.live_perm (hv : h.Valid) (gone came : List Block)
    (hr : Replaced h (gone.map Block.addr) (came.map Block.addr) h') (hGone : ∀ b ∈ gone, b ∈ h.live)
    (hCame : ∀ b ∈ came, b ∈ h'.live) (hApart : ∀ b ∈ gone, b.addr ∉ came.map Block.addr) :
    (h'.live ++ gone).Perm (came ++ h.live) := by
  have hNodup : (h'.addrs ++ gone.map Block.addr).Nodup := by
    refine List.nodup_iff_count_le_one.mpr fun a => ?_
    have hBefore : h.addrs.count a ≤ 1 := List.nodup_iff_count_le_one.mp hv.live_addr_nodup a
    have hAfter : h'.addrs.count a ≤ 1 := List.nodup_iff_count_le_one.mp hr.valid.live_addr_nodup a
    have hCount := hr.live.count_eq a
    by_cases hNew : a ∈ came.map Block.addr
    · have hOld : a ∉ gone.map Block.addr := by
        intro hMem
        obtain ⟨b, hb, rfl⟩ := List.mem_map.mp hMem
        exact hApart b hb hNew
      rwa [List.count_append, List.count_eq_zero_of_not_mem hOld]
    · rwa [hCount, List.count_append, List.count_eq_zero_of_not_mem hNew, Nat.zero_add]
  have hBlocks : ((h'.live ++ gone).map Block.addr).Nodup := by rwa [List.map_append]
  have hBlocks' : ((came ++ h.live).map Block.addr).Nodup := by
    rw [List.map_append]
    exact hr.live.nodup_iff.mp hNodup
  refine (List.perm_ext_iff_of_nodup hBlocks.of_map hBlocks'.of_map).mpr fun b => ?_
  rw [List.mem_append, List.mem_append]
  constructor
  · rintro (hb | hb)
    · have hAddr : b.addr ∈ came.map Block.addr ++ h.addrs :=
        hr.live.mem_iff.mp (List.mem_append_left _ (List.mem_map_of_mem hb))
      rcases List.mem_append.mp hAddr with hNew | hKept
      · obtain ⟨c, hc, hEq⟩ := List.mem_map.mp hNew
        exact .inl (hr.valid.live_ext (hCame c hc) hb hEq ▸ hc)
      · obtain ⟨c, hc, hEq⟩ := mem_addrs_iff.mp hKept
        have hOld : c.addr ∉ gone.map Block.addr :=
          List.disjoint_of_nodup_append hNodup (hEq ▸ List.mem_map_of_mem hb)
        exact .inr (hr.valid.live_ext (hr.kept c hc hOld).1 hb hEq ▸ hc)
    · exact .inr (hGone b hb)
  · rintro (hb | hb)
    · exact .inl (hCame b hb)
    · by_cases hOld : b.addr ∈ gone.map Block.addr
      · obtain ⟨c, hc, hEq⟩ := List.mem_map.mp hOld
        exact .inr (hv.live_ext (hGone c hc) hb hEq ▸ hc)
      · exact .inl (hr.kept b hb hOld).1

/-- The block that a copy of the data takes; empty data takes none. -/
def copyBlock (ptr : UInt32) (data : List UInt8) : List Block :=
  if data = [] then [] else [⟨ptr, sizeClass (asked data.length.toUInt32), asked data.length.toUInt32⟩]

/-- The heap has a copy of the data at the address. -/
structure Holds (h : Heap) (ptr : UInt32) (data : List UInt8) : Prop where
  addrs : (copyBlock ptr data).map Block.addr = blockAt ptr
  live : ∀ b ∈ copyBlock ptr data, b ∈ h.live
  room : ∀ b ∈ copyBlock ptr data, data.length ≤ b.capacity.toNat
  contents : h.memory.slice ptr.toNat data.length = data

namespace Holds

variable {ptr : UInt32} {data : List UInt8}

theorem block (ptr : UInt32) (hNil : data ≠ []) :
    ⟨ptr, sizeClass (asked data.length.toUInt32), asked data.length.toUInt32⟩ ∈ copyBlock ptr data := by
  rw [copyBlock, if_neg hNil]
  exact List.mem_singleton_self _

theorem addr_live (hh : h.Holds ptr data) : ∀ a ∈ blockAt ptr, a ∈ h.addrs := by
  intro a ha
  rw [← hh.addrs] at ha
  obtain ⟨b, hb, rfl⟩ := List.mem_map.mp ha
  exact List.mem_map_of_mem (hh.live b hb)

theorem fits (hh : h.Holds ptr data) (hv : h.Valid) : ptr.toNat + data.length ≤ h.memory.bytes := by
  by_cases hNil : data = []
  · subst hNil
    have hNull : ptr = 0 := by
      by_contra hNe
      have hNone := hh.addrs
      rw [blockAt_of_ne hNe] at hNone
      cases hNone
    rw [hNull]
    exact Nat.zero_le _
  · have hb := block ptr hNil
    exact Nat.le_trans (Nat.add_le_add_left (hh.room _ hb) _) (hv.live_bytes (hh.live _ hb))

theorem length_toNat (hh : h.Holds ptr data) (hv : h.Valid) : data.length.toUInt32.toNat = data.length := by
  have hFits := hh.fits hv
  have hLimit := hv.bytes_le
  exact Nat.mod_eq_of_lt (by omega)

theorem exec_readBytes (hh : h.Holds ptr data) (hv : h.Valid) :
    exec (readBytes ptr data.length.toUInt32) h = (.ok data, h) := by
  have hLength := hh.length_toNat hv
  rw [Heap.exec_readBytes (by rw [hLength]; exact hh.fits hv), hLength, hh.contents]

end Holds

/-- A copy of the data has come into the heap; everything else is as it was. -/
structure Copied (h : Heap) (data : List UInt8) (ptr : UInt32) (h' : Heap) : Prop extends h'.Holds ptr data where
  replaced : Replaced h [] (blockAt ptr) h'

theorem exec_allocateBytes_cases (hv : h.Valid) (data : List UInt8) :
    (∃ why h', exec (allocateBytes data) h = (.error (.refused why), h') ∧ Replaced h [] [] h' ∧
        (data.length < 2 ^ 32 → h.Refuses data.length.toUInt32 1)) ∨
      ∃ ptr h', exec (allocateBytes data) h = (.ok ptr, h') ∧ Copied h data ptr h' := by
  unfold allocateBytes
  split
  · rename_i hEmpty
    obtain rfl := List.isEmpty_iff.mp hEmpty
    exact .inr ⟨0, h, rfl, ⟨rfl, List.forall_mem_nil _, List.forall_mem_nil _, rfl⟩, .refl hv⟩
  rename_i hSome
  rcases exec_allocate_cases hv data.length.toUInt32 1 with ⟨r, hAlloc⟩ | ⟨addr, h₁, hAlloc, ha⟩
  · exact .inl ⟨_, h, exec_bind_error hAlloc, .refl hv, fun _ => ⟨r, hAlloc⟩⟩
  let b : Block := ⟨addr, sizeClass (asked data.length.toUInt32), asked data.length.toUInt32⟩
  have hb : b ∈ h₁.live := ha.live ▸ List.mem_cons_self
  have hNull : addr ≠ 0 := ha.valid.live_addr_ne_zero hb
  have hBytes : addr.toNat + b.capacity.toNat ≤ h₁.memory.bytes := ha.valid.live_bytes hb
  rw [exec_bind_ok hAlloc]
  by_cases hLength : data.length < 2 ^ 32
  · have hRoom : 0 + data.length ≤ b.capacity.toNat := by
      have hAsked := le_asked data.length.toUInt32
      rw [UInt32.toNat_ofNat_of_lt' hLength] at hAsked
      exact Nat.zero_add _ ▸ Nat.le_trans hAsked ha.holds
    have hWrite : exec (change fun m => m.write addr data) h₁ =
        (.ok (), { h₁ with memory := h₁.memory.overwrite addr.toNat data.toArray }) := exec_write (by omega)
    have hBlock : copyBlock addr data = [b] := if_neg fun hNil => hSome (List.isEmpty_iff.mpr hNil)
    refine .inr ⟨addr, _, exec_bind_ok (exec_tryCatch_ok hWrite), ⟨?_, ?_, ?_, ?_⟩, ?_⟩
    · rw [hBlock, blockAt_of_ne hNull]
      rfl
    · rw [hBlock]
      exact List.forall_mem_singleton.mpr hb
    · rw [hBlock]
      exact List.forall_mem_singleton.mpr (by omega)
    · exact h₁.memory.slice_overwrite_self addr.toNat data
    · rw [blockAt_of_ne hNull]
      exact ha.replaced.trans (replaced_of_write ha.valid hb hRoom)
  · -- the length was cut to 32 bits, but the memory is never so large
    have hFar : ¬ addr.toNat + data.length ≤ h₁.memory.bytes := by
      have hLimit := ha.valid.bytes_le
      omega
    have hWrite : exec (change fun m => m.write addr data) h₁ =
        (.error (.refused (.report (Memory.outOfBounds "write" addr data.length.toUInt32))), h₁) := by
      rw [exec_change, Memory.write, if_neg hFar]
    obtain ⟨h₂, hRelease, hFreed⟩ := exec_release_live ha.valid hb
    refine .inl ⟨_, h₂, exec_bind_error ((exec_tryCatch_error hWrite).trans (exec_bind_ok hRelease)), ?_,
      fun hShort => absurd hShort hLength⟩
    exact ha.replaced.trans (hFreed.replaced ha.valid hb)

theorem Copied.given_back {h₂ h₃ : Heap} {data : List UInt8} {ptr : UInt32} {new : List UInt32}
    (hc : Copied h data ptr h') (hr : Replaced h' [] new h₂) (hBack : Replaced h₂ (blockAt ptr) [] h₃) :
    Replaced h [] new h₃ := by
  have hCame : Replaced h [] (blockAt ptr ++ new) h₂ := hc.replaced.trans (hr.frame (blockAt ptr))
  have hSwap : (new ++ blockAt ptr).Perm (blockAt ptr ++ new ++ []) := by
    rw [List.append_nil]
    exact List.perm_append_comm
  have hKept : Replaced h₂ (blockAt ptr ++ new ++ []) new h₃ :=
    (hBack.frame new).perm hSwap (by rw [List.append_nil])
  exact hCame.trans hKept

def Cramped (h : Heap) (n : Nat) : Prop :=
  ∃ new h₁ size align, new.length ≤ n ∧ Replaced h [] new h₁ ∧ h₁.Refuses size align

theorem Refuses.cramped (hv : h.Valid) {size align : UInt32} (hRefuses : h.Refuses size align) (n : Nat) :
    h.Cramped n :=
  ⟨[], h, size, align, Nat.zero_le n, .refl hv, hRefuses⟩

theorem Copied.cramped {data : List UInt8} {ptr : UInt32} (hc : Copied h data ptr h') {n : Nat}
    (hCramped : h'.Cramped n) : h.Cramped (n + 1) := by
  obtain ⟨new, h₁, size, align, hFew, hr, hRefuses⟩ := hCramped
  have hBoth : Replaced h [] (blockAt ptr ++ new) h₁ := hc.replaced.trans (hr.frame (blockAt ptr))
  have hOne : (blockAt ptr).length ≤ 1 := by
    unfold blockAt
    split <;> simp
  refine ⟨_, h₁, size, align, ?_, hBoth, hRefuses⟩
  rw [List.length_append]
  omega

end Heap

end Marshal
