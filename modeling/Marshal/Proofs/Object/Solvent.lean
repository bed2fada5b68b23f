import Marshal.Proofs.Object.Cells
import Marshal.Proofs.Object.Loss

/-! # Solvent tables

A table is solvent when all its objects have their blocks. Every operation leaves it so, whether it succeeds or
stops, and however it is used: an object that has left the table and was not destroyed keeps its blocks, which
nobody will ever free, but no other object is any the worse.
-/
set_option autoImplicit false
namespace Marshal

open Step

variable {V : Type}

theorem Object.Fits.of_live {h h' : Heap} {v : Object V} (hFits : v.Fits h)
    (hLive : ∀ b ∈ h.live, b.addr ∈ v.blocks → b ∈ h'.live) : v.Fits h' := by
  have hBuffer : ∀ {s : Scalar} {buf : Buffer}, buf.Fits h s → (∀ b ∈ h.live, b.addr ∈ buf.blocks → b ∈ h'.live) →
      buf.Fits h' s := by
    intro s buf hf hKept
    refine ⟨hf.len_le, hf.cap_le, hf.unset, hf.doubled, fun hNe => ?_⟩
    obtain ⟨c, hc, hAddr, hRoom⟩ := hf.room hNe
    exact ⟨c, hKept c hc (by rw [hAddr, Buffer.blocks_of_ne hNe]; exact List.mem_cons_self), hAddr, hRoom⟩
  cases v with
  | vector s buf => exact hBuffer hFits hLive
  | refVector buf => exact hBuffer hFits hLive
  | guest _ => trivial
  | string _ _ => trivial
  | callback _ => trivial

theorem Entry.giveBack?_value {e e' : Entry V} {kind : BorrowKind} (h : e.giveBack? kind = some e') :
    e'.value = e.value := by
  cases kind with
  | shared =>
    rw [Entry.giveBack?] at h
    split at h
    · cases h
    · exact Option.some.inj h ▸ rfl
  | exclusive =>
    rw [Entry.giveBack?] at h
    split at h
    · exact Option.some.inj h ▸ rfl
    · cases h

namespace Table

/-- Objects can be added, every object has its blocks, and the loose blocks are live and belong to no object. -/
structure Solvent (loose : List UInt32) (t : Table (Object V)) : Prop where
  isOpen : t.closed = false ∧ t.store.closed = false
  accounted : ∃ spare, t.Accounted (loose ++ spare)

variable {t t₁ : Table (Object V)} {loose more : List UInt32} {e e' : Entry (Object V)} {rest : Entries V}

namespace Solvent

theorem same (hs : t.Solvent loose) (hHeap : t₁.heap = t.heap) (hStore : t₁.store = t.store)
    (hClosed : t₁.closed = t.closed) : t₁.Solvent loose := by
  obtain ⟨spare, ht⟩ := hs.accounted
  refine ⟨by rw [hClosed, hStore]; exact hs.isOpen, spare, ?_, ?_, ?_⟩
  · exact hHeap ▸ ht.valid
  · rw [hHeap, hStore]
    exact ht.cells
  · rw [hHeap, hStore]
    exact ht.fits

theorem weaken (hs : t.Solvent (more ++ loose)) : t.Solvent loose := by
  obtain ⟨spare, ht⟩ := hs.accounted
  refine ⟨hs.isOpen, more ++ spare, ht.valid, ht.cells.trans (List.Perm.append_right _ ?_), ht.fits⟩
  rw [List.append_assoc]
  exact List.perm_append_comm_assoc ..

theorem loses {l : Loss V} (more left : List UInt32) (hs : t.Solvent (more ++ loose)) (hl : t.Loses l t₁)
    (hBlocks : (more ++ Entries.blocks l.entries).Perm (l.blocks ++ left)) : t₁.Solvent (left ++ loose) := by
  obtain ⟨spare, ht⟩ := hs.accounted
  rw [List.append_assoc] at ht
  refine ⟨by rw [hl.closed.1, hl.closed.2]; exact hs.isOpen, spare, ?_⟩
  rw [List.append_assoc]
  exact hl.accounted more left ht hBlocks

theorem withHeap (old : List UInt32) {new : List UInt32} (hs : t.Solvent (old ++ loose)) {h : Heap}
    (hr : Heap.Replaced t.heap old new h) : ({ t with heap := h } : Table (Object V)).Solvent (new ++ loose) := by
  obtain ⟨spare, ht⟩ := hs.accounted
  refine ⟨hs.isOpen, spare, ht.exchange (loose ++ spare ++ Entries.blocks t.store.entries) hr ?_ ?_ ?_⟩
  · simp only [List.append_assoc]
    exact .refl _
  · simp only [List.append_assoc]
    exact .refl _
  · intro x hx
    refine .inr ⟨ht.fits x hx, fun a ha => List.mem_append_right _ ?_⟩
    exact List.mem_flatMap.mpr ⟨x, hx, List.mem_cons_of_mem _ ha⟩

theorem turned (hs : t.Solvent loose) {h : Heap} (hAt : t.store.entries.Perm (e :: rest))
    (ht : t.Turned h (e' :: rest) t₁) (hAddr : e'.addr = e.addr)
    (hr : Heap.Replaced t.heap e.value.blocks e'.value.blocks h) (hFits : e'.value.Fits h) : t₁.Solvent loose := by
  obtain ⟨spare, ha⟩ := hs.accounted
  refine ⟨by rw [ht.closed.1, ht.closed.2]; exact hs.isOpen, spare, ?_⟩
  rw [← ht.heap] at hr hFits
  have hBefore : (Entries.blocks t.store.entries).Perm (e.addr :: e.value.blocks ++ Entries.blocks rest) :=
    hAt.flatMap_right _
  have hAfter : (Entries.blocks t₁.store.entries).Perm (e.addr :: e'.value.blocks ++ Entries.blocks rest) :=
    hAddr ▸ ht.entries.flatMap_right _
  refine ha.exchange (e.addr :: (loose ++ spare ++ Entries.blocks rest)) hr ?_ ?_ ?_
  · refine (hBefore.append_left _).trans (List.perm_iff_count.mpr fun a => ?_)
    simp only [List.count_append, List.count_cons, List.cons_append]
    omega
  · refine (hAfter.append_left _).trans (List.perm_iff_count.mpr fun a => ?_)
    simp only [List.count_append, List.count_cons, List.cons_append]
    omega
  · intro x hx
    rcases List.mem_cons.mp (ht.entries.mem_iff.mp hx) with rfl | hx
    · exact .inl hFits
    · refine .inr ⟨ha.fits x (hAt.mem_iff.mpr (List.mem_cons_of_mem e hx)), fun a hMem => ?_⟩
      refine List.mem_cons_of_mem _ (List.mem_append_right _ ?_)
      exact List.mem_flatMap.mpr ⟨x, hx, List.mem_cons_of_mem _ hMem⟩

theorem valid (hs : t.Solvent loose) : t.heap.Valid := by
  obtain ⟨spare, ht⟩ := hs.accounted
  exact ht.valid

theorem addrs_nodup (hs : t.Solvent loose) : (Entries.addrs t.store.entries).Nodup := by
  obtain ⟨spare, ht⟩ := hs.accounted
  exact ht.addrs_nodup

theorem fits (hs : t.Solvent loose) : ∀ e ∈ t.store.entries, e.value.Fits t.heap := by
  obtain ⟨spare, ht⟩ := hs.accounted
  exact ht.fits

theorem loose_live (hs : t.Solvent (more ++ loose)) : ∀ a ∈ more, a ∈ t.heap.addrs := by
  obtain ⟨spare, ht⟩ := hs.accounted
  rw [List.append_assoc] at ht
  exact ht.spare_live

end Solvent

/-! ## Borrowing -/

theorem Solvent.recounted (hs : t.Solvent loose) (hAt : t.store.entries.Perm (e :: rest))
    (ht : t.Turned t.heap (e' :: rest) t₁) (hAddr : e'.addr = e.addr) (hValue : e'.value = e.value) :
    t₁.Solvent loose := by
  refine hs.turned hAt ht hAddr ?_ ?_
  · rw [hValue]
    exact .same hs.valid _
  · rw [hValue]
    exact hs.fits e (hAt.mem_iff.mpr List.mem_cons_self)

theorem Solvent.perm_of_found (hs : t.Solvent loose) {addr : UInt32} (hFound : t.store.entry? addr = some e) :
    ∃ rest, e.addr = addr ∧ t.store.entries.Perm (e :: rest) ∧ (Entries.addrs (e :: rest)).Nodup := by
  obtain ⟨he, hAddr⟩ := Store.entry?_eq_some hFound
  have hAt := perm_cons_filter Entry.addr hs.addrs_nodup he
  exact ⟨_, hAddr, hAt, (hAt.map Entry.addr).nodup_iff.mp hs.addrs_nodup⟩

theorem solvent_borrow (addr : UInt32) (kind : BorrowKind) :
    Keeps (Solvent (V := V) loose) (borrow addr kind) := by
  intro t hs
  rcases t.exec_borrow_cases addr kind with ⟨why, hExec, -⟩ | ⟨e, id, hFound, hAdmits, -⟩
  · rwa [hExec]
  · obtain ⟨rest, rfl, hAt, hNodup⟩ := hs.perm_of_found hFound
    obtain ⟨t₁, hExec, ht⟩ := exec_borrow hNodup hAt hAdmits
    rw [hExec]
    refine hs.recounted hAt ht (Entry.addr_borrow e kind) ?_
    cases kind <;> rfl

theorem solvent_giveBack (addr : UInt32) (kind : BorrowKind) :
    Keeps (Solvent (V := V) loose) (giveBack addr kind) := by
  intro t hs
  rcases t.exec_giveBack_cases addr kind with ⟨hExec, -⟩ | ⟨e, e', id, hFound, hBack, -⟩
  · rwa [hExec]
  · obtain ⟨rest, rfl, hAt, hNodup⟩ := hs.perm_of_found hFound
    obtain ⟨t₁, hExec, ht⟩ := exec_giveBack hNodup hAt hBack
    rw [hExec]
    exact hs.recounted hAt ht (Entry.giveBack?_same hBack).1 (Entry.giveBack?_value hBack)

/-! ## Boxing and taking out -/

theorem exec_insert_solvent {v : Object V} (hs : t.Solvent (v.blocks ++ loose)) (hFits : v.Fits t.heap) (id : UInt32) :
    (∃ r, exec (insert id v) t = (.error (.refused (.report r)), t)) ∨
      ∃ addr t', exec (insert id v) t = (.ok addr, t') ∧ t'.Solvent loose := by
  obtain ⟨spare, ht⟩ := hs.accounted
  have hLive : ∀ e ∈ t.store.entries, e.addr ∈ t.heap.addrs := by
    intro e he
    refine ht.cells.mem_iff.mpr (List.mem_append_right _ ?_)
    exact List.mem_flatMap.mpr ⟨e, he, List.mem_cons_self⟩
  rcases exec_insert_boxed ht.valid hs.isOpen hLive id v with ⟨-, r, hExec⟩ | ⟨addr, h, hBoxed, hExec⟩
  · exact .inl ⟨r, hExec⟩
  · refine .inr ⟨addr, _, hExec, hs.isOpen, spare,
      ht.exchange (v.blocks ++ loose ++ spare ++ Entries.blocks t.store.entries) hBoxed.replaced (.refl _) ?_ ?_⟩
    · refine List.perm_iff_count.mpr fun a => ?_
      show (loose ++ spare ++ (addr :: v.blocks ++ Entries.blocks t.store.entries)).count a = _
      simp only [List.count_append, List.count_cons, List.cons_append, List.nil_append]
      omega
    · intro e he
      rcases List.mem_cons.mp he with rfl | he
      · refine .inr ⟨hFits, fun a ha => ?_⟩
        simp [ha]
      · refine .inr ⟨ht.fits e he, fun a ha => List.mem_append_right _ ?_⟩
        exact List.mem_flatMap.mpr ⟨e, he, List.mem_cons_of_mem _ ha⟩

theorem exec_detach_solvent (hs : t.Solvent loose) (addr : UInt32) :
    (∃ r, exec (detach addr) t = (.error (.refused (.report r)), t)) ∨
      ∃ e t', exec (detach addr) t = (.ok e, t') ∧ t'.Solvent (e.value.blocks ++ loose) := by
  cases hFree : t.isFree addr with
  | false => exact .inl (exec_detach_unfree hFree)
  | true =>
    obtain ⟨e, hFound, hIdle⟩ := isFree_eq_true_iff.mp hFree
    obtain ⟨-, rfl⟩ := Store.entry?_eq_some hFound
    obtain ⟨spare, ht⟩ := hs.accounted
    obtain ⟨t', hExec, hLoses, -⟩ := exec_detach_loses ht hFound hIdle
    refine .inr ⟨e, t', hExec, hs.loses [] e.value.blocks hLoses ?_⟩
    simp [Entries.blocks]

theorem solvent_take (addr : UInt32) : Keeps (Solvent (V := V) loose) (take addr) := by
  intro t hs
  rcases exec_detach_solvent hs addr with ⟨r, hExec⟩ | ⟨e, t', hExec, hs'⟩
  · rwa [take, exec_bind_error hExec]
  · rw [take, exec_bind_ok hExec]
    exact hs'.weaken.same rfl rfl rfl

theorem solvent_remove {destroy : Object V → Step (Table (Object V)) Unit}
    (hDestroy : ∀ v t, t.Solvent (v.blocks ++ loose) → (exec (destroy v) t).2.Solvent loose) (addr : UInt32) :
    Keeps (Solvent loose) (remove destroy addr) := by
  intro t hs
  rcases exec_detach_solvent hs addr with ⟨r, hExec⟩ | ⟨e, t₁, hExec, hs₁⟩
  · rwa [remove, exec_bind_error hExec]
  · rw [remove, exec_bind_ok hExec, exec_bind]
    have hs₂ := hDestroy e.value t₁ hs₁
    generalize exec (destroy e.value) t₁ = out at hs₂ ⊢
    rcases out with ⟨stop | _, t₂⟩
    · exact hs₂
    · exact hs₂.same rfl rfl rfl

end Table

namespace Object

variable {loose : List UInt32}

theorem solvent_dropElements {remove : UInt32 → Step (Table (Object V)) (Object V)}
    (hRemove : ∀ addr, Keeps (Table.Solvent loose) (remove addr)) (closing : Bool) (buf : Buffer)
    (positions : List Nat) :
    Keeps (Table.Solvent loose) (dropElements (dropOwned closing remove) buf positions) := by
  apply keeps_dropElements (keeps_dropOwned hRemove closing)
  intro i t hs
  rw [Table.exec_onHeap, Buffer.exec_get?_state]
  exact hs

theorem exec_discard_solvent {buf : Buffer} {t : Table (Object V)} (hs : t.Solvent (buf.blocks ++ loose)) :
    ∃ t', exec (Table.onHeap buf.discard) t = (.ok (), t') ∧ t'.Solvent loose := by
  obtain ⟨h, hExec, hr, -⟩ := Buffer.exec_discard hs.valid hs.loose_live
  refine ⟨{ t with heap := h }, ?_, hs.withHeap _ hr⟩
  rw [Table.exec_onHeap, hExec]

theorem exec_destroy_solvent {closing : Bool} {depth : Nat}
    (hRemove : ∀ d, depth = d + 1 → ∀ loose addr,
      Keeps (Table.Solvent (V := V) loose) (Table.remove (destroy closing d) addr))
    (v : Object V) (t : Table (Object V)) (hs : t.Solvent (v.blocks ++ loose)) :
    (exec (destroy closing depth v) t).2.Solvent loose := by
  by_cases hNests : v.Nests depth
  · obtain ⟨d, buf, rfl, rfl⟩ := hNests
    have hElements := solvent_dropElements (hRemove d rfl (buf.blocks ++ loose)) closing buf (List.range buf.len.toNat)
      t hs
    rw [destroy, exec_bind]
    generalize exec (dropElements _ buf (List.range buf.len.toNat)) t = out at hElements ⊢
    rcases out with ⟨stop | _, t₁⟩
    · exact hElements.weaken
    · obtain ⟨t', hExec, hs'⟩ := exec_discard_solvent hElements
      simp only [hExec]
      exact hs'
  · obtain ⟨spare, ht⟩ := hs.accounted
    rw [List.append_assoc] at ht
    obtain ⟨t', hExec, hLoses⟩ := exec_destroy_loses closing hNests ht
    rw [hExec]
    refine hs.loses v.blocks [] hLoses ?_
    show (v.blocks ++ []).Perm (v.blocks ++ [] ++ [])
    simp

theorem solvent_remove (closing : Bool) (depth : Nat) (loose : List UInt32) (addr : UInt32) :
    Keeps (Table.Solvent (V := V) loose) (Table.remove (destroy closing depth) addr) := by
  induction depth generalizing loose addr with
  | zero =>
    apply Table.solvent_remove
    apply exec_destroy_solvent
    intro d hd
    cases hd
  | succ depth ih =>
    apply Table.solvent_remove
    apply exec_destroy_solvent
    intro d hd
    rw [← Nat.succ.inj hd]
    exact ih

theorem exec_destroy_halted {closing : Bool} {depth : Nat} {buf : Buffer} {t t' : Table (Object V)} {stop : Stop}
    (hs : t.Solvent (buf.blocks ++ loose))
    (hStop : exec (destroy closing (depth + 1) (refVector buf)) t = (.error stop, t')) :
    t'.Solvent (buf.blocks ++ loose) := by
  have hElements := solvent_dropElements (solvent_remove closing depth (buf.blocks ++ loose)) closing buf
    (List.range buf.len.toNat) t hs
  rw [destroy, exec_bind] at hStop
  generalize exec (dropElements _ buf (List.range buf.len.toNat)) t = out at hElements hStop
  rcases out with ⟨stop' | _, t₁⟩
  · cases hStop
    exact hElements
  · obtain ⟨t₂, hExec, -⟩ := exec_discard_solvent hElements
    cases hExec.symm.trans hStop

end Object

end Marshal
