import Marshal.Proofs.Heap.Shared
import Marshal.Proofs.Owner.Access

/-! # Objects and their blocks

Every object has a cell, and its value may have blocks besides; no two of them share one, and the rest of the
heap is anybody's. Creating an object takes new blocks and dropping it frees just its own, so all the other
blocks stay as they are, whoever they belong to. Where every object has its owner, whoever creates one owns it.
-/
set_option autoImplicit false
namespace Marshal

open Step

namespace Entries

variable {V : Type} {h h' : Heap} {es es' : Entries V} {old new kept : List UInt32}

structure Lodged (h : Heap) (es : Entries V) : Prop where
  valid : h.Valid
  cells : ∃ spare, h.addrs.Perm (spare ++ es.blocks)

namespace Lodged

theorem perm (hl : es.Lodged h) (hPerm : es.Perm es') : es'.Lodged h := by
  obtain ⟨spare, hCells⟩ := hl.cells
  exact ⟨hl.valid, spare, hCells.trans ((hPerm.flatMap_right _).append_left spare)⟩

theorem blocks_nodup (hl : es.Lodged h) : es.blocks.Nodup := by
  obtain ⟨spare, hCells⟩ := hl.cells
  exact (List.nodup_append.mp (hCells.nodup_iff.mp hl.valid.live_addr_nodup)).2.1

theorem addrs_nodup (hl : es.Lodged h) : es.addrs.Nodup := hl.blocks_nodup.sublist es.addrs_sublist_blocks

theorem live (hl : es.Lodged h) {a : UInt32} (ha : a ∈ es.blocks) : a ∈ h.addrs := by
  obtain ⟨spare, hCells⟩ := hl.cells
  exact hCells.mem_iff.mpr (List.mem_append_right spare ha)

theorem addr_live (hl : es.Lodged h) {e : Entry (Object V)} (he : e ∈ es) : e.addr ∈ h.addrs :=
  hl.live (List.mem_flatMap.mpr ⟨e, he, List.mem_cons_self⟩)

theorem live_without_cell (hl : es.Lodged h) {e : Entry (Object V)} (he : e ∈ es)
    (hr : Heap.Replaced h [e.addr] [] h') : ∀ a ∈ e.value.blocks, a ∈ h'.addrs := by
  intro a ha
  have hOnce : (e.addr :: e.value.blocks).Nodup := (List.nodup_flatMap.mp hl.blocks_nodup).1 e he
  obtain ⟨c, hc, rfl⟩ := Heap.mem_addrs_iff.mp (hl.live (List.mem_flatMap.mpr ⟨e, he, List.mem_cons_of_mem _ ha⟩))
  have hNe : c.addr ∉ [e.addr] := by
    rw [List.mem_singleton]
    rintro hEq
    exact (List.nodup_cons.mp hOnce).1 (hEq ▸ ha)
  exact List.mem_map_of_mem (hr.kept c hc hNe).1

theorem exchange (hl : es.Lodged h) (hr : Heap.Replaced h old new h') (hOld : es.blocks.Perm (old ++ kept))
    (hNew : es'.blocks.Perm (new ++ kept)) : es'.Lodged h' := by
  obtain ⟨spare, hCells⟩ := hl.cells
  refine ⟨hr.valid, spare, List.perm_iff_count.mpr fun a => ?_⟩
  have hReplaced := hr.live.count_eq a
  have hBefore := hCells.count_eq a
  have hOlds := hOld.count_eq a
  have hNews := hNew.count_eq a
  simp only [List.count_append] at *
  omega

theorem of_replaced (hr : Heap.Replaced h old new h') {rest : List UInt32}
    (hOld : h.addrs.Perm (old ++ rest ++ es.blocks)) : es.Lodged h' := by
  refine ⟨hr.valid, new ++ rest, List.perm_iff_count.mpr fun a => ?_⟩
  have hReplaced := hr.live.count_eq a
  have hBefore := hOld.count_eq a
  simp only [List.count_append] at *
  omega

theorem gain (hl : es.Lodged h) (hr : Heap.Replaced h [] new h') : es.Lodged h' := by
  obtain ⟨spare, hCells⟩ := hl.cells
  exact of_replaced hr (show h.addrs.Perm ([] ++ spare ++ es.blocks) from hCells)

theorem use (hl : es.Lodged h) (c : HeapUse) (hFree : ∀ addr, c = .free addr → addr ∉ es.blocks) :
    es.Lodged (exec c.perform h).2 := by
  obtain ⟨spare, hCells⟩ := hl.cells
  have hSpares : c.Spares [] := by cases c <;> simp [HeapUse.Spares]
  have hValid := (Heap.keeps_use hl.valid hSpares).valid
  cases c with
  | alloc size align =>
    rw [HeapUse.perform, exec_map]
    rcases Heap.exec_allocate_cases hl.valid size align with ⟨r, hAlloc⟩ | ⟨addr, h₁, hAlloc, ha⟩
    · rw [hAlloc]
      exact hl
    · rw [hAlloc]
      exact hl.gain ha.replaced
  | free addr =>
    rw [HeapUse.perform]
    by_cases hLive : addr ∈ h.addrs
    · have hSpare : addr ∈ spare :=
        (List.mem_append.mp (hCells.mem_iff.mp hLive)).resolve_right (hFree addr rfl)
      obtain ⟨b, hb, rfl⟩ := Heap.mem_addrs_iff.mp hLive
      obtain ⟨h₁, hExec, hFreed⟩ := Heap.exec_release_live hl.valid hb
      rw [hExec]
      exact of_replaced (hFreed.replaced hl.valid hb)
        (hCells.trans ((List.perm_cons_erase hSpare).append_right es.blocks))
    · rw [Heap.exec_release]
      have hDead : h.block? addr = none := by
        refine List.find?_eq_none.mpr fun b hb => ?_
        have hNe : b.addr ≠ addr := fun hEq => hLive (hEq ▸ List.mem_map_of_mem hb)
        simpa using hNe
      by_cases hNull : addr = 0
      · simpa [Heap.free?, hNull] using hl
      · simpa [Heap.free?, hNull, hDead] using hl
  | write offset data =>
    refine ⟨hValid, spare, ?_⟩
    rw [HeapUse.perform, Heap.exec_change]
    cases h.memory.write offset data <;> exact hCells
  | grow delta =>
    refine ⟨hValid, spare, ?_⟩
    rw [HeapUse.perform, exec_map, Heap.growPages, exec_bind_ok (exec_get h)]
    rcases h.memory.grow delta with ⟨_ | m, previous⟩ <;> exact hCells

end Lodged

end Entries

namespace Object

variable {V : Type}

def IsPlain : Object V → Prop
  | string .. | vector .. => True
  | _ => False

theorem exec_destroy_plain {t : Table (Object V)} (hv : t.heap.Valid) {v : Object V} (hPlain : v.IsPlain)
    (hLive : ∀ a ∈ v.blocks, a ∈ t.heap.addrs) (closing : Bool) (depth : Nat) :
    ∃ h, exec (destroy closing depth v) t = (.ok (), { t with heap := h }) ∧ Heap.Replaced t.heap v.blocks [] h := by
  cases v with
  | string ptr len =>
    obtain ⟨h, hExec, hReplaced, -⟩ := Heap.exec_release_blockAt hv hLive
    refine ⟨h, ?_, hReplaced⟩
    rw [destroy]
    split
    · rename_i hNull
      rw [hNull, Heap.exec_release_null] at hExec
      obtain rfl : t.heap = h := congrArg Prod.snd hExec
      rfl
    · rw [Table.exec_onHeap, hExec]
  | vector s buf =>
    obtain ⟨h, hExec, hReplaced, -⟩ := Buffer.exec_discard hv hLive
    refine ⟨h, ?_, hReplaced⟩
    rw [destroy, Table.exec_onHeap, hExec]
  | guest _ => cases hPlain
  | refVector _ => cases hPlain
  | callback _ => cases hPlain

end Object

namespace Owner

variable {V : Type} {o : Owner V}

/-- Objects can be added, and every object has its blocks. -/
structure Lodges (o : Owner V) : Prop where
  isOpen : o.closed = false ∧ o.table.closed = false ∧ o.table.store.closed = false
  lodged : Entries.Lodged o.table.heap o.table.store.entries

theorem Lodges.withHeap (hl : o.Lodges) {new : List UInt32} {h : Heap}
    (hr : Heap.Replaced o.table.heap [] new h) : (o.withHeap h).Lodges :=
  ⟨hl.isOpen, hl.lodged.gain hr⟩

variable {name : Text}

theorem exec_box_turned (hl : o.Lodges) (hName : name ∈ o.types) (v : Object V) :
    (o.table.heap.Refuses Table.cellSize Table.cellSize ∧
        ∃ r, exec (box name v) o = (.error (.refused (.report r)), o)) ∨
      ∃ addr h o', exec (box name v) o = (.ok addr, o') ∧ Table.Boxed o.table.heap addr (typeNumber o.types name) h ∧
        o.Turned h ({ addr, typeId := typeNumber o.types name, value := v } :: o.table.store.entries) o' := by
  rw [exec_box hl.isOpen.1 hName, exec_onTable]
  rcases Table.exec_insert_boxed hl.lodged.valid hl.isOpen.2 (fun e he => hl.lodged.addr_live he)
    (typeNumber o.types name) v with ⟨hRefuses, r, hExec⟩ | ⟨addr, h, hBoxed, hExec⟩
  · exact .inl ⟨hRefuses, r, by rw [hExec]⟩
  · let t := o.table.boxedAt h addr (typeNumber o.types name) v
    exact .inr ⟨addr, h, { o with table := t.told _ }, by rw [hExec], hBoxed, ⟨rfl, .refl _, rfl, rfl⟩,
      rfl, rfl, rfl⟩

theorem turned_withHeap (o : Owner V) (h : Heap) : o.Turned h o.table.store.entries (o.withHeap h) :=
  ⟨⟨rfl, .refl _, rfl, rfl⟩, rfl, rfl, rfl⟩

/-! ## Strings -/

def stringBlocks (addr ptr : UInt32) (data : List UInt8) : List Block :=
  ⟨addr, Table.cellSize, Table.cellSize⟩ :: Heap.copyBlock ptr data

structure StringIn (h : Heap) (addr ptr : UInt32) (data : List UInt8) : Prop where
  cell : ⟨addr, Table.cellSize, Table.cellSize⟩ ∈ h.live
  text : h.Holds ptr data

namespace StringIn

variable {h h' : Heap} {addr ptr : UInt32} {data : List UInt8}

theorem live (hs : StringIn h addr ptr data) : ∀ b ∈ stringBlocks addr ptr data, b ∈ h.live :=
  List.forall_mem_cons.mpr ⟨hs.cell, hs.text.live⟩

theorem addrs (hs : StringIn h addr ptr data) :
    (stringBlocks addr ptr data).map Block.addr = addr :: Heap.blockAt ptr :=
  congrArg (addr :: ·) hs.text.addrs

theorem kept (hs : StringIn h addr ptr data) (hk : Heap.Keeps (stringBlocks addr ptr data) h h') :
    StringIn h' addr ptr data :=
  ⟨hk.live _ List.mem_cons_self hs.cell, hs.text.kept (hk.mono (List.subset_cons_self _ _))⟩

end StringIn

structure Stocked (h : Heap) (addr ptr : UInt32) (data : List UInt8) (h' : Heap) : Prop
    extends StringIn h' addr ptr data where
  replaced : Heap.Replaced h [] (addr :: Heap.blockAt ptr) h'

theorem stocked_of_boxed {h h₁ h₂ : Heap} {addr ptr id : UInt32} {data : List UInt8} (hc : Heap.Copied h data ptr h₁)
    (hBoxed : Table.Boxed h₁ addr id h₂) : Stocked h addr ptr data h₂ := by
  refine ⟨⟨hBoxed.cell.live, hc.toHolds.kept (hBoxed.replaced.keeps fun _ _ => List.not_mem_nil)⟩, ?_⟩
  have hBoth : Heap.Replaced h [] (Heap.blockAt ptr ++ [addr]) h₂ :=
    hc.replaced.trans (hBoxed.replaced.frame (Heap.blockAt ptr))
  exact hBoth.perm (.refl _) List.perm_append_comm

theorem exec_newString_refused {h₁ : Heap} {ptr : UInt32} {why : Failure} {data : List UInt8}
    (hAlloc : exec (Heap.allocateBytes data) o.table.heap = (.ok ptr, h₁)) (hc : Heap.Copied o.table.heap data ptr h₁)
    (hBox : exec (box stringType (.string ptr data.length.toUInt32)) (o.withHeap h₁) =
      (.error (.refused why), o.withHeap h₁)) :
    ∃ why h₂, exec (newString data) o = (.error (.trapped why), o.withHeap h₂) ∧
      Heap.Replaced o.table.heap [] [] h₂ := by
  obtain ⟨h₂, hRelease, hr₂, -⟩ := Heap.exec_release_blockAt hc.replaced.valid hc.addr_live
  refine ⟨.wrap .runtime .allocation why stringType, h₂, ?_, hc.replaced.trans (by rwa [List.append_nil])⟩
  refine (exec_bind_ok (exec_trapRefusal_ok (exec_onHeap hAlloc))).trans ?_
  exact (exec_bind_ok (exec_attempt_refused hBox)).trans (exec_bind_ok (exec_onHeap hRelease))

theorem exec_newString_turned (hl : o.Lodges) (hName : stringType ∈ o.types) (data : List UInt8) :
    (∃ why h, exec (newString data) o = (.error (.trapped why), o.withHeap h) ∧ Heap.Replaced o.table.heap [] [] h ∧
        (data.length < 2 ^ 32 → o.table.heap.Cramped 1)) ∨
      ∃ addr ptr h o', exec (newString data) o = (.ok addr, o') ∧ Stocked o.table.heap addr ptr data h ∧
        o.Turned h ({ addr, typeId := typeNumber o.types stringType, value := .string ptr data.length.toUInt32 } ::
          o.table.store.entries) o' := by
  have hv := hl.lodged.valid
  rcases Heap.exec_allocateBytes_cases hv data with ⟨why, h₁, hAlloc, hr₁, hRefuses⟩ | ⟨ptr, h₁, hAlloc, hc⟩
  · exact .inl ⟨_, h₁, exec_bind_error (exec_trapRefusal_refused (exec_onHeap hAlloc)), hr₁,
      fun hLength => (hRefuses hLength).cramped hv 1⟩
  rcases exec_box_turned (hl.withHeap hc.replaced) hName (.string ptr data.length.toUInt32) with
    ⟨hRefuses, r, hBox⟩ | ⟨addr, h₂, o', hBox, hBoxed, ht⟩
  · obtain ⟨why, h₂, hExec, hr⟩ := exec_newString_refused hAlloc hc hBox
    exact .inl ⟨why, h₂, hExec, hr, fun _ => hc.cramped (hRefuses.cramped hc.replaced.valid 0)⟩
  · have hText := exec_trapRefusal_ok (f := fun why => .wrap .runtime .allocation why stringType) (exec_onHeap hAlloc)
    exact .inr ⟨addr, ptr, h₂, o', (exec_bind_ok hText).trans (exec_bind_ok (exec_attempt_ok hBox)),
      stocked_of_boxed hc hBoxed, (turned_withHeap o h₁).trans ht⟩

variable {types : List Text} {exports : List (Text × Export V)} {titles : List Title}
  {leaks spare : List UInt32}

theorem Sound.lodges (hs : o.Sound types exports titles leaks spare) : o.Lodges :=
  ⟨⟨hs.isOpen, hs.table.isOpen⟩, hs.table.accounts.valid, spare, hs.table.accounts.cells⟩

theorem Sound.added {h : Heap} {o' : Owner V} {addr : UInt32} {object : Object V} {gained : List UInt32}
    (hs : o.Sound types exports titles leaks spare) (hName : name ∈ types) (elem : Text)
    (ht : o.Turned h ({ addr, typeId := typeNumber o.types name, value := object } :: o.table.store.entries) o')
    (hCell : Accounts types h o.table.store.entries titles leaks (addr :: object.blocks ++ gained))
    (hFits : object.Fits h) (hSlots : object.slots h.memory = [])
    (hSuits : object.Suits types (typeNumber types name) elem) :
    o'.Sound types exports (⟨addr, name⟩ :: titles) leaks gained := by
  rw [hs.types_eq] at ht
  refine hs.turned ht (hCell.putIn hName rfl hFits hSlots hSuits) ?_
  intro e he
  rcases List.mem_cons.mp he with rfl | he
  · exact ⟨rfl, rfl⟩
  · exact hs.table.unborrowed e he

theorem exec_box_cases (elem : Text) (object : Object V)
    (hs : o.Sound types exports titles leaks (object.blocks ++ spare)) (hName : name ∈ types)
    (hFits : ∀ h, object.Fits h) (hSlots : ∀ m, object.slots m = [])
    (hSuits : object.Suits types (typeNumber types name) elem) :
    (∃ r, exec (box name object) o = (.error (.refused (.report r)), o)) ∨
      ∃ addr o', exec (box name object) o = (.ok addr, o') ∧
        o'.Sound types exports (⟨addr, name⟩ :: titles) leaks spare := by
  rcases exec_box_turned hs.lodges (hs.types_eq ▸ hName) object with ⟨-, hRefused⟩ | ⟨addr, h, o', hExec, hBoxed, ht⟩
  · exact .inl hRefused
  · -- the cell is spare until the object is recorded in it
    have hCell := hs.table.accounts.gainSpare hBoxed.replaced
    exact .inr ⟨addr, o', hExec, hs.added hName elem ht hCell (hFits h) (hSlots h.memory) hSuits⟩

theorem exec_mustBox_cases (elem : Text) (object : Object V)
    (hs : o.Sound types exports titles leaks (object.blocks ++ spare)) (hName : name ∈ types)
    (hFits : ∀ h, object.Fits h) (hSlots : ∀ m, object.slots m = [])
    (hSuits : object.Suits types (typeNumber types name) elem) :
    (∃ why, exec (mustBox name object) o = (.error (.trapped why), o)) ∨
      ∃ addr o', exec (mustBox name object) o = (.ok addr, o') ∧
        o'.Sound types exports (⟨addr, name⟩ :: titles) leaks spare := by
  rcases exec_box_cases elem object hs hName hFits hSlots hSuits with ⟨r, hExec⟩ | ⟨addr, o', hExec, hSound⟩
  · exact .inl ⟨_, exec_trapRefusal_refused hExec⟩
  · exact .inr ⟨addr, o', exec_trapRefusal_ok hExec, hSound⟩

theorem exec_newString_cases (hs : o.Sound types exports titles leaks spare) (hName : stringType ∈ types)
    (data : List UInt8) :
    (∃ why o', exec (newString data) o = (.error (.trapped why), o') ∧
        o'.Sound types exports titles leaks spare) ∨
      ∃ addr o', exec (newString data) o = (.ok addr, o') ∧
        o'.Sound types exports (⟨addr, stringType⟩ :: titles) leaks spare := by
  rcases exec_newString_turned hs.lodges (hs.types_eq ▸ hName) data with
    ⟨why, h, hExec, hr, -⟩ | ⟨addr, ptr, h, o', hExec, hStocked, ht⟩
  · have hSpare := hs.table.accounts.gainSpare hr
    exact .inl ⟨why, _, hExec, hs.turned (turned_withHeap o h) hSpare hs.table.unborrowed⟩
  · have hSpare := hs.table.accounts.gainSpare hStocked.replaced
    exact .inr ⟨addr, o', hExec, hs.added hName [] ht hSpare trivial rfl trivial⟩

theorem exec_drop_turned (hl : o.Lodges) {e : Entry (Object V)} (he : e ∈ o.table.store.entries)
    (hFree : e.shared = 0 ∧ e.exclusive = false) (hPlain : e.value.IsPlain) :
    ∃ rest h o', exec (drop e.addr) o = (.ok (), o') ∧ o.table.store.entries.Perm (e :: rest) ∧
      Heap.Replaced o.table.heap (e.addr :: e.value.blocks) [] h ∧ o.Turned h rest o' := by
  have hNodup := hl.lodged.addrs_nodup
  have hAt := perm_cons_filter Entry.addr hNodup he
  obtain ⟨b, hb, hAddr⟩ := Heap.mem_addrs_iff.mp (hl.lodged.addr_live he)
  have hNull : e.addr ≠ 0 := hAddr ▸ hl.lodged.valid.live_addr_ne_zero hb
  obtain ⟨h₁, hRelease, hFreed⟩ := Heap.exec_release_live hl.lodged.valid hb
  have hr₁ := hFreed.replaced hl.lodged.valid hb
  rw [hAddr] at hRelease hr₁
  let t₁ : Table (Object V) := { o.table with heap := h₁, store := o.table.store.erase e.addr }
  have hDetach : exec (Table.detach e.addr) o.table = (.ok e, t₁) :=
    Table.exec_detach_idle (Store.entry?_of_mem hNodup he) (Entry.isBorrowed_of_free hFree) hRelease
  obtain ⟨h₂, hDestroy, hr₂⟩ := Object.exec_destroy_plain (t := t₁) hr₁.valid hPlain
    (hl.lodged.live_without_cell he hr₁) o.closed (o.table.store.size + 1)
  let event : Event (Object V) := { kind := .dropped, addr := e.addr, typeId := e.typeId, value := some e.value }
  have hRemove : exec (Table.remove o.destroyer e.addr) o.table =
      (.ok e.value, Table.told event { t₁ with heap := h₂ }) := by
    rw [Table.remove, exec_bind_ok hDetach]
    exact (exec_bind_ok hDestroy).trans rfl
  refine ⟨_, h₂, { o with table := Table.told event { t₁ with heap := h₂ } }, ?_, hAt, hr₁.trans hr₂,
    ⟨rfl, .refl _, rfl, rfl⟩, rfl, rfl, rfl⟩
  rw [drop, exec_bind_ok (exec_get o), exec_onTable, Object.dropWith, if_neg hNull,
    exec_bind_ok (exec_attempt_ok hRemove)]
  rfl

theorem exec_drop_absent {addr : UInt32} (hAbsent : addr ∉ Entries.addrs o.table.store.entries) :
    addr = 0 ∧ exec (drop addr) o = (.ok (), o) ∨ ∃ why, exec (drop addr) o = (.error (.trapped why), o) := by
  rw [drop, exec_bind_ok (exec_get o), exec_onTable, Object.dropWith]
  split
  · rename_i hNull
    exact .inl ⟨hNull, rfl⟩
  · have hNone := Store.entry?_eq_none hAbsent
    have hRemove : exec (Table.remove o.destroyer addr) o.table =
        (.error (.refused (.report (Store.absentReport .runtime addr))), o.table) := by
      rw [Table.remove, Table.detach]
      refine exec_bind_error (exec_bind_error ?_)
      rw [Table.exec_onStore, Store.take, hNone]
    refine .inr ⟨.report (.doubleFree .runtime addr), ?_⟩
    rw [exec_bind_ok (exec_attempt_refused hRemove)]
    simp [exec_bind_ok (exec_get o.table), Store.get?, hNone]

end Owner

end Marshal
