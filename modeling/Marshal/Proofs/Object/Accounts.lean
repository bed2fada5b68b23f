import Marshal.Owner.Basic
import Marshal.Proofs.Object.Buffer

/-! # Who owns what

The accounts of a heap and its boxed objects say where every live block and every object belongs. A block is
the cell of an object, the storage of one, or spare: it belongs to whoever is at work. An object is owned by
a title held outside, or by a slot of a vector of objects, or it has leaked. Both are said as permutations, so
nothing is owned twice and nothing is forgotten.

Titles and slots are typed: the object at their address is of the declared type. A type's number is its
place in the list of declared names, so it stands for one name as long as the list is short enough.
-/
set_option autoImplicit false
namespace Marshal

structure Title where
  addr : UInt32
  typeName : Text

def typeNumber (types : List Text) (name : Text) : UInt32 := (types.findIdx (· = name) + 1).toUInt32

theorem typeNumber_inj {types : List Text} (hFew : types.length < 2 ^ 32) {a b : Text} (ha : a ∈ types)
    (hb : b ∈ types) (hEq : typeNumber types a = typeNumber types b) : a = b := by
  have hIndex : ∀ c ∈ types, types.findIdx (· = c) < types.length := by
    intro c hc
    exact List.findIdx_lt_length_of_exists ⟨c, hc, by simp⟩
  have hNat := congrArg UInt32.toNat hEq
  have hLtA := hIndex a ha
  have hLtB := hIndex b hb
  rw [typeNumber, typeNumber, UInt32.toNat_ofNat_of_lt' (show _ < 2 ^ 32 by omega),
    UInt32.toNat_ofNat_of_lt' (show _ < 2 ^ 32 by omega)] at hNat
  have hFoundA : types[types.findIdx (· = a)] = a := by simpa using List.findIdx_getElem (w := hLtA)
  have hFoundB : types[types.findIdx (· = b)] = b := by simpa using List.findIdx_getElem (w := hLtB)
  rw [← hFoundA, ← hFoundB]
  congr 1
  omega

theorem vecTypeName_inj {a b : Text} (h : vecTypeName a = vecTypeName b) : a = b :=
  List.append_cancel_left h

theorem perm_cons_filter {α κ : Type} [DecidableEq κ] (key : α → κ) {l : List α} {x : α}
    (hNodup : (l.map key).Nodup) (hx : x ∈ l) : l.Perm (x :: l.filter (key · ≠ key x)) := by
  induction l with
  | nil => cases hx
  | cons y ys ih =>
    obtain ⟨hFresh, hNodup⟩ := List.nodup_cons.mp hNodup
    rcases List.mem_cons.mp hx with rfl | hx
    · have hRest : ys.filter (key · ≠ key x) = ys := by
        refine List.filter_eq_self.mpr fun z hz => ?_
        have hNe : key z ≠ key x := fun hEq => hFresh (hEq ▸ List.mem_map_of_mem hz)
        simpa using hNe
      rw [List.filter_cons_of_neg (by simp), hRest]
    · have hNe : key y ≠ key x := fun hEq => hFresh (hEq ▸ List.mem_map_of_mem hx)
      rw [List.filter_cons_of_pos (by simpa using hNe)]
      exact ((ih hNodup hx).cons y).trans (List.Perm.swap ..)

namespace Object

variable {V : Type}

def blocks : Object V → List UInt32
  | string ptr _ => Heap.blockAt ptr
  | vector _ buf => buf.blocks
  | refVector buf => buf.blocks
  | _ => []

def slots (m : Memory) : Object V → List UInt32
  | refVector buf => (buf.words m .u32).map Nat.toUInt32
  | _ => []

def Fits (h : Heap) : Object V → Prop
  | vector s buf => buf.Fits h s
  | refVector buf => buf.Fits h .u32
  | _ => True

/-- The object may be boxed with that type: a vector of objects has the type of its elements'. -/
def Suits (types : List Text) (id : UInt32) (elem : Text) : Object V → Prop
  | refVector _ => elem ∈ types ∧ vecTypeName elem ∈ types ∧ id = typeNumber types (vecTypeName elem)
  | _ => True

theorem replaced {h h' : Heap} {old new : List UInt32} {v : Object V} (hFits : v.Fits h)
    (hr : Heap.Replaced h old new h') (hApart : ∀ a ∈ v.blocks, a ∉ old) (hZero : (0 : UInt32) ∉ old) :
    v.Fits h' ∧ v.slots h'.memory = v.slots h.memory := by
  have hBuffer : ∀ {buf : Buffer}, (∀ a ∈ buf.blocks, a ∉ old) → buf.addr ∉ old := by
    intro buf hBlocks
    by_cases hAddr : buf.addr = 0
    · rw [hAddr]
      exact hZero
    · exact hBlocks buf.addr (by rw [Buffer.blocks_of_ne hAddr]; exact List.mem_cons_self)
  cases v with
  | vector s buf => exact ⟨(Buffer.Fits.replaced hFits hr (hBuffer hApart)).1, rfl⟩
  | refVector buf =>
    obtain ⟨hFits', hWords⟩ := Buffer.Fits.replaced hFits hr (hBuffer hApart)
    exact ⟨hFits', congrArg (List.map Nat.toUInt32) hWords⟩
  | guest _ => exact ⟨trivial, rfl⟩
  | string _ _ => exact ⟨trivial, rfl⟩
  | callback _ => exact ⟨trivial, rfl⟩

end Object

abbrev Entries (V : Type) := List (Entry (Object V))

namespace Entries

variable {V : Type}

def addrs (es : Entries V) : List UInt32 := es.map Entry.addr

def blocks (es : Entries V) : List UInt32 := es.flatMap fun e => e.addr :: e.value.blocks

def slots (m : Memory) (es : Entries V) : List UInt32 := es.flatMap fun e => e.value.slots m

def HasType (es : Entries V) (addr id : UInt32) : Prop := ∃ e ∈ es, e.addr = addr ∧ e.typeId = id

theorem addrs_sublist_blocks (es : Entries V) : es.addrs.Sublist es.blocks := by
  induction es with
  | nil => exact .slnil
  | cons e es ih =>
    exact (ih.trans (List.sublist_append_right e.value.blocks _)).cons_cons _

variable {addr id : UInt32} {es : Entries V}

theorem HasType.of_cons {e : Entry (Object V)}
    (h : HasType (e :: es) addr id) (hNe : addr ≠ e.addr) : es.HasType addr id := by
  obtain ⟨e', he', hAddr, hId⟩ := h
  rcases List.mem_cons.mp he' with rfl | he'
  · exact absurd hAddr.symm hNe
  · exact ⟨e', he', hAddr, hId⟩

theorem HasType.cons (h : es.HasType addr id) (e : Entry (Object V)) : HasType (e :: es) addr id := by
  obtain ⟨e', he', hBoth⟩ := h
  exact ⟨e', List.mem_cons_of_mem e he', hBoth⟩

theorem HasType.perm {es es' : Entries V} (hPerm : es.Perm es') (h : es.HasType addr id) : es'.HasType addr id := by
  obtain ⟨e, he, hBoth⟩ := h
  exact ⟨e, hPerm.mem_iff.mp he, hBoth⟩

theorem HasType.setValue {e : Entry (Object V)}
    (h : HasType (e :: es) addr id) (v : Object V) : HasType ({ e with value := v } :: es) addr id := by
  obtain ⟨e', he', hBoth⟩ := h
  rcases List.mem_cons.mp he' with rfl | he'
  · exact ⟨_, List.mem_cons_self, hBoth⟩
  · exact ⟨e', List.mem_cons_of_mem _ he', hBoth⟩

end Entries

def titlesOf (elem : Text) (addrs : List UInt32) : List Title := addrs.map fun a => ⟨a, elem⟩

@[simp] theorem map_addr_titlesOf (elem : Text) (addrs : List UInt32) :
    (titlesOf elem addrs).map Title.addr = addrs := by
  rw [titlesOf, List.map_map]
  exact List.map_id _

theorem mem_titlesOf {elem : Text} {addrs : List UInt32} {w : Title} :
    w ∈ titlesOf elem addrs ↔ w.addr ∈ addrs ∧ w.typeName = elem := by
  constructor
  · intro hw
    obtain ⟨a, ha, rfl⟩ := List.mem_map.mp hw
    exact ⟨ha, rfl⟩
  · rintro ⟨ha, rfl⟩
    exact List.mem_map.mpr ⟨w.addr, ha, rfl⟩

/-- The accounts of a heap with objects boxed in it. -/
structure Accounts {V : Type} (types : List Text) (h : Heap) (es : Entries V) (titles : List Title)
    (leaks spare : List UInt32) : Prop where
  few : types.length < 2 ^ 32
  valid : h.Valid
  /-- Where every live block belongs. -/
  cells : h.addrs.Perm (spare ++ es.blocks)
  /-- Who owns every object. -/
  owners : es.addrs.Perm (titles.map Title.addr ++ es.slots h.memory ++ leaks)
  fits : ∀ e ∈ es, e.value.Fits h
  named : ∀ e ∈ es, ∃ name ∈ types, e.typeId = typeNumber types name
  titled : ∀ w ∈ titles, w.typeName ∈ types ∧ es.HasType w.addr (typeNumber types w.typeName)
  slotted : ∀ e ∈ es, ∃ elem, e.value.Suits types e.typeId elem ∧
    ∀ a ∈ e.value.slots h.memory, es.HasType a (typeNumber types elem)

namespace Accounts

variable {V : Type} {types : List Text} {h h' : Heap} {es es' : Entries V} {titles titles' : List Title}
  {leaks spare spare' : List UInt32}

theorem perm_entries (ha : Accounts types h es titles leaks spare) (hPerm : es.Perm es') :
    Accounts types h es' titles leaks spare where
  few := ha.few
  valid := ha.valid
  cells := ha.cells.trans ((hPerm.flatMap_right _).append_left spare)
  owners := (hPerm.map _).symm.trans (ha.owners.trans
    (((hPerm.flatMap_right _).append_left (titles.map Title.addr)).append_right leaks))
  fits e he := ha.fits e (hPerm.mem_iff.mpr he)
  named e he := ha.named e (hPerm.mem_iff.mpr he)
  titled w hw := ⟨(ha.titled w hw).1, (ha.titled w hw).2.perm hPerm⟩
  slotted e he := by
    obtain ⟨elem, hSuits, hSlots⟩ := ha.slotted e (hPerm.mem_iff.mpr he)
    exact ⟨elem, hSuits, fun a hMem => (hSlots a hMem).perm hPerm⟩

theorem perm_titles (ha : Accounts types h es titles leaks spare) (hPerm : titles.Perm titles') :
    Accounts types h es titles' leaks spare where
  few := ha.few
  valid := ha.valid
  cells := ha.cells
  owners := ha.owners.trans (((hPerm.map _).append_right _).append_right leaks)
  fits := ha.fits
  named := ha.named
  titled w hw := ha.titled w (hPerm.mem_iff.mpr hw)
  slotted := ha.slotted

theorem leak {w : Title} (ha : Accounts types h es (w :: titles) leaks spare) :
    Accounts types h es titles (w.addr :: leaks) spare where
  few := ha.few
  valid := ha.valid
  cells := ha.cells
  owners := by
    refine ha.owners.trans (List.perm_iff_count.mpr fun a => ?_)
    simp only [List.map_cons, List.cons_append, List.count_append, List.count_cons]
    omega
  fits := ha.fits
  named := ha.named
  titled w' hw := ha.titled w' (List.mem_cons_of_mem w hw)
  slotted := ha.slotted

theorem cells_nodup (ha : Accounts types h es titles leaks spare) : (spare ++ es.blocks).Nodup :=
  ha.cells.nodup_iff.mp ha.valid.live_addr_nodup

theorem addrs_nodup (ha : Accounts types h es titles leaks spare) : es.addrs.Nodup :=
  (List.nodup_append.mp ha.cells_nodup).2.1.sublist es.addrs_sublist_blocks

theorem owners_nodup (ha : Accounts types h es titles leaks spare) :
    (titles.map Title.addr ++ es.slots h.memory ++ leaks).Nodup :=
  ha.owners.nodup_iff.mp ha.addrs_nodup

theorem spare_live (ha : Accounts types h es titles leaks spare) {a : UInt32} (hMem : a ∈ spare) :
    a ∈ h.addrs :=
  ha.cells.mem_iff.mpr (List.mem_append_left _ hMem)

theorem block_live (ha : Accounts types h es titles leaks spare) {a : UInt32} (hMem : a ∈ es.blocks) :
    a ∈ h.addrs :=
  ha.cells.mem_iff.mpr (List.mem_append_right _ hMem)

theorem zero_not_live (hv : h.Valid) : (0 : UInt32) ∉ h.addrs := by
  intro hZero
  obtain ⟨b, hb, hAddr⟩ := Heap.mem_addrs_iff.mp hZero
  exact hv.live_addr_ne_zero hb hAddr

theorem addr_live (ha : Accounts types h es titles leaks spare) {e : Entry (Object V)} (he : e ∈ es) :
    e.addr ∈ h.addrs :=
  ha.block_live (List.mem_flatMap.mpr ⟨e, he, List.mem_cons_self⟩)

theorem addr_ne_zero (ha : Accounts types h es titles leaks spare) {e : Entry (Object V)} (he : e ∈ es) :
    e.addr ≠ 0 := by
  intro hZero
  exact zero_not_live ha.valid (hZero ▸ ha.addr_live he)

theorem replaceSpare {old new : List UInt32} (ha : Accounts types h es titles leaks (old ++ spare))
    (hr : Heap.Replaced h old new h') : Accounts types h' es titles leaks (new ++ spare) := by
  have hApart : ∀ a ∈ es.blocks, a ∉ old := by
    intro a hBlock hOld
    have hNodup := ha.cells_nodup
    rw [List.append_assoc] at hNodup
    exact (List.nodup_append.mp hNodup).2.2 a hOld a (List.mem_append_right _ hBlock) rfl
  have hZero : (0 : UInt32) ∉ old := fun hOld =>
    zero_not_live ha.valid (ha.spare_live (List.mem_append_left _ hOld))
  have hSame : ∀ e ∈ es, e.value.Fits h' ∧ e.value.slots h'.memory = e.value.slots h.memory := by
    intro e he
    refine Object.replaced (ha.fits e he) hr (fun a hBlock => hApart a ?_) hZero
    exact List.mem_flatMap.mpr ⟨e, he, List.mem_cons_of_mem _ hBlock⟩
  have hSlots : es.slots h'.memory = es.slots h.memory := by
    unfold Entries.slots
    exact List.flatMap_congr fun e he => (hSame e he).2
  refine ⟨ha.few, hr.valid, ?_, hSlots ▸ ha.owners, fun e he => (hSame e he).1, ha.named, ha.titled, ?_⟩
  · refine List.perm_iff_count.mpr fun a => ?_
    have hReplaced := hr.live.count_eq a
    have hCells := ha.cells.count_eq a
    simp only [List.count_append] at hReplaced hCells ⊢
    omega
  · intro e he
    rw [(hSame e he).2]
    exact ha.slotted e he

theorem gainSpare {new : List UInt32} (ha : Accounts types h es titles leaks spare)
    (hr : Heap.Replaced h [] new h') : Accounts types h' es titles leaks (new ++ spare) :=
  replaceSpare (show Accounts types h es titles leaks ([] ++ spare) from ha) hr

theorem exec_release {addr : UInt32} (ha : Accounts types h es titles leaks (Heap.blockAt addr ++ spare)) :
    ∃ h', Step.exec (Heap.release addr) h = (.ok (), h') ∧ Accounts types h' es titles leaks spare ∧
      h'.memory = h.memory := by
  obtain ⟨h', hExec, hReplaced, hMemory⟩ := Heap.exec_release_blockAt ha.valid fun a hMem =>
    ha.spare_live (List.mem_append_left spare hMem)
  exact ⟨h', hExec, ha.replaceSpare hReplaced, hMemory⟩

variable {e : Entry (Object V)}

variable {elem : Text}

theorem slots_typed (ha : Accounts types h es titles leaks spare) (he : e ∈ es)
    (hSuits : e.value.Suits types e.typeId elem) :
    ∀ a ∈ e.value.slots h.memory, elem ∈ types ∧ es.HasType a (typeNumber types elem) := by
  obtain ⟨elem', hSuits', hSlots⟩ := ha.slotted e he
  intro a hMem
  have hTyped := hSlots a hMem
  cases hValue : e.value with
  | refVector buf =>
    rw [hValue] at hSuits hSuits'
    obtain ⟨hElem, hVec, hId⟩ := hSuits
    obtain ⟨_, hVec', hId'⟩ := hSuits'
    have hSame := vecTypeName_inj (typeNumber_inj ha.few hVec hVec' (hId.symm.trans hId'))
    exact ⟨hElem, hSame ▸ hTyped⟩
  | guest _ => simp [hValue, Object.slots] at hMem
  | string _ _ => simp [hValue, Object.slots] at hMem
  | vector _ _ => simp [hValue, Object.slots] at hMem
  | callback _ => simp [hValue, Object.slots] at hMem

theorem takeOut {w : Title} (ha : Accounts types h (e :: es) (w :: titles) leaks spare)
    (hAddr : w.addr = e.addr) : ∃ elem, Accounts types h es
      (titlesOf elem (e.value.slots h.memory) ++ titles) leaks (e.addr :: e.value.blocks ++ spare) := by
  obtain ⟨elem, hSuits, _⟩ := ha.slotted e List.mem_cons_self
  have hOld := ha.slots_typed List.mem_cons_self hSuits
  have hNodup := ha.owners_nodup
  simp only [List.map_cons, hAddr, List.cons_append, List.append_assoc, List.nodup_cons] at hNodup
  obtain ⟨hOnce, -⟩ := hNodup
  -- the object taken out is owned by nobody else
  have hTitle : ∀ w' ∈ titles, w'.addr ≠ e.addr := by
    intro w' hw hEq
    exact hOnce (List.mem_append_left _ (hEq ▸ List.mem_map_of_mem hw))
  have hSlot : ∀ a ∈ Entries.slots h.memory (e :: es), a ≠ e.addr := by
    intro a hMem hEq
    exact hOnce (List.mem_append_right _ (List.mem_append_left _ (hEq ▸ hMem)))
  refine ⟨elem, ha.few, ha.valid, ?_, ?_, fun e' he => ha.fits e' (List.mem_cons_of_mem e he),
    fun e' he => ha.named e' (List.mem_cons_of_mem e he), ?_, ?_⟩
  · refine ha.cells.trans (List.perm_iff_count.mpr fun a => ?_)
    simp only [Entries.blocks, List.flatMap_cons, List.cons_append, List.count_append, List.count_cons]
    omega
  · have hOwners := ha.owners
    rw [List.map_cons, hAddr] at hOwners
    have hRest : es.addrs.Perm
        (titles.map Title.addr ++ Entries.slots h.memory (e :: es) ++ leaks) := hOwners.cons_inv
    refine hRest.trans (List.perm_iff_count.mpr fun a => ?_)
    simp only [Entries.slots, List.flatMap_cons, List.map_append, map_addr_titlesOf, List.count_append]
    omega
  · intro w' hw
    rcases List.mem_append.mp hw with hw | hw
    · obtain ⟨hMem, rfl⟩ := mem_titlesOf.mp hw
      obtain ⟨hName, hType⟩ := hOld w'.addr hMem
      exact ⟨hName, hType.of_cons (hSlot w'.addr (List.mem_append_left _ hMem))⟩
    · obtain ⟨hName, hType⟩ := ha.titled w' (List.mem_cons_of_mem w hw)
      exact ⟨hName, hType.of_cons (hTitle w' hw)⟩
  · intro e' he
    obtain ⟨elem', hSuits', hSlots'⟩ := ha.slotted e' (List.mem_cons_of_mem e he)
    refine ⟨elem', hSuits', ?_⟩
    intro a hMem
    refine (hSlots' a hMem).of_cons (hSlot a (List.mem_append_right _ ?_))
    exact List.mem_flatMap.mpr ⟨e', he, hMem⟩

theorem putIn {name elem : Text} (ha : Accounts types h es titles leaks (e.addr :: e.value.blocks ++ spare))
    (hName : name ∈ types) (hId : e.typeId = typeNumber types name) (hFits : e.value.Fits h)
    (hSlots : e.value.slots h.memory = []) (hSuits : e.value.Suits types e.typeId elem) :
    Accounts types h (e :: es) (⟨e.addr, name⟩ :: titles) leaks spare := by
  refine ⟨ha.few, ha.valid, ?_, ?_, ?_, ?_, ?_, ?_⟩
  · refine ha.cells.trans (List.perm_iff_count.mpr fun a => ?_)
    simp only [Entries.blocks, List.flatMap_cons, List.cons_append, List.count_append, List.count_cons]
    omega
  · have hAll : Entries.slots h.memory (e :: es) = es.slots h.memory := by
      rw [Entries.slots, List.flatMap_cons, hSlots]
      rfl
    rw [hAll]
    exact ha.owners.cons e.addr
  · intro e' he
    rcases List.mem_cons.mp he with rfl | he
    · exact hFits
    · exact ha.fits e' he
  · intro e' he
    rcases List.mem_cons.mp he with rfl | he
    · exact ⟨name, hName, hId⟩
    · exact ha.named e' he
  · intro w hw
    rcases List.mem_cons.mp hw with rfl | hw
    · exact ⟨hName, e, List.mem_cons_self, rfl, hId⟩
    · exact ⟨(ha.titled w hw).1, (ha.titled w hw).2.cons e⟩
  · intro e' he
    rcases List.mem_cons.mp he with rfl | he
    · exact ⟨elem, hSuits, by simp [hSlots]⟩
    · obtain ⟨elem', hSuits', hSlots'⟩ := ha.slotted e' he
      exact ⟨elem', hSuits', fun a hMem => (hSlots' a hMem).cons e⟩

theorem exchange {v : Object V}
    (ha : Accounts types h (e :: es) (titlesOf elem (v.slots h.memory) ++ titles) leaks (v.blocks ++ spare))
    (hOld : e.value.Suits types e.typeId elem) (hNew : v.Suits types e.typeId elem) (hFits : v.Fits h) :
    Accounts types h ({ e with value := v } :: es) (titlesOf elem (e.value.slots h.memory) ++ titles) leaks
      (e.value.blocks ++ spare) := by
  have hTyped := ha.slots_typed List.mem_cons_self hOld
  refine ⟨ha.few, ha.valid, ?_, ?_, ?_, ?_, ?_, ?_⟩
  · refine ha.cells.trans (List.perm_iff_count.mpr fun a => ?_)
    simp only [Entries.blocks, List.flatMap_cons, List.cons_append, List.count_append, List.count_cons]
    omega
  · refine ha.owners.trans (List.perm_iff_count.mpr fun a => ?_)
    simp only [Entries.slots, List.flatMap_cons, List.map_append, map_addr_titlesOf, List.count_append]
    omega
  · intro e' he
    rcases List.mem_cons.mp he with rfl | he
    · exact hFits
    · exact ha.fits e' (List.mem_cons_of_mem e he)
  · intro e' he
    rcases List.mem_cons.mp he with rfl | he
    · exact ha.named e List.mem_cons_self
    · exact ha.named e' (List.mem_cons_of_mem e he)
  · intro w hw
    rcases List.mem_append.mp hw with hw | hw
    · obtain ⟨hMem, rfl⟩ := mem_titlesOf.mp hw
      exact ⟨(hTyped w.addr hMem).1, (hTyped w.addr hMem).2.setValue v⟩
    · obtain ⟨hName, hType⟩ := ha.titled w (List.mem_append_right _ hw)
      exact ⟨hName, hType.setValue v⟩
  · intro e' he
    rcases List.mem_cons.mp he with rfl | he
    · refine ⟨elem, hNew, fun a hMem => ?_⟩
      exact (ha.titled ⟨a, elem⟩ (List.mem_append_left _ (mem_titlesOf.mpr ⟨hMem, rfl⟩))).2.setValue v
    · obtain ⟨elem', hSuits', hSlots'⟩ := ha.slotted e' (List.mem_cons_of_mem e he)
      exact ⟨elem', hSuits', fun a hMem => (hSlots' a hMem).setValue v⟩

/-- An object gets another value, with its blocks changed on the way. Of the objects owned outside, those in
`gained` pass to the object and those in `lost` come back from it. -/
theorem revalue {v : Object V} {gained lost : List Title}
    (ha : Accounts types h (e :: es) (gained ++ titles) leaks spare) (hOld : e.value.Suits types e.typeId elem)
    (hNew : v.Suits types e.typeId elem) (hr : Heap.Replaced h e.value.blocks v.blocks h') (hFits : v.Fits h')
    (hSlots : (titlesOf elem (e.value.slots h.memory) ++ gained).Perm
      (titlesOf elem (v.slots h'.memory) ++ lost)) :
    Accounts types h' ({ e with value := v } :: es) (lost ++ titles) leaks spare := by
  -- a value that owns nothing stands in while the blocks change
  let hollow : Object V := .callback []
  have hOut : Accounts types h ({ e with value := hollow } :: es)
      (titlesOf elem (e.value.slots h.memory) ++ (gained ++ titles)) leaks (e.value.blocks ++ spare) :=
    exchange (v := hollow) ha hOld trivial trivial
  have hTitles : (titlesOf elem (e.value.slots h.memory) ++ (gained ++ titles)).Perm
      (titlesOf elem (v.slots h'.memory) ++ (lost ++ titles)) := by
    rw [← List.append_assoc, ← List.append_assoc]
    exact hSlots.append_right titles
  exact exchange (v := v) ((hOut.replaceSpare hr).perm_titles hTitles) trivial hNew hFits

end Accounts

end Marshal
