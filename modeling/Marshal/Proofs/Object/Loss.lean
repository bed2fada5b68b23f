import Marshal.Proofs.Object.Lookup

/-! # What is lost with an object

Dropping objects takes their entries, frees their blocks, notes the guests' destructors in the journal and tells
the observers. `Table.Loses` says all of this at once of two tables, so that what a nested drop costs is the sum of
what its parts cost. Whether an element may be missing or borrowed depends on why it is dropped, and is left open
here.
-/
set_option autoImplicit false
namespace Marshal

open Step

variable {V : Type}

def Object.deeds : Object V → List (Deed (Object V))
  | guest value => [.destroyed (guest value)]
  | _ => []

def Entry.farewell (e : Entry V) : Event V :=
  { kind := .dropped, addr := e.addr, typeId := e.typeId, value := some e.value }

def Entries.deeds (es : Entries V) : List (Deed (Object V)) := es.flatMap fun e => e.value.deeds

def Entries.farewells (es : Entries V) : List (Event (Object V)) := es.map Entry.farewell

/-- Objects that leave a table, blocks that are freed, and what is noted and told. -/
structure Loss (V : Type) where
  entries : Entries V := []
  blocks : List UInt32 := []
  deeds : List (Deed (Object V)) := []
  events : List (Event (Object V)) := []

namespace Loss

instance : Append (Loss V) :=
  ⟨fun l l' => ⟨l.entries ++ l'.entries, l.blocks ++ l'.blocks, l.deeds ++ l'.deeds, l.events ++ l'.events⟩⟩

def of (es : Entries V) : Loss V := ⟨es, es.blocks, es.deeds, es.farewells⟩

/-- The objects go, and the blocks and the deeds of an object that has left the table already. -/
def under (v : Object V) (es : Entries V) : Loss V :=
  ⟨es, v.blocks ++ es.blocks, v.deeds ++ es.deeds, es.farewells⟩

theorem of_append (es es' : Entries V) : of (es ++ es') = of es ++ of es' := by
  show of (es ++ es') = ⟨es ++ es', es.blocks ++ es'.blocks, es.deeds ++ es'.deeds, es.farewells ++ es'.farewells⟩
  simp [of, Entries.blocks, Entries.deeds, Entries.farewells]

/-- The order is of no account. -/
structure Perm (l l' : Loss V) : Prop where
  entries : l.entries.Perm l'.entries
  blocks : l.blocks.Perm l'.blocks
  deeds : l.deeds.Perm l'.deeds
  events : l.events.Perm l'.events

theorem perm_of {es es' : Entries V} (hPerm : es.Perm es') : (of es).Perm (of es') :=
  ⟨hPerm, hPerm.flatMap_right _, hPerm.flatMap_right _, hPerm.map _⟩

theorem perm_cons (e : Entry (Object V)) (es : Entries V) :
    ({ entries := [e], blocks := [e.addr] } ++ under e.value es ++ { events := [e.farewell] }).Perm (of (e :: es)) := by
  refine ⟨?_, ?_, ?_, List.perm_append_comm⟩
  · exact .of_eq (List.append_nil _)
  · exact .of_eq (List.append_nil _)
  · exact .of_eq (List.append_nil _)

theorem perm_under (v : Object V) (es : Entries V) : (of es ++ under v []).Perm (under v es) := by
  refine ⟨.of_eq (List.append_nil _), ?_, ?_, .of_eq (List.append_nil _)⟩
  · show (es.blocks ++ (v.blocks ++ [])).Perm (v.blocks ++ es.blocks)
    rw [List.append_nil]
    exact List.perm_append_comm
  · show (es.deeds ++ (v.deeds ++ [])).Perm (v.deeds ++ es.deeds)
    rw [List.append_nil]
    exact List.perm_append_comm

end Loss

namespace Table

/-- Every live block belongs to an object or is spare, and every vector fits its block. -/
structure Accounted (t : Table (Object V)) (spare : List UInt32) : Prop where
  valid : t.heap.Valid
  cells : t.heap.addrs.Perm (spare ++ Entries.blocks t.store.entries)
  fits : ∀ e ∈ t.store.entries, e.value.Fits t.heap

structure Loses (t : Table (Object V)) (l : Loss V) (t' : Table (Object V)) : Prop where
  entries : t.store.entries.Perm (l.entries ++ t'.store.entries)
  heap : Heap.Replaced t.heap l.blocks [] t'.heap
  memory : t'.heap.memory = t.heap.memory
  journal : ∃ deeds, t'.journal = t.journal ++ deeds ∧ deeds.Perm l.deeds
  told : ∃ events, t'.observers = t.observers.map (fun (id, seen) => (id, seen ++ events)) ∧ events.Perm l.events
  closed : t'.closed = t.closed ∧ t'.store.closed = t.store.closed

variable {t t₁ t₂ : Table (Object V)} {l l' : Loss V} {spare old new : List UInt32} {e : Entry (Object V)}

theorem Sound.accounted {types : List Text} {titles : List Title} {leaks : List UInt32}
    (hs : t.Sound types titles leaks spare) : t.Accounted spare :=
  ⟨hs.accounts.valid, hs.accounts.cells, hs.accounts.fits⟩

theorem Accounted.blocks_nodup (ht : t.Accounted spare) : (spare ++ Entries.blocks t.store.entries).Nodup :=
  ht.cells.nodup_iff.mp ht.valid.live_addr_nodup

theorem Accounted.addrs_nodup (ht : t.Accounted spare) : (Entries.addrs t.store.entries).Nodup :=
  (List.nodup_append.mp ht.blocks_nodup).2.1.sublist (Entries.addrs_sublist_blocks _)

theorem Accounted.spare_live (ht : t.Accounted (old ++ spare)) : ∀ a ∈ old, a ∈ t.heap.addrs := by
  intro a ha
  exact ht.cells.mem_iff.mpr (List.mem_append_left _ (List.mem_append_left _ ha))

theorem Accounted.exchange (ht : t.Accounted spare) {spare' : List UInt32} (kept : List UInt32)
    (hr : Heap.Replaced t.heap old new t₁.heap) (hOld : (spare ++ Entries.blocks t.store.entries).Perm (old ++ kept))
    (hNew : (spare' ++ Entries.blocks t₁.store.entries).Perm (new ++ kept))
    (hFits : ∀ e ∈ t₁.store.entries, e.value.Fits t₁.heap ∨ e.value.Fits t.heap ∧ ∀ a ∈ e.value.blocks, a ∈ kept) :
    t₁.Accounted spare' := by
  obtain ⟨-, -, hApart⟩ := List.nodup_append.mp (hOld.nodup_iff.mp ht.blocks_nodup)
  refine ⟨hr.valid, List.perm_iff_count.mpr fun a => ?_, fun e he => ?_⟩
  · have hLive := hr.live.count_eq a
    have hCells := ht.cells.count_eq a
    have hBefore := hOld.count_eq a
    have hAfter := hNew.count_eq a
    simp only [List.count_append] at *
    omega
  · rcases hFits e he with hNow | ⟨hBefore, hKept⟩
    · exact hNow
    · refine (Object.replaced hBefore hr (fun a ha hGone => hApart a hGone a (hKept a ha) rfl) fun hZero => ?_).1
      have hMem := hOld.mem_iff.mpr (List.mem_append_left kept hZero)
      exact Accounts.zero_not_live ht.valid (ht.cells.mem_iff.mpr hMem)

namespace Loses

theorem refl (hv : t.heap.Valid) : t.Loses (.of []) t := by
  refine ⟨.refl _, .refl hv, rfl, ⟨[], (List.append_nil _).symm, .refl _⟩, ⟨[], ?_, .refl _⟩, rfl, rfl⟩
  simp

theorem trans (hl : t.Loses l t₁) (hl' : t₁.Loses l' t₂) : t.Loses (l ++ l') t₂ := by
  obtain ⟨deeds, hJournal, hDeeds⟩ := hl.journal
  obtain ⟨deeds', hJournal', hDeeds'⟩ := hl'.journal
  obtain ⟨events, hTold, hEvents⟩ := hl.told
  obtain ⟨events', hTold', hEvents'⟩ := hl'.told
  refine ⟨?_, hl.heap.trans hl'.heap, hl'.memory.trans hl.memory, ⟨deeds ++ deeds', ?_, hDeeds.append hDeeds'⟩,
    ⟨events ++ events', ?_, hEvents.append hEvents'⟩, hl'.closed.1.trans hl.closed.1,
    hl'.closed.2.trans hl.closed.2⟩
  · show t.store.entries.Perm (l.entries ++ l'.entries ++ t₂.store.entries)
    rw [List.append_assoc]
    exact hl.entries.trans (hl'.entries.append_left l.entries)
  · rw [hJournal', hJournal, List.append_assoc]
  · rw [hTold', hTold, List.map_map]
    simp [Function.comp_def]

theorem of_trans {es es' : Entries V} (hl : t.Loses (.of es) t₁) (hl' : t₁.Loses (.of es') t₂) :
    t.Loses (.of (es ++ es')) t₂ := by
  rw [Loss.of_append]
  exact hl.trans hl'

theorem perm (hl : t.Loses l t₁) (hp : l.Perm l') : t.Loses l' t₁ := by
  obtain ⟨deeds, hJournal, hDeeds⟩ := hl.journal
  obtain ⟨events, hTold, hEvents⟩ := hl.told
  refine ⟨hl.entries.trans (hp.entries.append_right _), ⟨hl.heap.valid, ?_, ?_⟩, hl.memory,
    ⟨deeds, hJournal, hDeeds.trans hp.deeds⟩, ⟨events, hTold, hEvents.trans hp.events⟩, hl.closed⟩
  · exact (hp.blocks.append_left _).symm.trans hl.heap.live
  · intro b hb hNot
    exact hl.heap.kept b hb fun hMem => hNot (hp.blocks.mem_iff.mp hMem)

theorem told_self (hv : t.heap.Valid) (event : Event (Object V)) : t.Loses { events := [event] } (t.told event) :=
  ⟨.refl _, .refl hv, rfl, ⟨[], (List.append_nil _).symm, .refl _⟩, ⟨_, rfl, .refl _⟩, rfl, rfl⟩

theorem mem (hl : t.Loses l t₁) (he : e ∈ t₁.store.entries) : e ∈ t.store.entries :=
  hl.entries.mem_iff.mpr (List.mem_append_right _ he)

/-- Blocks that were freed with no object come from the spare ones, and those of a lost object that were not freed
are spare from here on. -/
theorem accounted (hl : t.Loses l t₁) (old new : List UInt32) (ht : t.Accounted (old ++ spare))
    (hBlocks : (old ++ Entries.blocks l.entries).Perm (l.blocks ++ new)) : t₁.Accounted (new ++ spare) := by
  have hEntries : (Entries.blocks t.store.entries).Perm
      (Entries.blocks l.entries ++ Entries.blocks t₁.store.entries) := by
    refine (hl.entries.flatMap_right _).trans ?_
    rw [Entries.blocks, Entries.blocks, ← List.flatMap_append]
  refine ht.exchange (new ++ spare ++ Entries.blocks t₁.store.entries) hl.heap ?_ (.refl _) ?_
  · refine List.perm_iff_count.mpr fun a => ?_
    have hSplit := hEntries.count_eq a
    have hLost := hBlocks.count_eq a
    simp only [List.count_append] at hSplit hLost ⊢
    omega
  · intro e he
    refine .inr ⟨ht.fits e (hl.mem he), fun a ha => List.mem_append_right _ ?_⟩
    exact List.mem_flatMap.mpr ⟨e, he, List.mem_cons_of_mem _ ha⟩

theorem of_accounted {es : Entries V} (hl : t.Loses (.of es) t₁) (ht : t.Accounted spare) : t₁.Accounted spare := by
  have hBlocks : ([] ++ es.blocks).Perm (es.blocks ++ []) := by simp
  exact hl.accounted [] [] ht hBlocks

end Loses

/-! ## Dropping one object -/

def isFree (t : Table (Object V)) (addr : UInt32) : Bool :=
  match t.store.entry? addr with
  | some e => !e.isBorrowed
  | none => false

theorem isFree_eq_true_iff {addr : UInt32} :
    t.isFree addr = true ↔ ∃ e, t.store.entry? addr = some e ∧ e.isBorrowed = false := by
  unfold isFree
  cases t.store.entry? addr <;> simp

theorem exec_detach_unfree {addr : UInt32} (hNot : t.isFree addr = false) :
    ∃ r, exec (detach addr) t = (.error (.refused (.report r)), t) := by
  rcases exec_detach_cases addr t with ⟨r, hExec, -⟩ | ⟨e, hFound, hIdle, -⟩
  · exact ⟨r, hExec⟩
  · cases hNot.symm.trans (isFree_eq_true_iff.mpr ⟨e, hFound, hIdle⟩)

theorem exec_detach_loses (ht : t.Accounted spare) (hFound : t.store.entry? e.addr = some e)
    (hIdle : e.isBorrowed = false) :
    ∃ t₁, exec (detach e.addr) t = (.ok e, t₁) ∧ t.Loses { entries := [e], blocks := [e.addr] } t₁ ∧
      t₁.Accounted (e.value.blocks ++ spare) := by
  obtain ⟨he, -⟩ := Store.entry?_eq_some hFound
  have hCell : e.addr ∈ Entries.blocks t.store.entries := List.mem_flatMap.mpr ⟨e, he, List.mem_cons_self⟩
  obtain ⟨b, hb, hAddr⟩ := Heap.mem_addrs_iff.mp (ht.cells.mem_iff.mpr (List.mem_append_right _ hCell))
  obtain ⟨h, hRelease, hFreed⟩ := Heap.exec_release_live ht.valid hb
  have hr := hFreed.replaced ht.valid hb
  rw [hAddr] at hRelease hr
  have hLoses : t.Loses { entries := [e], blocks := [e.addr] } { t with heap := h, store := t.store.erase e.addr } := by
    refine ⟨perm_cons_filter Entry.addr ht.addrs_nodup he, hr, hFreed.memory, ⟨[], (List.append_nil _).symm, .refl _⟩,
      ⟨[], ?_, .refl _⟩, rfl, rfl⟩
    simp
  refine ⟨_, exec_detach_idle hFound hIdle hRelease, hLoses, hLoses.accounted [] e.value.blocks ht ?_⟩
  simp [Entries.blocks]

theorem exec_remove_loses {destroy : Object V → Step (Table (Object V)) Unit} {gone : Entries V}
    (hDetach : exec (detach e.addr) t = (.ok e, t₁)) (hl : t.Loses { entries := [e], blocks := [e.addr] } t₁)
    (hDestroy : exec (destroy e.value) t₁ = (.ok (), t₂)) (hl' : t₁.Loses (.under e.value gone) t₂) :
    exec (remove destroy e.addr) t = (.ok e.value, t₂.told e.farewell) ∧
      t.Loses (.of (e :: gone)) (t₂.told e.farewell) := by
  refine ⟨(exec_bind_ok hDetach).trans (exec_bind_ok hDestroy), ?_⟩
  exact ((hl.trans hl').trans (.told_self hl'.heap.valid _)).perm (Loss.perm_cons e gone)

end Table

/-! ## Destructors -/

namespace Object

variable {t : Table (Object V)} {spare : List UInt32}

theorem loses_release {v : Object V} {x : Step Heap Unit} {h : Heap} (hDeeds : v.deeds = [])
    (hExec : exec x t.heap = (.ok (), h)) (hr : Heap.Replaced t.heap v.blocks [] h)
    (hMemory : h.memory = t.heap.memory) :
    exec (Table.onHeap x) t = (.ok (), { t with heap := h }) ∧ t.Loses (.under v []) { t with heap := h } := by
  refine ⟨by rw [Table.exec_onHeap, hExec], .refl _, ?_, hMemory, ⟨[], (List.append_nil _).symm, ?_⟩,
    ⟨[], by simp, .refl _⟩, rfl, rfl⟩
  · show Heap.Replaced t.heap (v.blocks ++ []) [] h
    rwa [List.append_nil]
  · show [].Perm (v.deeds ++ [])
    rw [hDeeds]
    exact .refl _

/-- A vector's destructor that goes through its elements. -/
def Nests (depth : Nat) (v : Object V) : Prop := ∃ d buf, depth = d + 1 ∧ v = refVector buf

theorem exec_destroy_loses (closing : Bool) {depth : Nat} {v : Object V} (hPlain : ¬ v.Nests depth)
    (ht : t.Accounted (v.blocks ++ spare)) :
    ∃ t', exec (destroy closing depth v) t = (.ok (), t') ∧ t.Loses (.under v []) t' := by
  have hLive := ht.spare_live
  cases v with
  | guest value =>
    rw [destroy]
    refine ⟨{ t with journal := t.journal ++ [.destroyed (guest value)] }, rfl, ?_⟩
    exact ⟨.refl _, .refl ht.valid, rfl, ⟨_, rfl, .refl _⟩, ⟨[], by simp, .refl _⟩, rfl, rfl⟩
  | callback label =>
    rw [destroy]
    exact ⟨t, rfl, .refl ht.valid⟩
  | string ptr len =>
    rw [destroy]
    obtain ⟨h, hExec, hr, hMemory⟩ := Heap.exec_release_blockAt ht.valid hLive
    split
    · rename_i hNull
      subst hNull
      exact ⟨t, rfl, .refl ht.valid⟩
    · exact ⟨_, loses_release rfl hExec hr hMemory⟩
  | vector elem buf =>
    rw [destroy]
    obtain ⟨h, hExec, hr, hMemory⟩ := Buffer.exec_discard ht.valid hLive
    exact ⟨_, loses_release rfl hExec hr hMemory⟩
  | refVector buf =>
    cases depth with
    | zero =>
      rw [destroy]
      obtain ⟨h, hExec, hr, hMemory⟩ := Buffer.exec_discard ht.valid hLive
      exact ⟨_, loses_release rfl hExec hr hMemory⟩
    | succ d => exact absurd ⟨d, buf, rfl, rfl⟩ hPlain

theorem exec_destroy_nested {closing : Bool} {depth : Nat} {buf : Buffer} {gone : Entries V}
    {t₁ : Table (Object V)} (ht : t.Accounted (buf.blocks ++ spare))
    (hDrop : exec (dropElements (dropOwned closing (Table.remove (destroy closing depth))) buf
      (List.range buf.len.toNat)) t = (.ok (), t₁)) (hl : t.Loses (.of gone) t₁) :
    ∃ t', exec (destroy closing (depth + 1) (refVector buf)) t = (.ok (), t') ∧
      t.Loses (.under (refVector buf) gone) t' := by
  have ht₁ := hl.of_accounted ht
  obtain ⟨h, hExec, hr, hMemory⟩ := Buffer.exec_discard ht₁.valid ht₁.spare_live
  obtain ⟨hDiscard, hl'⟩ := loses_release (v := refVector buf) rfl hExec hr hMemory
  refine ⟨_, ?_, (hl.trans hl').perm (Loss.perm_under _ gone)⟩
  rw [destroy]
  exact (exec_bind_ok hDrop).trans hDiscard

/-- One round of the loop over the elements of a vector that has left the table. The slots are read from the memory
as it was at first, which dropping does not write to. -/
theorem exec_dropElements_cons {drop : UInt32 → Step (Table (Object V)) Unit} {buf : Buffer} {h : Heap} (hv : h.Valid)
    (hFits : buf.Fits h .u32) (hMemory : t.heap.memory = h.memory) {i : Nat} (hi : i < buf.len.toNat)
    (rest : List Nat) :
    exec (dropElements drop buf (i :: rest)) t =
      exec (drop (buf.word h.memory .u32 i).toUInt32 >>= fun _ => dropElements drop buf rest) t := by
  have hIndex : i.toUInt32.toNat = i := UInt32.toNat_ofNat_of_lt' (Nat.lt_trans hi buf.len.toNat_lt)
  have hRead : exec (Table.onHeap (buf.get? .u32 i.toUInt32)) t =
      (.ok (some (.u32 (buf.word h.memory .u32 i).toUInt32)), t) := by
    rw [Table.exec_onHeap, Buffer.exec_get?_memory hMemory,
      Buffer.exec_get?_address hv hFits (by rw [hIndex]; exact hi), hIndex]
  rw [dropElements, exec_bind_ok hRead]

end Object

end Marshal
