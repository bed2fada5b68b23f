import Marshal.Proofs.Object.Loss

/-! # Estates

The estate of an object is the object with everything it owns, at any depth. Dropping the object drops its estate one
by one, and succeeds exactly if every address in it holds an object that is not borrowed, and no address is in it
twice. Nothing is looked at ahead: otherwise the drop stops in the middle.
-/
set_option autoImplicit false
namespace Marshal

open Step

namespace Table

variable {V α : Type} {t t₁ : Table (Object V)} {l : Loss V} {spare : List UInt32} {addr : UInt32}

def owned (t : Table (Object V)) (addr : UInt32) : List UInt32 :=
  match t.store.entry? addr with
  | some e => (e.value.slots t.heap.memory).filter (· ≠ 0)
  | none => []

def estate (t : Table (Object V)) : Nat → UInt32 → List UInt32
  | 0, addr => [addr]
  | depth + 1, addr => addr :: (t.owned addr).flatMap (t.estate depth)

/-- An object is owned by another, directly or through others. -/
inductive Reaches (t : Table (Object V)) : UInt32 → UInt32 → Prop
  | self (a : UInt32) : Reaches t a a
  | through {a b c : UInt32} (hOwned : b ∈ t.owned a) (hReaches : Reaches t b c) : Reaches t a c

def AllFree (t : Table (Object V)) (addrs : List UInt32) : Prop := addrs.Nodup ∧ ∀ a ∈ addrs, t.isFree a = true

-- one address after the other, and not by way of all words
instance (addrs : List UInt32) : Decidable (t.AllFree addrs) :=
  decidable_of_iff (addrs.Nodup ∧ addrs.all t.isFree = true) (and_congr_right' List.all_eq_true)

/-! ## Depth -/

variable {depth : Nat} {addrs : List UInt32}

theorem mem_estate_reaches {b : UInt32} (hb : b ∈ t.estate depth addr) : t.Reaches addr b := by
  induction depth generalizing addr with
  | zero =>
    obtain rfl := List.mem_singleton.mp hb
    exact .self b
  | succ depth ih =>
    rcases List.mem_cons.mp hb with rfl | hb
    · exact .self b
    · obtain ⟨c, hc, hb⟩ := List.mem_flatMap.mp hb
      exact .through hc (ih hb)

theorem estate_succ (hShort : (t.estate depth addr).length ≤ depth) :
    t.estate (depth + 1) addr = t.estate depth addr := by
  induction depth generalizing addr with
  | zero => cases hShort
  | succ depth ih =>
    refine congrArg (addr :: ·) (List.flatMap_congr fun a ha => ih ?_)
    have hPart := (List.sublist_flatten_of_mem (List.mem_map_of_mem (f := t.estate depth) ha)).length_le
    rw [estate, List.length_cons, List.flatMap_def] at hShort
    omega

theorem AllFree.length_le (hFree : t.AllFree addrs) : addrs.length ≤ t.store.size := by
  have hSubset : addrs ⊆ Entries.addrs t.store.entries := by
    intro a ha
    obtain ⟨e, hFound, -⟩ := isFree_eq_true_iff.mp (hFree.2 a ha)
    obtain ⟨he, rfl⟩ := Store.entry?_eq_some hFound
    exact List.mem_map_of_mem he
  have hLength := (List.subperm_of_subset hFree.1 hSubset).length_le
  rwa [Entries.addrs, List.length_map] at hLength

theorem AllFree.estate_succ (hDepth : t.store.size ≤ depth) (hFree : t.AllFree (t.estate depth addr)) :
    t.estate (depth + 1) addr = t.estate depth addr :=
  Table.estate_succ (Nat.le_trans hFree.length_le hDepth)

theorem AllFree.mem_estate_iff (hDepth : t.store.size ≤ depth)
    (hFree : t.AllFree (t.estate depth addr)) (b : UInt32) : b ∈ t.estate depth addr ↔ t.Reaches addr b := by
  refine ⟨mem_estate_reaches, fun hReaches => ?_⟩
  -- what an object of the estate owns is in the estate one level deeper, which is the same
  have hClosed : ∀ (d : Nat) (a c : UInt32), c ∈ t.estate d a → ∀ b ∈ t.owned c, b ∈ t.estate (d + 1) a := by
    intro d
    induction d with
    | zero =>
      intro a c hc b hb
      obtain rfl := List.mem_singleton.mp hc
      exact List.mem_cons_of_mem _ (List.mem_flatMap.mpr ⟨b, hb, List.mem_singleton_self b⟩)
    | succ d ih =>
      intro a c hc b hb
      rcases List.mem_cons.mp hc with rfl | hc
      · refine List.mem_cons_of_mem _ (List.mem_flatMap.mpr ⟨b, hb, ?_⟩)
        exact List.mem_cons_self
      · obtain ⟨a', ha', hc⟩ := List.mem_flatMap.mp hc
        exact List.mem_cons_of_mem _ (List.mem_flatMap.mpr ⟨a', ha', ih a' c hc b hb⟩)
  have hAll : ∀ {c : UInt32}, t.Reaches c b → c ∈ t.estate depth addr → b ∈ t.estate depth addr := by
    intro c hc
    induction hc with
    | self => exact id
    | through hOwned _ ih =>
      intro hMem
      have hNext := hClosed _ _ _ hMem _ hOwned
      rw [hFree.estate_succ hDepth] at hNext
      exact ih hReaches hNext
  exact hAll hReaches (by cases depth <;> exact List.mem_cons_self)

/-! ## What is left of an estate when other objects go -/

theorem Loses.entry?_eq (hl : t.Loses l t₁) (hNodup : (Entries.addrs t.store.entries).Nodup) (a : UInt32) :
    t₁.store.entry? a = if a ∈ Entries.addrs l.entries then none else t.store.entry? a := by
  have hParts : (Entries.addrs l.entries ++ Entries.addrs t₁.store.entries).Nodup := by
    have hPerm := (hl.entries.map Entry.addr).nodup_iff.mp hNodup
    rwa [List.map_append] at hPerm
  obtain ⟨-, hLeft, hApart⟩ := List.nodup_append.mp hParts
  split
  · rename_i hGone
    exact Store.entry?_eq_none fun hMem => hApart a hGone a hMem rfl
  · rename_i hKept
    cases hFound : t.store.entry? a with
    | none =>
      refine Store.entry?_eq_none fun hMem => ?_
      obtain ⟨e, he, rfl⟩ := List.mem_map.mp hMem
      cases hFound.symm.trans (Store.entry?_of_mem hNodup (hl.mem he))
    | some e =>
      obtain ⟨he, rfl⟩ := Store.entry?_eq_some hFound
      rcases List.mem_append.mp (hl.entries.mem_iff.mp he) with hGone | he
      · exact absurd (List.mem_map_of_mem hGone) hKept
      · exact Store.entry?_of_mem hLeft he

theorem estate_congr (hMemory : t₁.heap.memory = t.heap.memory)
    (hSame : ∀ b ∈ t.estate depth addr, t₁.store.entry? b = t.store.entry? b) :
    t₁.estate depth addr = t.estate depth addr := by
  induction depth generalizing addr with
  | zero => rfl
  | succ depth ih =>
    have hOwned : t₁.owned addr = t.owned addr := by
      rw [owned, owned, hSame addr List.mem_cons_self, hMemory]
    rw [estate, estate, hOwned]
    refine congrArg (addr :: ·) (List.flatMap_congr fun a ha => ih fun b hb => hSame b ?_)
    exact List.mem_cons_of_mem _ (List.mem_flatMap.mpr ⟨a, ha, hb⟩)

theorem estate_of_owned (hOwned : ∀ a, t₁.owned a = t.owned a) (depth : Nat) (addr : UInt32) :
    t₁.estate depth addr = t.estate depth addr := by
  induction depth generalizing addr with
  | zero => rfl
  | succ depth ih =>
    rw [estate, estate, hOwned]
    exact congrArg (addr :: ·) (List.flatMap_congr fun a _ => ih a)

theorem Loses.estates_eq (hl : t.Loses l t₁) (hNodup : (Entries.addrs t.store.entries).Nodup)
    (hFree : t₁.AllFree (addrs.flatMap (t₁.estate depth))) :
    addrs.flatMap (t.estate depth) = addrs.flatMap (t₁.estate depth) ∧
      ∀ b ∈ addrs.flatMap (t₁.estate depth), b ∉ Entries.addrs l.entries ∧ t.isFree b = true := by
  have hKept : ∀ b ∈ addrs.flatMap (t₁.estate depth), b ∉ Entries.addrs l.entries ∧
      t₁.store.entry? b = t.store.entry? b := by
    intro b hb
    obtain ⟨e, hEntry, -⟩ := isFree_eq_true_iff.mp (hFree.2 b hb)
    rw [hl.entry?_eq hNodup] at hEntry ⊢
    split
    · rename_i hGone
      rw [if_pos hGone] at hEntry
      cases hEntry
    · rename_i hLeft
      exact ⟨hLeft, rfl⟩
  constructor
  · apply List.flatMap_congr
    intro a ha
    apply estate_congr hl.memory.symm
    intro b hb
    exact (hKept b (List.mem_flatMap.mpr ⟨a, ha, hb⟩)).2.symm
  · intro b hb
    obtain ⟨hLeft, hSame⟩ := hKept b hb
    refine ⟨hLeft, ?_⟩
    rw [isFree, ← hSame]
    exact hFree.2 b hb

theorem Loses.allFree_iff (hl : t.Loses l t₁) (hNodup : (Entries.addrs t.store.entries).Nodup)
    (hFirst : t.AllFree (Entries.addrs l.entries)) (depth : Nat) (addrs : List UInt32) :
    t.AllFree (Entries.addrs l.entries ++ addrs.flatMap (t.estate depth)) ↔
      t₁.AllFree (addrs.flatMap (t₁.estate depth)) := by
  constructor
  · rintro ⟨hAll, hFree⟩
    obtain ⟨-, hRest, hApart⟩ := List.nodup_append.mp hAll
    have hSame : ∀ b ∈ addrs.flatMap (t.estate depth), t₁.store.entry? b = t.store.entry? b := by
      intro b hb
      rw [hl.entry?_eq hNodup, if_neg fun hGone => hApart b hGone b hb rfl]
    have hEstates : addrs.flatMap (t₁.estate depth) = addrs.flatMap (t.estate depth) :=
      List.flatMap_congr fun a ha => estate_congr hl.memory fun b hb => hSame b (List.mem_flatMap.mpr ⟨a, ha, hb⟩)
    rw [hEstates]
    refine ⟨hRest, fun b hb => ?_⟩
    rw [isFree, hSame b hb]
    exact hFree b (List.mem_append_right _ hb)
  · intro hLater
    obtain ⟨hEstates, hKept⟩ := hl.estates_eq hNodup hLater
    rw [hEstates]
    refine ⟨List.nodup_append.mpr ⟨hFirst.1, hLater.1, ?_⟩, fun b hb => ?_⟩
    · rintro a ha b hb rfl
      exact (hKept a hb).1 ha
    · rcases List.mem_append.mp hb with hb | hb
      · exact hFirst.2 b hb
      · exact (hKept b hb).2

theorem AllFree.left {addrs addrs' : List UInt32} (hFree : t.AllFree (addrs ++ addrs')) : t.AllFree addrs :=
  ⟨(List.nodup_append.mp hFree.1).1, fun a ha => hFree.2 a (List.mem_append_left _ ha)⟩

/-! ## Dropping an estate -/

/-- The objects at the addresses are free, and just they have gone, at that loss; or they are not, and the step has
stopped. -/
inductive Settled (t : Table (Object V)) (loss : Entries V → Loss V) (addrs : List UInt32) :
    Except Stop α × Table (Object V) → Prop
  | freed {a : α} {t' : Table (Object V)} (gone : Entries V) (hFree : t.AllFree addrs) (hLoses : t.Loses (loss gone) t')
      (hGone : Entries.addrs gone = addrs) : Settled t loss addrs (.ok a, t')
  | stuck {stop : Stop} {t' : Table (Object V)} (hNot : ¬ t.AllFree addrs) (hStop : stop ≠ .crashed) :
      Settled t loss addrs (.error stop, t')

theorem Settled.after {es : Entries V} (hl : t.Loses (.of es) t₁) (hNodup : (Entries.addrs t.store.entries).Nodup)
    (hFirst : t.AllFree (Entries.addrs es)) {out : Except Stop α × Table (Object V)}
    (hLater : t₁.Settled .of (addrs.flatMap (t₁.estate depth)) out) :
    t.Settled .of (Entries.addrs es ++ addrs.flatMap (t.estate depth)) out := by
  have hIff := hl.allFree_iff hNodup hFirst depth addrs
  cases hLater with
  | freed gone hFree hLoses hGone =>
    refine .freed (es ++ gone) (hIff.mpr hFree) (hl.of_trans hLoses) ?_
    rw [(hl.estates_eq hNodup hFree).1, ← hGone]
    exact List.map_append
  | stuck hNot hStop => exact .stuck (fun hFree => hNot (hIff.mp hFree)) hStop

end Table

namespace Object

variable {V : Type} {t : Table (Object V)} {spare : List UInt32}

variable {remove : UInt32 → Step (Table (Object V)) (Object V)}

theorem exec_dropWith_stopped {addr : UInt32} (hNull : addr ≠ 0)
    {stop : Stop} {t' : Table (Object V)} (hRemove : exec (remove addr) t = (.error stop, t'))
    (hStop : stop ≠ .crashed) :
    ∃ why, exec (dropWith remove addr) t = (.error (.trapped why), t') := by
  rw [dropWith, if_neg hNull]
  cases stop with
  | refused why =>
    rw [exec_bind_ok (exec_attempt_refused hRemove)]
    simp only [exec_bind_ok (exec_get t')]
    split <;> exact ⟨_, rfl⟩
  | trapped why =>
    rw [exec_bind, exec_attempt, hRemove]
    exact ⟨why, rfl⟩
  | crashed => exact absurd rfl hStop

theorem exec_dropWith_settled {addr : UInt32}
    {addrs : List UInt32} (hv : t.heap.Valid) (hRemove : t.Settled .of addrs (exec (remove addr) t)) :
    t.Settled .of (if addr = 0 then [] else addrs) (exec (dropWith remove addr) t) := by
  by_cases hNull : addr = 0
  · rw [dropWith, if_pos hNull, if_pos hNull]
    exact .freed [] ⟨.nil, List.forall_mem_nil _⟩ (.refl hv) rfl
  · rw [if_neg hNull]
    generalize hOut : exec (remove addr) t = out at hRemove
    cases hRemove with
    | freed gone hFree hLoses hGone =>
      rw [dropWith, if_neg hNull, exec_bind_ok (exec_attempt_ok hOut)]
      exact .freed gone hFree hLoses hGone
    | stuck hNot hStop =>
      obtain ⟨why, hDrop⟩ := exec_dropWith_stopped hNull hOut hStop
      rw [hDrop]
      exact .stuck hNot nofun

theorem exec_dropElements_settled {depth : Nat}
    (hRemove : ∀ (t : Table (Object V)) (spare : List UInt32) (addr : UInt32), t.Accounted spare →
      t.Settled .of (t.estate depth addr) (exec (remove addr) t))
    {buf : Buffer} {h : Heap} (hv : h.Valid) (hFits : buf.Fits h .u32) {positions : List Nat}
    (hPositions : ∀ i ∈ positions, i < buf.len.toNat) (ht : t.Accounted spare) (hMemory : t.heap.memory = h.memory) :
    t.Settled .of
      (((positions.map fun i => (buf.word h.memory .u32 i).toUInt32).filter (· ≠ 0)).flatMap (t.estate depth))
      (exec (dropElements (dropOwned false remove) buf positions) t) := by
  induction positions generalizing t with
  | nil => exact .freed [] ⟨.nil, List.forall_mem_nil _⟩ (.refl ht.valid) rfl
  | cons i rest ih =>
    let a := (buf.word h.memory .u32 i).toUInt32
    rw [exec_dropElements_cons hv hFits hMemory (hPositions i List.mem_cons_self)]
    have hDrop := exec_dropWith_settled ht.valid (hRemove t spare a ht)
    have hSplit : ((((i :: rest).map fun i => (buf.word h.memory .u32 i).toUInt32).filter (· ≠ 0)).flatMap
        (t.estate depth)) = (if a = 0 then [] else t.estate depth a) ++
          (((rest.map fun i => (buf.word h.memory .u32 i).toUInt32).filter (· ≠ 0)).flatMap (t.estate depth)) := by
      rw [List.map_cons, List.filter_cons]
      by_cases hNull : a = 0 <;> simp [a, hNull]
    rw [hSplit]
    generalize hOut : exec (dropWith remove a) t = out at hDrop
    cases hDrop with
    | freed gone hFree hLoses hGone =>
      rw [exec_bind_ok (show exec (dropOwned false remove a) t = _ from hOut), ← hGone]
      exact (ih (fun j hj => hPositions j (List.mem_cons_of_mem i hj)) (hLoses.of_accounted ht)
        (hLoses.memory.trans hMemory)).after hLoses ht.addrs_nodup (hGone ▸ hFree)
    | stuck hNot hStop =>
      rw [exec_bind_error (show exec (dropOwned false remove a) t = _ from hOut)]
      exact .stuck (fun hFree => hNot hFree.left) hStop

theorem exec_destroy_settled {depth : Nat} (hRemove : ∀ (t : Table (Object V)) (spare : List UInt32) (addr : UInt32),
      t.Accounted spare → t.Settled .of (t.estate depth addr) (exec (Table.remove (destroy false depth) addr) t))
    {v : Object V} {h : Heap} (hv : h.Valid) (hFits : v.Fits h) (ht : t.Accounted (v.blocks ++ spare))
    (hMemory : t.heap.memory = h.memory) :
    t.Settled (.under v) (((v.slots h.memory).filter (· ≠ 0)).flatMap (t.estate depth))
      (exec (destroy false (depth + 1) v) t) := by
  by_cases hNests : v.Nests (depth + 1)
  · obtain ⟨_, buf, ⟨⟩, rfl⟩ := hNests
    have hElements := exec_dropElements_settled hRemove hv hFits (fun i hi => List.mem_range.mp hi) ht hMemory
    rw [slots, Buffer.words, List.map_map]
    generalize hOut : exec (dropElements (dropOwned false (Table.remove (destroy false depth))) buf
      (List.range buf.len.toNat)) t = out at hElements
    cases hElements with
    | freed gone hFree hLoses hGone =>
      obtain ⟨t', hExec, hLoses'⟩ := exec_destroy_nested ht hOut hLoses
      rw [hExec]
      exact .freed gone hFree hLoses' hGone
    | stuck hNot hStop =>
      rw [destroy, exec_bind_error hOut]
      exact .stuck hNot hStop
  · have hNone : v.slots h.memory = [] := by
      cases v with
      | refVector buf => exact absurd ⟨depth, buf, rfl, rfl⟩ hNests
      | guest _ => rfl
      | string _ _ => rfl
      | vector _ _ => rfl
      | callback _ => rfl
    obtain ⟨t', hExec, hLoses⟩ := exec_destroy_loses false hNests ht
    rw [hExec, hNone]
    exact .freed [] ⟨.nil, List.forall_mem_nil _⟩ hLoses rfl

theorem exec_remove_free {destroy : Object V → Step (Table (Object V)) Unit} {e : Entry (Object V)} (depth : Nat)
    (addrs : List UInt32) (ht : t.Accounted spare) (hFound : t.store.entry? e.addr = some e)
    (hIdle : e.isBorrowed = false)
    (hDestroy : ∀ t₁ : Table (Object V), t₁.Accounted (e.value.blocks ++ spare) → t₁.heap.memory = t.heap.memory →
      t₁.Settled (.under e.value) (addrs.flatMap (t₁.estate depth)) (exec (destroy e.value) t₁)) :
    t.Settled .of (e.addr :: addrs.flatMap (t.estate depth)) (exec (Table.remove destroy e.addr) t) := by
  obtain ⟨t₁, hDetach, hl₁, ht₁⟩ := Table.exec_detach_loses ht hFound hIdle
  have hFirst : t.AllFree [e.addr] :=
    ⟨List.nodup_singleton _, List.forall_mem_singleton.mpr (Table.isFree_eq_true_iff.mpr ⟨e, hFound, hIdle⟩)⟩
  have hIff := hl₁.allFree_iff ht.addrs_nodup hFirst depth addrs
  have hLater := hDestroy t₁ ht₁ hl₁.memory
  generalize hOut : exec (destroy e.value) t₁ = out at hLater
  cases hLater with
  | freed gone hFree hLoses hGone =>
    obtain ⟨hExec, hAll⟩ := Table.exec_remove_loses hDetach hl₁ hOut hLoses
    rw [hExec]
    refine .freed (e :: gone) (hIff.mpr hFree) hAll ?_
    rw [(hl₁.estates_eq ht.addrs_nodup hFree).1, ← hGone]
    rfl
  | stuck hNot hStop =>
    rw [Table.remove, exec_bind_ok hDetach, exec_bind_error hOut]
    exact .stuck (fun hFree => hNot (hIff.mp hFree)) hStop

theorem exec_remove_unfree {destroy : Object V → Step (Table (Object V)) Unit} {addr : UInt32} {addrs : List UInt32}
    (hNot : t.isFree addr = false) :
    t.Settled .of (addr :: addrs) (exec (Table.remove destroy addr) t) := by
  obtain ⟨r, hDetach⟩ := Table.exec_detach_unfree hNot
  rw [Table.remove, exec_bind_error hDetach]
  refine .stuck (fun hAll => ?_) nofun
  cases hNot.symm.trans (hAll.2 addr List.mem_cons_self)

theorem exec_remove_settled (depth : Nat) (t : Table (Object V)) (spare : List UInt32) (addr : UInt32)
    (ht : t.Accounted spare) :
    t.Settled .of (t.estate depth addr) (exec (Table.remove (destroy false depth) addr) t) := by
  induction depth generalizing t spare addr with
  | zero =>
    cases hFree : t.isFree addr with
    | false => exact exec_remove_unfree hFree
    | true =>
      obtain ⟨e, hFound, hIdle⟩ := Table.isFree_eq_true_iff.mp hFree
      obtain ⟨-, rfl⟩ := Store.entry?_eq_some hFound
      have hPlain : ¬ e.value.Nests 0 := nofun
      refine exec_remove_free 0 [] ht hFound hIdle fun t₁ ht₁ _ => ?_
      obtain ⟨t', hExec, hLoses⟩ := exec_destroy_loses false hPlain ht₁
      rw [hExec]
      exact .freed [] ⟨.nil, List.forall_mem_nil _⟩ hLoses rfl
  | succ depth ih =>
    cases hFree : t.isFree addr with
    | false => exact exec_remove_unfree hFree
    | true =>
      obtain ⟨e, hFound, hIdle⟩ := Table.isFree_eq_true_iff.mp hFree
      obtain ⟨he, rfl⟩ := Store.entry?_eq_some hFound
      rw [Table.estate, Table.owned, hFound]
      exact exec_remove_free depth _ ht hFound hIdle fun t₁ ht₁ hMemory =>
        exec_destroy_settled ih ht.valid (ht.fits e he) ht₁ hMemory

end Object

end Marshal
