import Marshal.Proofs.Object.Drop
import Marshal.Proofs.Object.Estate

/-! # Clearing an open table

An open table is cleared in the order of the addresses. A vector of objects drops its elements, and an element that is
gone already is a double free. So the order matters: where every object that is owned has an owner before it, each
estate goes with its first object, and clearing succeeds. Where an object comes before all its owners it goes on its
own, and its owner traps later.
-/
set_option autoImplicit false
namespace Marshal

open Step

/-! ## Destructors are not refused -/

namespace Step

variable {σ α β : Type}

def Firm (x : Step σ α) : Prop := ∀ s why, (exec x s).1 ≠ .error (.refused why)

theorem Firm.pure (a : α) : Firm (pure a : Step σ α) := by
  rintro s why ⟨⟩

theorem Firm.bind {x : Step σ α} {f : α → Step σ β} (hx : Firm x) (hf : ∀ a, Firm (f a)) : Firm (x >>= f) := by
  intro s why
  have hFirst := hx s why
  rw [exec_bind]
  generalize exec x s = out at hFirst ⊢
  rcases out with ⟨stop | a, s₁⟩
  · simpa using hFirst
  · exact hf a s₁ why

theorem Firm.trapRefusal (f : Failure → Failure) (x : Step σ α) : Firm (trapRefusal f x) := by
  intro s why
  rw [exec_trapRefusal]
  rcases exec x s with ⟨(_ | _ | _) | a, s₁⟩ <;> rintro ⟨⟩

theorem Firm.attempt (x : Step σ α) : Firm (attempt x) := by
  intro s why
  rw [exec_attempt]
  rcases exec x s with ⟨(_ | _ | _) | a, s₁⟩ <;> rintro ⟨⟩

end Step

theorem Table.firm_onHeap {V α : Type} {x : Step Heap α} (hx : Firm x) : Firm (Table.onHeap (V := V) x) := by
  intro t why
  rw [Table.exec_onHeap]
  exact hx t.heap why

theorem Heap.firm_release (addr : UInt32) : Firm (Heap.release addr) := by
  intro h why
  rw [Heap.exec_release]
  cases h.free? addr <;> rintro ⟨⟩

namespace Object

variable {V : Type}

theorem firm_dropWith (remove : UInt32 → Step (Table (Object V)) (Object V)) (addr : UInt32) :
    Firm (dropWith remove addr) := by
  unfold dropWith
  split
  · exact .pure ()
  · refine .bind (.attempt _) ?_
    rintro (why | v)
    · intro t why
      rw [exec_bind_ok (exec_get t)]
      split <;> rintro ⟨⟩
    · exact .pure ()

theorem firm_dropElements (remove : UInt32 → Step (Table (Object V)) (Object V)) (buf : Buffer) (positions : List Nat) :
    Firm (dropElements (dropOwned false remove) buf positions) := by
  induction positions with
  | nil => exact .pure ()
  | cons i rest ih =>
    rw [dropElements]
    refine .bind (Table.firm_onHeap ?_) fun v => ?_
    · unfold Buffer.get?
      split
      · exact .pure none
      · exact .bind (.trapRefusal _ _) fun _ => .pure _
    · split
      · exact .bind (firm_dropWith remove _) fun _ => ih
      · exact ih

theorem firm_destroy (depth : Nat) (v : Object V) : Firm (destroy false depth v) := by
  have hDiscard : ∀ buf : Buffer, Firm (Table.onHeap (V := Object V) buf.discard) := by
    intro buf
    refine Table.firm_onHeap ?_
    unfold Buffer.discard
    split
    · exact .pure ()
    · exact Heap.firm_release _
  cases v with
  | guest value =>
    rw [destroy]
    rintro t why ⟨⟩
  | callback label =>
    rw [destroy]
    exact .pure ()
  | string ptr len =>
    rw [destroy]
    split
    · exact .pure ()
    · exact Table.firm_onHeap (Heap.firm_release ptr)
  | vector elem buf =>
    rw [destroy]
    exact hDiscard buf
  | refVector buf =>
    cases depth with
    | zero =>
      rw [destroy]
      exact hDiscard buf
    | succ depth =>
      rw [destroy]
      exact .bind (firm_dropElements _ buf _) fun _ => hDiscard buf

end Object

namespace Table

variable {V : Type} {t t₁ t' : Table (Object V)} {spare : List UInt32} {depth : Nat} {a b c x : UInt32}

/-! ## Who reaches whom -/

/-- Every object that is owned is owned by one at a lower address, directly or through others. -/
def OwnersFirst (t : Table (Object V)) : Prop := ∀ a b, b ∈ t.owned a → ∃ c, t.Reaches c b ∧ c < b

theorem mem_owned_iff : b ∈ t.owned a ↔ ∃ e, t.store.entry? a = some e ∧ b ∈ e.value.slots t.heap.memory ∧ b ≠ 0 := by
  rw [owned]
  cases t.store.entry? a <;> simp

theorem mem_addrs_of_owned (hb : b ∈ t.owned a) : a ∈ Entries.addrs t.store.entries := by
  obtain ⟨e, hFound, -⟩ := mem_owned_iff.mp hb
  obtain ⟨he, rfl⟩ := Store.entry?_eq_some hFound
  exact List.mem_map_of_mem he

theorem Reaches.trans (h : t.Reaches a b) (h' : t.Reaches b c) : t.Reaches a c := by
  induction h with
  | self a => exact h'
  | through hOwned _ ih => exact .through hOwned (ih h')

theorem Reaches.eq_or_mem (h : t.Reaches a b) : a = b ∨ a ∈ Entries.addrs t.store.entries := by
  cases h with
  | self => exact .inl rfl
  | through hOwned _ => exact .inr (mem_addrs_of_owned hOwned)

theorem ownersFirst_of_all (h : (t.store.entries.all fun e => (t.owned e.addr).all (e.addr < ·)) = true) :
    t.OwnersFirst := by
  intro a b hb
  obtain ⟨e, he, rfl⟩ := List.mem_map.mp (mem_addrs_of_owned hb)
  have hLt := List.all_eq_true.mp (List.all_eq_true.mp h e he) b hb
  exact ⟨e.addr, .through hb (.self b), of_decide_eq_true hLt⟩

theorem OwnersFirst.not_owned_least (hFirst : t.OwnersFirst) (hLeast : ∀ c ∈ Entries.addrs t.store.entries, b ≤ c) :
    b ∉ t.owned a := by
  intro hb
  obtain ⟨c, hReaches, hLt⟩ := hFirst a b hb
  rcases hReaches.eq_or_mem with rfl | hMem
  · exact UInt32.lt_irrefl _ hLt
  · exact UInt32.lt_irrefl _ (UInt32.lt_of_lt_of_le hLt (hLeast c hMem))

theorem not_ownersFirst_of_all (hOwned : b ∈ t.owned a) (h : (t.store.entries.all (b ≤ ·.addr)) = true) :
    ¬ t.OwnersFirst := by
  intro hFirst
  refine hFirst.not_owned_least (fun c hc => ?_) hOwned
  obtain ⟨e, he, rfl⟩ := List.mem_map.mp hc
  exact of_decide_eq_true (List.all_eq_true.mp h e he)

theorem AllFree.owned_mem (hDepth : t.store.size < depth) (hFree : t.AllFree (t.estate depth x))
    (ha : a ∈ t.estate depth x) (hb : b ∈ t.owned a) : b ∈ t.estate depth x ∧ b ≠ x := by
  have hReaches := (mem_estate_reaches ha).trans (.through hb (.self b))
  refine ⟨(hFree.mem_estate_iff (Nat.le_of_lt hDepth) b).mpr hReaches, ?_⟩
  intro hEq
  subst hEq
  obtain ⟨d, rfl⟩ : ∃ d, depth = d + 1 := ⟨depth - 1, by omega⟩
  -- the first object would be below one of those that it owns itself
  obtain ⟨y, hy, hBelow⟩ : ∃ y ∈ t.owned b, t.Reaches y b := by
    cases mem_estate_reaches ha with
    | self => exact ⟨_, hb, .self _⟩
    | through hOwned hRest => exact ⟨_, hOwned, hRest.trans (.through hb (.self b))⟩
  have hPart : (t.estate d y).Sublist ((t.owned b).flatMap (t.estate d)) :=
    List.sublist_flatten_of_mem (List.mem_map_of_mem (f := t.estate d) hy)
  obtain ⟨hOnce, hNodup⟩ := List.nodup_cons.mp hFree.1
  have hFreePart : t.AllFree (t.estate d y) :=
    ⟨hNodup.sublist hPart, fun a ha => hFree.2 a (List.mem_cons_of_mem _ (hPart.subset ha))⟩
  exact hOnce (hPart.subset ((hFreePart.mem_estate_iff (Nat.le_of_lt_succ hDepth) b).mpr hBelow))

variable {l : Loss V}

theorem Loses.owned_eq (hl : t.Loses l t₁) (hNodup : (Entries.addrs t.store.entries).Nodup)
    (hKept : a ∉ Entries.addrs l.entries) : t₁.owned a = t.owned a := by
  rw [owned, owned, hl.entry?_eq hNodup, if_neg hKept, hl.memory]

theorem Loses.owned_subset (hl : t.Loses l t₁) (hNodup : (Entries.addrs t.store.entries).Nodup) :
    t₁.owned a ⊆ t.owned a := by
  by_cases hGone : a ∈ Entries.addrs l.entries
  · rw [owned, hl.entry?_eq hNodup, if_pos hGone]
    exact List.nil_subset _
  · rw [hl.owned_eq hNodup hGone]
    exact List.Subset.refl _

theorem Loses.reaches (hl : t.Loses l t₁) (hNodup : (Entries.addrs t.store.entries).Nodup)
    (h : t₁.Reaches a b) : t.Reaches a b := by
  induction h with
  | self a => exact .self a
  | through hOwned _ ih => exact .through (hl.owned_subset hNodup hOwned) ih

/-! ## One turn -/

/-- What a turn at an address can come to, when nothing is borrowed. -/
inductive Turn (t : Table (Object V)) (depth : Nat) (addr : UInt32) : Except Stop (Except Failure (Object V)) ×
    Table (Object V) → Prop
  | absent {r : Except Failure (Object V)} (hAbsent : addr ∉ Entries.addrs t.store.entries) :
      Turn t depth addr (.ok r, t)
  | freed {r : Except Failure (Object V)} {t' : Table (Object V)} (gone : Entries V)
      (hFree : t.AllFree (t.estate depth addr)) (hLoses : t.Loses (.of gone) t')
      (hGone : Entries.addrs gone = t.estate depth addr) : Turn t depth addr (.ok r, t')
  | trapped {why : Failure} {t' : Table (Object V)} (hAt : addr ∈ Entries.addrs t.store.entries) :
      Turn t depth addr (.error (.trapped why), t')

/-- Everything that is there can be dropped as far as borrows are concerned. -/
structure Idle (t : Table (Object V)) (spare : List UInt32) : Prop where
  accounted : t.Accounted spare
  unborrowed : ∀ e ∈ t.store.entries, e.isBorrowed = false

variable {gone : Entries V} {addrs : List UInt32}

theorem Idle.loses (hi : t.Idle spare) (hl : t.Loses (.of gone) t') : t'.Idle spare :=
  ⟨hl.of_accounted hi.accounted, fun e he => hi.unborrowed e (hl.mem he)⟩

theorem Idle.turn (hi : t.Idle spare) (depth : Nat) (addr : UInt32) :
    t.Turn depth addr (exec (attempt (remove (Object.destroy false depth) addr)) t) := by
  have hSettled := Object.exec_remove_settled depth t spare addr hi.accounted
  cases hAt : t.store.entry? addr with
  | none =>
    have hNot : t.isFree addr = false := by rw [isFree, hAt]
    obtain ⟨r, hDetach⟩ := exec_detach_unfree hNot
    have hRefused : exec (remove (Object.destroy false depth) addr) t = _ := exec_bind_error hDetach
    rw [exec_attempt_refused hRefused]
    refine .absent fun hMem => ?_
    obtain ⟨e, he, rfl⟩ := List.mem_map.mp hMem
    cases hAt.symm.trans (Store.entry?_of_mem hi.accounted.addrs_nodup he)
  | some e =>
    obtain ⟨he, rfl⟩ := Store.entry?_eq_some hAt
    generalize hOut : exec (remove (Object.destroy false depth) e.addr) t = out at hSettled
    cases hSettled with
    | freed gone hFree hLoses hGone =>
      rw [exec_attempt_ok hOut]
      exact .freed gone hFree hLoses hGone
    | @stuck stop t' hNot hStop =>
      cases stop with
      | refused why =>
        -- the object could be detached, so its destructor would have been refused
        obtain ⟨t₁, hDetach, -⟩ := exec_detach_loses hi.accounted hAt (hi.unborrowed e he)
        rw [remove, exec_bind_ok hDetach] at hOut
        refine absurd (congrArg Prod.fst hOut) (Firm.bind (Object.firm_destroy depth e.value) (fun _ => ?_) t₁ why)
        rintro t why ⟨⟩
      | trapped why =>
        rw [exec_attempt, hOut]
        exact .trapped (List.mem_map_of_mem he)
      | crashed => exact absurd rfl hStop

/-! ## All turns -/

theorem estate_self (t : Table (Object V)) (depth : Nat) (addr : UInt32) : addr ∈ t.estate depth addr := by
  cases depth <;> exact List.mem_cons_self

theorem AllFree.mem_addrs (hFree : t.AllFree addrs) (ha : a ∈ addrs) : a ∈ Entries.addrs t.store.entries := by
  obtain ⟨e, hFound, -⟩ := isFree_eq_true_iff.mp (hFree.2 a ha)
  obtain ⟨he, rfl⟩ := Store.entry?_eq_some hFound
  exact List.mem_map_of_mem he

theorem Loses.mem_addrs_iff (hl : t.Loses (.of gone) t₁) (hNodup : (Entries.addrs t.store.entries).Nodup) :
    a ∈ Entries.addrs t₁.store.entries ↔ a ∈ Entries.addrs t.store.entries ∧ a ∉ gone.addrs := by
  have hPerm : (Entries.addrs t.store.entries).Perm (gone.addrs ++ Entries.addrs t₁.store.entries) := by
    have hMap := hl.entries.map Entry.addr
    rwa [List.map_append] at hMap
  have hApart := (List.nodup_append.mp (hPerm.nodup_iff.mp hNodup)).2.2
  rw [hPerm.mem_iff, List.mem_append]
  constructor
  · exact fun ha => ⟨.inr ha, fun hGone => hApart a hGone a ha rfl⟩
  · rintro ⟨hGone | ha, hNot⟩
    · exact absurd hGone hNot
    · exact ha

theorem Loses.mem_rest {rest : List UInt32} (hl : t.Loses (.of gone) t₁)
    (hNodup : (Entries.addrs t.store.entries).Nodup) (hGone : gone.addrs = t.estate depth x)
    (hAll : ∀ a ∈ Entries.addrs t.store.entries, a ∈ x :: rest) : ∀ a ∈ Entries.addrs t₁.store.entries, a ∈ rest := by
  intro a ha
  obtain ⟨ha, hNot⟩ := (hl.mem_addrs_iff hNodup).mp ha
  rcases List.mem_cons.mp (hAll a ha) with rfl | hRest
  · exact absurd (hGone ▸ t.estate_self depth a) hNot
  · exact hRest

theorem mem_rest_of_absent {rest : List UInt32} (hAbsent : x ∉ Entries.addrs t.store.entries)
    (hAll : ∀ a ∈ Entries.addrs t.store.entries, a ∈ x :: rest) : ∀ a ∈ Entries.addrs t.store.entries, a ∈ rest := by
  intro a ha
  rcases List.mem_cons.mp (hAll a ha) with rfl | hRest
  · exact absurd ha hAbsent
  · exact hRest

theorem Loses.size_le (hl : t.Loses (.of gone) t₁) : t₁.store.size ≤ t.store.size := by
  have hLength := hl.entries.length_eq
  rw [List.length_append] at hLength
  show t₁.store.entries.length ≤ t.store.entries.length
  omega

theorem Idle.exec_removeAll (depth : Nat) (addrs : List UInt32) (hi : t.Idle spare) :
    (∃ gone t', exec (removeAll (Object.destroy false depth) addrs) t = (.ok (), t') ∧ t.Loses (.of gone) t' ∧
        ∀ a ∈ addrs, a ∉ Entries.addrs t'.store.entries) ∨
      ∃ why t', exec (removeAll (Object.destroy false depth) addrs) t = (.error (.trapped why), t') := by
  induction addrs generalizing t with
  | nil => exact .inl ⟨[], t, rfl, .refl hi.accounted.valid, fun _ ha => absurd ha List.not_mem_nil⟩
  | cons x rest ih =>
    have hTurn := hi.turn depth x
    generalize hOut : exec (attempt (remove (Object.destroy false depth) x)) t = out at hTurn
    cases hTurn with
    | absent hAbsent =>
      rw [removeAll, exec_bind_ok hOut]
      obtain ⟨gone, t', hExec, hl, hVacant⟩ | hTrapped := ih hi
      · refine .inl ⟨gone, t', hExec, hl, List.forall_mem_cons.mpr ⟨fun hx => hAbsent ?_, hVacant⟩⟩
        exact ((hl.mem_addrs_iff hi.accounted.addrs_nodup).mp hx).1
      · exact .inr hTrapped
    | freed gone hFree hLoses hGone =>
      rw [removeAll, exec_bind_ok hOut]
      obtain ⟨gone', t', hExec, hl, hVacant⟩ | hTrapped := ih (hi.loses hLoses)
      · refine .inl ⟨gone ++ gone', t', hExec, hLoses.of_trans hl, List.forall_mem_cons.mpr ⟨fun hx => ?_, hVacant⟩⟩
        obtain ⟨hx, -⟩ := (hl.mem_addrs_iff (hi.loses hLoses).accounted.addrs_nodup).mp hx
        exact ((hLoses.mem_addrs_iff hi.accounted.addrs_nodup).mp hx).2 (hGone ▸ t.estate_self depth x)
      · exact .inr hTrapped
    | trapped hAt =>
      rw [removeAll, exec_bind_error hOut]
      exact .inr ⟨_, _, rfl⟩

theorem Idle.ownersFirst (hi : t.Idle spare) (hDepth : t.store.size < depth)
    (hSorted : addrs.Pairwise (· ≤ ·)) (hAll : ∀ a ∈ Entries.addrs t.store.entries, a ∈ addrs)
    (hRun : exec (removeAll (Object.destroy false depth) addrs) t = (.ok (), t')) : t.OwnersFirst := by
  induction addrs generalizing t with
  | nil => exact fun a b hb => absurd (hAll a (mem_addrs_of_owned hb)) List.not_mem_nil
  | cons x rest ih =>
    have hNodup := hi.accounted.addrs_nodup
    obtain ⟨hLeast, hSorted⟩ := List.pairwise_cons.mp hSorted
    have hTurn := hi.turn depth x
    generalize hOut : exec (attempt (remove (Object.destroy false depth) x)) t = out at hTurn
    cases hTurn with
    | absent hAbsent =>
      rw [removeAll, exec_bind_ok hOut] at hRun
      exact ih hi hDepth hSorted (mem_rest_of_absent hAbsent hAll) hRun
    | freed gone hFree hLoses hGone =>
      rw [removeAll, exec_bind_ok hOut] at hRun
      have hLater := ih (hi.loses hLoses) (Nat.lt_of_le_of_lt hLoses.size_le hDepth) hSorted
        (hLoses.mem_rest hNodup hGone hAll) hRun
      intro a b hb
      -- what went in this turn is below its first object, and the rest owns what it did before
      by_cases hOwner : a ∈ t.estate depth x
      · obtain ⟨hPart, hNe⟩ := hFree.owned_mem hDepth hOwner hb
        refine ⟨x, mem_estate_reaches hPart, ?_⟩
        rcases List.mem_cons.mp (hAll b (hFree.mem_addrs hPart)) with rfl | hRest
        · exact absurd rfl hNe
        · exact UInt32.lt_of_le_of_ne (hLeast b hRest) hNe.symm
      · rw [← hLoses.owned_eq hNodup (hGone ▸ hOwner)] at hb
        obtain ⟨c, hReaches, hLt⟩ := hLater a b hb
        exact ⟨c, hLoses.reaches hNodup hReaches, hLt⟩
    | trapped hAt =>
      rw [removeAll, exec_bind_error hOut] at hRun
      cases hRun

/-! ## Roots -/

variable {types : List Text} {titles : List Title} {leaks : List UInt32}

theorem Sound.idle (hs : t.Sound types titles leaks spare) : t.Idle spare :=
  ⟨hs.accounted, fun e he => Entry.isBorrowed_of_free (hs.unborrowed e he)⟩

theorem Sound.reclaim {addr : UInt32} (hs : t.Sound types titles (addr :: leaks) spare) :
    ∃ name, t.Sound types (⟨addr, name⟩ :: titles) leaks spare := by
  obtain ⟨ha, hUnborrowed, hOpen⟩ := hs
  have hMem : addr ∈ Entries.addrs t.store.entries :=
    ha.owners.mem_iff.mpr (List.mem_append_right _ List.mem_cons_self)
  obtain ⟨e, he, rfl⟩ := List.mem_map.mp hMem
  obtain ⟨name, hName, hType⟩ := ha.named e he
  refine ⟨name, ⟨ha.few, ha.valid, ha.cells, ?_, ha.fits, ha.named, ?_, ha.slotted⟩, hUnborrowed, hOpen⟩
  · refine ha.owners.trans (List.perm_iff_count.mpr fun a => ?_)
    simp only [List.map_cons, List.cons_append, List.count_append, List.count_cons]
    omega
  · exact List.forall_mem_cons.mpr ⟨⟨hName, e, he, rfl, hType⟩, ha.titled⟩

theorem Sound.title (hs : t.Sound types titles leaks spare) (hx : x ∈ Entries.addrs t.store.entries)
    (hRoot : x ∉ Entries.slots t.heap.memory t.store.entries) :
    ∃ w titles' leaks', w.addr = x ∧ t.Sound types (w :: titles') leaks' spare := by
  obtain ⟨ha, hUnborrowed, hOpen⟩ := hs
  rcases List.mem_append.mp (ha.owners.mem_iff.mp hx) with hHeld | hLeaked
  · rcases List.mem_append.mp hHeld with hHeld | hSlot
    · obtain ⟨w, hw, rfl⟩ := List.mem_map.mp hHeld
      obtain ⟨before, after, rfl⟩ := List.append_of_mem hw
      exact ⟨w, before ++ after, leaks, rfl, ha.perm_titles List.perm_middle, hUnborrowed, hOpen⟩
    · exact absurd hSlot hRoot
  · obtain ⟨before, after, rfl⟩ := List.append_of_mem hLeaked
    have hs' : t.Sound types titles (x :: (before ++ after)) spare :=
      ⟨⟨ha.few, ha.valid, ha.cells, ha.owners.trans (List.perm_middle.append_left _), ha.fits, ha.named, ha.titled,
        ha.slotted⟩, hUnborrowed, hOpen⟩
    obtain ⟨name, hReclaimed⟩ := hs'.reclaim
    exact ⟨⟨x, name⟩, titles, before ++ after, rfl, hReclaimed⟩

theorem Sound.owned_mem (hs : t.Sound types titles leaks spare) (hb : b ∈ t.owned a) :
    b ∈ Entries.addrs t.store.entries := by
  obtain ⟨e, hFound, hSlot, -⟩ := mem_owned_iff.mp hb
  refine hs.accounts.owners.mem_iff.mpr (List.mem_append_left _ (List.mem_append_right _ ?_))
  exact List.mem_flatMap.mpr ⟨e, (Store.entry?_eq_some hFound).1, hSlot⟩

theorem Sound.not_mem_slots (hs : t.Sound types titles leaks spare) (hx : x ∈ Entries.addrs t.store.entries)
    (hFirst : t.OwnersFirst) (hLeast : ∀ a ∈ Entries.addrs t.store.entries, x ≤ a) :
    x ∉ Entries.slots t.heap.memory t.store.entries := by
  intro hSlot
  obtain ⟨e, he, hSlot⟩ := List.mem_flatMap.mp hSlot
  obtain ⟨e', he', rfl⟩ := List.mem_map.mp hx
  refine hFirst.not_owned_least hLeast (a := e.addr) (mem_owned_iff.mpr ⟨e, ?_, hSlot, hs.accounts.addr_ne_zero he'⟩)
  exact Store.entry?_of_mem hs.accounts.addrs_nodup he

theorem Loses.reaches_kept (hl : t.Loses (.of gone) t₁)
    (hNodup : (Entries.addrs t.store.entries).Nodup) (hClosed : ∀ a ∈ gone.addrs, ∀ b ∈ t.owned a, b ∈ gone.addrs)
    (h : t.Reaches a b) (hb : b ∉ gone.addrs) : a ∉ gone.addrs ∧ t₁.Reaches a b := by
  induction h with
  | self a => exact ⟨hb, .self a⟩
  | through hOwned _ ih =>
    obtain ⟨hc, hReaches⟩ := ih hb
    have ha : _ ∉ gone.addrs := fun ha => hc (hClosed _ ha _ hOwned)
    exact ⟨ha, .through (hl.owned_eq hNodup ha ▸ hOwned) hReaches⟩

theorem Sound.ownersFirst (hs : t₁.Sound types titles leaks spare) (hFirst : t.OwnersFirst)
    (hNodup : (Entries.addrs t.store.entries).Nodup) (hl : t.Loses (.of gone) t₁)
    (hClosed : ∀ a ∈ gone.addrs, ∀ b ∈ t.owned a, b ∈ gone.addrs) : t₁.OwnersFirst := by
  intro a b hb
  obtain ⟨c, hReaches, hLt⟩ := hFirst a b (hl.owned_subset hNodup hb)
  have hKept := ((hl.mem_addrs_iff hNodup).mp (hs.owned_mem hb)).2
  exact ⟨c, (hl.reaches_kept hNodup hClosed hReaches hKept).2, hLt⟩

theorem Sound.exec_removeAll (hs : t.Sound types titles leaks spare)
    (hDepth : t.store.size < depth) (hFirst : t.OwnersFirst) (hSorted : addrs.Pairwise (· ≤ ·))
    (hAll : ∀ a ∈ Entries.addrs t.store.entries, a ∈ addrs) :
    ∃ t', exec (removeAll (Object.destroy false depth) addrs) t = (.ok (), t') := by
  induction addrs generalizing t titles leaks with
  | nil => exact ⟨t, rfl⟩
  | cons x rest ih =>
    have hNodup := hs.accounts.addrs_nodup
    obtain ⟨hLeast, hRest⟩ := List.pairwise_cons.mp hSorted
    have hTurn := hs.idle.turn depth x
    by_cases hx : x ∈ Entries.addrs t.store.entries
    · -- the least address is a root, so its estate goes as a whole, and owners still come first in what is left
      have hRoot := hs.not_mem_slots hx hFirst fun a ha => by
        rcases List.mem_cons.mp (hAll a ha) with rfl | ha
        · exact UInt32.le_refl _
        · exact hLeast a ha
      obtain ⟨w, titles', leaks', rfl, hTitled⟩ := hs.title hx hRoot
      obtain ⟨v, t₁, hRemove, hs₁, -⟩ :=
        Object.removes types depth t w titles' leaks' spare hTitled (Nat.le_of_lt hDepth)
      rw [exec_attempt_ok hRemove] at hTurn
      rw [removeAll, exec_bind_ok (exec_attempt_ok hRemove)]
      cases hTurn with
      | absent hAbsent => exact absurd hx hAbsent
      | freed gone hFree hLoses hGone =>
        have hFirst₁ := hs₁.ownersFirst hFirst hNodup hLoses fun a ha b hb => by
          rw [hGone] at ha ⊢
          exact (hFree.owned_mem hDepth ha hb).1
        exact ih hs₁ (Nat.lt_of_le_of_lt hLoses.size_le hDepth) hFirst₁ hRest (hLoses.mem_rest hNodup hGone hAll)
    · generalize hOut : exec (attempt (remove (Object.destroy false depth) x)) t = out at hTurn
      cases hTurn with
      | absent hAbsent =>
        rw [removeAll, exec_bind_ok hOut]
        exact ih hs hDepth hFirst hRest (mem_rest_of_absent hAbsent hAll)
      | freed gone hFree _ _ => exact absurd (hFree.mem_addrs (t.estate_self depth x)) hx
      | trapped hAt => exact absurd hAt hx

/-! ## Clearing -/

theorem sorted_pairwise (t : Table (Object V)) : (t.store.sorted.map Entry.addr).Pairwise (· ≤ ·) := by
  refine List.pairwise_map.mpr ((List.pairwise_mergeSort ?_ ?_ _).imp fun h => of_decide_eq_true h)
  · intro e e' e'' h h'
    exact decide_eq_true (UInt32.le_trans (of_decide_eq_true h) (of_decide_eq_true h'))
  · intro e e'
    simpa using UInt32.le_total e.addr e'.addr

theorem mem_sorted : ∀ a ∈ Entries.addrs t.store.entries, a ∈ t.store.sorted.map Entry.addr := by
  intro a ha
  obtain ⟨e, he, rfl⟩ := List.mem_map.mp ha
  exact List.mem_map_of_mem (List.mem_mergeSort.mpr he)

theorem Sound.exec_clear (hs : t.Sound types titles leaks spare) :
    (t.OwnersFirst ∧ ∃ t', exec (clear (Object.destroy false (t.store.size + 1))) t = (.ok (), t') ∧
        t.Loses (.of t.store.entries) t' ∧ t'.store.entries = []) ∨
      ¬ t.OwnersFirst ∧
        ∃ why t', exec (clear (Object.destroy false (t.store.size + 1))) t = (.error (.trapped why), t') := by
  have hClear : exec (clear (Object.destroy false (t.store.size + 1))) t = _ := exec_bind_ok (exec_get t)
  rw [hClear]
  obtain ⟨gone, t', hExec, hLoses, hVacant⟩ | ⟨why, t', hExec⟩ :=
    hs.idle.exec_removeAll (t.store.size + 1) (t.store.sorted.map Entry.addr)
  · refine .inl ⟨hs.idle.ownersFirst (Nat.lt_succ_self _) t.sorted_pairwise mem_sorted hExec, t', hExec, ?_⟩
    have hEmpty : t'.store.entries = [] := by
      refine List.eq_nil_iff_forall_not_mem.mpr fun e he => hVacant e.addr ?_ (List.mem_map_of_mem he)
      exact mem_sorted _ (List.mem_map_of_mem (hLoses.mem he))
    have hAll : gone.Perm t.store.entries := by
      have hEntries := hLoses.entries
      rw [hEmpty, List.append_nil] at hEntries
      exact hEntries.symm
    exact ⟨hLoses.perm (Loss.perm_of hAll), hEmpty⟩
  · refine .inr ⟨fun hFirst => ?_, why, t', hExec⟩
    obtain ⟨t'', hOk⟩ := hs.exec_removeAll (Nat.lt_succ_self _) hFirst t.sorted_pairwise mem_sorted
    cases hOk.symm.trans hExec

end Table

end Marshal
