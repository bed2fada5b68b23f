import Marshal.Proofs.Object.Estate
import Marshal.Proofs.Owner.Solvent

/-! # Destructors that trap

A destructor is refused at the object itself, if nothing lives there or it is borrowed, and then nothing has changed.
Past that point it takes the object out before it looks at what the object owns: if some of that is not free, it traps
in the middle, and what has gone by then does not come back.
-/
set_option autoImplicit false
namespace Marshal

open Step

/-- A drop that gets past its object and stops has taken it out. It was a vector of objects, and its storage is left
to nobody. -/
theorem Object.exec_remove_halted {V : Type} {t t' : Table (Object V)} {loose : List UInt32} {depth : Nat}
    {e : Entry (Object V)} {stop : Stop} (hs : t.Solvent loose) (hFound : t.store.entry? e.addr = some e)
    (hIdle : e.isBorrowed = false)
    (hStop : exec (Table.remove (destroy false depth) e.addr) t = (.error stop, t')) :
    t'.store.entry? e.addr = none ∧ ∃ buf, e.value = refVector buf ∧ t'.Solvent (buf.blocks ++ loose) := by
  obtain ⟨spare, ht⟩ := hs.accounted
  obtain ⟨t₁, hDetach, hl, ht₁⟩ := Table.exec_detach_loses ht hFound hIdle
  have hs₁ : t₁.Solvent (e.value.blocks ++ loose) := by
    refine hs.loses [] e.value.blocks hl ?_
    simp [Entries.blocks]
  rw [Table.remove, exec_bind_ok hDetach] at hStop
  -- the destructor itself has stopped
  have hDestroy : exec (destroy false depth e.value) t₁ = (.error stop, t') := by
    rw [exec_bind] at hStop
    generalize exec (destroy false depth e.value) t₁ = out at hStop ⊢
    rcases out with ⟨stop' | _, t₂⟩
    · cases hStop
      rfl
    · cases hStop
  have hNests : e.value.Nests depth := by
    by_contra hPlain
    obtain ⟨t₂, hExec, -⟩ := exec_destroy_loses false hPlain ht₁
    cases hDestroy.symm.trans hExec
  obtain ⟨d, buf, rfl, hValue⟩ := hNests
  rw [hValue] at hs₁ hDestroy
  constructor
  · have hGone : t₁.store.entry? e.addr = none := by
      rw [hl.entry?_eq ht.addrs_nodup]
      exact if_pos List.mem_cons_self
    have hLast := Table.lasting_sheds t₁
    have hSheds : t₁.Sheds (exec (destroy false (d + 1) (refVector buf)) t₁).2 :=
      keeps_destroy hLast (fun d _ => keeps_remove hLast (Table.sheds_detach t₁) false d) _ t₁
        (Table.sheds_of_store rfl)
    rw [hDestroy] at hSheds
    rcases hSheds e.addr with hSame | ⟨hNone, -⟩
    · exact hSame.trans hGone
    · exact hNone
  · exact ⟨buf, hValue, exec_destroy_halted hs₁ hDestroy⟩

namespace Owner

variable {V : Type} {o : Owner V} {addr : UInt32}

def estate (o : Owner V) (addr : UInt32) : List UInt32 := o.table.estate (o.table.store.size + 1) addr

def isFree (o : Owner V) (addr : UInt32) : Bool := o.table.isFree addr

/-- Dropping the object succeeds, and what goes is the object with everything it owns, at any depth. -/
def Frees (o : Owner V) (addr : UInt32) : Prop :=
  ∃ gone t, exec (drop addr) o = (.ok (), { o with table := t }) ∧ o.table.Loses (.of gone) t ∧
    ∀ b, b ∈ Entries.addrs gone ↔ o.table.Reaches addr b

def Traps (o : Owner V) (addr : UInt32) (o' : Owner V) : Prop := ∃ why, exec (drop addr) o = (.error (.trapped why), o')

/-- What the destructor of the object at an address does. -/
structure Dropping (o : Owner V) (addr : UInt32) : Prop where
  /-- The exported destructors, of whatever type, are the drop. -/
  destructor : exec (call .destructor [.u32 addr]) o =
    ((exec (drop addr) o).1.map fun _ => .none, (exec (drop addr) o).2)
  null : addr = 0 → exec (drop addr) o = (.ok (), o)
  /-- Where nothing lives, or what lives there is borrowed, nothing changes. -/
  refused : addr ≠ 0 → o.isFree addr = false → o.Traps addr o
  freed : o.table.AllFree (o.estate addr) → o.Frees addr
  /-- If only the object itself was borrowed, it can be dropped once the borrow is returned. -/
  returned : ∀ kind e e', o.entry? addr = some e → e.giveBack? kind = some e' → e'.isBorrowed = false →
    (o.estate addr).Nodup → (∀ b ∈ o.estate addr, b ≠ addr → o.isFree b = true) →
    (exec (leave addr kind) o).2.Frees addr
  /-- If something that the object owns is not free, the drop traps past the object: it is gone, its storage is left to
  nobody, and so may be other objects, but none that is borrowed. -/
  halted : o.isFree addr = true → ¬ o.table.AllFree (o.estate addr) → ∃ o' e buf, o.Traps addr o' ∧
    o.entry? addr = some e ∧ e.value = .refVector buf ∧ o'.entry? addr = none ∧ o'.Solvent buf.blocks ∧
    o.table.Sheds o'.table
  owned : ∀ b, o.table.Reaches addr b → o.isFree b = false → ¬ o.table.AllFree (o.estate addr)
  /-- A trap has changed nothing exactly if the object itself was not free. -/
  unchanged : ∀ o', o.Traps addr o' → (o' = o ↔ o.isFree addr = false)

theorem Solvent.ne_zero {loose : List UInt32} (hs : o.Solvent loose) {e : Entry (Object V)}
    (hFound : o.entry? addr = some e) : addr ≠ 0 := by
  obtain ⟨spare, ht⟩ := hs.table.accounted
  obtain ⟨he, rfl⟩ := Store.entry?_eq_some hFound
  intro hZero
  refine Accounts.zero_not_live ht.valid (hZero ▸ ht.cells.mem_iff.mpr (List.mem_append_right _ ?_))
  exact List.mem_flatMap.mpr ⟨e, he, List.mem_cons_self⟩

theorem exec_drop_of {r : Except Stop Unit} {t : Table (Object V)} (hOpen : o.closed = false)
    (hExec : exec (Object.dropWith (Table.remove (Object.destroy false (o.table.store.size + 1))) addr) o.table =
      (r, t)) :
    exec (drop addr) o = (r, { o with table := t }) := by
  rw [drop, exec_bind_ok (exec_get o), exec_onTable, destroyer, hOpen, hExec]

theorem Solvent.refused (hs : o.Solvent []) (hNull : addr ≠ 0) (hNot : o.isFree addr = false) : o.Traps addr o := by
  obtain ⟨r, hDetach⟩ := Table.exec_detach_unfree hNot
  obtain ⟨why, hDrop⟩ := Object.exec_dropWith_stopped hNull
    (show exec (Table.remove _ addr) o.table = _ from exec_bind_error hDetach) nofun
  exact ⟨why, exec_drop_of hs.isOpen hDrop⟩

theorem Solvent.freed (hs : o.Solvent []) (hFree : o.table.AllFree (o.estate addr)) : o.Frees addr := by
  obtain ⟨spare, ht⟩ := hs.table.accounted
  obtain ⟨e, hFound, -⟩ := Table.isFree_eq_true_iff.mp (hFree.2 addr List.mem_cons_self)
  have hSettled := Object.exec_dropWith_settled ht.valid
    (Object.exec_remove_settled (o.table.store.size + 1) o.table spare addr ht)
  rw [if_neg (hs.ne_zero hFound)] at hSettled
  generalize hOut : exec (Object.dropWith _ addr) o.table = out at hSettled
  cases hSettled with
  | freed gone _ hLoses hGone =>
    refine ⟨gone, _, exec_drop_of hs.isOpen hOut, hLoses, fun b => ?_⟩
    rw [hGone]
    exact hFree.mem_estate_iff (Nat.le_succ _) b
  | stuck hNot _ => exact absurd hFree hNot

theorem Solvent.halted (hs : o.Solvent []) (hAt : o.isFree addr = true) (hNot : ¬ o.table.AllFree (o.estate addr)) :
    ∃ o' e buf, o.Traps addr o' ∧ o.entry? addr = some e ∧ e.value = .refVector buf ∧ o'.entry? addr = none ∧
      o'.Solvent buf.blocks ∧ o.table.Sheds o'.table := by
  obtain ⟨spare, ht⟩ := hs.table.accounted
  obtain ⟨e, hFound, hIdle⟩ := Table.isFree_eq_true_iff.mp hAt
  have hNull := hs.ne_zero hFound
  obtain rfl : e.addr = addr := addr_of_entry? hFound
  have hSettled := Object.exec_remove_settled (o.table.store.size + 1) o.table spare e.addr ht
  generalize hOut : exec (Table.remove _ e.addr) o.table = out at hSettled
  cases hSettled with
  | freed _ hFree => exact absurd hFree hNot
  | stuck _ hStop =>
    obtain ⟨hGone, buf, hValue, hs'⟩ := Object.exec_remove_halted hs.table hFound hIdle hOut
    obtain ⟨why, hDrop⟩ := Object.exec_dropWith_stopped hNull hOut hStop
    have hExec := exec_drop_of hs.isOpen hDrop
    have hSheds := o.sheds_drop e.addr
    rw [hExec] at hSheds
    rw [List.append_nil] at hs'
    exact ⟨_, e, buf, ⟨why, hExec⟩, hFound, hValue, hGone, ⟨hs.isOpen, hs'⟩, hSheds⟩

theorem Solvent.traps (hs : o.Solvent []) (hNull : addr ≠ 0) (hNot : ¬ o.table.AllFree (o.estate addr)) :
    o.Traps addr (exec (drop addr) o).2 := by
  have hTraps : ∃ o', o.Traps addr o' := by
    cases hAt : o.isFree addr with
    | false => exact ⟨o, hs.refused hNull hAt⟩
    | true =>
      obtain ⟨o', -, -, hTraps, -⟩ := hs.halted hAt hNot
      exact ⟨o', hTraps⟩
  obtain ⟨o', why, hExec⟩ := hTraps
  refine ⟨why, ?_⟩
  rw [hExec]

theorem Solvent.returned (hs : o.Solvent []) {kind : BorrowKind} {e e' : Entry (Object V)}
    (hFound : o.entry? addr = some e) (hBack : e.giveBack? kind = some e') (hIdle : e'.isBorrowed = false)
    (hNodup : (o.estate addr).Nodup) (hRest : ∀ b ∈ o.estate addr, b ≠ addr → o.isFree b = true) :
    (exec (leave addr kind) o).2.Frees addr := by
  have hEdits := exec_leave_edits hFound hBack
  have hs' : (exec (leave addr kind) o).2.Solvent [] :=
    (solvent_walk []).leave addr kind o hs
  have hSame : (exec (leave addr kind) o).2.table.heap = o.table.heap ∧
      (exec (leave addr kind) o).2.table.store.size = o.table.store.size := by
    rw [leave, exec_bind_pure, exec_onTable]
    obtain ⟨hExec, -⟩ | ⟨x, x', id, -, -, hExec⟩ := o.table.exec_giveBack_cases addr kind
    · rw [hExec]
      exact ⟨rfl, rfl⟩
    · rw [hExec]
      exact ⟨rfl, List.length_map _⟩
  generalize (exec (leave addr kind) o).2 = o₁ at hEdits hs' hSame ⊢
  have hOwned : ∀ a, o₁.table.owned a = o.table.owned a := by
    intro a
    have hEntry : o₁.table.store.entry? a = _ := hEdits a
    rw [Table.owned, Table.owned, hEntry, hSame.1]
    split_ifs with hEq
    · subst hEq
      rw [hFound, show o.table.store.entry? a = some e from hFound, Option.map_some]
      simp only [Entry.giveBack?_value hBack]
    · rfl
  refine hs'.freed ?_
  rw [estate, Table.estate_of_owned hOwned, hSame.2]
  refine ⟨hNodup, fun b hb => ?_⟩
  have hEntry : o₁.table.store.entry? b = _ := hEdits b
  rw [Table.isFree, hEntry]
  by_cases hEq : b = addr
  · rw [if_pos hEq, hEq, hFound]
    simp [hIdle]
  · rw [if_neg hEq]
    exact hRest b hb hEq

theorem Solvent.dropping (hs : o.Solvent []) (addr : UInt32) : o.Dropping addr := by
  refine ⟨exec_bind_pure _ _ o, ?_, hs.refused, hs.freed, fun _ _ _ => hs.returned, hs.halted, ?_, ?_⟩
  · rintro rfl
    exact exec_drop_of hs.isOpen rfl
  · intro b hReaches hNot hFree
    have hMem := (hFree.mem_estate_iff (Nat.le_succ _) b).mpr hReaches
    cases hNot.symm.trans (hFree.2 b hMem)
  · rintro o' ⟨why, hTrap⟩
    constructor
    · rintro rfl
      by_contra hFree
      rw [Bool.not_eq_false] at hFree
      by_cases hAll : o'.table.AllFree (o'.estate addr)
      · obtain ⟨gone, t, hExec, -⟩ := hs.freed hAll
        cases hTrap.symm.trans hExec
      · obtain ⟨o₁, e, buf, ⟨why', hExec⟩, hFound, -, hGone, -⟩ := hs.halted hFree hAll
        cases hTrap.symm.trans hExec
        cases hFound.symm.trans hGone
    · intro hNot
      by_cases hNull : addr = 0
      · subst hNull
        cases hTrap.symm.trans (exec_drop_of hs.isOpen rfl)
      · obtain ⟨why', hExec⟩ := hs.refused hNull hNot
        cases hTrap.symm.trans hExec
        rfl

/-- Whatever an owner has served, its destructors are refused at the object or trap past it. -/
theorem Served.drops (config : Config) {o o' : Owner V} (hCreate : create config = .ok o)
    (hLimit : o.table.heap.memory.maxPages ≤ 65535) (hServed : o.Served o') (addr : UInt32) : o'.Dropping addr :=
  (hServed.solvent (solvent_create config hCreate hLimit)).dropping addr

def serve (o : Owner V) : List (Action V) → Owner V
  | [] => o
  | a :: rest => (exec a.run o).2.serve rest

theorem served_serve (o : Owner V) {actions : List (Action V)} (hSpares : ∀ a ∈ actions, ∀ o', a.Spares o') :
    o.Served (o.serve actions) := by
  have hAll : ∀ o', o.Served o' → o.Served (o'.serve actions) := by
    induction actions with
    | nil => exact fun _ => id
    | cons a rest ih =>
      intro o' hServed
      rw [List.forall_mem_cons] at hSpares
      exact ih hSpares.2 _ (.act a hServed (hSpares.1 o'))
  exact hAll o .start

/-- A vector at 24 owns an object at 16, which is borrowed. -/
def lentElement : List (Action Nat) :=
  let elem : OpaqueType := ⟨"P", 1⟩
  let type : OpaqueType := ⟨vecTypeName "P", 2⟩
  [.register (.guests "P"), .register (.objects "P"), .box "P" 1, .call (.refVec type elem .new) [],
    .call (.refVec type elem .push) [.u32 24, .u32 16], .borrow 16 .shared]

theorem served_lentElement (o : Owner Nat) : o.Served (o.serve lentElement) := by
  apply served_serve
  simp [lentElement, Action.Spares]

theorem Served.drops_lentElement :
    ∃ o o' : Owner Nat, create {} = .ok o ∧ o.table.heap.memory.maxPages ≤ 65535 ∧ o.Served o' ∧
      (o'.isFree 24 = true ∧ o'.table.owned 24 = [16] ∧ o'.isFree 16 = false) ∧ o'.Dropping 24 := by
  refine ⟨_, _, rfl, by decide +kernel, served_lentElement _, by decide +kernel, ?_⟩
  exact Served.drops {} rfl (by decide +kernel) (served_lentElement _) 24

/-- When the destructor traps at the borrowed element, the vector and its cell are gone. -/
theorem Served.drops_not_whole :
    ∃ o o' o'' : Owner Nat, create {} = .ok o ∧ o.Served o' ∧ o'.Traps 24 o'' ∧
      (Entries.addrs o'.table.store.entries = [24, 16] ∧ Entries.addrs o''.table.store.entries = [16]) ∧
      24 ∈ o'.table.heap.addrs ∧ 24 ∉ o''.table.heap.addrs := by
  refine ⟨_, _, _, rfl, served_lentElement _, Solvent.traps ?_ (by decide) ?_, ?_, ?_⟩
  · exact (served_lentElement _).solvent (solvent_create {} rfl (by decide +kernel))
  all_goals decide +kernel

end Owner

end Marshal
