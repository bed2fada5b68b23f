import Marshal.Owner.Call
import Marshal.Proofs.Owner.TypeChecks

/-! # Borrows under nested callbacks

A callback may itself borrow, drop and take objects, its own among them, and may trap at any point. However such a
tree of calls ends, every borrow taken in it has been given back; and while a callback runs, its object stays in the
table and no other callback runs against its borrow. All this rests on the count of shared borrows, and is lost when
that wraps.
-/
set_option autoImplicit false
namespace Marshal

open Step

/-! ## Trees of calls -/

def Step.outcome {σ α : Type} (x : Step σ α) : Step σ (Except Stop α) :=
  tryCatch (Except.ok <$> x) fun e => pure (.error e)

theorem Step.exec_outcome {σ α : Type} (x : Step σ α) (s : σ) :
    exec (outcome x) s = (.ok (exec x s).1, (exec x s).2) := by
  rw [outcome, exec_tryCatch, exec_map]
  rcases exec x s with ⟨e | a, s'⟩ <;> rfl

/-- What a callback does, step by step. It goes on from each step by how that step ended, so it may pass a trap on or
recover from it. -/
inductive Callback (V ρ : Type) : Type 1 where
  | ends (result : Except Stop ρ)
  | drop (addr : UInt32) (next : Except Stop Unit → Callback V ρ)
  | unbox (addr : UInt32) (next : Except Stop (Object V) → Callback V ρ)
  | take (type : OpaqueType) (addr : UInt32) (next : Except Stop V → Callback V ρ)
  | assign (addr : UInt32) (value : Object V) (next : Callback V ρ)
  | borrow {β : Type} (strict : Bool) (type : OpaqueType) (addr : UInt32) (kind : BorrowKind)
      (project : Object V → Option β) (body : β → Callback V ρ) (next : Except Stop ρ → Callback V ρ)

/-- The callbacks that are running, each with its address and the kind of its borrow, and the owner they run on. -/
structure Moment (V : Type) where
  running : List (UInt32 × BorrowKind)
  owner : Owner V

namespace Callback

variable {V ρ : Type}

def run : Callback V ρ → Step (Owner V) ρ
  | ends (.ok r) => pure r
  | ends (.error e) => throw e
  | drop addr next => do (next (← outcome (Owner.drop addr))).run
  | unbox addr next => do (next (← outcome (Owner.unbox addr))).run
  | take type addr next => do (next (← outcome (Owner.take type addr))).run
  | assign addr value next => do
    Owner.onTable (Table.setValue addr value)
    next.run
  | borrow strict type addr kind project body next => do
    (next (← outcome (Owner.accessAs strict type addr kind project fun b => (body b).run))).run

def moments (running : List (UInt32 × BorrowKind)) : Callback V ρ → Owner V → List (Moment V)
  | ends _, o => [⟨running, o⟩]
  | drop addr next, o =>
    let out := exec (Owner.drop addr) o
    ⟨running, o⟩ :: (next out.1).moments running out.2
  | unbox addr next, o =>
    let out := exec (Owner.unbox addr) o
    ⟨running, o⟩ :: (next out.1).moments running out.2
  | take type addr next, o =>
    let out := exec (Owner.take type addr) o
    ⟨running, o⟩ :: (next out.1).moments running out.2
  | assign addr value next, o =>
    ⟨running, o⟩ :: next.moments running (exec (Owner.onTable (Table.setValue addr value)) o).2
  | borrow strict type addr kind project body next, o =>
    let out := exec (Owner.accessAs strict type addr kind project fun b => (body b).run) o
    let inside := match exec (Owner.enter type addr kind project) o with
      | (.ok b, o₁) => (body b).moments ((addr, kind) :: running) o₁
      | (.error _, _) => []
    ⟨running, o⟩ :: inside ++ (next out.1).moments running out.2

theorem head_mem_moments (running : List (UInt32 × BorrowKind)) (c : Callback V ρ) (o : Owner V) :
    ⟨running, o⟩ ∈ c.moments running o := by
  cases c <;> simp [moments]

theorem end_mem_moments (running : List (UInt32 × BorrowKind)) (c : Callback V ρ) (o : Owner V) :
    ⟨running, (exec c.run o).2⟩ ∈ c.moments running o := by
  induction c generalizing o with
  | ends result => cases result <;> simp [run, moments]
  | drop addr next ih =>
    rw [run, exec_bind_ok (exec_outcome _ o), moments]
    exact List.mem_cons_of_mem _ (ih _ _)
  | unbox addr next ih =>
    rw [run, exec_bind_ok (exec_outcome _ o), moments]
    exact List.mem_cons_of_mem _ (ih _ _)
  | take type addr next ih =>
    rw [run, exec_bind_ok (exec_outcome _ o), moments]
    exact List.mem_cons_of_mem _ (ih _ _)
  | assign addr value next ih =>
    rw [run, moments]
    exact List.mem_cons_of_mem _ (ih _)
  | borrow strict type addr kind project body next _ ih =>
    rw [run, exec_bind_ok (exec_outcome _ o), moments]
    exact List.mem_append_right _ (ih _ _)

end Callback

/-! ## Every moment of a tree -/

/-- Two running callbacks with one address are both shared. -/
def Apart (a b : UInt32 × BorrowKind) : Prop := a.1 = b.1 → a.2 = .shared ∧ b.2 = .shared

/-- The borrows of each object are those it had at first and those of the running callbacks. -/
structure Tally {V : Type} (base : Owner V) (running : List (UInt32 × BorrowKind)) (o : Owner V) : Prop where
  counts : ∀ addr e, o.entry? addr = some e → ∃ e₀, base.entry? addr = some e₀ ∧
    e.shared.toNat = e₀.shared.toNat + running.count (addr, .shared) ∧
    e.exclusive.toNat = e₀.exclusive.toNat + running.count (addr, .exclusive)
  held : ∀ b ∈ running, ∃ e, o.entry? b.1 = some e
  apart : running.Pairwise Apart

namespace Tally

variable {V : Type} {base o o' : Owner V} {running : List (UInt32 × BorrowKind)} {addr : UInt32} {kind : BorrowKind}

theorem start (o : Owner V) : Tally o [] o := by
  refine ⟨?_, ?_, List.Pairwise.nil⟩
  · intro addr e hFound
    exact ⟨e, hFound, rfl, rfl⟩
  · intro b hb
    cases hb

variable {e : Entry (Object V)}

theorem isBorrowed (h : Tally base running o) (hRunning : (addr, kind) ∈ running)
    (hFound : o.entry? addr = some e) : e.isBorrowed = true := by
  obtain ⟨e₀, -, hShared, hExclusive⟩ := h.counts addr e hFound
  have hPos : 0 < running.count (addr, kind) := List.count_pos_iff.mpr hRunning
  rw [Entry.isBorrowed, Bool.or_eq_true, decide_eq_true_iff]
  cases kind with
  | shared =>
    left
    show 0 < e.shared.toNat
    omega
  | exclusive =>
    right
    cases hFlag : e.exclusive with
    | true => rfl
    | false =>
      rw [hFlag] at hExclusive
      simp at hExclusive
      omega

theorem shed (h : Tally base running o) (hShed : o.table.Sheds o'.table) : Tally base running o' := by
  refine ⟨?_, ?_, h.apart⟩
  · intro addr e hFound
    rcases hShed addr with hSame | ⟨hGone, -⟩
    · exact h.counts addr e (hSame.symm.trans hFound)
    · cases hGone.symm.trans hFound
  · rintro ⟨addr, kind⟩ hRunning
    obtain ⟨e, hFound⟩ := h.held _ hRunning
    rcases hShed addr with hSame | ⟨-, e', hFound', hIdle⟩
    · exact ⟨e, hSame.trans hFound⟩
    · -- an object that has left was not borrowed, so no callback runs on it
      cases hFound.symm.trans hFound'
      cases hIdle.symm.trans (h.isBorrowed hRunning hFound)

theorem edit (h : Tally base running o) {f : Entry (Object V) → Entry (Object V)}
    (hEdit : o.Edits addr f o') {running' : List (UInt32 × BorrowKind)}
    (hAt : ∀ e e₀, o.entry? addr = some e → base.entry? addr = some e₀ →
      e.shared.toNat = e₀.shared.toNat + running.count (addr, .shared) →
      e.exclusive.toNat = e₀.exclusive.toNat + running.count (addr, .exclusive) →
      (f e).shared.toNat = e₀.shared.toNat + running'.count (addr, .shared) ∧
      (f e).exclusive.toNat = e₀.exclusive.toNat + running'.count (addr, .exclusive))
    (hElse : ∀ a kind, a ≠ addr → running'.count (a, kind) = running.count (a, kind))
    (hHeld : ∀ b ∈ running', ∃ e, o.entry? b.1 = some e) (hApart : running'.Pairwise Apart) :
    Tally base running' o' := by
  refine ⟨?_, ?_, hApart⟩
  · intro a e hFound
    rw [hEdit a] at hFound
    split at hFound
    · rename_i hEq
      subst hEq
      obtain ⟨e, hBefore, rfl⟩ := Option.map_eq_some_iff.mp hFound
      obtain ⟨e₀, hBase, hShared, hExclusive⟩ := h.counts a e hBefore
      exact ⟨e₀, hBase, hAt e e₀ hBefore hBase hShared hExclusive⟩
    · rename_i hNe
      obtain ⟨e₀, hBase, hCounts⟩ := h.counts a e hFound
      rw [← hElse a .shared hNe, ← hElse a .exclusive hNe] at hCounts
      exact ⟨e₀, hBase, hCounts⟩
  · intro b hb
    obtain ⟨e, hFound⟩ := hHeld b hb
    rw [hEdit b.1, hFound]
    split
    · exact ⟨f e, rfl⟩
    · exact ⟨e, rfl⟩

theorem apart_of_admits (h : Tally base running o) (hFound : o.entry? addr = some e)
    (hAdmits : e.admits kind = true) : ∀ b ∈ running, Apart (addr, kind) b := by
  rintro ⟨a, k⟩ hRunning rfl
  have hBorrowed := h.isBorrowed hRunning hFound
  obtain ⟨e₀, -, -, hExclusive⟩ := h.counts addr e hFound
  cases kind with
  | exclusive =>
    -- nobody borrows an object that admits an exclusive borrow
    simp only [Entry.admits, Bool.and_eq_true, Bool.not_eq_true', decide_eq_true_eq] at hAdmits
    rw [Entry.isBorrowed_of_free ⟨hAdmits.2, hAdmits.1⟩] at hBorrowed
    cases hBorrowed
  | shared =>
    simp only [Entry.admits, Bool.not_eq_true'] at hAdmits
    cases k with
    | shared => exact ⟨rfl, rfl⟩
    | exclusive =>
      have hPos : 0 < running.count (addr, .exclusive) := List.count_pos_iff.mpr hRunning
      rw [hAdmits, Bool.toNat_false] at hExclusive
      omega

theorem enter (h : Tally base running o) (hFound : o.entry? addr = some e)
    (hAdmits : e.admits kind = true) (hEdit : o.Edits addr (·.borrow kind) o')
    (hFew : ∀ e₀, base.entry? addr = some e₀ →
      e₀.shared.toNat + ((addr, kind) :: running).count (addr, .shared) < 2 ^ 32) :
    Tally base ((addr, kind) :: running) o' := by
  apply h.edit hEdit
  · intro e' e₀ hFound' hBase hShared hExclusive
    cases hFound.symm.trans hFound'
    have hFew := hFew e₀ hBase
    cases kind with
    | shared =>
      rw [List.count_cons_self] at hFew ⊢
      rw [List.count_cons_of_ne (by simp)]
      have hNext : (e.shared + 1).toNat = e.shared.toNat + 1 := by
        rw [UInt32.toNat_add, UInt32.toNat_one, Nat.mod_eq_of_lt (by omega)]
      refine ⟨?_, hExclusive⟩
      rw [Entry.borrow, hNext]
      omega
    | exclusive =>
      rw [List.count_cons_self, List.count_cons_of_ne (by simp)]
      simp only [Entry.admits, Bool.and_eq_true, Bool.not_eq_true', decide_eq_true_eq] at hAdmits
      rw [hAdmits.1, Bool.toNat_false] at hExclusive
      refine ⟨hShared, ?_⟩
      rw [Entry.borrow, Bool.toNat_true]
      omega
  · intro a k hNe
    exact List.count_cons_of_ne (fun hEq => hNe (congrArg Prod.fst hEq).symm)
  · intro b hb
    rcases List.mem_cons.mp hb with rfl | hb
    · exact ⟨e, hFound⟩
    · exact h.held b hb
  · exact List.pairwise_cons.mpr ⟨h.apart_of_admits hFound hAdmits, h.apart⟩

theorem leave (h : Tally base ((addr, kind) :: running) o) :
    Tally base running (exec (Owner.leave addr kind) o).2 := by
  obtain ⟨e, hFound⟩ : ∃ e, o.entry? addr = some e := h.held _ List.mem_cons_self
  obtain ⟨e₀, hBase, hShared, hExclusive⟩ := h.counts addr e hFound
  have hElse : ∀ a k, a ≠ addr → running.count (a, k) = ((addr, kind) :: running).count (a, k) := by
    intro a k hNe
    exact (List.count_cons_of_ne (fun hEq => hNe (congrArg Prod.fst hEq).symm)).symm
  have hHeld : ∀ b ∈ running, ∃ e, o.entry? b.1 = some e := fun b hb => h.held b (List.mem_cons_of_mem _ hb)
  have hApart := (List.pairwise_cons.mp h.apart).2
  cases kind with
  | shared =>
    rw [List.count_cons_self] at hShared
    rw [List.count_cons_of_ne (by simp)] at hExclusive
    have hPos : e.shared ≠ 0 := by
      intro hZero
      rw [hZero, UInt32.toNat_zero] at hShared
      omega
    have hBack : e.giveBack? .shared = some { e with shared := e.shared - 1 } := if_neg hPos
    refine h.edit (Owner.exec_leave_edits hFound hBack) ?_ hElse hHeld hApart
    intro e' e₀' hFound' hBase' _ _
    cases hFound.symm.trans hFound'
    cases hBase.symm.trans hBase'
    refine ⟨?_, hExclusive⟩
    have hLess : (e.shared - 1).toNat = e.shared.toNat - 1 := by
      rw [UInt32.toNat_sub_of_le]
      · rfl
      · rw [UInt32.le_iff_toNat_le, UInt32.toNat_one]
        omega
    show (e.shared - 1).toNat = _
    omega
  | exclusive =>
    rw [List.count_cons_self] at hExclusive
    rw [List.count_cons_of_ne (by simp)] at hShared
    have hFlag : e.exclusive = true := by
      cases hFlag : e.exclusive with
      | true => rfl
      | false =>
        rw [hFlag, Bool.toNat_false] at hExclusive
        omega
    have hBack : e.giveBack? .exclusive = some { e with exclusive := false } := if_pos hFlag
    refine h.edit (Owner.exec_leave_edits hFound hBack) ?_ hElse hHeld hApart
    intro e' e₀' hFound' hBase' _ _
    cases hFound.symm.trans hFound'
    cases hBase.symm.trans hBase'
    refine ⟨hShared, ?_⟩
    rw [hFlag, Bool.toNat_true] at hExclusive
    show 0 = _
    omega

end Tally

/-! ## Whole trees -/

namespace Callback

variable {V ρ : Type}

/-- Fewer than `2 ^ 32` shared borrows are outstanding on any object, those that were there at first included. -/
def Few (base : Owner V) (m : Moment V) : Prop :=
  ∀ addr e, base.entry? addr = some e → e.shared.toNat + m.running.count (addr, .shared) < 2 ^ 32

theorem tally_moments {base : Owner V} (c : Callback V ρ) {running : List (UInt32 × BorrowKind)} {o : Owner V}
    (h : Tally base running o) (hFew : ∀ m ∈ c.moments running o, Few base m) :
    ∀ m ∈ c.moments running o, Tally base m.running m.owner := by
  induction c generalizing running o with
  | ends result =>
    intro m hm
    obtain rfl := List.mem_singleton.mp hm
    exact h
  | drop addr next ih =>
    rw [moments, List.forall_mem_cons] at hFew ⊢
    exact ⟨h, ih _ (h.shed (o.sheds_drop addr)) hFew.2⟩
  | unbox addr next ih =>
    rw [moments, List.forall_mem_cons] at hFew ⊢
    exact ⟨h, ih _ (h.shed (o.sheds_unbox addr)) hFew.2⟩
  | take type addr next ih =>
    rw [moments, List.forall_mem_cons] at hFew ⊢
    exact ⟨h, ih _ (h.shed (o.sheds_takeOf type addr)) hFew.2⟩
  | assign addr value next ih =>
    rw [moments, List.forall_mem_cons] at hFew ⊢
    refine ⟨h, ih ?_ hFew.2⟩
    have hEdit : o.Edits addr (fun e => { e with value }) (exec (Owner.onTable (Table.setValue addr value)) o).2 :=
      Owner.edits_modify (fun e he => he) rfl
    refine h.edit hEdit ?_ (fun _ _ _ => rfl) h.held h.apart
    intro e e₀ _ _ hShared hExclusive
    exact ⟨hShared, hExclusive⟩
  | borrow strict type addr kind project body next ihBody ihNext =>
    rw [moments, List.cons_append, List.forall_mem_cons, List.forall_mem_append] at hFew ⊢
    obtain ⟨-, hFewBody, hFewNext⟩ := hFew
    have hState := Owner.state_accessAs strict type addr kind project (fun b => (body b).run) o
    obtain ⟨e, b, o₁, hEnter, ⟨hFound, -, -, hAdmits⟩, hEdit⟩ | ⟨stop, hEnter, -⟩ :=
      Owner.exec_enter_cases o type addr kind project
    · rw [hEnter] at hFewBody hState ⊢
      -- the callback runs with its borrow on top of those it runs under
      have hInside : Tally base ((addr, kind) :: running) o₁ :=
        h.enter hFound hAdmits hEdit (hFewBody _ (head_mem_moments _ _ _) addr)
      have hBody := ihBody b hInside hFewBody
      have hAfter : Tally base ((addr, kind) :: running) (exec (body b).run o₁).2 :=
        hBody _ (end_mem_moments _ _ _)
      refine ⟨h, hBody, ihNext _ ?_ hFewNext⟩
      rw [hState]
      exact hAfter.leave
    · rw [hEnter] at hState ⊢
      refine ⟨h, List.forall_mem_nil _, ihNext _ ?_ hFewNext⟩
      rw [hState]
      exact h

def inspect (type : OpaqueType) (addr : UInt32) (f : V → Option Datum) : Callback V Reply :=
  borrow true type addr .shared (Owner.guest? · >>= f) (fun v => ends (.ok (.datum v))) ends

def amend (type : OpaqueType) (addr : UInt32) (f : V → Datum → Option (V × Datum)) (arg : Datum) : Callback V Reply :=
  borrow true type addr .exclusive (Owner.guest? · >>= fun g => f g arg)
    (fun (g, answer) => assign addr (.guest g) (ends (.ok (.datum answer)))) ends

theorem exec_run_ends (x : Step (Owner V) ρ) (o : Owner V) :
    exec (outcome x >>= fun r => (ends r : Callback V ρ).run) o = exec x o := by
  rw [exec_bind_ok (exec_outcome x o)]
  rcases exec x o with ⟨stop | a, o'⟩ <;> rfl

theorem exec_call_inspect (type : OpaqueType) (result : WireType) (f : V → Option Datum) (addr : UInt32) (o : Owner V) :
    exec (Owner.call (.inspect type result f) [.u32 addr]) o = exec (inspect type addr f).run o :=
  (exec_run_ends _ o).symm

theorem exec_call_amend (type : OpaqueType) (input result : WireType) (f : V → Datum → Option (V × Datum))
    (addr : UInt32) (arg : Datum) (o : Owner V) :
    exec (Owner.call (.amend type input result f) [.u32 addr, arg]) o = exec (amend type addr f arg).run o :=
  (exec_run_ends _ o).symm

/-- What borrows do in a tree of calls. -/
structure Balanced (c : Callback V ρ) (o : Owner V) : Prop where
  /-- An object that outlives the tree is borrowed as it was. -/
  restored : ∀ addr e e', o.entry? addr = some e → Owner.entry? (exec c.run o).2 addr = some e' →
    e'.shared = e.shared ∧ e'.exclusive = e.exclusive
  /-- Where a callback has an exclusive borrow, no other runs at its address. -/
  apart : ∀ m ∈ c.moments [] o, m.running.Pairwise Apart
  /-- The object of a running callback is in the table, and borrowed. -/
  held : ∀ m ∈ c.moments [] o, ∀ b ∈ m.running, ∃ e, m.owner.entry? b.1 = some e ∧ e.isBorrowed = true
  /-- A call is refused, and its callback not run, exactly if the owner does not admit it. -/
  refused : ∀ m ∈ c.moments [] o, ∀ (β : Type) strict type addr kind (project : Object V → Option β),
    (∃ stop, ∀ (α : Type) (body : β → Step (Owner V) α),
      exec (Owner.accessAs strict type addr kind project body) m.owner = (.error stop, m.owner)) ↔
    ¬ m.owner.Admits type addr kind project
  /-- The exported methods of opaque types are calls of this kind. -/
  inspects : ∀ m ∈ c.moments [] o, ∀ type result f addr,
    exec (Owner.call (.inspect type result f) [.u32 addr]) m.owner = exec (inspect type addr f).run m.owner
  amends : ∀ m ∈ c.moments [] o, ∀ type input result f addr arg,
    exec (Owner.call (.amend type input result f) [.u32 addr, arg]) m.owner = exec (amend type addr f arg).run m.owner

/-- Borrows are balanced and exclusive under any nesting. -/
theorem balanced (c : Callback V ρ) (o : Owner V) (hFew : ∀ m ∈ c.moments [] o, Few o m) : c.Balanced o := by
  have hTally := c.tally_moments (Tally.start o) hFew
  refine ⟨?_, ?_, ?_, ?_, ?_, ?_⟩
  · intro addr e e' hBefore hAfter
    obtain ⟨e₀, hBase, hShared, hExclusive⟩ := (hTally _ (end_mem_moments [] c o)).counts addr e' hAfter
    cases hBefore.symm.trans hBase
    refine ⟨UInt32.toNat_inj.mp hShared, ?_⟩
    cases hAt : e'.exclusive <;> cases hAt₀ : e.exclusive <;> simp [hAt, hAt₀] at hExclusive ⊢
  · intro m hm
    exact (hTally m hm).apart
  · intro m hm b hb
    obtain ⟨e, hFound⟩ := (hTally m hm).held b hb
    exact ⟨e, hFound, (hTally m hm).isBorrowed hb hFound⟩
  · intro m _ β strict type addr kind project
    exact m.owner.refused_accessAs_iff strict type addr kind project
  · intro m _ type result f addr
    exact exec_call_inspect type result f addr m.owner
  · intro m _ type input result f addr arg
    exact exec_call_amend type input result f addr arg m.owner

def twoGuests : Owner Nat :=
  { table :=
      { heap := { Heap.create .linear 1 1 with live := [⟨16, 8, 8⟩, ⟨24, 8, 8⟩], next := 32 }
        store := { entries := [⟨16, 1, .guest 5, 0, false⟩, ⟨24, 1, .guest 6, 0, false⟩] } }
    executor := .create 1
    config := {} }

/-- Under a shared borrow of the first object the callback fails to borrow it exclusively and to drop it, and then
traps inside a second shared borrow, after dropping the other object. -/
def trapping : Callback Nat Unit :=
  let type : OpaqueType := ⟨"P", 1⟩
  borrow false type 16 .shared Owner.guest?
    (fun _ => borrow false type 16 .exclusive Owner.guest? (fun _ => ends (.ok ())) fun _ =>
      drop 16 fun _ =>
        borrow true type 16 .shared Owner.guest?
          (fun _ => drop 24 fun _ => ends (.error (.trapped (.report (.doubleFree .runtime 24))))) ends)
    ends

theorem balanced_trapping : (∀ m ∈ trapping.moments [] twoGuests, Few twoGuests m) ∧ trapping.Balanced twoGuests := by
  have hDepths : (trapping.moments [] twoGuests).map (·.running.length) = [0, 1, 1, 1, 2, 2, 1, 0] := by decide
  have hFew : ∀ m ∈ trapping.moments [] twoGuests, Few twoGuests m := by
    intro m hm addr e hFound
    have hLength : m.running.length ≤ 2 :=
      (by decide : ∀ n ∈ [0, 1, 1, 1, 2, 2, 1, 0], n ≤ 2) _ (hDepths ▸ List.mem_map_of_mem hm)
    have hCount := List.count_le_length (a := (addr, BorrowKind.shared)) (l := m.running)
    have hShared : e.shared = 0 := by
      have hEntry := (Store.entry?_eq_some hFound).1
      simp [twoGuests] at hEntry
      rcases hEntry with rfl | rfl <;> rfl
    rw [hShared, UInt32.toNat_zero]
    omega
  exact ⟨hFew, balanced trapping twoGuests hFew⟩

/-! ## A count that wraps -/

def under (type : OpaqueType) (addr : UInt32) (body : Callback V Unit) : Callback V Unit :=
  borrow false type addr .shared Owner.guest? (fun _ => body) ends

def seize (type : OpaqueType) (addr : UInt32) : Callback V Unit :=
  borrow false type addr .exclusive Owner.guest? (fun _ => ends (.ok ())) ends

variable {o : Owner V} {type : OpaqueType} {addr : UInt32} {e : Entry (Object V)} {v : V}
  (hFound : o.entry? addr = some e) (hType : e.typeId = type.typeId)
  (hGuest : Owner.guest? e.value = some v) (hFree : e.exclusive = false)

include hFound hType hGuest hFree

theorem exec_run_under_ends :
    Owner.entry? (exec (under type addr (ends (.ok ()))).run o).2 addr = some e.reread := by
  obtain ⟨o', hRead, hEdits⟩ := Owner.exec_access_read hFound hType Owner.guest? hGuest hFree fun _ => ()
  have hRun : exec (under type addr (ends (.ok ()))).run o = (.ok (), o') := (exec_run_ends _ o).trans hRead
  rw [hRun, hEdits addr, if_pos rfl, hFound]
  rfl

/-- The moments under the borrow are those of the body, on an object whose count has gone up. -/
theorem moments_under (body : Callback V Unit) :
    ∃ o₁, o₁.entry? addr = some (e.borrow .shared) ∧
      ∀ m ∈ body.moments [(addr, .shared)] o₁, m ∈ (under type addr body).moments [] o := by
  obtain ⟨o₁, hEnter, -, hFound₁⟩ := Owner.exec_enter_ok hFound hType Owner.guest? hGuest
    (show e.admits .shared = true by simp [Entry.admits, hFree])
  refine ⟨o₁, hFound₁, fun m hm => ?_⟩
  rw [under, moments, hEnter]
  exact List.mem_append_left _ (List.mem_cons_of_mem _ hm)

theorem exists_seized (hWraps : e.shared + 1 = 0) :
    ∃ m ∈ (under type addr (seize type addr)).moments [] o, m.running = [(addr, .exclusive), (addr, .shared)] := by
  obtain ⟨o₁, hFound₁, hMem⟩ := moments_under hFound hType hGuest hFree (seize type addr)
  obtain ⟨o₂, hEnter, -, -⟩ := Owner.exec_enter_ok hFound₁ hType Owner.guest? hGuest
    (show (e.borrow .shared).admits .exclusive = true by simp [Entry.admits, Entry.borrow, hFree, hWraps])
  refine ⟨⟨[(addr, .exclusive), (addr, .shared)], o₂⟩, hMem _ ?_, rfl⟩
  rw [seize, moments, hEnter]
  simp [moments]

theorem exists_dropped (hWraps : e.shared + 1 = 0) (hNull : addr ≠ 0) :
    ∃ m ∈ (under type addr (drop addr ends)).moments [] o,
      m.running = [(addr, .shared)] ∧ m.owner.entry? addr = none := by
  obtain ⟨o₁, hFound₁, hMem⟩ := moments_under hFound hType hGuest hFree (drop addr ends)
  have hIdle : o₁.isFree addr = true :=
    Table.isFree_eq_true_iff.mpr ⟨_, hFound₁, by simp [Entry.isBorrowed, Entry.borrow, hFree, hWraps]⟩
  refine ⟨⟨[(addr, .shared)], (exec (Owner.drop addr) o₁).2⟩, hMem _ ?_, rfl, Owner.vacant_drop hNull hIdle⟩
  rw [moments]
  exact List.mem_cons_of_mem _ (head_mem_moments _ _ _)

end Callback

/-- An object that nobody holds exclusively can be borrowed any number of times. -/
theorem Owner.Reached.lend {V : Type} {o : Owner V} {addr : UInt32} {e : Entry (Object V)} (hRun : o.Reached)
    (hFound : o.entry? addr = some e) (hFree : e.exclusive = false) (n : Nat) :
    ∃ o' : Owner V, o'.Reached ∧ o'.entry? addr = some { e with shared := e.shared + n.toUInt32 } := by
  induction n with
  | zero => exact ⟨o, hRun, by simpa using hFound⟩
  | succ n ih =>
    obtain ⟨o', hRun', hFound'⟩ := ih
    refine ⟨_, hRun'.act (.borrow addr .shared), ?_⟩
    obtain ⟨why, -, hRefuses⟩ | ⟨e', id, hFound'', -, hBorrow⟩ := o'.table.exec_borrow_cases addr .shared
    · have hAdmits := hRefuses _ hFound'
      simp [Entry.admits, hFree] at hAdmits
    · cases hFound'.symm.trans hFound''
      have hEdits : o'.Edits addr (·.borrow .shared) (exec (Action.borrow addr .shared).run o').2 := by
        rw [Action.run, exec_onTable, hBorrow]
        exact edits_modify (fun e he => by rw [Entry.addr_borrow, he]) rfl
      rw [hEdits addr, if_pos rfl, hFound']
      simp [Entry.borrow, UInt32.add_assoc]

/-- When an object has been borrowed as often as can be counted, one more callback sets the count to zero and leaves it
there. Under it another has the object exclusively, or drops it. -/
theorem Callback.balanced_not_wrapped :
    ∃ (o : Owner Nat) (type : OpaqueType) (e : Entry (Object Nat)), o.Reached ∧ o.entry? 16 = some e ∧
      e.shared = 0xFFFFFFFF ∧ ¬ (under type 16 (ends (.ok ()))).Balanced o ∧
      (∃ m ∈ (under type 16 (seize type 16)).moments [] o, m.running = [(16, .exclusive), (16, .shared)]) ∧
      ∃ m ∈ (under type 16 (drop 16 ends)).moments [] o, m.running = [(16, .shared)] ∧ m.owner.entry? 16 = none := by
  obtain ⟨o₀, hRun₀, hFound₀⟩ : ∃ o₀ : Owner Nat, o₀.Reached ∧ o₀.entry? 16 = some ⟨16, 1, .guest 5, 0, false⟩ := by
    have hRun : Owner.Reached (V := Nat) _ := .create {} rfl
    exact ⟨_, (hRun.act (.register (.guests "P"))).act (.box "P" 5), rfl⟩
  obtain ⟨o, hRun, hFound⟩ := hRun₀.lend hFound₀ rfl (2 ^ 32 - 1)
  refine ⟨o, ⟨"P", 1⟩, _, hRun, hFound, rfl, fun hBalanced => ?_, exists_seized hFound rfl rfl rfl rfl,
    exists_dropped hFound rfl rfl rfl rfl (by decide)⟩
  cases (hBalanced.restored 16 _ _ hFound (exec_run_under_ends hFound rfl rfl rfl)).1

end Marshal
