import Marshal.Proofs.Async.Exchange

/-! # Looking for a free context

The counter of a registry goes round all addresses, and the search for a context has no bound of its own. It ends
because fewer addresses are taken than there are: among one more address than there are pending contexts, and one
for null, some address is left. What is found is the first such address after the counter.
-/
set_option autoImplicit false
namespace Marshal
namespace Registry

/-- The search from a counter ends at an address, after `k` passes over addresses that are null or pending. -/
inductive Search (r : Registry) : Nat → UInt32 → UInt32 → Prop
  | found {context : UInt32} (hFree : r.Free (context + 1)) : Search r 0 context (context + 1)
  | pass {k : Nat} {context found : UInt32} (hTaken : ¬ r.Free (context + 1))
      (hRest : Search r k (context + 1) found) : Search r (k + 1) context found

variable {r : Registry} {k tries : Nat} {context found : UInt32}

/-- The search stops at the first free address. -/
theorem search_iff : r.Search k context found ↔
    found = context + 1 + k.toUInt32 ∧ r.Free found ∧ ∀ j < k, ¬ r.Free (context + 1 + j.toUInt32) := by
  induction k generalizing context with
  | zero =>
    constructor
    · rintro ⟨hFree⟩
      exact ⟨by simp, hFree, fun j hj => absurd hj (Nat.not_lt_zero j)⟩
    · rintro ⟨hFound, hFree, -⟩
      obtain rfl : found = context + 1 := by simpa using hFound
      exact .found hFree
  | succ k ih =>
    constructor
    · rintro (_ | ⟨hTaken, hRest⟩)
      obtain ⟨rfl, hFree, hBefore⟩ := ih.mp hRest
      refine ⟨(add_succ_toUInt32 context k).symm, hFree, fun j hj => ?_⟩
      cases j with
      | zero => simpa using hTaken
      | succ j =>
        rw [add_succ_toUInt32]
        exact hBefore j (Nat.lt_of_succ_lt_succ hj)
    · rintro ⟨rfl, hFree, hBefore⟩
      refine .pass (by simpa using hBefore 0 (Nat.succ_pos k)) (ih.mpr ⟨add_succ_toUInt32 context k, hFree, ?_⟩)
      intro j hj
      rw [← add_succ_toUInt32]
      exact hBefore (j + 1) (Nat.succ_lt_succ hj)

instance (r : Registry) (context : UInt32) : Decidable (r.Free context) :=
  inferInstanceAs (Decidable (_ ∧ _))

theorem free_iff : r.Free context ↔ ¬ (context = 0 || r.isPending context) = true := by
  simp [Free]

theorem Search.firstFree (h : r.Search k context found) (hk : k < tries) : r.firstFree tries context = found := by
  induction h generalizing tries with
  | found hFree =>
    obtain ⟨tries, rfl⟩ := Nat.exists_eq_succ_of_ne_zero (Nat.ne_of_gt hk)
    rw [Registry.firstFree, if_neg (free_iff.mp hFree)]
  | pass hTaken _ ih =>
    obtain ⟨tries, rfl⟩ := Nat.exists_eq_succ_of_ne_zero (Nat.ne_of_gt (Nat.zero_lt_of_lt hk))
    rw [Registry.firstFree, if_pos (not_not.mp fun h => hTaken (free_iff.mpr h))]
    exact ih (Nat.lt_of_succ_lt_succ hk)

theorem exists_search_of_free (hFree : r.Free (context + 1 + k.toUInt32)) :
    ∃ j ≤ k, ∃ found, r.Search j context found := by
  induction k generalizing context with
  | zero => exact ⟨0, Nat.le_refl 0, _, .found (by simpa using hFree)⟩
  | succ k ih =>
    by_cases hHere : r.Free (context + 1)
    · exact ⟨0, Nat.zero_le _, _, .found hHere⟩
    · rw [add_succ_toUInt32] at hFree
      obtain ⟨j, hj, found, hRest⟩ := ih hFree
      exact ⟨j + 1, Nat.succ_le_succ hj, found, .pass hHere hRest⟩

/-- The search ends while an address is left, whatever the counter. -/
theorem exists_search (hRoom : r.pending.length < 2 ^ 32 - 1) (context : UInt32) :
    ∃ k < r.pending.length + 2, ∃ found, r.Search k context found := by
  obtain ⟨k, hk, hFree⟩ := r.exists_free context hRoom
  obtain ⟨j, hj, found, hSearch⟩ := exists_search_of_free hFree
  exact ⟨j, Nat.lt_of_le_of_lt hj hk, found, hSearch⟩

/-- A context is opened, with the future at a new position, and nothing else changes. -/
structure Opens (r r' : Registry) (context : UInt32) (i : Nat) : Prop where
  last : r'.last = context
  future : i = r.futures.length ∧ ∃ f, r'.futures[i]? = some f ∧ f.context = context ∧ f.inbox = none
  opened : r'.pending.find? (·.1 = context) = some (context, i)
  pending_iff : ∀ c, r'.isPending c = true ↔ c = context ∨ r.isPending c = true
  others : ∀ c, c ≠ context → r'.pending.find? (·.1 = c) = r.pending.find? (·.1 = c)
  futures : ∀ j < r.futures.length, r'.futures[j]? = r.futures[j]?

theorem start_opens (r : Registry) (typeName : Text) :
    r.Opens (r.start typeName).2 r.nextContext (r.start typeName).1 where
  last := rfl
  future := ⟨rfl, { context := r.nextContext, typeName }, by simp [start], rfl, rfl⟩
  opened := by simp [start]
  pending_iff c := by
    have hNew : (r.start typeName).2.isPending c = (decide (r.nextContext = c) || r.isPending c) := rfl
    rw [hNew, Bool.or_eq_true, decide_eq_true_eq, eq_comm]
  others c hNe := by simp [start, Ne.symm hNe]
  futures j hj := List.getElem?_append_left hj

/-- The search for a context ends, at the first address after the counter that is neither null nor pending, and
opens that one only. -/
theorem start_registers (r : Registry) (typeName : Text) (hRoom : r.pending.length < 2 ^ 32 - 1) :
    ∃ k context, k < r.pending.length + 2 ∧ r.Search k r.last context ∧
      (context = r.last + 1 + k.toUInt32 ∧ context ≠ 0 ∧ r.isPending context = false ∧
        ∀ j < k, r.last + 1 + j.toUInt32 = 0 ∨ r.isPending (r.last + 1 + j.toUInt32) = true) ∧
      (∀ tries > k, r.firstFree tries r.last = context) ∧
      r.Opens (r.start typeName).2 context (r.start typeName).1 := by
  obtain ⟨k, hk, context, hSearch⟩ := exists_search hRoom r.last
  obtain ⟨hPlace, ⟨hNull, hIdle⟩, hBefore⟩ := search_iff.mp hSearch
  have hNext : r.nextContext = context := hSearch.firstFree hk
  refine ⟨k, context, hk, hSearch, ⟨hPlace, hNull, hIdle, fun j hj => ?_⟩, fun tries => hSearch.firstFree,
    hNext ▸ r.start_opens typeName⟩
  simpa [Free, Classical.or_iff_not_imp_left] using hBefore j hj

/-- The counter stands before the last address, which is pending, as is the first: null lies between them. -/
theorem start_registers_wrapped :
    let r : Registry :=
      { last := 0xFFFFFFFE, pending := [(0xFFFFFFFF, 1), (1, 0)],
        futures := [{ context := 1, typeName := [] }, { context := 0xFFFFFFFF, typeName := [] }] }
    r.pending.length < 2 ^ 32 - 1 ∧ (∃ k < 4, r.Search k 0xFFFFFFFE 2) ∧ r.Opens (r.start []).2 2 2 := by
  intro r
  obtain ⟨k, context, hk, hSearch, -, -, hOpens⟩ := r.start_registers [] (by decide)
  obtain rfl : 2 = context := by
    rw [← hOpens.last]
    decide
  exact ⟨by decide, ⟨k, hk, hSearch⟩, hOpens⟩

end Registry

end Marshal
