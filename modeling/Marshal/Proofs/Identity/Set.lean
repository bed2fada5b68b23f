import Mathlib.Data.List.Pairwise
import Mathlib.Data.List.Perm.Basic
import Marshal.Managed.Identity
import Marshal.Proofs.Step

/-! # Sets up to equality

An identity set keeps every element in the bucket of its hash. Equal elements have one hash, so the bucket of a value
holds whatever element is equal to it, and the other elements of the bucket are there by collision only. The set is
therefore as good as a list of elements no two of which are equal, in an order that does not matter.
-/
set_option autoImplicit false
namespace Marshal

open Step

variable {σ α : Type}

/-- Where `inv` holds, elements of `dom` are compared by `same` and hashed by `code`, and `inv` holds afterwards. There
`same` is an equivalence, and `code` does not tell equal elements apart. -/
structure Hooks.Lawful (hooks : Hooks σ α) (inv : σ → Prop) (dom : α → Prop) (same : α → α → Bool)
    (code : α → UInt64) : Prop where
  equal : ∀ s x y, inv s → dom x → dom y → ∃ s', exec (hooks.equal x y) s = (.ok (same x y), s') ∧ inv s'
  hash : ∀ s x, inv s → dom x → ∃ s', exec (hooks.hash x) s = (.ok (code x), s') ∧ inv s'
  refl : ∀ x, dom x → same x x = true
  symm : ∀ x y, dom x → dom y → same x y = true → same y x = true
  trans : ∀ x y z, dom x → dom y → dom z → same x y = true → same y z = true → same x z = true
  code_eq : ∀ x y, dom x → dom y → same x y = true → code x = code y

namespace IdentitySet

variable {hooks : Hooks σ α} {inv : σ → Prop} {dom : α → Prop} {same : α → α → Bool} {code : α → UInt64}
  {set set' : IdentitySet α} {s s' : σ} {v e : α}

/-! ## Buckets -/

theorem toList_putBucket (set : IdentitySet α) (hash : UInt64) (elements : List α) :
    (set.putBucket hash elements).toList = elements ++ (set.dropBucket hash).toList := by
  simp [toList, putBucket]

theorem perm_bucket (hKeys : (set.buckets.map (·.1)).Nodup) (hash : UInt64) :
    set.toList.Perm (set.bucket hash ++ (set.dropBucket hash).toList) := by
  obtain ⟨buckets, count⟩ := set
  simp only [toList, bucket, dropBucket] at hKeys ⊢
  induction buckets with
  | nil => simp
  | cons b buckets ih =>
    obtain ⟨hNew, hKeys⟩ := List.nodup_cons.mp hKeys
    by_cases hHash : b.1 = hash
    · -- no other bucket has the hash
      have hRest : buckets.filter (fun b => b.1 ≠ hash) = buckets := by
        rw [List.filter_eq_self]
        intro b' hb'
        simp only [ne_eq, decide_not, Bool.not_eq_eq_eq_not, Bool.not_true, decide_eq_false_iff_not]
        intro hEq
        exact hNew (List.mem_map.mpr ⟨b', hb', hEq.trans hHash.symm⟩)
      rw [List.filter_cons_of_neg (by simp [hHash]), hRest]
      simp [hHash]
    · simp only [List.flatMap_cons, List.find?_cons, hHash, decide_false, List.filter_cons, ne_eq, not_false_eq_true,
        decide_true, if_true]
      refine ((ih hKeys).append_left b.2).trans ?_
      simp only [← List.append_assoc]
      exact List.perm_append_comm.append_right _

/-- There is one bucket for each hash that occurs, with the elements that have it. -/
structure Arranged (dom : α → Prop) (code : α → UInt64) (buckets : List (UInt64 × List α)) : Prop where
  keys : (buckets.map (·.1)).Nodup
  filled : ∀ b ∈ buckets, b.2 ≠ []
  placed : ∀ b ∈ buckets, ∀ e ∈ b.2, dom e ∧ code e = b.1

variable {hash : UInt64}

theorem Arranged.placed_bucket (h : Arranged dom code set.buckets) (he : e ∈ set.bucket hash) :
    dom e ∧ code e = hash := by
  unfold bucket at he
  cases hFind : set.buckets.find? (·.1 = hash) with
  | none => simp [hFind] at he
  | some b =>
    have hHash := List.find?_some hFind
    simp only [decide_eq_true_eq] at hHash
    rw [hFind] at he
    exact hHash ▸ h.placed b (List.mem_of_find?_eq_some hFind) e he

theorem Arranged.drop (h : Arranged dom code set.buckets) (hash : UInt64) :
    Arranged dom code (set.dropBucket hash).buckets where
  keys := h.keys.sublist (List.filter_sublist.map _)
  filled := fun b hb => h.filled b (List.mem_of_mem_filter hb)
  placed := fun b hb => h.placed b (List.mem_of_mem_filter hb)

theorem Arranged.put (h : Arranged dom code set.buckets) {elements : List α} (hNonempty : elements ≠ [])
    (hPlaced : ∀ e ∈ elements, dom e ∧ code e = hash) :
    Arranged dom code (set.putBucket hash elements).buckets := by
  have hDrop := h.drop hash
  constructor
  · refine List.nodup_cons.mpr ⟨?_, hDrop.keys⟩
    intro hMem
    obtain ⟨b, hb, hHash⟩ := List.mem_map.mp hMem
    simp [dropBucket, hHash] at hb
  · exact List.forall_mem_cons.mpr ⟨hNonempty, hDrop.filled⟩
  · exact List.forall_mem_cons.mpr ⟨hPlaced, hDrop.placed⟩

def Apart (same : α → α → Bool) (x y : α) : Prop := same x y = false ∧ same y x = false

instance : Std.Symm (Apart same) := ⟨fun _ _ h => h.symm⟩

/-- Every element is in its bucket, and none is equal to another. -/
structure Sound (dom : α → Prop) (same : α → α → Bool) (code : α → UInt64) (set : IdentitySet α) : Prop where
  arranged : Arranged dom code set.buckets
  distinct : set.toList.Pairwise (Apart same)
  count : set.count = set.toList.length

theorem Sound.empty : Sound dom same code ({} : IdentitySet α) :=
  ⟨⟨.nil, List.forall_mem_nil _, List.forall_mem_nil _⟩, .nil, rfl⟩

theorem Sound.dom_of_mem (h : set.Sound dom same code) (he : e ∈ set.toList) : dom e := by
  obtain ⟨b, hb, he⟩ := List.mem_flatMap.mp he
  exact (h.arranged.placed b hb e he).1

theorem Sound.mem_toList_of_bucket (h : set.Sound dom same code) (he : e ∈ set.bucket hash) : e ∈ set.toList :=
  (perm_bucket h.arranged.keys hash).mem_iff.mpr (List.mem_append_left _ he)

theorem Sound.mem_bucket (h : set.Sound dom same code) (he : e ∈ set.toList) : e ∈ set.bucket (code e) := by
  rcases List.mem_append.mp ((perm_bucket h.arranged.keys (code e)).mem_iff.mp he) with hIn | hOut
  · exact hIn
  · obtain ⟨b, hb, he⟩ := List.mem_flatMap.mp hOut
    obtain ⟨hb, hHash⟩ := List.mem_filter.mp hb
    have hCode := (h.arranged.placed b hb e he).2
    simp [hCode] at hHash

def Holds (set : IdentitySet α) (same : α → α → Bool) (v : α) : Prop := ∃ e ∈ set.toList, same e v = true

theorem Sound.holds_iff (hl : hooks.Lawful inv dom same code) (h : set.Sound dom same code) (hv : dom v) :
    set.Holds same v ↔ ∃ e ∈ set.bucket (code v), same e v = true := by
  constructor
  · rintro ⟨e, he, hSame⟩
    have hCode := hl.code_eq e v (h.dom_of_mem he) hv hSame
    exact ⟨e, hCode ▸ h.mem_bucket he, hSame⟩
  · rintro ⟨e, he, hSame⟩
    exact ⟨e, h.mem_toList_of_bucket he, hSame⟩

/-! ## What the operations do -/

theorem exec_findEqual (hl : hooks.Lawful inv dom same code) (hv : dom v) {elements : List α}
    (hDom : ∀ e ∈ elements, dom e) (hs : inv s) :
    ∃ s', exec (findEqual hooks v elements) s = (.ok (elements.findIdx? (same · v)), s') ∧ inv s' := by
  induction elements generalizing s with
  | nil => exact ⟨s, rfl, hs⟩
  | cons e rest ih =>
    obtain ⟨hFirst, hRest⟩ := List.forall_mem_cons.mp hDom
    obtain ⟨s₁, hEqual, hs₁⟩ := hl.equal s e v hs hFirst hv
    rw [findEqual, exec_bind_ok hEqual, List.findIdx?_cons]
    cases hSame : same e v with
    | true => exact ⟨s₁, rfl, hs₁⟩
    | false =>
      obtain ⟨s₂, hFind, hs₂⟩ := ih hRest hs₁
      exact ⟨s₂, exec_bind_ok hFind, hs₂⟩

/-- What is found in the bucket of a value: where the element stands that is equal to it, if there is one. -/
inductive Found (set : IdentitySet α) (same : α → α → Bool) (code : α → UInt64) (v : α) : Option Nat → Prop
  | absent (hNone : ¬ set.Holds same v) : Found set same code v none
  | present {i : Nat} {e : α} (hAt : (set.bucket (code v))[i]? = some e) (hSame : same e v = true) :
      Found set same code v (some i)

theorem Sound.found (hl : hooks.Lawful inv dom same code) (h : set.Sound dom same code) (hv : dom v) :
    Found set same code v ((set.bucket (code v)).findIdx? (same · v)) := by
  cases hFind : (set.bucket (code v)).findIdx? (same · v) with
  | none =>
    refine .absent ?_
    rw [h.holds_iff hl hv]
    rintro ⟨e, he, hSame⟩
    rw [List.findIdx?_eq_none_iff.mp hFind e he] at hSame
    cases hSame
  | some i =>
    obtain ⟨hi, hSame, -⟩ := List.findIdx?_eq_some_iff_getElem.mp hFind
    exact .present (List.getElem?_eq_getElem hi) hSame

/-- Every operation begins by hashing the value and looking through its bucket. -/
theorem Sound.exec_look (hl : hooks.Lawful inv dom same code) (h : set.Sound dom same code) (hv : dom v) (hs : inv s) :
    ∃ found s₁ s₂, exec (hooks.hash v) s = (.ok (code v), s₁) ∧
      exec (findEqual hooks v (set.bucket (code v))) s₁ = (.ok found, s₂) ∧ inv s₂ ∧ Found set same code v found := by
  obtain ⟨s₁, hHash, hs₁⟩ := hl.hash s v hs hv
  obtain ⟨s₂, hFind, hs₂⟩ := exec_findEqual hl hv (fun e he => h.dom_of_mem (h.mem_toList_of_bucket he)) hs₁
  exact ⟨_, s₁, s₂, hHash, hFind, hs₂, h.found hl hv⟩

def insert (set : IdentitySet α) (hash : UInt64) (v : α) : IdentitySet α :=
  { set.putBucket hash (set.bucket hash ++ [v]) with count := set.count + 1 }

theorem Sound.exec_add (hl : hooks.Lawful inv dom same code) (h : set.Sound dom same code) (hv : dom v) (hs : inv s) :
    ∃ s', inv s' ∧ (set.Holds same v ∧ exec (set.add hooks v) s = (.ok (false, set), s') ∨
      ¬ set.Holds same v ∧ exec (set.add hooks v) s = (.ok (true, set.insert (code v) v), s')) := by
  obtain ⟨found, s₁, s₂, hHash, hFind, hs₂, hFound⟩ := h.exec_look hl hv hs
  refine ⟨s₂, hs₂, ?_⟩
  rw [add, exec_bind_ok hHash, exec_bind_ok hFind]
  cases hFound with
  | absent hNone => exact .inr ⟨hNone, rfl⟩
  | present hAt hSame => exact .inl ⟨⟨_, h.mem_toList_of_bucket (List.mem_of_getElem? hAt), hSame⟩, rfl⟩

theorem Sound.exec_find (hl : hooks.Lawful inv dom same code) (h : set.Sound dom same code) (hv : dom v) (hs : inv s) :
    ∃ found s', exec (set.find hooks v) s = (.ok found, s') ∧ inv s' ∧ Found set same code v found := by
  obtain ⟨found, s₁, s₂, hHash, hFind, hs₂, hFound⟩ := h.exec_look hl hv hs
  exact ⟨found, s₂, (exec_bind_ok hHash).trans hFind, hs₂, hFound⟩

/-- The answer tells the element that is equal to `v`. -/
inductive Answers (set : IdentitySet α) (same : α → α → Bool) (v : α) : Option α → Prop
  | absent (hNone : ¬ set.Holds same v) : Answers set same v none
  | present {e : α} (he : e ∈ set.toList) (hSame : same e v = true) : Answers set same v (some e)

theorem Sound.exec_get (hl : hooks.Lawful inv dom same code) (h : set.Sound dom same code) (hv : dom v) (hs : inv s) :
    ∃ r s', exec (set.get hooks v) s = (.ok r, s') ∧ inv s' ∧ set.Answers same v r := by
  obtain ⟨found, s₁, hFind, hs₁, hFound⟩ := h.exec_find hl hv hs
  rw [get, exec_bind_ok hFind]
  cases hFound with
  | absent hNone => exact ⟨none, s₁, rfl, hs₁, .absent hNone⟩
  | @present i e hAt hSame =>
    -- the value is hashed once more, which leads to the same bucket
    obtain ⟨s₂, hHash, hs₂⟩ := hl.hash s₁ v hs₁ hv
    refine ⟨some e, s₂, ?_, hs₂, .present (h.mem_toList_of_bucket (List.mem_of_getElem? hAt)) hSame⟩
    show exec (hooks.hash v >>= _) s₁ = _
    rw [exec_bind_ok hHash, hAt]
    rfl

theorem Sound.exec_remove (hl : hooks.Lawful inv dom same code) (h : set.Sound dom same code) (hv : dom v)
    (hs : inv s) :
    ∃ s', inv s' ∧ (¬ set.Holds same v ∧ exec (set.remove hooks v) s = (.ok (none, set), s') ∨
      ∃ i e, (set.bucket (code v))[i]? = some e ∧ same e v = true ∧
        exec (set.remove hooks v) s = (.ok (some e, set.eraseAt (code v) i), s')) := by
  obtain ⟨found, s₁, s₂, hHash, hFind, hs₂, hFound⟩ := h.exec_look hl hv hs
  refine ⟨s₂, hs₂, ?_⟩
  rw [remove, exec_bind_ok hHash, exec_bind_ok hFind]
  cases hFound with
  | absent hNone => exact .inl ⟨hNone, rfl⟩
  | @present i e hAt hSame =>
    refine .inr ⟨i, e, hAt, hSame, ?_⟩
    show exec (pure ((set.bucket (code v))[i]?, set.eraseAt (code v) i)) s₂ = _
    rw [hAt, exec_pure]

/-! ## What the operations leave -/

theorem perm_insert (h : set.Sound dom same code) (hash : UInt64) (v : α) :
    (set.insert hash v).toList.Perm (v :: set.toList) := by
  show (set.putBucket hash (set.bucket hash ++ [v])).toList.Perm _
  rw [toList_putBucket, List.append_assoc]
  exact List.perm_middle.trans ((perm_bucket h.arranged.keys hash).symm.cons v)

theorem toList_eraseAt (set : IdentitySet α) (hash : UInt64) (i : Nat) :
    (set.eraseAt hash i).toList = (set.bucket hash).eraseIdx i ++ (set.dropBucket hash).toList := by
  cases hRest : (set.bucket hash).eraseIdx i with
  | nil => simp [eraseAt, hRest, toList]
  | cons e rest => simp [eraseAt, hRest, toList, putBucket]

theorem perm_eraseAt (h : set.Sound dom same code) {i : Nat}
    (hAt : (set.bucket hash)[i]? = some e) : set.toList.Perm (e :: (set.eraseAt hash i).toList) := by
  obtain ⟨hi, rfl⟩ := List.getElem?_eq_some_iff.mp hAt
  rw [toList_eraseAt, ← List.cons_append]
  exact (perm_bucket h.arranged.keys hash).trans ((List.getElem_cons_eraseIdx_perm hi).symm.append_right _)

theorem Sound.insert (hl : hooks.Lawful inv dom same code) (h : set.Sound dom same code) (hv : dom v)
    (hNew : ¬ set.Holds same v) : (set.insert (code v) v).Sound dom same code := by
  have hPerm := perm_insert h (code v) v
  have hApart : ∀ e ∈ set.toList, Apart same v e := by
    intro e he
    have hNot : ¬ same e v = true := fun hSame => hNew ⟨e, he, hSame⟩
    refine ⟨?_, eq_false_of_ne_true hNot⟩
    exact eq_false_of_ne_true fun hSame => hNot (hl.symm v e hv (h.dom_of_mem he) hSame)
  constructor
  · apply h.arranged.put (by simp)
    intro e he
    rcases List.mem_append.mp he with hOld | hLast
    · exact h.arranged.placed_bucket hOld
    · rw [List.mem_singleton.mp hLast]
      exact ⟨hv, rfl⟩
  · exact (hPerm.pairwise_iff symm).mpr (List.pairwise_cons.mpr ⟨hApart, h.distinct⟩)
  · rw [hPerm.length_eq, List.length_cons, Int.natCast_add, ← h.count]
    rfl

theorem Sound.eraseAt (h : set.Sound dom same code) {i : Nat}
    (hAt : (set.bucket hash)[i]? = some e) : (set.eraseAt hash i).Sound dom same code := by
  have hPerm := perm_eraseAt h hAt
  constructor
  · unfold IdentitySet.eraseAt
    simp only
    split
    · exact h.arranged.drop hash
    · rename_i hRest
      apply h.arranged.put
      · simpa using hRest
      · intro e' he'
        exact h.arranged.placed_bucket (List.mem_of_mem_eraseIdx he')
  · exact (List.pairwise_cons.mp ((hPerm.pairwise_iff symm).mp h.distinct)).2
  · have hLength := hPerm.length_eq
    have hCount := h.count
    rw [List.length_cons] at hLength
    show set.count - 1 = _
    omega

/-! ## Runs -/

inductive Op (α : Type) where
  | add (v : α)
  | remove (v : α)
  | contains (v : α)
  | get (v : α)

def Op.value : Op α → α
  | add v | remove v | contains v | get v => v

def Op.run (hooks : Hooks σ α) (set : IdentitySet α) : Op α → Step σ (IdentitySet α)
  | add v => return (← set.add hooks v).2
  | remove v => return (← set.remove hooks v).2
  | contains v => do
    let _ ← set.contains hooks v
    return set
  | get v => do
    let _ ← set.get hooks v
    return set

/-- The sets that requests lead to. Between two requests the state may change in any way that `inv` allows. -/
inductive Reached (hooks : Hooks σ α) (inv : σ → Prop) (dom : α → Prop) : IdentitySet α → Prop
  | empty : Reached hooks inv dom {}
  | step {set set' : IdentitySet α} {s s' : σ} (hSet : Reached hooks inv dom set) (op : Op α) (hValue : dom op.value)
      (hs : inv s) (hExec : exec (op.run hooks set) s = (.ok set', s')) : Reached hooks inv dom set'

theorem Reached.sound (hl : hooks.Lawful inv dom same code) (h : Reached hooks inv dom set) :
    set.Sound dom same code := by
  induction h with
  | empty => exact .empty
  | step _ op hValue hs hExec ih =>
    cases op with
    | add v =>
      obtain ⟨⟨added, set₁⟩, s₁, hAdd, hDone⟩ := exec_bind_eq_ok.mp hExec
      cases hDone
      obtain ⟨s₂, -, ⟨-, hRun⟩ | ⟨hNew, hRun⟩⟩ := ih.exec_add hl hValue hs
      · cases hRun.symm.trans hAdd
        exact ih
      · cases hRun.symm.trans hAdd
        exact ih.insert hl hValue hNew
    | remove v =>
      obtain ⟨⟨r, set₁⟩, s₁, hRemove, hDone⟩ := exec_bind_eq_ok.mp hExec
      cases hDone
      obtain ⟨s₂, -, ⟨-, hRun⟩ | ⟨i, e, hAt, -, hRun⟩⟩ := ih.exec_remove hl hValue hs
      · cases hRun.symm.trans hRemove
        exact ih
      · cases hRun.symm.trans hRemove
        exact ih.eraseAt hAt
    | contains v =>
      obtain ⟨b, s₁, -, hDone⟩ := exec_bind_eq_ok.mp hExec
      cases hDone
      exact ih
    | get v =>
      obtain ⟨r, s₁, -, hDone⟩ := exec_bind_eq_ok.mp hExec
      cases hDone
      exact ih

/-- What a set answers and how it changes, in terms of its elements and of what is equal to them. -/
structure IsSetModulo (set : IdentitySet α) (hooks : Hooks σ α) (inv : σ → Prop) (dom : α → Prop)
    (same : α → α → Bool) : Prop where
  /-- No two elements are equal. -/
  distinct : set.toList.Pairwise fun x y => same x y = false
  add : ∀ s v, inv s → dom v → ∃ added set' s', exec (set.add hooks v) s = (.ok (added, set'), s') ∧ inv s' ∧
    (added = true ↔ ¬ set.Holds same v) ∧ (added = true → set'.toList.Perm (v :: set.toList)) ∧
    (added = false → set' = set)
  contains : ∀ s v, inv s → dom v → ∃ found s', exec (set.contains hooks v) s = (.ok found, s') ∧ inv s' ∧
    (found = true ↔ set.Holds same v)
  get : ∀ s v, inv s → dom v → ∃ r s', exec (set.get hooks v) s = (.ok r, s') ∧ inv s' ∧
    ∀ e, r = some e ↔ e ∈ set.toList ∧ same e v = true
  remove : ∀ s v, inv s → dom v → ∃ r set' s', exec (set.remove hooks v) s = (.ok (r, set'), s') ∧ inv s' ∧
    (∀ e, r = some e ↔ e ∈ set.toList ∧ same e v = true) ∧
    (∀ e, r = some e → set.toList.Perm (e :: set'.toList)) ∧ (r = none → set' = set)
  count : set.count = set.toList.length
  filled : ∀ b ∈ set.buckets, b.2 ≠ []

theorem Sound.eq_of_same (hl : hooks.Lawful inv dom same code) (h : set.Sound dom same code) (hv : dom v) {e e' : α}
    (he : e ∈ set.toList) (he' : e' ∈ set.toList) (hSame : same e v = true) (hSame' : same e' v = true) : e = e' := by
  by_contra hNe
  have hEqual := hl.trans e v e' (h.dom_of_mem he) hv (h.dom_of_mem he') hSame
    (hl.symm e' v (h.dom_of_mem he') hv hSame')
  have hApart : Apart same e e' := h.distinct.forall he he' hNe
  rw [hApart.1] at hEqual
  cases hEqual

theorem Sound.answers_iff (hl : hooks.Lawful inv dom same code) (h : set.Sound dom same code) (hv : dom v)
    {r : Option α} (hr : set.Answers same v r) (e : α) : r = some e ↔ e ∈ set.toList ∧ same e v = true := by
  cases hr with
  | absent hNone =>
    refine iff_of_false (by simp) ?_
    rintro ⟨he, hSame⟩
    exact hNone ⟨e, he, hSame⟩
  | @present e' he' hSame' =>
    rw [Option.some.injEq]
    constructor
    · rintro rfl
      exact ⟨he', hSame'⟩
    · rintro ⟨he, hSame⟩
      exact h.eq_of_same hl hv he' he hSame' hSame

theorem Sound.isSetModulo (hl : hooks.Lawful inv dom same code) (h : set.Sound dom same code) :
    set.IsSetModulo hooks inv dom same where
  distinct := h.distinct.imp And.left
  count := h.count
  filled := h.arranged.filled
  add := by
    intro s v hs hv
    obtain ⟨s', hs', ⟨hHolds, hRun⟩ | ⟨hNew, hRun⟩⟩ := h.exec_add hl hv hs
    · exact ⟨false, set, s', hRun, hs', by simpa using hHolds, by simp, fun _ => rfl⟩
    · exact ⟨true, _, s', hRun, hs', by simpa using hNew, fun _ => perm_insert h _ v, by simp⟩
  contains := by
    intro s v hs hv
    obtain ⟨found, s', hFind, hs', hFound⟩ := h.exec_find hl hv hs
    refine ⟨found.isSome, s', exec_bind_ok hFind, hs', ?_⟩
    cases hFound with
    | absent hNone => simpa using hNone
    | present hAt hSame => exact iff_of_true rfl ⟨_, h.mem_toList_of_bucket (List.mem_of_getElem? hAt), hSame⟩
  get := by
    intro s v hs hv
    obtain ⟨r, s', hRun, hs', hAnswer⟩ := h.exec_get hl hv hs
    exact ⟨r, s', hRun, hs', h.answers_iff hl hv hAnswer⟩
  remove := by
    intro s v hs hv
    obtain ⟨s', hs', ⟨hNone, hRun⟩ | ⟨i, e, hAt, hSame, hRun⟩⟩ := h.exec_remove hl hv hs
    · exact ⟨none, set, s', hRun, hs', h.answers_iff hl hv (.absent hNone), by simp, fun _ => rfl⟩
    · have hAnswer : set.Answers same v (some e) :=
        .present (h.mem_toList_of_bucket (List.mem_of_getElem? hAt)) hSame
      refine ⟨some e, _, s', hRun, hs', h.answers_iff hl hv hAnswer, ?_, by simp⟩
      rintro _ ⟨⟩
      exact perm_eraseAt h hAt

end IdentitySet

end Marshal
