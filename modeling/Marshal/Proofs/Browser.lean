import Mathlib.Data.List.Induction
import Marshal.Browser

/-! # A browser stays inside its list

Whatever the keys, and whatever component the filter is typed in, the functions listed are those that match the
filter text, in the order of the plan, and the selection is one of them. While details are shown no key changes
the list, the filter or the selection, so the function shown is the one that was selected when they were opened.
-/
set_option autoImplicit false
namespace Marshal

theorem Text.contains_iff {t part : Text} : t.contains part = true ↔ part <:+: t := by
  induction t with
  | nil => simp [Text.contains]
  | cons b rest ih =>
    rw [Text.contains, Bool.or_eq_true, List.isPrefixOf_iff_prefix, ih, List.infix_cons_iff]

namespace PlanBrowser

section Listing

variable {filter : Text} {index i : Nat} {functions : List FunctionPlan}

theorem isListed_iff {f : FunctionPlan} :
    isListed filter f = true ↔ Text.lower (Text.trim filter) <:+: Text.lower f.name :=
  Text.contains_iff

theorem mem_listed_iff : i ∈ listed filter index functions ↔
    ∃ j f, i = index + j ∧ functions[j]? = some f ∧ isListed filter f = true := by
  induction functions generalizing index with
  | nil => simp [listed]
  | cons g rest ih =>
    have hRest : (∃ j f, i = index + j ∧ (g :: rest)[j]? = some f ∧ isListed filter f = true) ↔
        (i = index ∧ isListed filter g = true) ∨
          ∃ j f, i = index + 1 + j ∧ rest[j]? = some f ∧ isListed filter f = true := by
      constructor
      · rintro ⟨j, f, rfl, hf, hListed⟩
        cases j with
        | zero =>
          obtain rfl : g = f := by simpa using hf
          exact .inl ⟨rfl, hListed⟩
        | succ j => exact .inr ⟨j, f, by omega, by simpa using hf, hListed⟩
      · rintro (⟨rfl, hListed⟩ | ⟨j, f, rfl, hf, hListed⟩)
        · exact ⟨0, g, rfl, rfl, hListed⟩
        · exact ⟨j + 1, f, by omega, by simpa using hf, hListed⟩
    rw [hRest, listed]
    split
    · rename_i hListed
      rw [List.mem_cons, ih, and_iff_left hListed]
    · rename_i hHidden
      rw [ih, or_iff_right (fun h => hHidden h.2)]

theorem listed_sorted : (listed filter index functions).Pairwise (· < ·) := by
  induction functions generalizing index with
  | nil => exact .nil
  | cons f rest ih =>
    rw [listed]
    split
    · refine List.pairwise_cons.mpr ⟨fun i hi => ?_, ih⟩
      obtain ⟨j, -, rfl, -⟩ := mem_listed_iff.mp hi
      omega
    · exact ih

end Listing

variable {ι κ : Type} [TextInput ι κ] {b b' : PlanBrowser ι} {key : κ}

/-- What the browser lists are the functions that match the filter text, and it points to one of them if there
are any. -/
structure Sound (b : PlanBrowser ι) : Prop where
  sorted : b.visible.Pairwise (· < ·)
  mem_visible_iff : ∀ i, i ∈ b.visible ↔ ∃ f, b.plan.functionList[i]? = some f ∧
    Text.lower (Text.trim (TextInput.text b.filter)) <:+: Text.lower f.name
  selected : b.selected < b.visible.length ∨ b.visible = [] ∧ b.selected = 0

theorem refilter_sound (b : PlanBrowser ι) : b.refilter.Sound where
  sorted := listed_sorted
  mem_visible_iff i := by
    refine mem_listed_iff.trans ?_
    simp [isListed_iff, refilter]
  selected := by
    simp only [refilter]
    cases listed (TextInput.text b.filter) 0 b.plan.functionList with
    | nil => exact .inr ⟨rfl, Nat.min_zero _⟩
    | cons i rest =>
      rw [List.length_cons, Nat.add_sub_cancel]
      exact .inl (Nat.lt_succ_of_le (Nat.min_le_right _ _))

inductive Turn (b : PlanBrowser ι) (key : κ) : PlanBrowser ι → Prop
  | stay : Turn b key b
  | select {n : Nat} (hMode : b.mode = .browse) (hPlace : n ≤ b.selected ∨ n < b.visible.length) :
      Turn b key { b with selected := n }
  | enter {f : FunctionPlan} (hMode : b.mode = .browse) (hKey : TextInput.keyName ι key = Text.ofString "enter")
      (hCurrent : b.current? = some f) : Turn b key { b with mode := .detail }
  | leave (hMode : b.mode = .detail) : Turn b key { b with mode := .browse }
  | type (hMode : b.mode = .browse) : Turn b key (refilter { b with filter := TextInput.press b.filter key })

theorem type_turn (b : PlanBrowser ι) (key : κ) : b.Turn key (b.type key) := by
  unfold type
  split
  · rename_i hMode
    exact .type hMode
  · exact .stay

theorem press_turn (b : PlanBrowser ι) (key : κ) : b.Turn key (b.press key).1 := by
  unfold press
  dsimp only
  split_ifs with hQuit hUp hMode hDown hBelow hEnter hOpen hEsc hMode hLeave
  · exact .stay
  · exact .select hMode (.inl (Nat.sub_le _ _))
  · exact .stay
  · simp only [Bool.and_eq_true, decide_eq_true_eq] at hBelow
    exact .select hBelow.1 (.inr hBelow.2)
  · exact .stay
  · simp only [Bool.and_eq_true, decide_eq_true_eq] at hOpen
    obtain ⟨f, hCurrent⟩ := Option.isSome_iff_exists.mp hOpen.2
    exact .enter hOpen.1 hEnter hCurrent
  · exact .stay
  · exact .stay
  · cases hShown : b.mode with
    | browse => exact absurd hShown hMode
    | detail => exact .leave hShown
  · exact .stay
  · exact b.type_turn key

theorem Turn.plan_eq (h : b.Turn key b') : b'.plan = b.plan := by
  cases h <;> rfl

theorem Turn.sound (h : b.Turn key b') (hs : b.Sound) : b'.Sound := by
  cases h with
  | stay => exact hs
  | select _ hPlace =>
    refine ⟨hs.sorted, hs.mem_visible_iff, ?_⟩
    rcases hs.selected with hInside | ⟨hNone, hZero⟩
    · exact .inl (hPlace.elim (fun hUp => Nat.lt_of_le_of_lt hUp hInside) id)
    · refine .inr ⟨hNone, ?_⟩
      simp only [hZero, hNone, List.length_nil, Nat.not_lt_zero, or_false] at hPlace
      exact Nat.le_zero.mp hPlace
  | enter => exact ⟨hs.sorted, hs.mem_visible_iff, hs.selected⟩
  | leave => exact ⟨hs.sorted, hs.mem_visible_iff, hs.selected⟩
  | type => exact refilter_sound _

def run (b : PlanBrowser ι) (keys : List κ) : PlanBrowser ι := keys.foldl (fun b key => (b.press key).1) b

theorem run_concat (b : PlanBrowser ι) (keys : List κ) (key : κ) :
    b.run (keys ++ [key]) = ((b.run keys).press key).1 :=
  List.foldl_append ..

theorem run_plan (b : PlanBrowser ι) (keys : List κ) : (b.run keys).plan = b.plan := by
  induction keys using List.reverseRecOn with
  | nil => rfl
  | append_singleton keys key ih => rw [run_concat, (press_turn _ key).plan_eq, ih]

theorem Sound.run (hs : b.Sound) (keys : List κ) : (b.run keys).Sound := by
  induction keys using List.reverseRecOn with
  | nil => exact hs
  | append_singleton keys key ih =>
    rw [run_concat]
    exact (press_turn _ key).sound ih

def Shows (b : PlanBrowser ι) (f : FunctionPlan) : Prop := b.mode = .detail ∧ b.current? = some f

/-- The last of the keys that opened details is enter, when the function was selected; it has been shown since. -/
structure Opened (b : PlanBrowser ι) (before : List κ) (enter : κ) (after : List κ) (f : FunctionPlan) : Prop where
  key : TextInput.keyName ι enter = Text.ofString "enter"
  listing : (b.run before).mode = .browse
  chosen : (b.run before).current? = some f
  shown : ∀ part, part <+: after → (b.run (before ++ enter :: part)).Shows f

theorem Turn.eq_of_detail (h : b.Turn key b') (hBefore : b.mode = .detail) (hAfter : b'.mode = .detail) : b' = b := by
  cases h with
  | stay => rfl
  | select hMode => cases hMode.symm.trans hBefore
  | enter hMode => cases hMode.symm.trans hBefore
  | leave => cases hAfter
  | type hMode => cases hMode.symm.trans hBefore

theorem Turn.opens (h : b.Turn key b') (hBefore : b.mode = .browse) (hAfter : b'.mode = .detail) :
    TextInput.keyName ι key = Text.ofString "enter" ∧ ∃ f, b.current? = some f ∧ b'.Shows f := by
  cases h with
  | stay => cases hBefore.symm.trans hAfter
  | select => cases hBefore.symm.trans hAfter
  | enter _ hKey hCurrent => exact ⟨hKey, _, hCurrent, rfl, hCurrent⟩
  | leave => cases hAfter
  | type => cases hBefore.symm.trans hAfter

theorem exists_opened (hStart : b.mode = .browse) (keys : List κ) (hDetail : (b.run keys).mode = .detail) :
    ∃ before enter after f, keys = before ++ enter :: after ∧ b.Opened before enter after f := by
  induction keys using List.reverseRecOn with
  | nil => cases hStart.symm.trans hDetail
  | append_singleton keys key ih =>
    rw [run_concat] at hDetail
    have hTurn := (b.run keys).press_turn key
    cases hMode : (b.run keys).mode with
    | browse =>
      obtain ⟨hKey, f, hCurrent, hShows⟩ := hTurn.opens hMode hDetail
      refine ⟨keys, key, [], f, rfl, hKey, hMode, hCurrent, fun part hPart => ?_⟩
      rw [List.prefix_nil.mp hPart, run_concat]
      exact hShows
    | detail =>
      obtain ⟨before, enter, after, f, hKeys, hOpened⟩ := ih hMode
      refine ⟨before, enter, after ++ [key], f, by simp [hKeys], hOpened.key, hOpened.listing, hOpened.chosen,
        fun part hPart => ?_⟩
      rcases List.prefix_concat_iff.mp hPart with rfl | hEarlier
      · have hSame := hOpened.shown after (List.prefix_refl after)
        rw [← List.cons_append, ← List.append_assoc, run_concat, ← hKeys]
        rw [← hKeys] at hSame
        rwa [hTurn.eq_of_detail hMode hDetail]
      · exact hOpened.shown part hEarlier

theorem Shows.visible_ne_nil {f : FunctionPlan} (h : b.Shows f) : b.visible ≠ [] := by
  intro hNone
  have hCurrent := h.2
  simp [current?, hNone] at hCurrent

theorem Shows.detail_infix_view {f : FunctionPlan} (h : b.Shows f) (input : Text) : f.detail <:+: b.view input := by
  refine ⟨" Bridge plan " ++ (if b.plan.name.isEmpty then [] else " " ++ b.plan.name : Text) ++ "\n\n",
    "\n" ++ "esc back • q quit", ?_⟩
  simp only [view, h.1, h.2, Option.getD_some, List.append_assoc]

/-- Whatever keys are pressed, the browser lists what matches the filter and points inside its list; details are
those of the function that was selected when they were opened. -/
theorem run_points_inside (plan : Plan) (filter : ι) (keys : List κ) :
    ((create plan filter).run keys).plan = plan ∧ ((create plan filter).run keys).Sound ∧
      (((create plan filter).run keys).mode = .detail →
        ((create plan filter).run keys).visible ≠ [] ∧
        ∃ before enter after f, keys = before ++ enter :: after ∧
          (create plan filter).Opened before enter after f ∧
          ∀ input, f.detail <:+: ((create plan filter).run keys).view input) := by
  refine ⟨run_plan _ keys, (refilter_sound _).run keys, fun hDetail => ?_⟩
  obtain ⟨before, enter, after, f, rfl, hOpened⟩ := exists_opened (b := create plan filter) rfl keys hDetail
  have hShows := hOpened.shown after (List.prefix_refl after)
  exact ⟨hShows.visible_ne_nil, before, enter, after, f, rfl, hOpened, hShows.detail_infix_view⟩

/-- Two letters leave one of two functions, and its details stay open while further keys are pressed. -/
theorem run_points_inside_lookup :
    let plan : Plan := { functions := some [{ name := "store" }, { name := "Lookup" }] }
    let start := create plan ({} : InputLine)
    let keys : List Text := ["l", "O", "enter", "down", "x"]
    (start.run keys).mode = .detail ∧ (start.run keys).visible = [1] ∧
      ∃ before enter after f, keys = before ++ enter :: after ∧ start.Opened before enter after f ∧
        f.name = Text.ofString "Lookup" := by
  intro plan start keys
  have hDetail : (start.run keys).mode = .detail := by decide +kernel
  have hName : (start.run keys).current?.map (·.name) = some (Text.ofString "Lookup") := by decide +kernel
  obtain ⟨-, -, hOpen⟩ := run_points_inside plan ({} : InputLine) keys
  obtain ⟨-, before, enter, after, f, hKeys, hOpened, -⟩ := hOpen hDetail
  have hShows := hOpened.shown after (List.prefix_refl after)
  rw [← hKeys] at hShows
  refine ⟨hDetail, by decide +kernel, before, enter, after, f, hKeys, hOpened, ?_⟩
  rw [hShows.2] at hName
  exact Option.some.inj hName

end PlanBrowser

end Marshal
