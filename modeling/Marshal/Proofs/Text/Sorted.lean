import Mathlib.Data.List.Perm.Basic
import Mathlib.Data.List.Sort
import Marshal.Text

/-! # Sorted lists of texts

Texts are ordered byte by byte. A sorted list without repetitions is determined by its members, so that merging lists
one after the other and sorting them all at once come to the same.
-/
set_option autoImplicit false
namespace Marshal
namespace Text

theorem le_iff {a b : Text} : le a b = true ↔ a ≤ b := by
  induction a generalizing b with
  | nil => simp [le]
  | cons x a ih =>
    cases b with
    | nil => simp [le]
    | cons y b => simp [le, List.cons_le_cons_iff, ih]

theorem le_trans' (a b c : Text) (hab : le a b = true) (hbc : le b c = true) : le a c = true :=
  le_iff.mpr (List.le_trans (le_iff.mp hab) (le_iff.mp hbc))

theorem le_total' (a b : Text) : (le a b || le b a) = true := by
  rw [Bool.or_eq_true, le_iff, le_iff]
  exact List.le_total a b

theorem mem_foldr_unique {t : Text} {texts : List Text} :
    t ∈ texts.foldr (fun t rest => if rest.head? = some t then rest else t :: rest) [] ↔ t ∈ texts := by
  induction texts with
  | nil => rfl
  | cons u us ih =>
    rw [List.foldr_cons, List.mem_cons]
    split
    · rename_i hHead
      rw [ih]
      refine ⟨.inr, ?_⟩
      rintro (rfl | hMem)
      · exact ih.mp (List.mem_of_head? hHead)
      · exact hMem
    · rw [List.mem_cons, ih]

theorem mem_sortUnique {t : Text} {texts : List Text} : t ∈ sortUnique texts ↔ t ∈ texts := by
  rw [sortUnique, mem_foldr_unique, List.mem_mergeSort]

abbrev Increasing (ts : List Text) : Prop := ts.Pairwise (· < ·)

variable {ts us : List Text}

theorem Increasing.ext (ht : Increasing ts) (hu : Increasing us) (h : ∀ x, x ∈ ts ↔ x ∈ us) : ts = us :=
  List.Pairwise.eq_of_mem_iff ht hu h

theorem increasing_foldr_unique {ts : List Text} (h : ts.Pairwise fun a b => le a b = true) :
    Increasing (ts.foldr (fun t rest => if rest.head? = some t then rest else t :: rest) []) := by
  induction ts with
  | nil => exact .nil
  | cons t ts ih =>
    obtain ⟨hFirst, hRest⟩ := List.pairwise_cons.mp h
    rw [List.foldr_cons]
    split
    · exact ih hRest
    · rename_i hHead
      refine List.pairwise_cons.mpr ⟨fun u hu => ?_, ih hRest⟩
      refine (List.le_iff_lt_or_eq.mp (le_iff.mp (hFirst u (mem_foldr_unique.mp hu)))).resolve_right ?_
      rintro rfl
      -- the text would be first among the others already
      generalize hFold : ts.foldr _ [] = rest at hHead hu ih
      cases rest with
      | nil => cases hu
      | cons v vs =>
        have hv : v ∈ ts := mem_foldr_unique.mp (hFold ▸ List.mem_cons_self)
        rcases List.mem_cons.mp hu with rfl | hu
        · exact hHead rfl
        · exact absurd ((List.pairwise_cons.mp (ih hRest)).1 t hu) (le_iff.mp (hFirst v hv))

theorem increasing_sortUnique (ts : List Text) : Increasing (sortUnique ts) :=
  increasing_foldr_unique (List.pairwise_mergeSort le_trans' le_total' ts)

theorem mergeSort_eq (hNodup : ts.Nodup) (hu : Increasing us) (h : ∀ x, x ∈ ts ↔ x ∈ us) : ts.mergeSort le = us := by
  refine Increasing.ext ?_ hu fun x => by rw [List.mem_mergeSort, h]
  have hSorted : (ts.mergeSort le).Pairwise fun a b => le a b = true := List.pairwise_mergeSort le_trans' le_total' ts
  have hDistinct : (ts.mergeSort le).Nodup := (List.mergeSort_perm ts le).nodup_iff.mpr hNodup
  exact (hSorted.and hDistinct).imp fun hab => (List.le_iff_lt_or_eq.mp (le_iff.mp hab.1)).resolve_right hab.2

def union (ts us : List Text) : List Text := sortUnique (ts ++ us)

theorem sortUnique_congr (h : ∀ x, x ∈ ts ↔ x ∈ us) : sortUnique ts = sortUnique us :=
  (increasing_sortUnique ts).ext (increasing_sortUnique us) fun x => by rw [mem_sortUnique, mem_sortUnique, h]

theorem sortUnique_of_increasing {ts : List Text} (h : Increasing ts) : sortUnique ts = ts :=
  (increasing_sortUnique ts).ext h fun _ => mem_sortUnique

theorem foldl_union (lists : List (List Text)) {ts : List Text} (h : Increasing ts) :
    lists.foldl union ts = sortUnique (ts ++ lists.flatten) := by
  induction lists generalizing ts with
  | nil => rw [List.foldl_nil, List.flatten_nil, List.append_nil, sortUnique_of_increasing h]
  | cons us lists ih =>
    have hMerged : Increasing (union ts us) := increasing_sortUnique _
    rw [List.foldl_cons, ih hMerged]
    refine sortUnique_congr fun x => ?_
    rw [List.mem_append, union, mem_sortUnique, ← List.mem_append, List.append_assoc, List.flatten_cons]

end Text

end Marshal
