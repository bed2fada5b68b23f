import Marshal.Proofs.Plan.Order

/-! # Types with an encoding

A type that can be read has an encoding exactly if it is built from scalars, strings, opaque types and the
constructors over them, where vectors hold only scalars, strings and opaque objects, and options only scalars and
references. The shape in memory and the number of slots are worked out from the type, each by a walk of its own. In
the encoding they agree at every node: a node's size, alignment and width follow from its category and from those of
its children.
-/
set_option autoImplicit false
namespace Marshal

/-! ## The types -/

namespace Decl

/-- The types that can be read: only a side of a result may be absent. -/
inductive Readable : Decl → Prop
  | prim (p : Primitive) : Readable (.prim p)
  | string : Readable .string
  | errorContext : Readable .errorContext
  | own (name : Text) : Readable (.defn none (.own (.resourceNamed name)))
  | borrow (name : Text) : Readable (.defn none (.borrow (.resourceNamed name)))
  | list {elem : Decl} (hElem : Readable elem) : Readable (.defn none (.list elem))
  | option {elem : Decl} (hElem : Readable elem) : Readable (.defn none (.option elem))
  | tuple {elems : List Decl} (hElems : ∀ t ∈ elems, Readable t) : Readable (.defn none (.tuple elems))
  | result {ok err : Decl} (hOk : ok ≠ .absent → Readable ok) (hErr : err ≠ .absent → Readable err) :
      Readable (.defn none (.result ok err))

def IsObject (t : Decl) : Prop :=
  ∃ name, t = .defn none (.own (.resourceNamed name)) ∨ t = .defn none (.borrow (.resourceNamed name))

def IsElement (t : Decl) : Prop := (∃ p, t = .prim p) ∨ t = .string ∨ t.IsObject

/-- The types that have an encoding. -/
inductive Supported : Decl → Prop
  | element {t : Decl} (hType : t.IsElement) : Supported t
  | list {elem : Decl} (hElem : elem.IsElement) : Supported (.defn none (.list elem))
  | optionPrim (p : Primitive) : Supported (.defn none (.option (.prim p)))
  | optionRef {elem : Decl} (hRef : elem = .string ∨ elem.IsObject ∨ ∃ e, elem = .defn none (.list e))
      (hElem : Supported elem) : Supported (.defn none (.option elem))
  | result {ok err : Decl} (hOk : ok ≠ .absent → Supported ok) (hErr : err ≠ .absent → Supported err) :
      Supported (.defn none (.result ok err))
  | tuple {elems : List Decl} (hElems : ∀ t ∈ elems, Supported t) : Supported (.defn none (.tuple elems))

end Decl

namespace TypeExpr

theorem readable_applied {former : Former} {args : List Decl} {t : Decl} (h : applied former args = .ok t)
    (hArgs : ∀ a ∈ args, a = .absent ∨ a.Readable) : t.Readable := by
  have hPresent : ∀ a ∈ args, a.isPresent = true → a.Readable := by
    intro a ha hPresent
    rcases hArgs a ha with rfl | hReadable
    · cases hPresent
    · exact hReadable
  have hSide : ∀ a ∈ args, a ≠ .absent → a.Readable := fun a ha hGiven => (hArgs a ha).resolve_left hGiven
  unfold applied at h
  split at h
  · split at h <;> cases h
    exact .list (hPresent _ List.mem_cons_self ‹_›)
  · split at h <;> cases h
    exact .option (hPresent _ List.mem_cons_self ‹_›)
  · split at h <;> cases h
    rename_i hAll
    exact .tuple fun t ht => hPresent t ht (List.all_eq_true.mp hAll t ht)
  · cases h
    exact .result (hSide _ List.mem_cons_self) fun hGiven => absurd rfl hGiven
  · cases h
    exact .result (hSide _ List.mem_cons_self) (hSide _ (List.mem_cons_of_mem _ List.mem_cons_self))
  · cases h

theorem readable_parse {names : List Text} {source : Text} {t : Decl} (h : parse names source = .ok t) :
    t.Readable := by
  refine holds_parse (holds_ofWord? .prim .string .errorContext) ?_ readable_applied h
  intro name _ former
  cases former with
  | borrow => exact .borrow name
  | _ => exact .own name

end TypeExpr

/-! ## Encodings -/

def Category.isReference : Category → Bool
  | .string | .object | .vec => true
  | _ => false

namespace Selection

def Measures (s : Selection) (size align : UInt32) (flat : Int) : Prop :=
  s.layout.size = size ∧ s.layout.align = align ∧ s.flat = flat

def stackEnd (children : List Selection) : UInt32 :=
  children.foldl (fun stop c => alignTo stop c.layout.align + c.layout.size) 0

/-- The node's size, alignment and width follow from its category and its children. -/
def Settled (s : Selection) : Prop :=
  let align := Layout.maxAlign (s.children.map layout)
  let width := (s.children.map flat).foldr (· + ·) 0
  match s.category with
  | .unit => s.children = [] ∧ s.Measures 0 0 0
  | .primitive => ∃ p : Primitive, s.decl = p.label ∧ s.children = [] ∧ s.Measures p.size p.size 1
  | .string => s.children = [] ∧ s.Measures 4 4 2
  | .object => s.children = [] ∧ s.Measures 4 4 1
  | .vec => ∃ e, s.children = [e] ∧ e.category.isElement = true ∧ s.Measures 4 4 1
  | .optionPrimitive => ∃ e, s.children = [e] ∧ e.category = .primitive ∧
      s.Measures (Layout.optional e.layout.size e.layout.align).size
        (Layout.optional e.layout.size e.layout.align).align 2
  | .optionRef => ∃ e, s.children = [e] ∧ e.category.isReference = true ∧ s.Measures 4 4 1
  | .result => ∃ a b, s.children = [a, b] ∧
      if a.category.isReference && b.category.isReference then
        s.Measures 8 4 (1 + max a.flat b.flat) ∧ s.aggregate = Symbol.pointerResult
      else
        s.Measures (alignTo (alignTo 1 align + max a.layout.size b.layout.size) align) align (1 + max a.flat b.flat) ∧
          s.aggregate = []
  | .tuple => s.Measures (alignTo (stackEnd s.children) align) align width
  | .unlisted _ => False

end Selection

namespace Decl

variable {t : Decl} {s : Selection}

theorem IsObject.select (h : t.IsObject) : ∃ s, t.select = .ok s ∧ s.category = .object := by
  obtain ⟨name, rfl | rfl⟩ := h
  · exact ⟨_, rfl, rfl⟩
  · exact ⟨_, rfl, rfl⟩

theorem IsElement.select (h : t.IsElement) : ∃ s, t.select = .ok s ∧ s.category.isElement = true := by
  rcases h with ⟨p, rfl⟩ | rfl | hObject
  · exact ⟨_, rfl, rfl⟩
  · exact ⟨_, rfl, rfl⟩
  · obtain ⟨s, hs, hCategory⟩ := hObject.select
    exact ⟨s, hs, by rw [hCategory]; rfl⟩

theorem select_list_iff {elem : Decl} :
    (Decl.defn none (.list elem)).select = .ok s ↔
      ∃ e, elem.select = .ok e ∧ Selection.ofVec (.defn none (.list elem)) e = .ok s :=
  bind_eq_ok

theorem select_option_iff {elem : Decl} :
    (Decl.defn none (.option elem)).select = .ok s ↔
      ∃ e, elem.select = .ok e ∧ Selection.ofOption (.defn none (.option elem)) elem e = .ok s :=
  bind_eq_ok

theorem select_result_iff {ok err : Decl} :
    (Decl.defn none (.result ok err)).select = .ok s ↔
      ∃ a b, ok.select = .ok a ∧ err.select = .ok b ∧ s = .ofResult (.defn none (.result ok err)) ok err a b := by
  constructor
  · intro h
    obtain ⟨a, ha, h⟩ := bind_eq_ok.mp h
    obtain ⟨b, hb, h⟩ := bind_eq_ok.mp h
    cases h
    exact ⟨a, b, ha, hb, rfl⟩
  · rintro ⟨a, b, ha, hb, rfl⟩
    exact bind_eq_ok.mpr ⟨a, ha, bind_eq_ok.mpr ⟨b, hb, rfl⟩⟩

variable {elems : List Decl}

theorem select_tuple_iff : (Decl.defn none (.tuple elems)).select = .ok s ↔
      ∃ parts, selectAll elems = .ok parts ∧ s = .ofTuple (.defn none (.tuple elems)) parts := by
  constructor
  · intro h
    obtain ⟨parts, hParts, h⟩ := bind_eq_ok.mp h
    cases h
    exact ⟨parts, hParts, rfl⟩
  · rintro ⟨parts, hParts, rfl⟩
    exact bind_eq_ok.mpr ⟨parts, hParts, rfl⟩

theorem IsElement.isComposite (h : t.IsElement) : t.isComposite = false := by
  rcases h with ⟨p, rfl⟩ | rfl | ⟨name, rfl | rfl⟩ <;> rfl

/-- What the encoding says of the type. -/
structure Reflects (t : Decl) (s : Selection) : Prop where
  layout : s.layout = t.layout
  flat : s.flat = t.width
  primitive : s.category = .primitive ↔ ∃ p, t = .prim p
  element : s.category.isElement = true ↔ t.IsElement
  reference : s.category.isReference = t.isReference

theorem reflects_of_isComposite (hType : t.isComposite = true) (hLayout : s.layout = t.layout)
    (hFlat : s.flat = t.width) (hElement : s.category.isElement = false)
    (hReference : s.category.isReference = t.isReference) : t.Reflects s := by
  have hNone : ¬ t.IsElement := by
    intro h
    cases hType.symm.trans h.isComposite
  refine ⟨hLayout, hFlat, ?_, ?_, hReference⟩
  · constructor
    · intro h
      rw [h] at hElement
      cases hElement
    · intro h
      exact absurd (.inl h) hNone
  · exact iff_of_false (ne_true_of_eq_false hElement) hNone

theorem Readable.reflects (h : t.Readable) (hs : t.select = .ok s) : t.Reflects s := by
  cases h with
  | prim p =>
    cases hs
    exact ⟨rfl, rfl, iff_of_true rfl ⟨p, rfl⟩, iff_of_true rfl (.inl ⟨p, rfl⟩), rfl⟩
  | string =>
    cases hs
    exact ⟨rfl, rfl, by simp [Selection.start], iff_of_true rfl (.inr (.inl rfl)), rfl⟩
  | errorContext => cases hs
  | own name =>
    cases hs
    exact ⟨rfl, rfl, by simp [Selection.ofObject, Selection.start], iff_of_true rfl (.inr (.inr ⟨name, .inl rfl⟩)), rfl⟩
  | borrow name =>
    cases hs
    exact ⟨rfl, rfl, by simp [Selection.ofObject, Selection.start], iff_of_true rfl (.inr (.inr ⟨name, .inr rfl⟩)), rfl⟩
  | list hElem =>
    obtain ⟨e, -, hs⟩ := select_list_iff.mp hs
    unfold Selection.ofVec at hs
    split at hs <;> cases hs
    exact reflects_of_isComposite rfl rfl rfl rfl rfl
  | option hElem =>
    obtain ⟨e, -, hs⟩ := select_option_iff.mp hs
    unfold Selection.ofOption at hs
    simp only at hs
    split at hs
    · cases hs
      exact reflects_of_isComposite rfl rfl rfl rfl rfl
    · split at hs <;> cases hs
      exact reflects_of_isComposite rfl rfl rfl rfl rfl
  | tuple hElems =>
    obtain ⟨parts, -, rfl⟩ := select_tuple_iff.mp hs
    exact reflects_of_isComposite rfl rfl rfl rfl rfl
  | result hOk hErr =>
    obtain ⟨a, b, -, -, rfl⟩ := select_result_iff.mp hs
    exact reflects_of_isComposite rfl rfl rfl rfl rfl

/-! ## Which types have one -/

theorem Readable.isReference_iff (h : t.Readable) :
    t.isReference = true ↔ t = .string ∨ t.IsObject ∨ ∃ e, t = .defn none (.list e) := by
  constructor
  · intro hRef
    cases h with
    | string => exact .inl rfl
    | own name => exact .inr (.inl ⟨name, .inl rfl⟩)
    | borrow name => exact .inr (.inl ⟨name, .inr rfl⟩)
    | list _ => exact .inr (.inr ⟨_, rfl⟩)
    | _ => cases hRef
  · rintro (rfl | ⟨name, rfl | rfl⟩ | ⟨e, rfl⟩) <;> rfl

theorem exists_selectAll {ts : List Decl} (h : ∀ t ∈ ts, ∃ s, t.select = .ok s) : ∃ ss, selectAll ts = .ok ss := by
  induction ts with
  | nil => exact ⟨[], rfl⟩
  | cons t ts ih =>
    obtain ⟨hFirst, hRest⟩ := List.forall_mem_cons.mp h
    obtain ⟨s, hs⟩ := hFirst
    obtain ⟨ss, hss⟩ := ih hRest
    exact ⟨s :: ss, bind_eq_ok.mpr ⟨s, hs, bind_eq_ok.mpr ⟨ss, hss, rfl⟩⟩⟩

theorem Readable.supported (h : t.Readable) (hs : t.select = .ok s) : t.Supported := by
  induction h generalizing s with
  | prim p => exact .element (.inl ⟨p, rfl⟩)
  | string => exact .element (.inr (.inl rfl))
  | errorContext => cases hs
  | own name => exact .element (.inr (.inr ⟨name, .inl rfl⟩))
  | borrow name => exact .element (.inr (.inr ⟨name, .inr rfl⟩))
  | list hElem _ =>
    obtain ⟨e, he, hs⟩ := select_list_iff.mp hs
    unfold Selection.ofVec at hs
    split at hs
    · rename_i hKind
      exact .list ((hElem.reflects he).element.mp hKind)
    · cases hs
  | option hElem ih =>
    obtain ⟨e, he, hs⟩ := select_option_iff.mp hs
    unfold Selection.ofOption at hs
    simp only at hs
    split at hs
    · rename_i hKind
      obtain ⟨p, rfl⟩ := (hElem.reflects he).primitive.mp hKind
      exact .optionPrim p
    · split at hs
      · rename_i hRef
        exact .optionRef (hElem.isReference_iff.mp hRef) (ih he)
      · cases hs
  | tuple _ ih =>
    obtain ⟨parts, hParts, -⟩ := select_tuple_iff.mp hs
    refine .tuple fun t ht => ?_
    obtain ⟨i, hi, rfl⟩ := List.mem_iff_getElem.mp ht
    have hEncoded := encoded_of_selectAll hParts
    exact ih _ ht (hEncoded.get hi (hEncoded.length_eq ▸ hi))
  | result _ _ ihOk ihErr =>
    obtain ⟨a, b, ha, hb, -⟩ := select_result_iff.mp hs
    exact .result (fun hGiven => ihOk hGiven ha) fun hGiven => ihErr hGiven hb

theorem exists_select_side (h : t ≠ .absent → ∃ s, t.select = .ok s) : ∃ s, t.select = .ok s := by
  by_cases hGiven : t = .absent
  · exact ⟨_, by rw [hGiven]; rfl⟩
  · exact h hGiven

theorem Supported.select (h : t.Supported) : ∃ s, t.select = .ok s := by
  induction h with
  | element hType =>
    obtain ⟨s, hs, -⟩ := hType.select
    exact ⟨s, hs⟩
  | list hElem =>
    obtain ⟨e, he, hKind⟩ := hElem.select
    exact ⟨_, select_list_iff.mpr ⟨e, he, if_pos hKind⟩⟩
  | optionPrim p => exact ⟨_, select_option_iff.mpr ⟨_, rfl, rfl⟩⟩
  | @optionRef elem hRef _ ih =>
    obtain ⟨e, he⟩ := ih
    have hReference : elem.isReference = true := by
      rcases hRef with rfl | ⟨name, rfl | rfl⟩ | ⟨e, rfl⟩ <;> rfl
    refine Exists.imp (fun s hs => select_option_iff.mpr ⟨e, he, hs⟩) ?_
    unfold Selection.ofOption
    simp only [hReference, if_true]
    split
    · exact ⟨_, rfl⟩
    · exact ⟨_, rfl⟩
  | result _ _ ihOk ihErr =>
    obtain ⟨a, ha⟩ := exists_select_side ihOk
    obtain ⟨b, hb⟩ := exists_select_side ihErr
    exact ⟨_, select_result_iff.mpr ⟨a, b, ha, hb, rfl⟩⟩
  | tuple _ ih =>
    obtain ⟨parts, hParts⟩ := exists_selectAll ih
    exact ⟨_, select_tuple_iff.mpr ⟨parts, hParts, rfl⟩⟩

/-! ## What the nodes measure -/

theorem place_stop (offset : UInt32) (parts : List Layout) :
    (Layout.place offset parts).2 = parts.foldl (fun stop l => alignTo stop l.align + l.size) offset := by
  induction parts generalizing offset with
  | nil => rfl
  | cons l parts ih => exact ih _

theorem fields_eq {parts : List Selection} (h : Encoded elems parts) (hElems : ∀ t ∈ elems, t.Readable) :
    layouts elems = parts.map Selection.layout ∧
      (elemsWidth elems : Int) = (parts.map Selection.flat).foldr (· + ·) 0 := by
  induction h with
  | nil => exact ⟨rfl, rfl⟩
  | @cons t s elems parts hs _ ih =>
    obtain ⟨hFirst, hRest⟩ := List.forall_mem_cons.mp hElems
    obtain ⟨hLayouts, hWidths⟩ := ih hRest
    have hReflects := hFirst.reflects hs
    constructor
    · rw [layouts, List.map_cons, hReflects.layout, hLayouts]
    · rw [elemsWidth, List.map_cons, List.foldr_cons, hReflects.flat, ← hWidths]
      exact Int.natCast_add _ _

theorem settled_tuple {parts : List Selection} (h : Encoded elems parts)
    (hElems : ∀ t ∈ elems, t.Readable) : (Selection.ofTuple (.defn none (.tuple elems)) parts).Settled := by
  obtain ⟨hLayouts, hWidths⟩ := fields_eq h hElems
  refine ⟨?_, ?_, hWidths⟩
  · show (Layout.sequence (layouts elems)).size = _
    rw [hLayouts, Layout.sequence, place_stop, List.foldl_map]
    rfl
  · show (Layout.sequence (layouts elems)).align = _
    rw [hLayouts]
    rfl

/-- What a side of a result adds to it, an absent one nothing. -/
structure SideOf (t : Decl) (s : Selection) : Prop where
  size : s.layout.size = t.layout.size
  align : max 1 s.layout.align = max 1 t.layout.align
  flat : s.flat = t.width
  reference : s.category.isReference = t.isReference

theorem sideOf_select (h : t ≠ .absent → t.Readable) (hs : t.select = .ok s) : t.SideOf s := by
  by_cases hGiven : t = .absent
  · subst hGiven
    cases hs
    exact ⟨rfl, by decide, rfl, rfl⟩
  · have hReflects := (h hGiven).reflects hs
    exact ⟨by rw [hReflects.layout], by rw [hReflects.layout], hReflects.flat, hReflects.reference⟩

theorem settled_result {ok err : Decl} {a b : Selection} (hOk : ok.SideOf a) (hErr : err.SideOf b) :
    (Selection.ofResult (.defn none (.result ok err)) ok err a b).Settled := by
  have hFlat : ((1 + max ok.width err.width : Nat) : Int) = 1 + max a.flat b.flat := by
    rw [hOk.flat, hErr.flat]
    omega
  have hAlign : Layout.maxAlign [a.layout, b.layout] = max 1 (Layout.maxAlign [ok.layout, err.layout]) := by
    have hFirst := congrArg UInt32.toNat hOk.align
    have hSecond := congrArg UInt32.toNat hErr.align
    apply UInt32.toNat_inj.mp
    simp only [Layout.maxAlign, List.foldl_cons, List.foldl_nil, UInt32.toNat_max] at hFirst hSecond ⊢
    omega
  have hSize : max a.layout.size b.layout.size = Layout.maxSize [ok.layout, err.layout] := by
    apply UInt32.toNat_inj.mp
    simp only [Layout.maxSize, List.foldl_cons, List.foldl_nil, UInt32.toNat_max, hOk.size, hErr.size,
      UInt32.toNat_zero]
    omega
  refine ⟨a, b, rfl, ?_⟩
  rw [hOk.reference, hErr.reference]
  split
  · rename_i hBoth
    have hLayout : (Decl.defn none (.result ok err)).layout = .pointerResult := if_pos hBoth
    refine ⟨⟨?_, ?_, hFlat⟩, if_pos hBoth⟩
    · exact congrArg Layout.size hLayout
    · exact congrArg Layout.align hLayout
  · rename_i hNotBoth
    have hLayout : (Decl.defn none (.result ok err)).layout = .result [ok.layout, err.layout] := if_neg hNotBoth
    refine ⟨⟨?_, ?_, hFlat⟩, if_neg hNotBoth⟩
    · refine (congrArg Layout.size hLayout).trans ?_
      rw [hSize]
      exact congrArg (fun n => alignTo (alignTo 1 n + _) n) hAlign.symm
    · exact (congrArg Layout.align hLayout).trans hAlign.symm

theorem Readable.settled (h : t.Readable) (hs : t.select = .ok s) : s.Settled := by
  cases h with
  | prim p =>
    cases hs
    exact ⟨p, rfl, rfl, rfl, rfl, rfl⟩
  | string =>
    cases hs
    exact ⟨rfl, rfl, rfl, rfl⟩
  | errorContext => cases hs
  | own name =>
    cases hs
    exact ⟨rfl, rfl, rfl, rfl⟩
  | borrow name =>
    cases hs
    exact ⟨rfl, rfl, rfl, rfl⟩
  | list hElem =>
    obtain ⟨e, -, hs⟩ := select_list_iff.mp hs
    unfold Selection.ofVec at hs
    split at hs <;> cases hs
    exact ⟨e, rfl, ‹_›, rfl, rfl, rfl⟩
  | @option elem hElem =>
    obtain ⟨e, he, hs⟩ := select_option_iff.mp hs
    have hReflects := hElem.reflects he
    unfold Selection.ofOption at hs
    simp only at hs
    split at hs
    · rename_i hKind
      cases hs
      obtain ⟨p, rfl⟩ := hReflects.primitive.mp hKind
      refine ⟨e, rfl, hKind, ?_, ?_, rfl⟩
      · rw [hReflects.layout]
        rfl
      · rw [hReflects.layout]
        rfl
    · split at hs <;> cases hs
      rename_i hRef
      have hLayout : (Decl.defn none (.option elem)).layout = .address := if_pos hRef
      have hWidth : (Decl.defn none (.option elem)).width = 1 := if_pos hRef
      refine ⟨e, rfl, hReflects.reference.trans hRef, ?_, ?_, ?_⟩
      · exact congrArg Layout.size hLayout
      · exact congrArg Layout.align hLayout
      · exact congrArg Int.ofNat hWidth
  | tuple hElems =>
    obtain ⟨parts, hParts, rfl⟩ := select_tuple_iff.mp hs
    exact settled_tuple (encoded_of_selectAll hParts) hElems
  | result hOk hErr =>
    obtain ⟨a, b, ha, hb, rfl⟩ := select_result_iff.mp hs
    exact settled_result (sideOf_select hOk ha) (sideOf_select hErr hb)

theorem Readable.argument {t' : Decl} (h : t.Readable) (hMem : t' ∈ t.arguments) : t' ≠ .absent → t'.Readable := by
  intro hGiven
  cases h with
  | list hElem => exact List.mem_singleton.mp hMem ▸ hElem
  | option hElem => exact List.mem_singleton.mp hMem ▸ hElem
  | tuple hElems => exact hElems t' hMem
  | result hOk hErr =>
    rcases List.mem_cons.mp hMem with rfl | hMem
    · exact hOk hGiven
    · obtain rfl := List.mem_singleton.mp hMem
      exact hErr hGiven
  | _ => cases hMem

theorem settled_select (h : t ≠ .absent → t.Readable) (hs : t.select = .ok s) : s.Settled := by
  by_cases hGiven : t = .absent
  · subst hGiven
    cases hs
    exact ⟨rfl, rfl, rfl, rfl⟩
  · exact (h hGiven).settled hs

/-- By induction on the way to the node: it is the encoding of an argument of a type that can be read. -/
theorem Readable.exists_type (h : t.Readable) (hs : t.select = .ok s) {c : Selection} (hPart : s.Part c) :
    ∃ t' : Decl, (t' ≠ .absent → t'.Readable) ∧ t'.select = .ok c := by
  induction hPart with
  | whole => exact ⟨t, fun _ => h, hs⟩
  | child _ hChild ih =>
    obtain ⟨t₁, hRead, hSelect⟩ := ih
    obtain ⟨t₂, hMem, hSelect₂⟩ := (encoded_arguments hSelect).exists_type hChild
    refine ⟨t₂, ?_, hSelect₂⟩
    by_cases hGiven : t₁ = .absent
    · subst hGiven
      cases hMem
    · exact (hRead hGiven).argument hMem

end Decl

/-- A type that is read has an encoding exactly if it is supported, and every node of the encoding measures what its
category and its children ask for. -/
theorem TypeExpr.parse_selects {names : List Text} {source : Text} {t : Decl}
    (h : TypeExpr.parse names source = .ok t) :
    ((∃ s, t.select = .ok s) ↔ t.Supported) ∧ ∀ s, t.select = .ok s → ∀ c, s.Part c → c.Settled := by
  have hReadable := TypeExpr.readable_parse h
  refine ⟨⟨?_, Decl.Supported.select⟩, ?_⟩
  · rintro ⟨s, hs⟩
    exact hReadable.supported hs
  · intro s hs c hPart
    obtain ⟨t', hRead, hSelect⟩ := hReadable.exists_type hs hPart
    exact Decl.settled_select hRead hSelect

def nestedSource : Text :=
  "tuple<option<u8>, result<list<Point>, string>, option<borrow<Point>>, result<_, tuple<u64>>>"

def nestedType : Decl :=
  .defn none (.tuple [.defn none (.option (.prim .u8)),
    .defn none (.result (.defn none (.list (.defn none (.own (.resourceNamed "Point"))))) .string),
    .defn none (.option (.defn none (.borrow (.resourceNamed "Point")))),
    .defn none (.result .absent (.defn none (.tuple [.prim .u64])))])

theorem TypeExpr.parse_selects_nested : ∃ s, TypeExpr.parse ["Point"] nestedSource = .ok nestedType ∧
    nestedType.select = .ok s ∧ nestedType.Supported ∧ s.Measures 32 8 8 ∧ ∀ c, s.Part c → c.Settled := by
  have hParse : TypeExpr.parse ["Point"] nestedSource = .ok nestedType := rfl
  obtain ⟨hSupported, hSettled⟩ := TypeExpr.parse_selects hParse
  exact ⟨_, hParse, rfl, hSupported.mp ⟨_, rfl⟩, ⟨by decide +kernel, by decide +kernel, by decide +kernel⟩,
    hSettled _ rfl⟩

/-- A string is behind one address and yet two slots wide. -/
theorem TypeExpr.parse_selects_text : ∃ s, TypeExpr.parse [] "string" = .ok .string ∧ Decl.string.select = .ok s ∧
    s.category.isReference = true ∧ s.Measures 4 4 2 ∧ s.flat ≠ 1 :=
  ⟨_, rfl, rfl, rfl, ⟨rfl, rfl, rfl⟩, by decide⟩

end Marshal
