import Marshal.Proofs.Cbor.Records

/-! # Snapshots of storable plans

A plan is storable if its texts are UTF-8, the fields of its layouts are in canonical order and the widths of its
encodings are machine integers. The item of such a plan is made of plain parts, and the records are filled from their
canonical forms as they were, however deep their encodings are nested.
-/
set_option autoImplicit false
namespace Marshal

open Cbor

/-! ## What can be stored -/

def Layout.Storable (l : Layout) : Prop :=
  ∀ fields, l.fields = some fields → (fields.map (·.1)).Pairwise Precedes ∧ ∀ f ∈ fields, f.1.isUtf8 = true

def Selection.texts (s : Selection) : List Text := s.decl :: s.elem :: s.aggregate :: s.symbols

inductive Selection.Storable : Selection → Prop
  | intro {s : Selection} (hTexts : ∀ t ∈ s.texts, t.isUtf8 = true) (hLayout : s.layout.Storable)
      (hFlat : 0 ≤ s.flat ∧ s.flat < 0x8000000000000000) (hCategory : .ofCode s.category.code = s.category)
      (hChildren : ∀ c ∈ s.children, Storable c) : Storable s

structure ParamPlan.Storable (p : ParamPlan) : Prop where
  name : p.name.isUtf8 = true
  selection : p.selection.Storable

structure FunctionPlan.Storable (f : FunctionPlan) : Prop where
  result : f.result.Storable
  texts : ∀ t ∈ [f.name, f.symbol, f.signature, f.trampoline], t.isUtf8 = true
  params : ∀ p ∈ f.paramList, p.Storable

structure OpaquePlan.Storable (o : OpaquePlan) : Prop where
  name : o.name.isUtf8 = true
  key : ∀ t ∈ o.key, t.isUtf8 = true
  symbols : ∀ t ∈ o.symbols.getD [], t.isUtf8 = true

structure Plan.Storable (p : Plan) : Prop where
  name : p.name.isUtf8 = true
  functions : ∀ f ∈ p.functionList, f.Storable
  opaques : ∀ o ∈ p.opaqueList, o.Storable
  texts : ∀ t ∈ p.vectors ++ p.options ++ p.symbolList, t.isUtf8 = true

/-! ## Items of records -/

theorem selectionItems_eq (ss : List Selection) : selectionItems ss = ss.map Selection.toItem := by
  induction ss with
  | nil => rfl
  | cons s ss ih => rw [selectionItems, ih, List.map_cons]

namespace Cbor

variable {fields : List (Text × Option Item)} {items : List Item}

theorem canonical_array (items : List Item) : (Item.array items).canonical = .array (items.map Item.canonical) := by
  rw [Item.canonical, canonicalAll_eq]

theorem plain_recordItem (h : ∀ f ∈ fields, ∀ i ∈ f.2, i.Plain) : (recordItem fields).Plain := by
  refine .map (fun p hp => ?_) fun p hp => ?_
  · obtain ⟨f, -, hKey⟩ := mem_present hp
    exact ⟨f.1, hKey⟩
  · obtain ⟨f, hf, hItem⟩ := List.mem_filterMap.mp hp
    obtain ⟨i, hi, rfl⟩ := Option.map_eq_some_iff.mp hItem
    exact h f hf i hi

theorem height_lt_array {i : Item} (h : i ∈ items) : i.height < (Item.array items).height :=
  Nat.lt_succ_of_le (measureAll_le_iff.mp (Nat.le_refl _) i h)

theorem height_lt_recordItem (name : Text) {i : Item} (h : (name, some i) ∈ fields) :
    i.height < (recordItem fields).height := by
  refine Nat.lt_succ_of_le (measurePairs_le_iff.mp (Nat.le_refl _) i ?_)
  exact List.mem_flatMap.mpr ⟨(.ofText name, i), List.mem_filterMap.mpr ⟨_, h, rfl⟩, by simp⟩

theorem height_lt_records {α : Type} {toItem : α → Item} {o : Option (List α)} {x : α} (name : Text)
    (h : (name, some (.orNull (o.map fun xs => .array (xs.map toItem)))) ∈ fields) (hx : x ∈ o.getD []) :
    (toItem x).height < (recordItem fields).height := by
  cases o with
  | none => cases hx
  | some xs => exact Nat.lt_trans (height_lt_array (List.mem_map_of_mem hx)) (height_lt_recordItem name h)

theorem perm_of_order {α : Type} {l sorted : List α} (n : Nat) (order : List Nat) (hOrder : order.Perm (List.range n))
    (hLength : l.length = n) (hSorted : order.filterMap (l[·]?) = sorted) : sorted.Perm l := by
  subst hLength hSorted
  have hAll : (List.range l.length).filterMap (l[·]?) = l := by
    clear hOrder
    induction l with
    | nil => rfl
    | cons x l ih =>
      rw [List.length_cons, List.range_succ_eq_map, List.filterMap_cons, List.filterMap_map]
      exact congrArg (x :: ·) ih
  conv_rhs => rw [← hAll]
  exact hOrder.filterMap _

/-! ## Fields -/

namespace Member

variable {t : Text} {ts : List Text}

theorem fills_text (h : t.isUtf8 = true) (old : Text) : Fills .text ((some (.ofText t)).map Item.canonical) old t :=
  Fill.text_ofText h old

theorem fills_textUnlessEmpty (h : t.isUtf8 = true) : Fills .text ((textUnlessEmpty t).map Item.canonical) [] t := by
  cases t with
  | nil => rfl
  | cons b t => exact Fill.text_ofText h []

theorem fill_texts (h : ∀ t ∈ ts, t.isUtf8 = true) (old : Option (List Text)) :
    Fill.list .text [] (Item.ofTexts ts).canonical old = some (some ts) := by
  rw [Item.ofTexts, canonical_array, List.map_map]
  exact Fill.list_array (fun t ht => Fill.text_ofText (h t ht) []) old

theorem fills_textsUnlessEmpty (h : ∀ t ∈ ts, t.isUtf8 = true) :
    Fills (.plainList .text []) ((textsUnlessEmpty ts).map Item.canonical) [] ts := by
  cases ts with
  | nil => rfl
  | cons t ts =>
    change Fill.plainList .text [] (Item.ofTexts (t :: ts)).canonical [] = some (t :: ts)
    rw [Fill.plainList, fill_texts h]
    rfl

theorem fills_texts {o : Option (List Text)} (h : ∀ t ∈ o.getD [], t.isUtf8 = true) (old : Option (List Text)) :
    Fills (.list .text []) ((some (.orNull (o.map .ofTexts))).map Item.canonical) old o := by
  cases o with
  | none => rfl
  | some ts => exact fill_texts h old

theorem fills_bool (b old : Bool) : Fills .bool ((some (.ofBool b)).map Item.canonical) old b := by
  cases b <;> rfl

theorem fills_flag (b : Bool) : Fills .bool ((if b then some (.ofBool true) else none).map Item.canonical) false b := by
  cases b <;> rfl

theorem fills_byte (n old : UInt8) : Fills .byte ((some (.uint n.toNat)).map Item.canonical) old n :=
  Fill.byte_uint n old

theorem fills_int {n : Int} (h : 0 ≤ n ∧ n < 0x8000000000000000) (old : Int) :
    Fills .int ((some (.ofInt n)).map Item.canonical) old n := by
  have hItem : (Item.ofInt n).canonical = .ofInt n := by cases n <;> rfl
  change Fill.int (Item.ofInt n).canonical old = some n
  rw [hItem]
  exact Fill.int_ofInt (by omega) h.2 old

theorem fills_word (n old : UInt32) : Fills .word ((some (.uint n.toNat)).map Item.canonical) old n :=
  Fill.word_uint n old

theorem fills_record {α : Type} {fill : Fill α} {i : Item} {old v : α} (h : fill i.canonical old = some v) :
    Fills fill ((some i).map Item.canonical) old v :=
  h

theorem fills_records {α : Type} {fill : Fill α} {blank : α} {toItem : α → Item} {o : Option (List α)}
    (h : ∀ x ∈ o.getD [], fill (toItem x).canonical blank = some x) (old : Option (List α)) :
    Fills (.list fill blank) ((some (.orNull (o.map fun xs => .array (xs.map toItem)))).map Item.canonical) old o := by
  cases o with
  | none => rfl
  | some xs =>
    change Fill.list fill blank (Item.array (xs.map toItem)).canonical old = some (some xs)
    rw [canonical_array, List.map_map]
    exact Fill.list_array h old

end Member

end Cbor

/-! ## Layouts -/

theorem putPair_new {α : Type} {key : Text} {value : α} {filled : List (Text × α)} (h : key ∉ filled.map (·.1)) :
    Fill.putPair key value filled = filled ++ [(key, value)] := by
  induction filled with
  | nil => rfl
  | cons p filled ih =>
    obtain ⟨k, v⟩ := p
    have hKey : k ≠ key := fun hEq => h (hEq ▸ List.mem_cons_self)
    rw [Fill.putPair, if_neg hKey, ih fun hMem => h (List.mem_cons_of_mem _ hMem), List.cons_append]

theorem pairsFrom_append {α : Type} {fill : Fill α} {encode : α → Cbor.Item}
    (hFill : ∀ v old, fill (encode v) old = some v) {entries filled : List (Text × α)}
    (hText : ∀ e ∈ entries, e.1.isUtf8 = true) (hNodup : ((filled ++ entries).map (·.1)).Nodup) (key : Text)
    (value : α) :
    Fill.pairsFrom fill key value filled (entries.map fun e => (.ofText e.1, encode e.2)) =
      some (filled ++ entries) := by
  induction entries generalizing filled key value with
  | nil =>
    rw [List.append_nil]
    rfl
  | cons e entries ih =>
    obtain ⟨name, v⟩ := e
    obtain ⟨hName, hRest⟩ := List.forall_mem_cons.mp hText
    have hMove : filled ++ (name, v) :: entries = filled ++ [(name, v)] ++ entries := by
      rw [List.append_assoc, List.singleton_append]
    have hNew : name ∉ filled.map (·.1) := by
      rw [List.map_append, List.nodup_append] at hNodup
      exact fun hMem => hNodup.2.2 name hMem name List.mem_cons_self rfl
    rw [List.map_cons, Fill.pairsFrom, Fill.text_ofText hName, hFill]
    change Fill.pairsFrom fill name v (Fill.putPair name v filled) _ = _
    rw [hMove] at hNodup ⊢
    rw [putPair_new hNew, ih hRest hNodup]

namespace Layout

def offsetPairs (offsets : List (Text × UInt32)) : List (Cbor.Item × Cbor.Item) :=
  offsets.map fun f => (.ofText f.1, .uint f.2.toNat)

theorem canonical_offsets {offsets : List (Text × UInt32)} (h : (offsets.map (·.1)).Pairwise Precedes) :
    (Item.map (offsetPairs offsets)).canonical = .map (offsetPairs offsets) := by
  have hPairs : canonicalPairs (offsetPairs offsets) = offsetPairs offsets := by
    rw [canonicalPairs_eq, offsetPairs, List.map_map]
    rfl
  have hSorted : sortPairs (offsetPairs offsets) = offsetPairs offsets :=
    sortPairs_eq (.refl _) (List.pairwise_map.mpr (List.pairwise_map.mp h))
  rw [Item.canonical, hPairs, hSorted]

theorem fills_offsets {l : Layout} (h : l.Storable) (old : Option (List (Text × UInt32))) :
    Member.Fills (.pairs .word 0) ((some (.orNull (l.fields.map fun fs => .map (offsetPairs fs)))).map Item.canonical)
      old l.fields := by
  cases hFields : l.fields with
  | none => rfl
  | some offsets =>
    obtain ⟨hOrder, hText⟩ := h offsets hFields
    have hNodup : (([] ++ offsets : List (Text × UInt32)).map (·.1)).Nodup := nodup_of_precedes hOrder
    change Fill.pairs .word 0 (Item.map (offsetPairs offsets)).canonical old = some (some offsets)
    rw [canonical_offsets hOrder]
    change (Fill.pairsFrom .word [] 0 [] (offsetPairs offsets)).map some = _
    rw [offsetPairs, pairsFrom_append Fill.word_uint hText hNodup]
    rfl

theorem fill_toItem {l : Layout} (h : l.Storable) (old : Layout) :
    Fill.record cborMembers l.toItem.canonical old = some l := by
  refine (Fill.record_canonical
    [("Size", some (.uint l.size.toNat)), ("Align", some (.uint l.align.toNat)),
      ("FieldOffs", some (.orNull (l.fields.map fun fs => .map (offsetPairs fs))))]
    (perm_of_order 3 [1, 2, 0] (by decide) rfl rfl) rfl _).trans ?_
  refine (Member.fillFields_cons rfl rfl (Member.fills_word _ _)).trans ?_
  refine (Member.fillFields_cons rfl rfl (Member.fills_word _ _)).trans ?_
  refine (Member.fillFields_cons rfl rfl (fills_offsets h _)).trans ?_
  rfl

end Layout

/-! ## Records -/

theorem OpaquePlan.fill_toItem {o : OpaquePlan} (h : o.Storable) :
    Fill.record cborMembers o.toItem.canonical {} = some o := by
  refine (Fill.record_canonical
    [("key", textsUnlessEmpty o.key), ("name", some (.ofText o.name)),
      ("symbols", some (.orNull (o.symbols.map .ofTexts))), ("hashable", some (.ofBool o.hashable)),
      ("sendable", some (.ofBool o.sendable)), ("equatable", some (.ofBool o.equatable))]
    (perm_of_order 6 [1, 0, 2, 4, 5, 3] (by decide) rfl rfl) rfl _).trans ?_
  refine (Member.fillFields_cons rfl rfl (Member.fills_textsUnlessEmpty h.key)).trans ?_
  refine (Member.fillFields_cons rfl rfl (Member.fills_text h.name _)).trans ?_
  refine (Member.fillFields_cons rfl rfl (Member.fills_texts h.symbols _)).trans ?_
  refine (Member.fillFields_cons rfl rfl (Member.fills_bool _ _)).trans ?_
  refine (Member.fillFields_cons rfl rfl (Member.fills_bool _ _)).trans ?_
  refine (Member.fillFields_cons rfl rfl (Member.fills_bool _ _)).trans ?_
  rfl

namespace Selection

theorem toItem_eq (s : Selection) : s.toItem =
    recordItem [("decl", some (.ofText s.decl)), ("elem", textUnlessEmpty s.elem),
      ("aggregate", textUnlessEmpty s.aggregate), ("symbols", textsUnlessEmpty s.symbols),
      ("children", if s.children.isEmpty then none else some (.array (selectionItems s.children))),
      ("layout", some s.layout.toItem), ("flat", some (.ofInt s.flat)),
      ("category", some (.uint s.category.code.toNat)),
      ("borrowed", if s.borrowed then some (.ofBool true) else none)] := by
  cases s
  rw [toItem]

variable {s c : Selection} {children : List Selection}

theorem childrenItem_eq (hc : c ∈ children) :
    (if children.isEmpty then none else some (Item.array (selectionItems children))) =
      some (Item.array (children.map toItem)) := by
  rw [if_neg (by simpa using List.ne_nil_of_mem hc), selectionItems_eq]

theorem height_child (hc : c ∈ s.children) : c.toItem.height + 1 < s.toItem.height := by
  have hInner := height_lt_array (List.mem_map_of_mem hc : c.toItem ∈ s.children.map toItem)
  have hOuter : (Item.array (s.children.map toItem)).height < s.toItem.height := by
    rw [toItem_eq]
    exact height_lt_recordItem "children" (by rw [childrenItem_eq hc]; simp)
  omega

theorem fills_children {depth : Nat} (h : ∀ c ∈ children, fillWithin depth c.toItem.canonical {} = some c) :
    Member.Fills (.plainList (fillWithin depth) {})
      ((if children.isEmpty then none else some (.array (selectionItems children))).map Item.canonical)
      [] children := by
  cases children with
  | nil => rfl
  | cons c children =>
    rw [childrenItem_eq List.mem_cons_self]
    change Fill.plainList _ {} (Item.array ((c :: children).map toItem)).canonical [] = some (c :: children)
    rw [canonical_array, List.map_map]
    exact Fill.plainList_array h []

/-- By induction on the encoding, whose parts are less deep than it is itself. -/
theorem Storable.fill_toItem (h : s.Storable) :
    ∀ depth, s.toItem.height ≤ depth → fillWithin depth s.toItem.canonical {} = some s := by
  induction h with
  | @intro s hTexts hLayout hFlat hCategory hChildren ih =>
    intro depth hDepth
    have hPos : 0 < s.toItem.height := by
      rw [toItem_eq]
      exact Nat.lt_of_le_of_lt (Nat.zero_le _) (height_lt_recordItem "decl" List.mem_cons_self)
    obtain ⟨depth, rfl⟩ : ∃ n, depth = n + 1 := Nat.exists_eq_succ_of_ne_zero (by omega)
    have hParts : ∀ c ∈ s.children, fillWithin depth c.toItem.canonical {} = some c := by
      intro c hc
      have := height_child hc
      exact ih c hc depth (by omega)
    obtain ⟨hDecl, hTexts⟩ := List.forall_mem_cons.mp hTexts
    obtain ⟨hElem, hTexts⟩ := List.forall_mem_cons.mp hTexts
    obtain ⟨hAggregate, hSymbols⟩ := List.forall_mem_cons.mp hTexts
    rw [toItem_eq]
    refine (Fill.record_canonical
      [("decl", some (.ofText s.decl)), ("elem", textUnlessEmpty s.elem), ("flat", some (.ofInt s.flat)),
        ("layout", some s.layout.toItem), ("symbols", textsUnlessEmpty s.symbols),
        ("borrowed", if s.borrowed then some (.ofBool true) else none),
        ("category", some (.uint s.category.code.toNat)),
        ("children", if s.children.isEmpty then none else some (.array (selectionItems s.children))),
        ("aggregate", textUnlessEmpty s.aggregate)]
      (perm_of_order 9 [0, 1, 6, 5, 3, 8, 7, 4, 2] (by decide) rfl rfl) rfl _).trans ?_
    refine (Member.fillFields_cons rfl rfl (Member.fills_text hDecl _)).trans ?_
    refine (Member.fillFields_cons rfl rfl (Member.fills_textUnlessEmpty hElem)).trans ?_
    refine (Member.fillFields_cons rfl rfl (Member.fills_int hFlat _)).trans ?_
    refine (Member.fillFields_cons rfl rfl (Member.fills_record (Layout.fill_toItem hLayout _))).trans ?_
    refine (Member.fillFields_cons rfl rfl (Member.fills_textsUnlessEmpty hSymbols)).trans ?_
    refine (Member.fillFields_cons rfl rfl (Member.fills_flag s.borrowed)).trans ?_
    refine (Member.fillFields_cons rfl rfl (Member.fills_byte s.category.code _)).trans ?_
    refine (Member.fillFields_cons rfl rfl (fills_children hParts)).trans ?_
    refine (Member.fillFields_cons rfl rfl (Member.fills_textUnlessEmpty hAggregate)).trans ?_
    change some { s with category := .ofCode s.category.code } = some s
    rw [hCategory]
    cases s
    rfl

end Selection

theorem ParamPlan.fill_toItem {p : ParamPlan} (h : p.Storable) {depth : Nat} (hDepth : p.toItem.height ≤ depth) :
    Fill.record (cborMembers (Selection.fillWithin depth)) p.toItem.canonical {} = some p := by
  have hSelection : p.selection.toItem.height < p.toItem.height := height_lt_recordItem "selection" (by simp)
  refine (Fill.record_canonical [("name", some (.ofText p.name)), ("selection", some p.selection.toItem)]
    (.refl _) rfl _).trans ?_
  refine (Member.fillFields_cons rfl rfl (Member.fills_text h.name _)).trans ?_
  refine Eq.trans (Member.fillFields_cons rfl rfl (Member.fills_record (h.selection.fill_toItem depth (by omega)))) ?_
  rfl

theorem FunctionPlan.fill_toItem {f : FunctionPlan} (h : f.Storable) {depth : Nat} (hDepth : f.toItem.height ≤ depth) :
    Fill.record (cborMembers (Selection.fillWithin depth)) f.toItem.canonical {} = some f := by
  have hResult : f.result.toItem.height < f.toItem.height := height_lt_recordItem "result" (by simp)
  have hParams : ∀ p ∈ f.params.getD [], Fill.record (ParamPlan.cborMembers (Selection.fillWithin depth))
      p.toItem.canonical {} = some p := by
    intro p hp
    have hHeight : p.toItem.height < f.toItem.height := height_lt_records "params" (by simp) hp
    exact ParamPlan.fill_toItem (h.params p hp) (by omega)
  refine (Fill.record_canonical
    [("name", some (.ofText f.name)), ("async", some (.ofBool f.async)),
      ("params", some (.orNull (f.params.map fun ps => .array (ps.map ParamPlan.toItem)))),
      ("result", some f.result.toItem), ("symbol", some (.ofText f.symbol)),
      ("signature", some (.ofText f.signature)), ("trampoline", textUnlessEmpty f.trampoline)]
    (perm_of_order 7 [1, 6, 5, 0, 2, 3, 4] (by decide) rfl rfl) rfl _).trans ?_
  refine (Member.fillFields_cons rfl rfl (Member.fills_text (h.texts _ (by simp)) _)).trans ?_
  refine (Member.fillFields_cons rfl rfl (Member.fills_bool _ _)).trans ?_
  refine (Member.fillFields_cons rfl rfl (Member.fills_records hParams _)).trans ?_
  refine Eq.trans (Member.fillFields_cons rfl rfl (Member.fills_record (h.result.fill_toItem depth (by omega)))) ?_
  refine (Member.fillFields_cons rfl rfl (Member.fills_text (h.texts _ (by simp)) _)).trans ?_
  refine (Member.fillFields_cons rfl rfl (Member.fills_text (h.texts _ (by simp)) _)).trans ?_
  refine (Member.fillFields_cons rfl rfl (Member.fills_textUnlessEmpty (h.texts _ (by simp)))).trans ?_
  rfl

theorem Plan.fill_toItem {p : Plan} (h : p.Storable) {depth : Nat} (hDepth : p.toItem.height ≤ depth) :
    Fill.record (cborMembers (Selection.fillWithin depth)) p.toItem.canonical {} = some p := by
  have hFunctions : ∀ f ∈ p.functions.getD [], Fill.record (FunctionPlan.cborMembers (Selection.fillWithin depth))
      f.toItem.canonical {} = some f := by
    intro f hf
    have hHeight : f.toItem.height < p.toItem.height := height_lt_records "functions" (by simp) hf
    exact FunctionPlan.fill_toItem (h.functions f hf) (by omega)
  have hText : ∀ t, t ∈ p.vectors ∨ t ∈ p.options ∨ t ∈ p.symbolList → t.isUtf8 = true := by
    intro t ht
    refine h.texts t ?_
    simpa [or_assoc] using ht
  refine (Fill.record_canonical
    [("name", some (.ofText p.name)),
      ("opaques", some (.orNull (p.opaques.map fun os => .array (os.map OpaquePlan.toItem)))),
      ("options", textsUnlessEmpty p.options), ("symbols", some (.orNull (p.symbols.map .ofTexts))),
      ("vectors", textsUnlessEmpty p.vectors),
      ("functions", some (.orNull (p.functions.map fun fs => .array (fs.map FunctionPlan.toItem))))]
    (perm_of_order 6 [0, 2, 4, 5, 3, 1] (by decide) rfl rfl) rfl _).trans ?_
  refine (Member.fillFields_cons rfl rfl (Member.fills_text h.name _)).trans ?_
  refine (Member.fillFields_cons rfl rfl
    (Member.fills_records (fun o ho => OpaquePlan.fill_toItem (h.opaques o ho)) _)).trans ?_
  refine (Member.fillFields_cons rfl rfl
    (Member.fills_textsUnlessEmpty fun t ht => hText t (.inr (.inl ht)))).trans ?_
  refine (Member.fillFields_cons rfl rfl (Member.fills_texts (fun t ht => hText t (.inr (.inr ht))) _)).trans ?_
  refine (Member.fillFields_cons rfl rfl (Member.fills_textsUnlessEmpty fun t ht => hText t (.inl ht))).trans ?_
  refine (Member.fillFields_cons rfl rfl (Member.fills_records hFunctions _)).trans ?_
  rfl

/-! ## Plain items -/

namespace Cbor

abbrev PlainField (field : Option Item) : Prop := ∀ i ∈ field, i.Plain

theorem plainField_some {i : Item} (h : i.Plain) : PlainField (some i) := by
  rintro j ⟨⟩
  exact h

theorem plainField_text (t : Text) : PlainField (textUnlessEmpty t) := by
  cases t with
  | nil => rintro i ⟨⟩
  | cons b t => exact plainField_some (.text _)

theorem plain_texts (ts : List Text) : (Item.ofTexts ts).Plain := by
  refine .array fun i hi => ?_
  obtain ⟨t, -, rfl⟩ := List.mem_map.mp hi
  exact .text t

theorem plainField_texts (ts : List Text) : PlainField (textsUnlessEmpty ts) := by
  cases ts with
  | nil => rintro i ⟨⟩
  | cons t ts => exact plainField_some (plain_texts _)

theorem plain_bool (b : Bool) : (Item.ofBool b).Plain := by
  cases b <;> exact .simple (by decide)

theorem plain_orNull {o : Option Item} (h : PlainField o) : (Item.orNull o).Plain := by
  cases o with
  | none => exact .simple (by decide)
  | some i => exact h i rfl

theorem plain_textLists (o : Option (List Text)) : (Item.orNull (o.map .ofTexts)).Plain := by
  cases o with
  | none => exact .simple (by decide)
  | some ts => exact plain_texts ts

theorem plain_records {α : Type} {toItem : α → Item} {o : Option (List α)} (h : ∀ x ∈ o.getD [], (toItem x).Plain) :
    (Item.orNull (o.map fun xs => .array (xs.map toItem))).Plain := by
  cases o with
  | none => exact .simple (by decide)
  | some xs =>
    refine .array fun i hi => ?_
    obtain ⟨x, hx, rfl⟩ := List.mem_map.mp hi
    exact h x hx

theorem plain_word (n : UInt32) : (Item.uint n.toNat).Plain := .uint (Nat.lt_trans n.toNat_lt (by decide))

end Cbor

theorem Layout.plain_toItem (l : Layout) : l.toItem.Plain := by
  refine plain_recordItem ?_
  simp only [List.forall_mem_cons, List.not_mem_nil, false_imp_iff, implies_true, and_true]
  refine ⟨plainField_some (plain_orNull ?_), plainField_some (plain_word _), plainField_some (plain_word _)⟩
  rintro i hi
  obtain ⟨offsets, -, rfl⟩ := Option.map_eq_some_iff.mp hi
  refine .map (fun p hp => ?_) fun p hp => ?_
  · obtain ⟨f, -, rfl⟩ := List.mem_map.mp hp
    exact ⟨f.1, rfl⟩
  · obtain ⟨f, -, rfl⟩ := List.mem_map.mp hp
    exact plain_word f.2

theorem Selection.Storable.plain_toItem {s : Selection} (h : s.Storable) : s.toItem.Plain := by
  induction h with
  | @intro s _ _ hFlat _ _ ih =>
    have hWidth : (Item.ofInt s.flat).Plain := by
      obtain ⟨n, hn⟩ := Int.eq_ofNat_of_zero_le hFlat.1
      rw [hn]
      exact .uint (by omega)
    have hChildren : PlainField (if s.children.isEmpty then none else some (.array (selectionItems s.children))) := by
      split
      · rintro i ⟨⟩
      · refine plainField_some (.array fun i hi => ?_)
        rw [selectionItems_eq] at hi
        obtain ⟨c, hc, rfl⟩ := List.mem_map.mp hi
        exact ih c hc
    have hBorrowed : PlainField (if s.borrowed then some (.ofBool true) else none) := by
      split
      · exact plainField_some (plain_bool true)
      · rintro i ⟨⟩
    rw [toItem_eq]
    refine plain_recordItem ?_
    simp only [List.forall_mem_cons, List.not_mem_nil, false_imp_iff, implies_true, and_true]
    exact ⟨plainField_some (.text _), plainField_text _, plainField_text _, plainField_texts _, hChildren,
      plainField_some s.layout.plain_toItem, plainField_some hWidth,
      plainField_some (.uint (Nat.lt_trans s.category.code.toNat_lt (by decide))), hBorrowed⟩

theorem ParamPlan.Storable.plain_toItem {p : ParamPlan} (h : p.Storable) : p.toItem.Plain := by
  refine plain_recordItem ?_
  simp only [List.forall_mem_cons, List.not_mem_nil, false_imp_iff, implies_true, and_true]
  exact ⟨plainField_some (.text _), plainField_some h.selection.plain_toItem⟩

theorem FunctionPlan.Storable.plain_toItem {f : FunctionPlan} (h : f.Storable) : f.toItem.Plain := by
  refine plain_recordItem ?_
  simp only [List.forall_mem_cons, List.not_mem_nil, false_imp_iff, implies_true, and_true]
  exact ⟨plainField_some h.result.plain_toItem, plainField_some (.text _), plainField_some (.text _),
    plainField_some (.text _), plainField_text _,
    plainField_some (plain_records fun p hp => (h.params p hp).plain_toItem), plainField_some (plain_bool _)⟩

theorem OpaquePlan.plain_toItem (o : OpaquePlan) : o.toItem.Plain := by
  refine plain_recordItem ?_
  simp only [List.forall_mem_cons, List.not_mem_nil, false_imp_iff, implies_true, and_true]
  exact ⟨plainField_some (.text _), plainField_texts _, plainField_some (plain_textLists _),
    plainField_some (plain_bool _), plainField_some (plain_bool _), plainField_some (plain_bool _)⟩

namespace Plan

variable {p p' : Plan}

theorem Storable.plain_toItem (h : p.Storable) : p.toItem.Plain := by
  refine plain_recordItem ?_
  simp only [List.forall_mem_cons, List.not_mem_nil, false_imp_iff, implies_true, and_true]
  exact ⟨plainField_some (.text _), plainField_some (plain_records fun f hf => (h.functions f hf).plain_toItem),
    plainField_some (plain_records fun o _ => o.plain_toItem), plainField_texts _, plainField_texts _,
    plainField_some (plain_textLists _)⟩

/-! ## Snapshots -/

theorem Storable.decodeWithin_encode (h : p.Storable) (hLength : p.encode.length < 2 ^ 64) (limits : Limits) :
    decodeWithin limits p.encode = if p.toItem.Fits limits 0 then some p else none := by
  rw [decodeWithin, encode, Cbor.decode_encode h.plain_toItem hLength]
  by_cases hFits : p.toItem.Fits limits 0
  · rw [if_pos hFits, if_pos hFits, Option.bind_some]
    exact fill_toItem h (by simpa using hFits.1)
  · rw [if_neg hFits, if_neg hFits]
    rfl

theorem Storable.encode_inj (h : p.Storable) (h' : p'.Storable) (hLength : p.encode.length < 2 ^ 64)
    (hEncode : p'.encode = p.encode) : p' = p := by
  let limits : Limits :=
    { depth := max p.toItem.height p'.toItem.height, size := max p.toItem.breadth p'.toItem.breadth }
  have hFits : p.toItem.Fits limits 0 := ⟨by simp [limits], Nat.le_max_left _ _⟩
  have hFits' : p'.toItem.Fits limits 0 := ⟨by simp [limits], Nat.le_max_right _ _⟩
  have hRead := h.decodeWithin_encode hLength limits
  have hRead' := h'.decodeWithin_encode (hEncode ▸ hLength) limits
  rw [if_pos hFits] at hRead
  rw [if_pos hFits', hEncode, hRead] at hRead'
  exact (Option.some.inj hRead').symm

end Plan

end Marshal
