import Marshal.Proofs.Owner.Upkeep
import Marshal.Proofs.Text.Trim

/-! # Boxed strings

A boxed string is a range of the memory. In every owner that is reached, whatever was done to its heap, each string lies
inside the memory and inside 32 bits and is of the type of strings, so that its functions find it and read it. Trimming
a string that is text answers the view of what lies between the white space at its ends.
-/
set_option autoImplicit false
namespace Marshal

open Step Text

namespace Owner

variable {V : Type} {o : Owner V} {addr ptr len : UInt32} {e : Entry (Object V)}

theorem string?_eq_some {v : Object V} (h : string? v = some (ptr, len)) : v = .string ptr len := by
  cases v with
  | string p l =>
    cases h
    rfl
  | _ => cases h

/-- The string lies inside the memory and inside 32 bits, and its type is that of strings. -/
structure Legible (types : List Text) (m : Memory) (id ptr len : UInt32) : Prop where
  bytes : ptr.toNat + len.toNat ≤ m.bytes
  low : ptr.toNat + len.toNat < 2 ^ 32
  declared : stringType ∈ types
  type : id = typeNumber types stringType

def legible : Upkeep V where
  heap := Heap.Low
  object types h id v := ∀ ptr len, string? v = some (ptr, len) → Legible types h.memory id ptr len
  steady := Heap.steady_low
  lasts types id v c h hh := by
    refine ⟨Heap.steady_low c h hh.1, fun ptr len hString => ?_⟩
    have hl := hh.2 ptr len hString
    exact ⟨Nat.le_trans hl.bytes (Heap.grows_use h c).bytes_le, hl.low, hl.declared, hl.type⟩
  declared hGrow hv ptr len hString :=
    let hl := hv ptr len hString
    ⟨hl.bytes, hl.low, hGrow.subset hl.declared, hl.type.trans (typeNumber_grow hGrow hl.declared).symm⟩
  bare _ hBare ptr len hString := by cases hBare.not_text.symm.trans hString
  text hDeclared hLow hAlloc ptr len hString := by
    cases hString
    obtain ⟨hBytes, hEnd⟩ := hLow.allocateBytes hAlloc
    exact ⟨hBytes, hEnd, hDeclared, rfl⟩
  push hl _ _ _ _ _ buf' _ _ _ _ _ ptr len hString := by cases (hl.not_text buf').symm.trans hString
  pop hl _ _ _ _ buf' _ _ _ _ _ ptr len hString := by cases (hl.not_text buf').symm.trans hString

theorem Reached.legible (hRun : o.Reached) (hFound : o.entry? addr = some e) (hString : e.value = .string ptr len) :
    Legible o.types o.table.heap.memory e.typeId ptr len := by
  have hHolds := Upkeep.holds_of_reached (u := Owner.legible) (fun m _ => Heap.low_start m) hRun
  exact hHolds.objects e (Store.entry?_eq_some hFound).1 ptr len (by rw [hString]; rfl)

theorem exec_mustGet {β : Type} {project : Object V → Option β} {b : β} {name : Text} (hName : name ∈ o.types)
    (hFound : o.entry? addr = some e) (hType : e.typeId = typeNumber o.types name) (hValue : project e.value = some b) :
    exec (mustGet name addr project) o = (.ok b, o) := by
  have hTypes : withType o.types name = o.types := if_pos hName
  have hId : exec (typeId name) o = (.ok (typeNumber o.types name), o) := by rw [exec_typeId, hTypes]
  have hGet : o.table.getTyped? addr (typeNumber o.types name) = some e.value := by
    rw [Table.getTyped?, Store.typeId?, Store.get?]
    rw [Owner.entry?] at hFound
    rw [hFound, Option.map_some, Option.map_some, hType, if_pos rfl]
  rw [mustGet, exec_bind_ok hId, exec_bind_ok (exec_get o), hGet]
  simp only [hValue]
  rfl

/-! ## Trimming -/

variable {cs before inner behind : List Char}

theorem trimView_ofChars (ht : Trims cs before inner behind) (v : View) :
    trimView v (ofChars cs) = ⟨v.start + (ofChars before).length.toUInt32, (ofChars inner).length.toUInt32⟩ := by
  have hLength := ht.length_eq
  unfold trimView
  simp only [ht.length_sub_trimLeft]
  by_cases hInner : inner = []
  · have hAll : (ofChars before).length = (ofChars cs).length := by
      rw [hLength, hInner, ht.at_end hInner]
      rfl
    rw [if_pos hAll, hInner]
    rfl
  · have hSome : (ofChars before).length ≠ (ofChars cs).length := by
      have hNe : ofChars (inner ++ behind) ≠ [] := fun hNil =>
        hInner (List.append_eq_nil_iff.mp (ofChars_eq_nil_iff.mp hNil)).1
      have hPos := List.length_pos_iff.mpr hNe
      omega
    rw [if_neg hSome, ht.trimRight_eq hInner, List.length_append, Nat.add_sub_cancel_left]

/-- In the memory, the second view shows what lies between the white space at the ends of the first. -/
structure ShowsInner (m : Memory) (whole view : View) (before inner behind : List Char) : Prop where
  contents : m.slice whole.start.toNat whole.len.toNat = ofChars (before ++ inner ++ behind)
  trims : Trims (before ++ inner ++ behind) before inner behind
  start : view.start.toNat = whole.start.toNat + (ofChars before).length
  stop : view.start.toNat + view.len.toNat + (ofChars behind).length = whole.start.toNat + whole.len.toNat
  bytes : m.slice view.start.toNat view.len.toNat = ofChars inner

theorem showsInner_trimView {m : Memory} {whole : View} (hLow : whole.start.toNat + whole.len.toNat < 2 ^ 32)
    (hContents : m.slice whole.start.toNat whole.len.toNat = ofChars (before ++ inner ++ behind))
    (ht : Trims (before ++ inner ++ behind) before inner behind) :
    ShowsInner m whole (trimView whole (ofChars (before ++ inner ++ behind))) before inner behind := by
  have hLength : whole.len.toNat = (ofChars before).length + (ofChars inner).length + (ofChars behind).length := by
    rw [← m.length_slice whole.start.toNat whole.len.toNat, hContents, ofChars_append, ofChars_append,
      List.length_append, List.length_append]
  have hBefore : (ofChars before).length.toUInt32.toNat = (ofChars before).length := Nat.mod_eq_of_lt (by omega)
  have hInner : (ofChars inner).length.toUInt32.toNat = (ofChars inner).length := Nat.mod_eq_of_lt (by omega)
  have hStart : (whole.start + (ofChars before).length.toUInt32).toNat =
      whole.start.toNat + (ofChars before).length := by
    rw [UInt32.toNat_add, hBefore, Nat.mod_eq_of_lt (by omega)]
  rw [trimView_ofChars ht]
  refine ⟨hContents, ht, hStart, ?_, ?_⟩
  · simp only [hStart, hInner, hLength]
    omega
  · simp only [hStart, hInner]
    have hPart : (ofChars before).length + (ofChars inner).length ≤ whole.len.toNat := by omega
    rw [m.slice_part hPart, hContents, ofChars_append, ofChars_append,
      List.append_assoc, List.drop_left, List.take_left]

theorem exec_trim (hl : Legible o.types o.table.heap.memory e.typeId ptr len) (hFound : o.entry? addr = some e)
    (hString : e.value = .string ptr len) (type : OpaqueType) :
    exec (call (.string type .trim) [.u32 addr]) o =
      (.ok (.datum (.view (trimView ⟨ptr, len⟩ (o.table.heap.memory.slice ptr.toNat len.toNat)).start
        (trimView ⟨ptr, len⟩ (o.table.heap.memory.slice ptr.toNat len.toNat)).len)), o) := by
  have hProject : string? e.value = some (ptr, len) := by
    rw [hString]
    rfl
  have hGet := exec_mustGet hl.declared hFound hl.type hProject
  have hRead := exec_onHeap (o := o) (Heap.exec_readBytes hl.bytes)
  rw [call, callString, exec_bind_ok hGet]
  simp only
  rw [exec_bind_ok (exec_trapRefusal_ok hRead)]
  rfl

/-- Neither difference that trimming takes falls below zero. -/
structure TrimsSafely (data : Text) : Prop where
  left : (trimLeft data).length ≤ data.length
  right : trimLeft data ≠ [] → data.length - (trimLeft data).length ≤ (trimRight data).length

theorem trimsSafely_ofChars (ht : Trims cs before inner behind) : TrimsSafely (ofChars cs) := by
  constructor
  · rw [ht.trimLeft_eq, ht.length_eq]
    exact Nat.le_add_left _ _
  · intro hSome
    have hInner : inner ≠ [] := by
      rintro rfl
      rw [ht.trimLeft_eq, ht.at_end rfl] at hSome
      exact hSome rfl
    rw [ht.length_sub_trimLeft, ht.trimRight_eq hInner, List.length_append]
    exact Nat.le_add_right _ _

/-- Trimming a string that is text answers the view of its inner part and changes nothing, and the inner part is
answered as it is. -/
theorem Reached.trims_string (hRun : o.Reached) (hFound : o.entry? addr = some e) (hString : e.value = .string ptr len)
    (hText : isUtf8 (o.table.heap.memory.slice ptr.toNat len.toNat) = true) (type : OpaqueType) :
    ∃ view before inner behind,
      exec (call (.string type .trim) [.u32 addr]) o = (.ok (.datum (.view view.start view.len)), o) ∧
      ShowsInner o.table.heap.memory ⟨ptr, len⟩ view before inner behind ∧
      ((∀ c ∈ before ++ inner ++ behind, isBlank c = true) →
        view.start.toNat = ptr.toNat + len.toNat ∧ view.len = 0) ∧
      TrimsSafely (o.table.heap.memory.slice ptr.toNat len.toNat) ∧
      ∀ {o' : Owner V} {addr' ptr' len' : UInt32} {e' : Entry (Object V)}, o'.Reached →
        o'.entry? addr' = some e' → e'.value = .string ptr' len' →
        o'.table.heap.memory.slice ptr'.toNat len'.toNat = ofChars inner →
        exec (call (.string type .trim) [.u32 addr']) o' = (.ok (.datum (.view ptr' len')), o') := by
  obtain ⟨cs, hContents⟩ := isUtf8_iff.mp hText
  obtain ⟨before, inner, behind, ht⟩ := exists_trims cs
  obtain rfl := ht.parts
  have hl := hRun.legible hFound hString
  have hShows : ShowsInner o.table.heap.memory ⟨ptr, len⟩ _ before inner behind :=
    showsInner_trimView hl.low hContents ht
  refine ⟨_, before, inner, behind, ?_, hShows, ?_, ?_, ?_⟩
  · rw [exec_trim hl hFound hString, hContents]
  · intro hBlank
    have hInner := ht.inner_nil hBlank
    have hEmpty : (trimView ⟨ptr, len⟩ (ofChars (before ++ inner ++ behind))).len = 0 := by
      rw [trimView_ofChars ht, hInner]
      rfl
    have hStop := hShows.stop
    have hNone : (ofChars behind).length = 0 := by rw [ht.at_end hInner]; rfl
    rw [hEmpty, hNone] at hStop
    exact ⟨hStop, hEmpty⟩
  · rw [hContents]
    exact trimsSafely_ofChars ht
  · intro o' addr' ptr' len' e' hRun' hFound' hString' hContents'
    have hl' := hRun'.legible hFound' hString'
    have hLength : (ofChars inner).length.toUInt32 = len' := by
      rw [← hContents', Memory.length_slice]
      exact UInt32.ofNat_toNat
    have hStart : ptr' + (ofChars []).length.toUInt32 = ptr' := UInt32.add_zero ptr'
    rw [exec_trim hl' hFound' hString', hContents', trimView_ofChars ht.inner_self, hLength, hStart]

/-- An ideographic space and a blank, two letters, a blank and a mark, and a line end. -/
def wideText : Text := [0xE3, 0x80, 0x80, 0x20, 0x68, 0xC3, 0xA9, 0x20, 0x21, 0x0A]

theorem exists_wideString :
    ∃ o : Owner Nat, o.Reached ∧ (o.entry? 48).map (string? ·.value) = some (some (32, 10)) ∧
      o.table.heap.memory.slice 32 10 = wideText := by
  have hRun : Reached (V := Nat) _ := .create {} rfl
  have hRun := hRun.act (.register .strings)
  have hRun := hRun.act (.useHeap (.alloc 16 1))
  have hRun := hRun.act (.useHeap (.write 16 wideText))
  have hRun := hRun.act (.call (.string ⟨stringType, 1⟩ .newWithStr) [.view 16 10])
  exact ⟨_, hRun, by decide +kernel, by decide +kernel⟩

theorem Reached.trims_string_wide :
    ∃ (o : Owner Nat) (e : Entry (Object Nat)), o.Reached ∧ o.entry? 48 = some e ∧ e.value = .string 32 10 ∧
      o.table.heap.memory.slice 32 10 = wideText ∧ ∃ before inner behind,
        exec (call (.string ⟨stringType, 1⟩ .trim) [.u32 48]) o = (.ok (.datum (.view 36 5)), o) ∧
        ShowsInner o.table.heap.memory ⟨32, 10⟩ ⟨36, 5⟩ before inner behind := by
  obtain ⟨o, hRun, hHeld, hSlice⟩ := exists_wideString
  obtain ⟨e, hFound, hValue⟩ := Option.map_eq_some_iff.mp hHeld
  have hString := string?_eq_some hValue
  have hText : isUtf8 (o.table.heap.memory.slice 32 10) = true := by
    rw [hSlice]
    decide +kernel
  obtain ⟨view, before, inner, behind, hExec, hShows, -⟩ := hRun.trims_string hFound hString hText ⟨stringType, 1⟩
  have hTrim := exec_trim (hRun.legible hFound hString) hFound hString ⟨stringType, 1⟩
  have hView : trimView ⟨32, 10⟩ (o.table.heap.memory.slice 32 10) = ⟨36, 5⟩ := by
    rw [hSlice]
    decide +kernel
  rw [show (32 : UInt32).toNat = 32 from rfl, show (10 : UInt32).toNat = 10 from rfl, hView] at hTrim
  have hSame : view = ⟨36, 5⟩ := by
    cases view
    cases hExec.symm.trans hTrim
    rfl
  exact ⟨o, e, hRun, hFound, hString, hSlice, before, inner, behind, hTrim, hSame ▸ hShows⟩

end Owner

end Marshal
