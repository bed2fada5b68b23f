import Marshal.Proofs.Memory
import Marshal.Proofs.Step

/-! # Aggregates in memory

Every aggregate is two scalars, the second at a fixed distance from the first, and each is checked against the
size of the memory on its own. A memory below four gigabytes ends at least one page before the largest
offset, so the second offset of a write never wraps once the first scalar fits, and a write succeeds exactly
if all fields fit. A read of an optional scalar begins with the second field, where nothing has been checked
yet: there the offset can wrap.
-/
set_option autoImplicit false
namespace Marshal

open Step

/-- Two scalars lie in a layout of two fields, one behind the other. -/
structure Layout.Pairs (layout : Layout) (first second : Scalar) (gap : UInt32) : Prop where
  fields : ∃ name name', layout.fields = some [(name, 0), (name', gap)]
  apart : first.width ≤ gap.toNat
  stop : gap.toNat + second.width ≤ layout.size.toNat
  small : gap.toNat ≤ pageSize

namespace Memory

variable {m m' : Memory} {s s' : Scalar} {offset offset' : UInt32} {v : Datum}

/-! ## Single scalars -/

theorem store_eq_ok_iff :
    m.store s offset v = .ok m' ↔ offset.toNat + s.width ≤ m.bytes ∧
      m' = m.overwrite offset.toNat (Word.toBytes s.width ((s.toWord? v).getD 0)).toArray := by
  constructor
  · intro h
    by_cases hFits : offset.toNat + s.width ≤ m.bytes
    · rw [store_of_fits hFits] at h
      cases h
      exact ⟨hFits, rfl⟩
    · rw [store, writeWord, write, Word.length_toBytes, if_neg hFits] at h
      cases h
  · rintro ⟨hFits, rfl⟩
    exact store_of_fits hFits

theorem bytes_store (h : m.store s offset v = .ok m') : m'.bytes = m.bytes := by
  obtain ⟨-, rfl⟩ := store_eq_ok_iff.mp h
  rfl

theorem store_outside (h : m.store s offset v = .ok m') {i : Nat}
    (hOut : i < offset.toNat ∨ offset.toNat + s.width ≤ i) : m'.byte i = m.byte i := by
  obtain ⟨-, rfl⟩ := store_eq_ok_iff.mp h
  exact overwrite_outside m (by rwa [Word.length_toBytes])

theorem load_store_same (h : m.store s offset v = .ok m') (hv : s.holds v = true) :
    m'.load s offset = .ok v := by
  obtain ⟨n, hn⟩ := Option.isSome_iff_exists.mp hv
  have hFits : offset.toNat + s.width ≤ m'.bytes := by
    rw [bytes_store h]
    exact (store_eq_ok_iff.mp h).1
  obtain ⟨-, rfl⟩ := store_eq_ok_iff.mp h
  have hSlice := slice_overwrite_self m offset.toNat (Word.toBytes s.width n)
  rw [Word.length_toBytes] at hSlice
  rw [load_of_fits hFits, hn, Option.getD_some, hSlice, Word.ofBytes_toBytes,
    Nat.mod_eq_of_lt (Scalar.toWord?_lt hn), Scalar.ofWord_toWord? hn]

theorem load_congr (hBytes : m'.bytes = m.bytes)
    (h : ∀ i, offset.toNat ≤ i → i < offset.toNat + s.width → m'.byte i = m.byte i) :
    m'.load s offset = m.load s offset := by
  have hWidth : (s.width.toUInt32).toNat = s.width := s.size_toNat
  rw [load, load, readWord, readWord, read, read, hBytes, hWidth, slice_congr h]

theorem load_store_other (h : m.store s offset v = .ok m')
    (hApart : offset'.toNat + s'.width ≤ offset.toNat ∨ offset.toNat + s.width ≤ offset'.toNat) :
    m'.load s' offset' = m.load s' offset' :=
  load_congr (bytes_store h) fun _ _ _ => store_outside h (by omega)

theorem load_of_not_fits (h : m.bytes < offset.toNat + s.width) :
    m.load s offset = .error (outOfBounds "read" offset s.size) := by
  have hWidth : (s.width.toUInt32).toNat = s.width := s.size_toNat
  rw [load, readWord, read, hWidth, if_neg (Nat.not_le.mpr h)]
  rfl

/-! ## Two scalars -/

/-- Two scalars written one after the other, the second `gap` bytes behind the first. -/
def storeBoth (first second : Scalar) (gap offset : UInt32) (v w : Datum) : Step Memory Unit := do
  change fun m => m.store first offset v
  change fun m => m.store second (offset + gap) w

theorem exec_change (f : Memory → Except Report Memory) (m : Memory) :
    exec (change f) m = match f m with
      | .ok m' => (.ok (), m')
      | .error r => (.error (.refused (.report r)), m) := by
  rw [change, exec_update]
  cases f m <;> rfl

theorem toNat_add_of_fits {gap : UInt32} (hSize : m.bytes < 2 ^ 32) (hGap : gap.toNat ≤ pageSize)
    (hOffset : offset.toNat < m.bytes) : (offset + gap).toNat = offset.toNat + gap.toNat := by
  rw [bytes] at hSize hOffset
  rw [UInt32.toNat_add]
  apply Nat.mod_eq_of_lt
  simp only [pageSize] at hSize hGap hOffset
  omega

section

variable {first second : Scalar} {gap : UInt32} {w : Datum}

/-- All that writing two scalars can do: both fit and are stored, or the write is refused with at most the
first one stored. -/
theorem exec_storeBoth (hSize : m.bytes < 2 ^ 32) (hGap : gap.toNat ≤ pageSize) :
    (∃ m₁ m₂, m.store first offset v = .ok m₁ ∧ m₁.store second (offset + gap) w = .ok m₂ ∧
      (offset + gap).toNat = offset.toNat + gap.toNat ∧
      exec (storeBoth first second gap offset v w) m = (.ok (), m₂)) ∨
    (¬ (offset.toNat + first.width ≤ m.bytes ∧ offset.toNat + gap.toNat + second.width ≤ m.bytes) ∧
      ∃ e m₁, exec (storeBoth first second gap offset v w) m = (.error e, m₁) ∧
        (m₁ = m ∨ m.store first offset v = .ok m₁)) := by
  have hExec := exec_change (fun m => m.store first offset v) m
  cases hFirst : m.store first offset v with
  | error r =>
    rw [hFirst] at hExec
    refine .inr ⟨?_, _, m, exec_bind_error hExec, .inl rfl⟩
    rintro ⟨hFits, -⟩
    rw [store_of_fits hFits] at hFirst
    cases hFirst
  | ok m₁ =>
    rw [hFirst] at hExec
    have hFits := (store_eq_ok_iff.mp hFirst).1
    have hWidth := first.width_bounds
    have hAdd := toNat_add_of_fits hSize hGap (show offset.toNat < m.bytes by omega)
    have hExec' := exec_change (fun m => m.store second (offset + gap) w) m₁
    cases hSecond : m₁.store second (offset + gap) w with
    | error r =>
      rw [hSecond] at hExec'
      refine .inr ⟨?_, _, m₁, (exec_bind_ok hExec).trans hExec', .inr rfl⟩
      rintro ⟨-, hFits'⟩
      rw [store_of_fits (by rw [hAdd, bytes_store hFirst]; exact hFits')] at hSecond
      cases hSecond
    | ok m₂ =>
      rw [hSecond] at hExec'
      exact .inl ⟨m₁, m₂, rfl, hSecond, hAdd, (exec_bind_ok hExec).trans hExec'⟩

end

/-! ## Writing and reading back -/

/-- At the offset, every field of the layout lies inside the memory; the fields are the listed scalars. -/
def FieldsFit (m : Memory) (offset : UInt32) (layout : Layout) (parts : List Scalar) : Prop :=
  ∀ field ∈ (layout.fields.getD []).zip parts, offset.toNat + field.1.2.toNat + field.2.width ≤ m.bytes

/-- Writing an aggregate of the layout succeeds exactly if its fields fit, and then it reads back as `back`;
bytes outside the aggregate stay as they are, also when the write is refused. -/
structure RoundTrips {α : Type} (m : Memory) (offset : UInt32) (layout : Layout) (parts : List Scalar)
    (write : Step Memory Unit) (read : Memory → Except Report α) (back : α) : Prop where
  succeeds_iff : (exec write m).1 = .ok () ↔ m.FieldsFit offset layout parts
  reads_back : (exec write m).1 = .ok () → read (exec write m).2 = .ok back
  bytes_eq : (exec write m).2.bytes = m.bytes
  outside : ∀ i, i < offset.toNat ∨ offset.toNat + layout.size.toNat ≤ i →
    (exec write m).2.byte i = m.byte i

section

variable {first second : Scalar} {gap : UInt32} {w : Datum} {layout : Layout}

theorem fieldsFit_iff (hPairs : layout.Pairs first second gap) :
    m.FieldsFit offset layout [first, second] ↔
      offset.toNat + first.width ≤ m.bytes ∧ offset.toNat + gap.toNat + second.width ≤ m.bytes := by
  obtain ⟨name, name', hFields⟩ := hPairs.fields
  simp [FieldsFit, hFields]

theorem roundTrips_storeBoth {α : Type} {read : Memory → Except Report α} {back : α}
    (hPairs : layout.Pairs first second gap) (hSize : m.bytes < 2 ^ 32) (hv : first.holds v = true)
    (hw : second.holds w = true)
    (hRead : ∀ m' : Memory, m'.load first offset = .ok v → m'.load second (offset + gap) = .ok w →
      read m' = .ok back) :
    RoundTrips m offset layout [first, second] (storeBoth first second gap offset v w) read back := by
  have hApart := hPairs.apart
  have hStop := hPairs.stop
  rcases exec_storeBoth (v := v) (w := w) hSize hPairs.small with
    ⟨m₁, m₂, hFirst, hSecond, hAdd, hExec⟩ | ⟨hNot, e, m₁, hExec, hLeft⟩
  · have hFits := (store_eq_ok_iff.mp hFirst).1
    have hFits' := (store_eq_ok_iff.mp hSecond).1
    rw [hAdd, bytes_store hFirst] at hFits'
    refine ⟨?_, ?_, ?_, ?_⟩
    · rw [hExec, fieldsFit_iff hPairs]
      exact ⟨fun _ => ⟨hFits, hFits'⟩, fun _ => rfl⟩
    · intro _
      rw [hExec]
      apply hRead
      · rw [load_store_other hSecond (by omega)]
        exact load_store_same hFirst hv
      · exact load_store_same hSecond hw
    · rw [hExec]
      exact (bytes_store hSecond).trans (bytes_store hFirst)
    · intro i hOut
      rw [hExec]
      exact (store_outside hSecond (by omega)).trans (store_outside hFirst (by omega))
  · have hFailed : (exec (storeBoth first second gap offset v w) m).1 ≠ .ok () := by
      rw [hExec]
      rintro ⟨⟩
    refine ⟨?_, fun h => absurd h hFailed, ?_, ?_⟩
    · rw [fieldsFit_iff hPairs]
      exact ⟨fun h => absurd h hFailed, fun h => absurd h hNot⟩
    · rw [hExec]
      rcases hLeft with rfl | hFirst
      · rfl
      · exact bytes_store hFirst
    · intro i hOut
      rw [hExec]
      rcases hLeft with rfl | hFirst
      · rfl
      · exact store_outside hFirst (by omega)

end

theorem optional_pairs (s : Scalar) :
    (Layout.optional s.layout.size s.layout.align).Pairs s .bool s.size := by
  refine ⟨⟨_, _, rfl⟩, ?_, ?_, ?_⟩
  · exact Nat.le_of_eq s.size_toNat.symm
  · cases s <;> decide
  · cases s <;> decide

theorem view_pairs : Layout.view.Pairs .u32 .u32 4 := ⟨⟨_, _, rfl⟩, by decide, by decide, by decide⟩

theorem pointerResult_pairs : Layout.pointerResult.Pairs .bool .u32 4 :=
  ⟨⟨_, _, rfl⟩, by decide, by decide, by decide⟩

theorem writeOption_eq (s : Scalar) (offset : UInt32) (a : OptionAggregate) :
    writeOption s offset a = storeBoth s .bool s.size offset a.val (.bool a.isSome) := rfl

theorem writeView_eq (offset : UInt32) (v : View) :
    writeView offset v = storeBoth .u32 .u32 4 offset (.u32 v.start) (.u32 v.len) := rfl

theorem writePointerResult_eq (offset : UInt32) (r : PointerResult) :
    writePointerResult offset r = storeBoth .bool .u32 4 offset (.bool r.isOk) (.u32 r.target) := rfl

theorem readOption_of_load {b : Bool} (hVal : m.load s offset = .ok v)
    (hFlag : m.load .bool (offset + s.size) = .ok (.bool b)) :
    m.readOption s offset = .ok (.ofOption s (if b then some v else none)) := by
  rw [readOption, hFlag]
  cases b with
  | false => rfl
  | true =>
    show (m.load s offset >>= _) = _
    rw [hVal]
    rfl

theorem loadAddress_of_load {a : UInt32} (h : m.load .u32 offset = .ok (.u32 a)) : m.loadAddress offset = .ok a := by
  have hWidth : Scalar.u32.width = 4 := rfl
  rw [load, hWidth] at h
  rw [loadAddress]
  cases hWord : m.readWord 4 offset with
  | error r =>
    rw [hWord] at h
    cases h
  | ok n =>
    rw [hWord] at h
    cases h
    rfl

theorem readView_of_load {start len : UInt32} (hStart : m.load .u32 offset = .ok (.u32 start))
    (hLen : m.load .u32 (offset + 4) = .ok (.u32 len)) : m.readView offset = .ok ⟨start, len⟩ := by
  rw [readView, loadAddress_of_load hStart, loadAddress_of_load hLen]
  rfl

theorem readPointerResult_of_load {isOk : Bool} {target : UInt32} (hFlag : m.load .bool offset = .ok (.bool isOk))
    (hTarget : m.load .u32 (offset + 4) = .ok (.u32 target)) : m.readPointerResult offset = .ok ⟨isOk, target⟩ := by
  rw [readPointerResult, hFlag, loadAddress_of_load hTarget]
  rfl

/-- In every memory below four gigabytes and at every offset, an aggregate is written exactly if all its fields
fit, is read back as written, and takes no byte outside its layout. An absent option reads back with the filler
of its type, whatever was written in its place. -/
theorem aggregates_roundTrip (hSize : m.bytes < 2 ^ 32) (offset : UInt32) :
    (∀ (s : Scalar) (a : OptionAggregate), s.holds a.val = true →
      RoundTrips m offset (.optional s.layout.size s.layout.align) [s, .bool] (writeOption s offset a)
        (fun m => m.readOption s offset) (.ofOption s a.toOption)) ∧
    (∀ v : View, RoundTrips m offset .view [.u32, .u32] (writeView offset v)
      (fun m => m.readView offset) v) ∧
    ∀ r : PointerResult, RoundTrips m offset .pointerResult [.bool, .u32] (writePointerResult offset r)
      (fun m => m.readPointerResult offset) r := by
  refine ⟨?_, ?_, ?_⟩
  · intro s a hHolds
    rw [writeOption_eq]
    exact roundTrips_storeBoth (optional_pairs s) hSize hHolds rfl fun _ => readOption_of_load
  · intro v
    rw [writeView_eq]
    exact roundTrips_storeBoth view_pairs hSize rfl rfl fun _ => readView_of_load
  · intro r
    rw [writePointerResult_eq]
    exact roundTrips_storeBoth pointerResult_pairs hSize rfl rfl fun _ => readPointerResult_of_load

/-- An optional number whose flag is the last byte of the memory, and the same one byte further on. -/
theorem aggregates_roundTrip_lastByte :
    let m := Memory.create .linear 1 1
    let a : OptionAggregate := ⟨.i16 (-2), true⟩
    m.bytes < 2 ^ 32 ∧ Scalar.i16.holds a.val = true ∧
      (exec (writeOption .i16 65533 a) m).2.readOption .i16 65533 = .ok a ∧
      (exec (writeOption .i16 65534 a) m).1 ≠ .ok () := by
  intro m a
  have hSize : m.bytes < 2 ^ 32 := by decide
  have hIn := (aggregates_roundTrip hSize 65533).1 .i16 a rfl
  have hOut := (aggregates_roundTrip hSize 65534).1 .i16 a rfl
  have hFits : m.FieldsFit 65533 (.optional Scalar.i16.layout.size Scalar.i16.layout.align) [.i16, .bool] :=
    (fieldsFit_iff (optional_pairs .i16)).mpr (by decide)
  refine ⟨hSize, rfl, hIn.reads_back (hIn.succeeds_iff.mpr hFits), ?_⟩
  intro hWritten
  exact absurd ((fieldsFit_iff (optional_pairs .i16)).mp (hOut.succeeds_iff.mp hWritten)) (by decide)

/-! ## Reading optional scalars out of bounds -/

theorem load_bool (h : offset.toNat < m.bytes) :
    m.load .bool offset = Scalar.bool.ofWord (m.byte offset.toNat).toNat := by
  have hWord : Word.ofBytes (m.slice offset.toNat Scalar.bool.width) = (m.byte offset.toNat).toNat := by
    simp [slice, Scalar.width, Word.ofBytes]
  have hFits : offset.toNat + Scalar.bool.width ≤ m.bytes := h
  rw [load_of_fits hFits, hWord]

theorem readOption_of_flag_error {r : Report} (hFlag : m.load .bool (offset + s.size) = .error r) :
    m.readOption s offset = .error r := by
  rw [readOption, hFlag]
  rfl

theorem toNat_flag (hFlag : offset.toNat + s.width < 2 ^ 32) :
    (offset + s.size).toNat = offset.toNat + s.width := by
  rw [UInt32.toNat_add, s.size_toNat]
  exact Nat.mod_eq_of_lt hFlag

theorem readOption_short (hFlag : offset.toNat + s.width < 2 ^ 32)
    (hShort : m.bytes < offset.toNat + s.width + 1) :
    m.readOption s offset = .error (outOfBounds "read" (offset + s.size) 1) := by
  apply readOption_of_flag_error
  apply load_of_not_fits
  rw [toNat_flag hFlag]
  exact hShort

theorem readOption_absent (hIn : (offset + s.size).toNat < m.bytes) (hFlag : m.byte (offset + s.size).toNat = 0) :
    m.readOption s offset = .ok (.ofOption s none) := by
  rw [readOption, load_bool hIn, hFlag]
  rfl

theorem readOption_value_refused (hIn : (offset + s.size).toNat < m.bytes)
    (hFlag : m.byte (offset + s.size).toNat ≠ 0) (hValue : m.bytes < offset.toNat + s.width) :
    ∃ r, m.readOption s offset = .error r := by
  have hLoad := load_bool hIn
  generalize m.byte (offset + s.size).toNat = flag at hLoad hFlag
  by_cases hUp : flag = 1
  · subst hUp
    refine ⟨outOfBounds "read" offset s.size, ?_⟩
    rw [readOption, hLoad]
    show (m.load s offset >>= _) = _
    rw [load_of_not_fits hValue]
    rfl
  · -- any other byte is no flag
    have hNotDown : flag.toNat ≠ 0 := fun h => hFlag (UInt8.toNat_inj.mp h)
    have hNotUp : flag.toNat ≠ 1 := fun h => hUp (UInt8.toNat_inj.mp h)
    rw [Scalar.ofWord, if_pos (by omega)] at hLoad
    exact ⟨_, readOption_of_flag_error hLoad⟩

/-- The flag is read at the start of the memory, and the value cannot be read at all. -/
theorem readOption_wrapped (hSize : m.bytes < 2 ^ 32) (hFlag : 2 ^ 32 ≤ offset.toNat + s.width)
    (a : OptionAggregate) :
    m.readOption s offset = .ok a ↔ offset.toNat + s.width - 2 ^ 32 < m.bytes ∧
      m.byte (offset.toNat + s.width - 2 ^ 32) = 0 ∧ a = .ofOption s none := by
  have hWidth := s.width_bounds
  have hOffset := offset.toNat_lt
  have hAt : (offset + s.size).toNat = offset.toNat + s.width - 2 ^ 32 := by
    rw [UInt32.toNat_add, s.size_toNat]
    omega
  rw [← hAt]
  by_cases hIn : (offset + s.size).toNat < m.bytes
  · by_cases hDown : m.byte (offset + s.size).toNat = 0
    · rw [readOption_absent hIn hDown]
      constructor
      · intro h
        cases h
        exact ⟨hIn, hDown, rfl⟩
      · rintro ⟨-, -, rfl⟩
        rfl
    · obtain ⟨r, hRefused⟩ := readOption_value_refused hIn hDown (by omega)
      rw [hRefused]
      constructor
      · intro h
        cases h
      · rintro ⟨-, hZero, -⟩
        exact absurd hZero hDown
  · rw [readOption_of_flag_error (load_of_not_fits (Nat.lt_succ_of_le (Nat.not_lt.mp hIn)))]
    constructor
    · intro h
      cases h
    · rintro ⟨hFits, -, -⟩
      exact absurd hFits hIn

theorem readOption_congr (hFlag : offset.toNat + s.width < 2 ^ 32) (hBytes : m'.bytes = m.bytes)
    (h : ∀ i, offset.toNat ≤ i → i < offset.toNat + s.width + 1 → m'.byte i = m.byte i) :
    m'.readOption s offset = m.readOption s offset := by
  have hLoad : m'.load .bool (offset + s.size) = m.load .bool (offset + s.size) := by
    apply load_congr hBytes
    intro i hLow hHigh
    rw [toNat_flag hFlag] at hLow hHigh
    exact h i (by omega) hHigh
  have hValue : m'.load s offset = m.load s offset :=
    load_congr hBytes fun i hLow hHigh => h i hLow (by omega)
  rw [readOption, readOption, hLoad, hValue]

/-- An optional scalar that does not fit is refused, unless the offset of its flag wraps: then the byte at the
wrapped offset decides, and the option is read as absent if that byte is zero and refused if it is not. One that
fits is read from its own bytes only. -/
theorem readOption_bounds (hSize : m.bytes < 2 ^ 32) (s : Scalar) (offset : UInt32) :
    (m.bytes < offset.toNat + s.width + 1 → offset.toNat + s.width < 2 ^ 32 →
      ∃ r, r.kind = .outOfBounds ∧ m.readOption s offset = .error r ∧
        (m.readOption s offset).map OptionAggregate.toOption = .error r) ∧
    (2 ^ 32 ≤ offset.toNat + s.width → ∀ a, m.readOption s offset = .ok a ↔
      offset.toNat + s.width - 2 ^ 32 < m.bytes ∧ m.byte (offset.toNat + s.width - 2 ^ 32) = 0 ∧
        a = .ofOption s none) ∧
    (offset.toNat + s.width + 1 ≤ m.bytes → ∀ m' : Memory, m'.bytes = m.bytes →
      (∀ i, offset.toNat ≤ i → i < offset.toNat + s.width + 1 → m'.byte i = m.byte i) →
        m'.readOption s offset = m.readOption s offset) := by
  refine ⟨?_, ?_, ?_⟩
  · intro hShort hFlag
    have hRefused := readOption_short hFlag hShort
    exact ⟨_, rfl, hRefused, by rw [hRefused]; rfl⟩
  · exact readOption_wrapped hSize
  · intro hFits m' hBytes hSame
    exact readOption_congr (by omega) hBytes hSame

/-- The flag would be the first byte behind the memory. -/
theorem readOption_bounds_pastEnd :
    let m := Memory.create .linear 1 1
    m.bytes < 2 ^ 32 ∧ ∃ r, r.kind = .outOfBounds ∧ m.readOption .u32 65532 = .error r := by
  intro m
  have hSize : m.bytes < 2 ^ 32 := by decide
  obtain ⟨r, hKind, hRefused, -⟩ := (readOption_bounds hSize .u32 65532).1 (by decide) (by decide)
  exact ⟨hSize, r, hKind, hRefused⟩

/-- Four bytes below the largest offset, the flag of an optional number wraps to the first byte of the memory. -/
theorem readOption_beyond_bounds : ∃ (m : Memory) (s : Scalar) (offset : UInt32), m.bytes < 2 ^ 32 ∧
    m.bytes < offset.toNat + s.width + 1 ∧ m.readOption s offset = .ok (.ofOption s none) := by
  refine ⟨Memory.create .linear 1 1, .u32, 4294967292, by decide, by decide, ?_⟩
  rw [readOption_wrapped (by decide) (by decide)]
  exact ⟨by decide, by decide, rfl⟩

end Memory

end Marshal
