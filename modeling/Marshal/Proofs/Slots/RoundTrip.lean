import Marshal.Proofs.Slots.Lifts

/-! # Lifting undoes lowering

A lowered value, whatever slots follow it, is lifted back unchanged and exactly its own slots are read. Two
kinds of value are out of reach: an option over text is lifted as an address, and a present null address
is lifted as an absent option. `Decl.settle` makes the latter absent beforehand, so that lifting undoes lowering
up to `settle` for every value of a type without options over text.
-/
set_option autoImplicit false
namespace Marshal

def overNull (elem : Decl) (v : Datum) : Bool := elem.isReference && v.toAddress? == some 0

theorem setWidth_signExtend {w v : Nat} (x : BitVec w) (hWide : w ≤ v) :
    (x.signExtend v).setWidth w = x := by
  ext i hi
  simp [BitVec.getElem_signExtend, hi, Nat.lt_of_lt_of_le hi hWide]

theorem Primitive.ofSlot_toSlot? {p : Primitive} {v : Datum} {s : UInt64} (h : p.toSlot? v = some s)
    (path : List Text) : p.ofSlot s path = .ok v := by
  cases p <;> cases v <;> simp only [Primitive.toSlot?, reduceCtorEq, Option.some.injEq] at h <;>
    subst h
  case bool.bool b => cases b <;> rfl
  case s8.i8 n =>
    have hBack : n.toInt64.toUInt64.toUInt8.toInt8 = n :=
      Int8.toBitVec_inj.mp (setWidth_signExtend (v := 64) n.toBitVec (by decide))
    rw [Primitive.ofSlot, hBack]
  case s16.i16 n =>
    have hBack : n.toInt64.toUInt64.toUInt16.toInt16 = n :=
      Int16.toBitVec_inj.mp (setWidth_signExtend (v := 64) n.toBitVec (by decide))
    rw [Primitive.ofSlot, hBack]
  case s32.i32 n =>
    have hBack : n.toInt64.toUInt64.toUInt32.toInt32 = n :=
      Int32.toBitVec_inj.mp (setWidth_signExtend (v := 64) n.toBitVec (by decide))
    rw [Primitive.ofSlot, hBack]
  all_goals simp [Primitive.ofSlot]

theorem Lowers.address_of_isReference : ∀ {t : Decl} {v : Datum} {s : Slots}, Lowers t v s →
    t.isReference = true → t.isText = false → ∃ a : UInt32, v = .u32 a ∧ s = [a.toUInt64]
  | _, _, _, .object _ a, _, _ => ⟨a, rfl, rfl⟩
  | _, _, _, .alias hTarget, hRef, hText => hTarget.address_of_isReference hRef hText

mutual
/-- The datum with every present null address made absent, which is what a second reading makes of it. -/
def Decl.settle : Decl → Datum → Datum
  | .defn _ kind, v => kind.settle v
  | _, v => v

def Kind.settle : Kind → Datum → Datum
  | .option elem, v => if v.isPresent && !overNull elem v then elem.settle v else .nil
  | .tuple elems, .list vs => .list (settleElems elems vs)
  | .record fields, .list vs => .list (settleFields fields vs)
  | .alias target, v => target.settle v
  | _, v => v

def settleElems : List Decl → List Datum → List Datum
  | t :: ts, v :: vs => t.settle v :: settleElems ts vs
  | _, vs => vs

def settleFields : List (Text × Decl) → List Datum → List Datum
  | f :: fs, v :: vs => settleField f v :: settleFields fs vs
  | _, vs => vs

def settleField : Text × Decl → Datum → Datum
  | (_, t), v => t.settle v
end

theorem settleFields_eq (fields : List (Text × Decl)) (vs : List Datum) :
    settleFields fields vs = settleElems (fields.map Prod.snd) vs := by
  induction fields generalizing vs with
  | nil => cases vs <;> rfl
  | cons f fs ih =>
    obtain ⟨name, t⟩ := f
    cases vs with
    | nil => rfl
    | cons v vs =>
      rw [settleFields, List.map_cons, settleElems, ih]
      rfl

theorem Kind.settle_of_isObject {k : Kind} (hKind : k.isObject = true) (v : Datum) : k.settle v = v := by
  cases k <;> first | rfl | cases hKind

theorem Kind.settle_option {elem : Decl} {v : Datum} (hPresent : v.isPresent = true)
    (hNull : overNull elem v = false) : (Kind.option elem).settle v = elem.settle v := by
  rw [Kind.settle, hPresent, hNull]
  rfl

mutual
theorem Decl.settle_eq_self_iff (t : Decl) (v : Datum) :
    t.settle v = v ↔ t.presentOptions overNull v = 0 := by
  cases t with
  | defn name kind => exact kind.settle_eq_self_iff v
  | _ => exact ⟨fun _ => rfl, fun _ => rfl⟩

theorem Kind.settle_eq_self_iff (k : Kind) (v : Datum) :
    k.settle v = v ↔ k.presentOptions overNull v = 0 := by
  cases k with
  | option elem =>
    rw [Kind.settle, Kind.presentOptions]
    cases hPresent : v.isPresent with
    | false =>
      cases v with
      | nil => simp
      | _ => cases hPresent
    | true =>
      cases hNull : overNull elem v with
      | false => simpa using elem.settle_eq_self_iff v
      | true =>
        have hNil : Datum.nil ≠ v := by
          rintro rfl
          cases hPresent
        simp [hNil]
  | tuple elems =>
    cases v with
    | list vs => simpa [Kind.settle, Kind.presentOptions] using settleElems_eq_self_iff elems vs
    | _ => exact ⟨fun _ => rfl, fun _ => rfl⟩
  | record fields =>
    cases v with
    | list vs => simpa [Kind.settle, Kind.presentOptions] using settleFields_eq_self_iff fields vs
    | _ => exact ⟨fun _ => rfl, fun _ => rfl⟩
  | «alias» target => exact target.settle_eq_self_iff v
  | _ => exact ⟨fun _ => rfl, fun _ => rfl⟩

theorem settleElems_eq_self_iff (ts : List Decl) (vs : List Datum) :
    settleElems ts vs = vs ↔ elemsPresentOptions overNull ts vs = 0 := by
  match ts, vs with
  | [], _ => simp [settleElems, elemsPresentOptions]
  | _ :: _, [] => simp [settleElems, elemsPresentOptions]
  | t :: ts, v :: vs =>
    rw [settleElems, elemsPresentOptions, List.cons.injEq, Nat.add_eq_zero_iff, t.settle_eq_self_iff v,
      settleElems_eq_self_iff ts vs]

theorem settleFields_eq_self_iff (fields : List (Text × Decl)) (vs : List Datum) :
    settleFields fields vs = vs ↔ fieldsPresentOptions overNull fields vs = 0 := by
  match fields, vs with
  | [], _ => simp [settleFields, fieldsPresentOptions]
  | _ :: _, [] => simp [settleFields, fieldsPresentOptions]
  | (name, t) :: fields, v :: vs =>
    rw [settleFields, fieldsPresentOptions, List.cons.injEq, Nat.add_eq_zero_iff, settleField,
      fieldPresentOptions, t.settle_eq_self_iff v, settleFields_eq_self_iff fields vs]
end

theorem Lifts.replicate_zero (name : Option Text) (elem : Decl) :
    Lifts (.defn name (.option elem)) (List.replicate (Kind.option elem).width 0) .nil := by
  obtain ⟨n, hWidth⟩ := Nat.exists_eq_succ_of_ne_zero (Nat.pos_iff_ne_zero.mp (Kind.width_option_pos elem))
  rw [hWidth, List.replicate_succ]
  exact .absent (by rw [List.length_replicate, hWidth])

theorem Lowers.nullable_settle {name : Option Text} {elem : Decl} {v : Datum} {s : Slots}
    (h : Lowers elem v s) (hRef : elem.isReference = true) (hText : elem.isText = false)
    (hPresent : v.isPresent = true) (hElem : Lifts elem s (elem.settle v)) :
    Lifts (.defn name (.option elem)) s ((Kind.option elem).settle v) := by
  obtain ⟨a, rfl, rfl⟩ := h.address_of_isReference hRef hText
  by_cases hNull : a = 0
  · subst hNull
    have hSettle : (Kind.option elem).settle (.u32 0) = .nil := by
      simp [Kind.settle, overNull, hRef, Datum.toAddress?]
    rw [hSettle]
    exact .absent (by rw [Kind.width, if_pos hRef]; rfl)
  · have hSlot : a.toUInt64 ≠ 0 := fun hZero => hNull (by simpa using congrArg UInt64.toUInt32 hZero)
    rw [Kind.settle_option hPresent (by simp [overNull, Datum.toAddress?, hNull])]
    exact .nullable hRef hSlot hElem

mutual
theorem Lowers.lifts_settle : ∀ {t : Decl} {v : Datum} {s : Slots}, Lowers t v s →
    t.hasTextOption = false → Lifts t s (t.settle v)
  | _, _, _, .prim hSlot, _ => .prim (Primitive.ofSlot_toSlot? hSlot [])
  | _, _, _, .string start len, _ => by
    simpa [Decl.settle] using Lifts.string start.toUInt64 len.toUInt64
  | .defn name k, _, _, .object hKind a, _ => by
    have hLifts : Lifts (.defn name k) [a.toUInt64] (.u32 a.toUInt64.toUInt32) := .object hKind _
    rw [Decl.settle, Kind.settle_of_isObject hKind]
    simpa using hLifts
  | _, _, _, .absent name elem, _ => Lifts.replicate_zero name elem
  | _, _, _, .nullable hRef hPresent hElem, hPlain => by
    obtain ⟨hText, hInner⟩ := Bool.or_eq_false_iff.mp hPlain
    exact hElem.nullable_settle hRef hText hPresent (hElem.lifts_settle hInner)
  | _, _, _, .present hRef hPresent hElem, hPlain => by
    obtain ⟨-, hInner⟩ := Bool.or_eq_false_iff.mp hPlain
    rw [Decl.settle, Kind.settle_option hPresent (by simp [overNull, hRef])]
    exact .present hRef (hElem.lifts_settle hInner)
  | _, _, _, .tuple hElems, hPlain => .tuple (hElems.lifts_settle hPlain)
  | _, _, _, .record hFields, hPlain => by
    rw [Decl.hasTextOption, Kind.hasTextOption, fieldsHaveTextOption_eq] at hPlain
    rw [Decl.settle, Kind.settle, settleFields_eq]
    exact .record (hFields.lifts_settle hPlain)
  | .defn name (.enum cases), _, _, .enum (n := n) hCase, _ => by
    have hLifts : Lifts (.defn name (.enum cases)) [n.toUInt64] (.u32 n.toUInt64.toUInt32) :=
      .enum (by simpa using hCase)
    simpa [Decl.settle, Kind.settle] using hLifts
  | _, _, _, .alias hTarget, hPlain => .alias (hTarget.lifts_settle hPlain)

theorem LowersAll.lifts_settle : ∀ {ts : List Decl} {vs : List Datum} {s : Slots}, LowersAll ts vs s →
    elemsHaveTextOption ts = false → LiftsAll ts s (settleElems ts vs)
  | _, _, _, .nil, _ => .nil
  | _, _, _, .cons hFirst hRest, hPlain => by
    obtain ⟨hHead, hTail⟩ := Bool.or_eq_false_iff.mp hPlain
    exact .cons (hFirst.lifts_settle hHead) (hRest.lifts_settle hTail)
end

theorem Lowers.unflattenAt_append {t : Decl} {v : Datum} {s : Slots} (h : Lowers t v s)
    (hPlain : t.hasTextOption = false) (hNull : t.presentOptions overNull v = 0) (path : List Text)
    (extra : Slots) : t.unflattenAt path (s ++ extra) = .ok (v, extra) := by
  have hLifts := h.lifts_settle hPlain
  rw [(t.settle_eq_self_iff v).mpr hNull] at hLifts
  exact hLifts.unflattenAt_append hPlain path extra

/-- A lowered value is lifted back from the front of any longer slot list, and the rest is left unread. -/
theorem Decl.unflatten_flatten_append {t : Decl} {v : Datum} {slots : Slots}
    (hFlat : t.flatten v = .ok slots) (hPlain : t.hasTextOption = false)
    (hNull : t.presentOptions overNull v = 0) (extra : Slots) :
    t.unflatten (slots ++ extra) = .ok v ∧
      ∀ path, t.unflattenAt path (slots ++ extra) = .ok (v, extra) := by
  have hLift := (t.lowers_of_flattenAt [] v slots hFlat).unflattenAt_append hPlain hNull
  refine ⟨?_, fun path => hLift path extra⟩
  rw [Decl.unflatten, hLift [] extra]
  rfl

/-- A negative number, a view, a present and an absent address and an absent variant, read back with one
slot to spare. -/
theorem Decl.unflatten_flatten_append_record :
    let address := Decl.defn none .resource
    let t := Decl.defn none (.record [("delta", .prim .s16), ("name", .string),
      ("owners", .defn none (.tuple [.defn none (.option address), .defn none (.option address)])),
      ("mode", .defn none (.option (.defn none (.variant [("on", .string), ("off", .absent)]))))])
    let v := Datum.list [.i16 (-2), .view 16 4, .list [.u32 24, .nil], .nil]
    let slots : Slots := [0xFFFFFFFFFFFFFFFE, 16, 4, 24, 0, 0, 0, 0, 0]
    t.flatten v = .ok slots ∧ t.hasTextOption = false ∧ t.presentOptions overNull v = 0 ∧
      t.unflatten (slots ++ [7]) = .ok v := by
  intro address t v slots
  have hFlat : t.flatten v = .ok slots := rfl
  exact ⟨hFlat, rfl, rfl, (Decl.unflatten_flatten_append hFlat rfl rfl [7]).1⟩

end Marshal
