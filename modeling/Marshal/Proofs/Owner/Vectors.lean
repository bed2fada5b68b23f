import Marshal.Proofs.Owner.Access

/-! # Calls on vectors

A push or pop on a vector finds no such vector and changes nothing, or appends to or removes from the elements
of the one at the address. On a vector of objects a push moves the title of the pushed object into a slot, and
a pop moves it back out.
-/
set_option autoImplicit false
namespace Marshal

open Step

theorem Scalar.ofWord_error {s : Scalar} {n : Nat} {r : Report} (h : s.ofWord n = .error r) :
    r.kind = .invalidData := by
  cases s with
  | bool =>
    rw [Scalar.ofWord] at h
    split at h
    · cases h
      rfl
    · cases h
  | _ => cases h

namespace Owner

variable {V : Type} {types : List Text} {exports : List (Text × Export V)} {titles : List Title}
  {leaks spare : List UInt32} {o : Owner V}

namespace VecForm

/-- The objects of a form are its buffers. -/
structure Lawful (form : VecForm V) : Prop where
  inject : ∀ v buf, form.project v = some buf → v = form.inject buf
  project : ∀ buf, form.project (form.inject buf) = some buf
  blocks : ∀ buf, (form.inject buf).blocks = buf.blocks
  fits : ∀ h buf, (form.inject buf).Fits h ↔ buf.Fits h form.elem
  not_text : ∀ buf, string? (form.inject buf) = none

theorem scalar_lawful (type : OpaqueType) (elem : Scalar) : (scalar type elem : VecForm V).Lawful := by
  refine ⟨?_, fun _ => if_pos rfl, fun _ => rfl, fun _ _ => Iff.rfl, fun _ => rfl⟩
  intro v buf h
  cases v with
  | vector s buf' =>
    change (if s = elem then some buf' else none) = some buf at h
    split at h
    · rename_i hElem
      rw [hElem, Option.some.inj h]
      rfl
    · cases h
  | _ => cases h

theorem reference_lawful (type elem : OpaqueType) : (reference type elem : VecForm V).Lawful := by
  refine ⟨?_, fun _ => rfl, fun _ => rfl, fun _ _ => Iff.rfl, fun _ => rfl⟩
  intro v buf h
  cases v with
  | refVector buf' =>
    rw [Option.some.inj h]
    rfl
  | _ => cases h

variable {form : VecForm V}

structure Pushed (form : VecForm V) (h : Heap) (buf : Buffer) (v : Datum) (h' : Heap) (buf' : Buffer) : Prop where
  fits : buf'.Fits h' form.elem
  replaced : Heap.Replaced h buf.blocks buf'.blocks h'
  words : buf'.words h'.memory form.elem = buf.words h.memory form.elem ++ [Buffer.stored form.elem v]

def pushTo (form : VecForm V) (addr : UInt32) (v : Datum) (buf : Buffer) : Step (Owner V) Reply := do
  let buf ← Step.trapRefusal id (onHeap (buf.push form.elem v))
  onTable (Table.setValue addr (form.inject buf))
  return .none

theorem call_push (form : VecForm V) (addr : UInt32) (v : Datum) :
    form.call .push [.u32 addr, v] = form.accept v >>= fun _ =>
      mustAccess form.type addr .exclusive form.project (form.pushTo addr v) := rfl

variable {e : Entry (Object V)} {rest : Entries V}

variable {buf : Buffer} {h : Heap}

theorem exec_pushTo_cases (hv : o.table.heap.Valid) (hNodup : (Entries.addrs (e :: rest)).Nodup)
    (hAt : o.table.store.entries.Perm (e :: rest)) (hFits : buf.Fits o.table.heap form.elem)
    (v : Datum) :
    (buf.len = buf.cap ∧ buf.Stuck o.table.heap form.elem ∧
        ∃ why, exec (form.pushTo e.addr v buf) o = (.error (.trapped why), o)) ∨
      ∃ buf' h' o', exec (form.pushTo e.addr v buf) o = (.ok .none, o') ∧
        form.Pushed o.table.heap buf v h' buf' ∧
        o.Turned h' ({ e with value := form.inject buf' } :: rest) o' := by
  rcases Buffer.exec_push_cases hv hFits v with
    ⟨hFull, hStuck, r, hPush⟩ | ⟨buf', h', hPush, hFits', hReplaced, hWords⟩
  · exact .inl ⟨hFull, hStuck, _, exec_bind_error (exec_trapRefusal_refused (exec_onHeap hPush))⟩
  · have hHeap : o.Turned h' (e :: rest) (o.withHeap h') := ⟨⟨rfl, hAt, rfl, rfl⟩, rfl, rfl, rfl⟩
    obtain ⟨o', hSet, ht⟩ := turned_onTable (Table.exec_setValue hNodup hHeap.table.entries (form.inject buf'))
    refine .inr ⟨buf', h', o', ?_, ⟨hFits', hReplaced, hWords⟩, hHeap.trans ht⟩
    exact (exec_bind_ok (exec_trapRefusal_ok (exec_onHeap hPush))).trans (exec_bind_ok hSet)

def Popped (form : VecForm V) (h : Heap) (buf : Buffer) (d : Option Datum) (buf' : Buffer) : Prop :=
  d = none ∧ buf' = buf ∨
    0 < buf.len.toNat ∧ buf' = { buf with len := buf.len - 1 } ∧
      ∃ v, d = some v ∧ form.elem.ofWord (buf.word h.memory form.elem (buf.len - 1).toNat) = .ok v

def popFrom (form : VecForm V) (addr : UInt32) (buf : Buffer) : Step (Owner V) Reply := do
  let (v, buf) ← onHeap (buf.pop form.elem)
  onTable (Table.setValue addr (form.inject buf))
  return form.answer v

theorem call_pop (form : VecForm V) (addr : UInt32) :
    form.call .pop [.u32 addr] = mustAccess form.type addr .exclusive form.project (form.popFrom addr) := rfl

theorem exec_pop_cases (hv : h.Valid) (hFits : buf.Fits h form.elem) :
    (∃ why, exec (buf.pop form.elem) h = (.error (.trapped why), h) ∧ (Stop.trapped why).IsTame) ∨
      ∃ d buf', exec (buf.pop form.elem) h = (.ok (d, buf'), h) ∧ form.Popped h buf d buf' := by
  by_cases hLen : buf.len = 0
  · exact .inr ⟨none, buf, Buffer.exec_pop_empty hLen, .inl ⟨rfl, rfl⟩⟩
  · have hPos : 0 < buf.len.toNat := Nat.pos_of_ne_zero fun hZero => hLen (UInt32.toNat_inj.mp hZero)
    rw [Buffer.exec_pop hv hFits hPos]
    cases hWord : form.elem.ofWord (buf.word h.memory form.elem (buf.len - 1).toNat) with
    | error r =>
      refine .inl ⟨_, rfl, ?_⟩
      rintro why ⟨⟩ phase
      have hRange : FailureKind.outOfBounds ≠ .doubleFree := by decide
      have hData : FailureKind.invalidData ≠ .doubleFree := by decide
      simp [Failure.wrap, Failure.matchesReport, Scalar.ofWord_error hWord, hRange, hData]
    | ok v => exact .inr ⟨some v, _, rfl, .inr ⟨hPos, rfl, v, rfl, hWord⟩⟩

theorem exec_popFrom_cases (hv : o.table.heap.Valid) (hNodup : (Entries.addrs (e :: rest)).Nodup)
    (hAt : o.table.store.entries.Perm (e :: rest)) (hFits : buf.Fits o.table.heap form.elem) :
    (∃ why, exec (form.popFrom e.addr buf) o = (.error (.trapped why), o) ∧ (Stop.trapped why).IsTame) ∨
      ∃ d buf' o', exec (form.popFrom e.addr buf) o = (.ok (form.answer d), o') ∧
        form.Popped o.table.heap buf d buf' ∧
        o.Turned o.table.heap ({ e with value := form.inject buf' } :: rest) o' := by
  rcases exec_pop_cases hv hFits with ⟨why, hPop, hTame⟩ | ⟨d, buf', hPop, hPopped⟩
  · exact .inl ⟨why, exec_bind_error (exec_onHeap hPop), hTame⟩
  · obtain ⟨o', hSet, ht⟩ := turned_onTable (Table.exec_setValue hNodup hAt (form.inject buf'))
    exact .inr ⟨d, buf', o', (exec_bind_ok (exec_onHeap hPop)).trans (exec_bind_ok hSet), hPopped, ht⟩

/-- A vector is found at the address and lent to the body, which leaves another value in its place. -/
structure Lends (form : VecForm V) (o : Owner V) (addr : UInt32) (kind : BorrowKind)
    (body : Buffer → Step (Owner V) Reply) (e : Entry (Object V)) (rest : Entries V) (buf : Buffer)
    (o₁ : Owner V) : Prop where
  entries : o.table.store.entries.Perm (e :: rest)
  addr_eq : (e.borrow kind).addr = addr
  typeId_eq : e.typeId = form.type.typeId
  value_eq : e.value = form.inject buf
  fits : buf.Fits o₁.table.heap form.elem
  valid : o₁.table.heap.Valid
  nodup : (Entries.addrs (e.borrow kind :: rest)).Nodup
  turned : o.Turned o.table.heap (e.borrow kind :: rest) o₁
  back : ∀ r h v o₂, exec (body buf) o₁ = (r, o₂) →
    o₁.Turned h ({ e.borrow kind with value := v } :: rest) o₂ →
      ∃ o', exec (mustAccess form.type addr kind form.project body) o = (hardened r, o') ∧
        o.Turned h ({ e with value := v } :: rest) o'

theorem Lends.back_same {addr : UInt32} {kind : BorrowKind} {body : Buffer → Step (Owner V) Reply}
    {o₁ : Owner V} (hLent : form.Lends o addr kind body e rest buf o₁) {r : Except Stop Reply}
    (hBody : exec (body buf) o₁ = (r, o₁)) :
    ∃ o', exec (mustAccess form.type addr kind form.project body) o = (hardened r, o') ∧
      o.Turned o.table.heap (e :: rest) o' := by
  refine hLent.back r o.table.heap e.value o₁ hBody ⟨⟨hLent.turned.table.heap, ?_, rfl, rfl⟩, rfl, rfl, rfl⟩
  cases kind <;> exact hLent.turned.table.entries

theorem lends_of_mem (hl : form.Lawful) (hi : o.Idle) (he : e ∈ o.table.store.entries)
    (hType : e.typeId = form.type.typeId) (hValue : e.value = form.inject buf) (kind : BorrowKind)
    (body : Buffer → Step (Owner V) Reply) : ∃ rest o₁, form.Lends o e.addr kind body e rest buf o₁ := by
  obtain ⟨rest, o₁, hAt, ht, hBack⟩ := exec_mustAccess_found hi he hType (hValue ▸ hl.project buf) kind body
  have hAddr : (e.borrow kind).addr = e.addr := by cases kind <;> rfl
  have hHeap : o₁.table.heap = o.table.heap := ht.table.heap
  refine ⟨rest, o₁, hAt, hAddr, hType, hValue, ?_, hHeap ▸ hi.valid, ?_, ht, hBack⟩
  · rw [hHeap]
    exact (hl.fits _ _).mp (hValue ▸ hi.fits e he)
  · rw [Entries.addrs, List.map_cons, hAddr]
    exact (hAt.map Entry.addr).nodup_iff.mp hi.nodup

theorem exec_lend_cases (hl : form.Lawful) (hi : o.Idle) (addr : UInt32)
    (kind : BorrowKind) (body : Buffer → Step (Owner V) Reply) :
    (∃ stop, exec (mustAccess form.type addr kind form.project body) o = (.error stop, o) ∧
        stop.IsHard ∧ stop.IsTame) ∨
      ∃ e rest buf o₁, form.Lends o addr kind body e rest buf o₁ := by
  rcases exec_mustAccess_cases hi form.type addr kind form.project body with
    hAbsent | hForeign | ⟨e, rest, buf, o₁, hAt, rfl, hType, hProject, -⟩
  · refine .inl ⟨_, hAbsent, Stop.isHard_trapped _, ?_⟩
    rintro why ⟨⟩ phase
    have hKind : FailureKind.notFound ≠ .doubleFree := by decide
    simp [Failure.matchesReport, noLive, hKind]
  · exact .inl ⟨_, hForeign, Stop.isHard_crashed, Stop.isTame_crashed⟩
  · have he : e ∈ o.table.store.entries := hAt.mem_iff.mpr List.mem_cons_self
    obtain ⟨rest, o₁, hLent⟩ := lends_of_mem hl hi he hType (hl.inject _ buf hProject) kind body
    exact .inr ⟨e, rest, buf, o₁, hLent⟩

/-- The entry of a vector that was found keeps its place while its buffer changes. -/
structure Works (form : VecForm V) (o : Owner V) (h : Heap) (buf buf' : Buffer) (e : Entry (Object V))
    (rest : Entries V) (o' : Owner V) : Prop where
  entries : o.table.store.entries.Perm (e :: rest)
  typeId_eq : e.typeId = form.type.typeId
  value_eq : e.value = form.inject buf
  turned : o.Turned h ({ e with value := form.inject buf' } :: rest) o'

theorem Works.sound {buf buf' : Buffer} {o' : Owner V} (hw : form.Works o h buf buf' e rest o')
    (hl : form.Lawful) (elem : Text) (gained lost : List Title)
    (hs : o.Sound types exports (gained ++ titles) leaks spare)
    (hOld : (form.inject buf).Suits types form.type.typeId elem)
    (hNew : (form.inject buf').Suits types form.type.typeId elem)
    (hr : Heap.Replaced o.table.heap buf.blocks buf'.blocks h) (hFits : buf'.Fits h form.elem)
    (hSlots : (titlesOf elem ((form.inject buf).slots o.table.heap.memory) ++ gained).Perm
      (titlesOf elem ((form.inject buf').slots h.memory) ++ lost)) :
    o'.Sound types exports (lost ++ titles) leaks spare := by
  rw [← hw.typeId_eq] at hOld hNew
  rw [← hl.blocks, ← hl.blocks] at hr
  rw [← hw.value_eq] at hOld hr hSlots
  exact hs.revalued hw.entries hw.turned hOld hNew hr ((hl.fits _ _).mpr hFits) hSlots

theorem exec_push_cases (hl : form.Lawful) (hs : o.Sound types exports titles leaks spare) (addr : UInt32)
    (v : Datum) :
    (∃ stop o', exec (mustAccess form.type addr .exclusive form.project (form.pushTo addr v)) o =
        (.error stop, o') ∧ stop.IsHard ∧ o'.Sound types exports titles leaks spare) ∨
      ∃ e rest buf buf' h o', exec (mustAccess form.type addr .exclusive form.project (form.pushTo addr v)) o =
        (.ok .none, o') ∧ form.Works o h buf buf' e rest o' ∧ form.Pushed o.table.heap buf v h buf' := by
  rcases exec_lend_cases hl hs.idle addr .exclusive (form.pushTo addr v) with
    ⟨stop, hExec, hHard, -⟩ | ⟨e, rest, buf, o₁, hLent⟩
  · exact .inl ⟨stop, o, hExec, hHard, hs⟩
  obtain rfl := hLent.addr_eq
  have hHeap : o₁.table.heap = o.table.heap := hLent.turned.table.heap
  rcases exec_pushTo_cases hLent.valid hLent.nodup hLent.turned.table.entries hLent.fits v with
    ⟨-, -, why, hStop⟩ | ⟨buf', h', o₂, hOk, hPushed, ht⟩
  · obtain ⟨o', hExec, ht'⟩ := hLent.back_same hStop
    exact .inl ⟨_, o', hExec, Stop.isHard_trapped why, hs.unchanged hLent.entries ht'⟩
  · obtain ⟨o', hExec, ht'⟩ := hLent.back _ h' (form.inject buf') o₂ hOk ht
    refine .inr ⟨e, rest, buf, buf', h', o', hExec, ⟨hLent.entries, hLent.typeId_eq, hLent.value_eq, ht'⟩, ?_⟩
    exact hHeap ▸ hPushed

theorem exec_pop_found_cases (hl : form.Lawful) (hs : o.Sound types exports titles leaks spare) (addr : UInt32) :
    (∃ stop o', exec (form.call .pop [.u32 addr]) o = (.error stop, o') ∧ stop.IsHard ∧ stop.IsTame ∧
        o'.Sound types exports titles leaks spare) ∨
      ∃ e rest buf buf' d o', exec (form.call .pop [.u32 addr]) o = (.ok (form.answer d), o') ∧
        form.Works o o.table.heap buf buf' e rest o' ∧ form.Popped o.table.heap buf d buf' ∧
        buf.Fits o.table.heap form.elem := by
  rw [call_pop]
  rcases exec_lend_cases hl hs.idle addr .exclusive (form.popFrom addr) with
    ⟨stop, hExec, hHard, hTame⟩ | ⟨e, rest, buf, o₁, hLent⟩
  · exact .inl ⟨stop, o, hExec, hHard, hTame, hs⟩
  obtain rfl := hLent.addr_eq
  have hHeap : o₁.table.heap = o.table.heap := hLent.turned.table.heap
  rcases exec_popFrom_cases hLent.valid hLent.nodup hLent.turned.table.entries hLent.fits with
    ⟨why, hStop, hTame⟩ | ⟨d, buf', o₂, hOk, hPopped, ht⟩
  · obtain ⟨o', hExec, ht'⟩ := hLent.back_same hStop
    exact .inl ⟨_, o', hExec, Stop.isHard_trapped why, hTame, hs.unchanged hLent.entries ht'⟩
  · obtain ⟨o', hExec, ht'⟩ := hLent.back _ _ (form.inject buf') o₂ hOk ht
    rw [hHeap] at ht' hPopped
    exact .inr ⟨e, rest, buf, buf', d, o', hExec, ⟨hLent.entries, hLent.typeId_eq, hLent.value_eq, ht'⟩, hPopped,
      hHeap ▸ hLent.fits⟩

def lookAt (form : VecForm V) (i : UInt64) (buf : Buffer) : Step (Owner V) Reply := do
  if i > 0xFFFFFFFF then return form.answer none
  return form.answer (← onHeap (buf.get? form.elem i.toUInt32))

theorem exec_lookAt (i : UInt64) (buf : Buffer) (o : Owner V) :
    exec (form.lookAt i buf) o = ((exec (form.lookAt i buf) o).1, o) := by
  unfold lookAt
  split
  · rfl
  · have hRead := exec_onHeap (o := o) (Buffer.exec_get?_memory (s := form.elem) (b := buf) rfl i.toUInt32)
    rcases hValue : (exec (buf.get? form.elem i.toUInt32) o.table.heap).1 with stop | d
    · rw [hValue] at hRead
      rw [exec_bind_error hRead]
      rfl
    · rw [hValue] at hRead
      rw [exec_bind_ok hRead]
      rfl

theorem exec_elementAt (hl : form.Lawful) (hs : o.Sound types exports titles leaks spare) (addr : UInt32)
    (i : UInt64) (kind : BorrowKind) :
    ∃ r o', exec (form.elementAt addr i kind) o = (r, o') ∧ o'.Sound types exports titles leaks spare ∧
      ∀ stop, r = .error stop → stop.IsHard := by
  show ∃ r o', exec (mustAccess form.type addr kind form.project (form.lookAt i)) o = (r, o') ∧ _
  rcases exec_lend_cases hl hs.idle addr kind (form.lookAt i) with
    ⟨stop, hExec, hHard, -⟩ | ⟨e, rest, buf, o₁, hLent⟩
  · refine ⟨_, o, hExec, hs, ?_⟩
    rintro _ ⟨⟩
    exact hHard
  · obtain ⟨o', hExec, ht⟩ := hLent.back_same (exec_lookAt i buf o₁)
    exact ⟨_, o', hExec, hs.unchanged hLent.entries ht, fun stop h => hardened_isHard h⟩

theorem Popped.blocks {buf buf' : Buffer} {d : Option Datum} (hp : form.Popped h buf d buf') :
    buf'.blocks = buf.blocks := by
  rcases hp with ⟨-, rfl⟩ | ⟨-, rfl, -⟩ <;> rfl

theorem Popped.fits {buf buf' : Buffer} {d : Option Datum} (hp : form.Popped h buf d buf')
    (hf : buf.Fits h form.elem) : buf'.Fits h form.elem := by
  rcases hp with ⟨-, rfl⟩ | ⟨hPos, rfl, -⟩
  · exact hf
  · refine ⟨?_, hf.cap_le, hf.unset, hf.doubled, hf.room⟩
    have hPred : (buf.len - 1).toNat = buf.len.toNat - 1 := UInt32.toNat_sub_of_le _ _ hPos
    have hLen := hf.len_le
    show (buf.len - 1).toNat ≤ buf.cap.toNat
    omega

/-! ## Vectors of scalars -/

theorem exec_push_scalar (hs : o.Sound types exports titles leaks spare) (type : OpaqueType) (elem : Scalar)
    (addr : UInt32) (v : Datum) :
    (∃ stop o', exec ((scalar type elem).call .push [.u32 addr, v]) o = (.error stop, o') ∧ stop.IsHard ∧
        o'.Sound types exports titles leaks spare) ∨
      ∃ o', exec ((scalar type elem).call .push [.u32 addr, v]) o = (.ok .none, o') ∧
        o'.Sound types exports titles leaks spare := by
  rw [call_push]
  have hAccept : exec ((scalar type elem).accept v) o = (.ok (), o) := rfl
  rw [exec_bind_ok hAccept]
  have hl := scalar_lawful (V := V) type elem
  rcases exec_push_cases hl hs addr v with hStop | ⟨e, rest, buf, buf', h, o', hExec, hw, hPushed⟩
  · exact .inl hStop
  · exact .inr ⟨o', hExec, hw.sound hl [] [] [] hs trivial trivial hPushed.replaced hPushed.fits (.refl _)⟩

theorem exec_pop_scalar (hs : o.Sound types exports titles leaks spare) (type : OpaqueType) (elem : Scalar)
    (addr : UInt32) :
    (∃ stop o', exec ((scalar type elem).call .pop [.u32 addr]) o = (.error stop, o') ∧ stop.IsHard ∧
        stop.IsTame ∧ o'.Sound types exports titles leaks spare) ∨
      ∃ d o', exec ((scalar type elem).call .pop [.u32 addr]) o = (.ok (.option (.ofOption elem d)), o') ∧
        o'.Sound types exports titles leaks spare := by
  have hl := scalar_lawful (V := V) type elem
  rcases exec_pop_found_cases hl hs addr with hStop | ⟨e, rest, buf, buf', d, o', hExec, hw, hPopped, hFits⟩
  · exact .inl hStop
  · have hr : Heap.Replaced o.table.heap buf.blocks buf'.blocks o.table.heap :=
      hPopped.blocks ▸ .same hs.table.accounts.valid _
    exact .inr ⟨d, o', hExec, hw.sound hl [] [] [] hs trivial trivial hr (hPopped.fits hFits) (.refl _)⟩

/-! ## Vectors of objects -/

variable {elem : Text}

abbrev objects (types : List Text) (elem : Text) : VecForm V :=
  reference (declaredType types (vecTypeName elem)) (declaredType types elem)

theorem exec_accept_cases {w : Title} (hs : o.Sound types exports (w :: titles) leaks spare)
    (hElem : elem ∈ types) :
    (∃ why, exec ((objects types elem).accept (.u32 w.addr)) o = (.error (.trapped why), o)) ∨
      exec ((objects types elem).accept (.u32 w.addr)) o = (.ok (), o) ∧ w.typeName = elem := by
  have hAccounts := hs.table.accounts
  obtain ⟨hName, hType⟩ := hAccounts.titled w List.mem_cons_self
  have hFound := (Store.typeId?_eq_some_iff hAccounts.addrs_nodup).mpr hType
  show (∃ why, exec (acceptLive (declaredType types elem) (.u32 w.addr)) o = _) ∨
    exec (acceptLive (declaredType types elem) (.u32 w.addr)) o = _ ∧ _
  rw [acceptLive, exec_bind_ok (exec_get o), hFound]
  split
  · exact .inl ⟨_, rfl⟩
  · rename_i hSame
    refine .inr ⟨rfl, typeNumber_inj hAccounts.few hName hElem ?_⟩
    exact Option.some.inj (not_not.mp hSame)

theorem stored_address (a : UInt32) : (Buffer.stored .u32 (.u32 a)).toUInt32 = a := by
  show (a.toNat % 256 ^ 4).toUInt32 = a
  rw [Nat.mod_eq_of_lt (by have := a.toNat_lt; omega)]
  exact UInt32.ofNat_toNat

theorem exec_push_object {w : Title} (hs : o.Sound types exports (w :: titles) leaks spare)
    (hElem : elem ∈ types) (hVec : vecTypeName elem ∈ types) (addr : UInt32) :
    (∃ stop o', exec ((objects types elem).call .push [.u32 addr, .u32 w.addr]) o = (.error stop, o') ∧
        stop.IsHard ∧ o'.Sound types exports (w :: titles) leaks spare) ∨
      ∃ o', exec ((objects types elem).call .push [.u32 addr, .u32 w.addr]) o = (.ok .none, o') ∧
        o'.Sound types exports titles leaks spare := by
  rw [call_push]
  rcases exec_accept_cases hs hElem with ⟨why, hStop⟩ | ⟨hOk, rfl⟩
  · exact .inl ⟨_, o, exec_bind_error hStop, Stop.isHard_trapped why, hs⟩
  rw [exec_bind_ok hOk]
  have hl : (objects types w.typeName : VecForm V).Lawful := reference_lawful ..
  rcases exec_push_cases hl hs addr (.u32 w.addr) with hStop | ⟨e, rest, buf, buf', h, o', hExec, hw, hPushed⟩
  · exact .inl hStop
  refine .inr ⟨o', hExec, hw.sound hl w.typeName [w] [] hs ⟨hElem, hVec, rfl⟩ ⟨hElem, hVec, rfl⟩
    hPushed.replaced hPushed.fits ?_⟩
  show (titlesOf w.typeName ((buf.words _ .u32).map Nat.toUInt32) ++ [w]).Perm
    (titlesOf w.typeName ((buf'.words h.memory .u32).map Nat.toUInt32) ++ [])
  have hWords : buf'.words h.memory .u32 = buf.words o.table.heap.memory .u32 ++
      [Buffer.stored .u32 (.u32 w.addr)] := hPushed.words
  rw [hWords, List.map_append, titlesOf, titlesOf, List.map_append, List.append_nil, List.map_singleton,
    List.map_singleton, stored_address]

theorem exec_pop_object (hs : o.Sound types exports titles leaks spare)
    (hElem : elem ∈ types) (hVec : vecTypeName elem ∈ types) (addr : UInt32) :
    (∃ stop o', exec ((objects types elem).call .pop [.u32 addr]) o = (.error stop, o') ∧ stop.IsHard ∧
        stop.IsTame ∧ o'.Sound types exports titles leaks spare) ∨
      (∃ o', exec ((objects types elem).call .pop [.u32 addr]) o = (.ok (.datum (.u32 0)), o') ∧
        o'.Sound types exports titles leaks spare) ∨
      ∃ a o', exec ((objects types elem).call .pop [.u32 addr]) o = (.ok (.datum (.u32 a)), o') ∧
        o'.Sound types exports (⟨a, elem⟩ :: titles) leaks spare := by
  have hl : (objects types elem : VecForm V).Lawful := reference_lawful ..
  rcases exec_pop_found_cases hl hs addr with hStop | ⟨e, rest, buf, buf', d, o', hExec, hw, hPopped, hFits⟩
  · exact .inl hStop
  have hr : Heap.Replaced o.table.heap buf.blocks buf'.blocks o.table.heap :=
    hPopped.blocks ▸ .same hs.table.accounts.valid _
  have hSound := fun lost => hw.sound hl elem [] lost hs ⟨hElem, hVec, rfl⟩ ⟨hElem, hVec, rfl⟩ hr
    (hPopped.fits hFits)
  rcases hPopped with ⟨rfl, rfl⟩ | ⟨hPos, rfl, v, rfl, hWord⟩
  · exact .inr (.inl ⟨o', hExec, hSound [] (.refl _)⟩)
  · let a : UInt32 := (buf.word o.table.heap.memory .u32 (buf.len - 1).toNat).toUInt32
    obtain rfl : Datum.u32 a = v := Except.ok.inj hWord
    refine .inr (.inr ⟨a, o', hExec, hSound [⟨a, elem⟩] ?_⟩)
    show (titlesOf elem ((buf.words o.table.heap.memory .u32).map Nat.toUInt32) ++ []).Perm _
    rw [Buffer.words_pop _ hPos, List.append_nil, List.map_append, titlesOf, List.map_append]
    exact .refl _

end VecForm

end Owner

end Marshal
