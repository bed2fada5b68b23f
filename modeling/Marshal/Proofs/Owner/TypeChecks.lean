import Marshal.Proofs.Owner.Dropping
import Marshal.Proofs.Owner.Typed

/-! # Objects of another type

A function that reads, changes or consumes an object looks first whether there is an object of its type at the address,
and traps before it does anything if there is not. Destructors and the call of a boxed callback do not look: they take
whatever object is there, if nobody borrows it. Neither does the comparison of an address with itself.
-/
set_option autoImplicit false
namespace Marshal

open Step

inductive StringOp.Applied (addr : UInt32) : StringOp → List Datum → Prop
  | len : Applied addr .len [.u32 addr]
  | asStr : Applied addr .asStr [.u32 addr]
  | asPtr : Applied addr .asPtr [.u32 addr]
  | trim : Applied addr .trim [.u32 addr]

inductive VecOp.Applied (addr : UInt32) : VecOp → List Datum → Prop
  | len : Applied addr .len [.u32 addr]
  | push (v : Datum) : Applied addr .push [.u32 addr, v]
  | pop : Applied addr .pop [.u32 addr]
  | get (i : UInt64) : Applied addr .get [.u32 addr, .usize i]
  | getMut (i : UInt64) : Applied addr .getMut [.u32 addr, .usize i]
  | asPtr : Applied addr .asPtr [.u32 addr]

/-- The function works on objects of the type, and first on the one at the address. -/
inductive Export.Applied {V : Type} (addr : UInt32) : Text → Export V → List Datum → Prop
  | string (type : OpaqueType) {op : StringOp} {args : List Datum} (hOp : op.Applied addr args) :
      Applied addr Owner.stringType (.string type op) args
  | vec (type : OpaqueType) (elem : Scalar) {op : VecOp} {args : List Datum} (hOp : op.Applied addr args) :
      Applied addr type.name (.vec type elem op) args
  | refVec (type elem : OpaqueType) {op : VecOp} {args : List Datum} (hOp : op.Applied addr args)
      (hElem : op = .push → ∃ a, args = [.u32 addr, .u32 a]) : Applied addr type.name (.refVec type elem op) args
  | inspect (type : OpaqueType) (result : WireType) (f : V → Option Datum) :
      Applied addr type.name (.inspect type result f) [.u32 addr]
  | amend (type : OpaqueType) (arg result : WireType) (f : V → Datum → Option (V × Datum)) (v : Datum) :
      Applied addr type.name (.amend type arg result f) [.u32 addr, v]
  | consume (type : OpaqueType) (result : WireType) (f : V → Option Datum) :
      Applied addr type.name (.consume type result f) [.u32 addr]
  | equal (type : OpaqueType) (key : V → Option (List Datum)) (b : UInt32) (hNe : addr ≠ b) :
      Applied addr type.name (.equal type key) [.u32 addr, .u32 b]
  | hash (type : OpaqueType) (key : V → Option (List Datum)) : Applied addr type.name (.hash type key) [.u32 addr]

namespace Owner

variable {V α β : Type} {o o' : Owner V} {type : OpaqueType} {addr : UInt32} {kind : BorrowKind}
  {project : Object V → Option β}

def Holds (o : Owner V) (name : Text) (addr : UInt32) : Prop :=
  ∃ e, o.entry? addr = some e ∧ e.typeId = typeNumber o.types name

def Stops (o : Owner V) (x : Step (Owner V) α) : Prop := ∃ why, exec x o = (.error (.trapped why), o)

theorem Stops.bind {x : Step (Owner V) α} (h : o.Stops x) (f : α → Step (Owner V) β) : o.Stops (x >>= f) := by
  obtain ⟨why, hExec⟩ := h
  exact ⟨why, exec_bind_error hExec⟩

/-! ## Functions that look -/

variable {args : List Datum} {key : V → Option (List Datum)} {name : Text}

theorem getTyped?_of_not_holds (hNot : ¬ o.Holds name addr) :
    o.table.getTyped? addr (typeNumber o.types name) = none := by
  refine Option.eq_none_iff_forall_ne_some.mpr fun v hTyped => hNot ?_
  obtain ⟨e, hFound, hType, -⟩ := getTyped?_eq_some_iff.mp hTyped
  exact ⟨e, hFound, hType⟩

theorem stops_mustAccess (hNone : o.table.getTyped? addr type.typeId = none) (body : β → Step (Owner V) α) :
    o.Stops (mustAccess type addr kind project body) := by
  have hEnter : exec (enter type addr kind project) o = (.error (.refused (.report (noLive type.name addr))), o) := by
    rw [enter, exec_bind_ok (exec_get o)]
    simp only [hNone]
    rfl
  exact ⟨_, exec_trapRefusal_refused (exec_bind_error hEnter)⟩

theorem stops_mustGet (hName : name ∈ o.types)
    (hNone : o.table.getTyped? addr (typeNumber o.types name) = none) : o.Stops (mustGet name addr project) := by
  have hType : exec (typeId name) o = (.ok (typeNumber o.types name), o) := by
    rw [exec_typeId, withType, if_pos hName]
  refine ⟨.report { noLive name addr with value := .u32 addr }, ?_⟩
  rw [mustGet, exec_bind_ok hType, exec_bind_ok (exec_get o)]
  simp only [hNone]
  rfl

theorem stops_callString {op : StringOp} (hOp : op.Applied addr args)
    (hString : stringType ∈ o.types) (hNone : o.table.getTyped? addr (typeNumber o.types stringType) = none) :
    o.Stops (callString op args) := by
  cases hOp <;> exact (stops_mustGet hString hNone).bind _

theorem VecForm.stops_call (form : VecForm V) {op : VecOp} (hOp : op.Applied addr args)
    (hNone : o.table.getTyped? addr form.type.typeId = none)
    (hAccept : ∀ v, op = .push → args = [.u32 addr, v] →
      exec (form.accept v) o = (.ok (), o) ∨ o.Stops (form.accept v)) : o.Stops (form.call op args) := by
  cases hOp with
  | push v =>
    rcases hAccept v rfl rfl with hOk | hStops
    · obtain ⟨why, hExec⟩ := stops_mustAccess hNone _
      exact ⟨why, (exec_bind_ok hOk).trans hExec⟩
    · exact hStops.bind _
  | _ => exact stops_mustAccess hNone _

theorem VecForm.exec_acceptLive_cases (elem : OpaqueType) (a : UInt32) (o : Owner V) :
    exec (acceptLive elem (.u32 a)) o = (.ok (), o) ∨ o.Stops (acceptLive elem (.u32 a)) := by
  rw [Stops, acceptLive, exec_bind_ok (exec_get o)]
  split
  · exact .inr ⟨_, rfl⟩
  · exact .inl rfl

theorem exec_take_absent (hNone : o.table.getTyped? addr type.typeId = none) :
    ∃ why, exec (take type addr) o = (.error (.refused why), o) := by
  have hFind : exec (find type addr) o = (.ok none, o) := by
    rw [find, exec_bind_ok (exec_get o)]
    simp only [hNone]
    rfl
  exact ⟨_, exec_bind_ok hFind⟩

/-- Where no object of its type is, a function that looks traps at once. -/
theorem stops_call {f : Export V} (hApplied : f.Applied addr name args)
    (hDeclared : f.DeclaredIn o.types) (hNot : ¬ o.Holds name addr) : o.Stops (call f args) := by
  have hNone := getTyped?_of_not_holds hNot
  cases hApplied with
  | string type hOp => exact stops_callString hOp hDeclared hNone
  | vec type elem hOp =>
    rw [← hDeclared.2] at hNone
    exact VecForm.stops_call (.scalar type elem) hOp hNone fun v _ _ => .inl rfl
  | refVec type elem hOp hElem =>
    rw [← hDeclared.1.2] at hNone
    refine VecForm.stops_call (.reference type elem) hOp hNone fun v hPush hArgs => ?_
    obtain ⟨a, hArgs'⟩ := hElem hPush
    cases hArgs.symm.trans hArgs'
    exact VecForm.exec_acceptLive_cases elem a o
  | inspect type result f =>
    rw [← hDeclared.2] at hNone
    exact stops_mustAccess hNone _
  | amend type arg result f v =>
    rw [← hDeclared.2] at hNone
    exact stops_mustAccess hNone _
  | consume type result f =>
    rw [← hDeclared.2] at hNone
    obtain ⟨why, hTake⟩ := exec_take_absent hNone
    exact ⟨_, exec_bind_error (exec_trapRefusal_refused hTake)⟩
  | equal type key b hNe =>
    rw [← hDeclared.2] at hNone
    rw [Stops, call, if_neg hNe]
    exact Stops.bind (stops_mustAccess hNone _) _
  | hash type key =>
    rw [← hDeclared.2] at hNone
    exact Stops.bind (stops_mustAccess hNone _) _

/-! ## The second of two objects -/

/-- The objects with their borrows, the heap and the types are as they were; observers may have been told something. -/
structure SameObjects (o o' : Owner V) : Prop where
  entries : ∀ a, o'.entry? a = o.entry? a
  heap : o'.table.heap = o.table.heap
  types : o'.types = o.types

theorem SameObjects.refl (o : Owner V) : o.SameObjects o := ⟨fun _ => rfl, rfl, rfl⟩

theorem SameObjects.holds_iff (hs : o.SameObjects o') (name : Text) (addr : UInt32) :
    o'.Holds name addr ↔ o.Holds name addr := by
  rw [Holds, Holds, hs.entries, hs.types]

theorem reread_eq_self {e : Entry V} (hRoom : e.shared.toNat + 1 < 2 ^ 32) : e.reread = e := by
  have hCount : (e.shared + 1).toNat = e.shared.toNat + 1 := by
    rw [UInt32.toNat_add, UInt32.toNat_one, Nat.mod_eq_of_lt hRoom]
  have hPos : e.shared + 1 ≠ 0 := by
    intro hZero
    rw [hZero] at hCount
    cases hCount
  rw [Entry.reread, if_neg hPos]

theorem keeps_enter (h : Heap) (types : List Text) :
    Keeps (fun o : Owner V => o.table.heap = h ∧ o.types = types) (enter type addr kind project) := by
  apply Keeps.get_bind
  intro o hs
  split
  · exact hs
  · split
    · exact hs
    · refine Keeps.bind (P := fun o : Owner V => o.table.heap = h ∧ o.types = types) ?_ (fun _ => Keeps.pure _) o hs
      intro o hs
      rw [exec_onTable]
      rcases o.table.exec_borrow_cases addr kind with ⟨why, hExec, -⟩ | ⟨e, id, -, -, hExec⟩ <;> rw [hExec] <;> exact hs

theorem keeps_leave (addr : UInt32) (kind : BorrowKind) (h : Heap) (types : List Text) :
    Keeps (fun o : Owner V => o.table.heap = h ∧ o.types = types) (leave addr kind) := by
  intro o hs
  rw [leave, exec_bind_pure, exec_onTable]
  rcases o.table.exec_giveBack_cases addr kind with ⟨hExec, -⟩ | ⟨e, e', id, -, -, hExec⟩ <;> rw [hExec] <;> exact hs

theorem keeps_keyOf (type : OpaqueType) (addr : UInt32) (key : V → Option (List Datum)) (h : Heap) (types : List Text) :
    Keeps (fun o : Owner V => o.table.heap = h ∧ o.types = types) (keyOf type addr key) := by
  apply Keeps.trapRefusal
  exact Keeps.bind (keeps_enter h types) fun _ => (Keeps.pure _).andFinally (keeps_leave addr .shared h types)

theorem exec_keyOf_cases {e : Entry (Object V)} {k : List Datum}
    (hFound : o.entry? addr = some e) (hType : e.typeId = type.typeId) (hKey : (guest? e.value >>= key) = some k) :
    (e.exclusive = true ∧ o.Stops (keyOf type addr key)) ∨
      ∃ o', exec (keyOf type addr key) o = (.ok k, o') ∧ o.Edits addr Entry.reread o' := by
  cases hFree : e.exclusive with
  | false =>
    obtain ⟨o', hRead, hEdits⟩ := exec_access_read hFound hType (guest? · >>= key) hKey hFree id
    exact .inr ⟨o', exec_trapRefusal_ok hRead, hEdits⟩
  | true =>
    refine .inl ⟨rfl, ?_⟩
    have hTyped := getTyped?_eq_some_iff.mpr ⟨e, hFound, hType, rfl⟩
    have hBorrow : exec (enter type addr .shared (guest? · >>= key)) o =
        exec (onTable (Table.borrow addr .shared) >>= fun _ => pure k) o := by
      rw [enter, exec_bind_ok (exec_get o)]
      simp only [hTyped, hKey]
    rcases o.table.exec_borrow_cases addr .shared with ⟨why, hExec, -⟩ | ⟨e', id, hFound', hAdmits, -⟩
    · refine ⟨why, exec_trapRefusal_refused (exec_bind_error (hBorrow.trans (exec_bind_error ?_)))⟩
      rw [exec_onTable, hExec]
    · cases hFound.symm.trans hFound'
      simp [Entry.admits, hFree] at hAdmits

theorem SameObjects.of_keyOf {e : Entry (Object V)} {k : List Datum} (hFound : o.entry? addr = some e)
    (hRoom : e.shared.toNat + 1 < 2 ^ 32) (hExec : exec (keyOf type addr key) o = (.ok k, o'))
    (hEdits : o.Edits addr Entry.reread o') : o.SameObjects o' := by
  have hKept := keeps_keyOf type addr key _ _ o ⟨rfl, rfl⟩
  rw [hExec] at hKept
  refine ⟨fun a => ?_, hKept.1, hKept.2⟩
  rw [hEdits a]
  split
  · rename_i hEq
    rw [hEq, hFound, Option.map_some, reread_eq_self hRoom]
  · rfl

/-! ## Functions that do not look -/

theorem exec_remove_unfree (destroy : Object V → Step (Table (Object V)) Unit) {t : Table (Object V)}
    (hNot : t.isFree addr = false) : ∃ why, exec (Table.remove destroy addr) t = (.error (.refused why), t) := by
  obtain ⟨r, hDetach⟩ := Table.exec_detach_unfree hNot
  exact ⟨_, exec_bind_error hDetach⟩

theorem stops_drop (hNull : addr ≠ 0) (hNot : o.isFree addr = false) : o.Stops (drop addr) := by
  obtain ⟨why, hRemove⟩ := exec_remove_unfree o.destroyer hNot
  have hDrop : ∃ why', exec (Object.dropWith (Table.remove o.destroyer) addr) o.table =
      (.error (.trapped why'), o.table) := by
    rw [Object.dropWith, if_neg hNull, exec_bind_ok (exec_attempt_refused hRemove), exec_bind_ok (exec_get _)]
    split
    · exact ⟨_, rfl⟩
    · exact ⟨_, rfl⟩
  obtain ⟨why', hDrop⟩ := hDrop
  refine ⟨why', (exec_bind_ok (exec_get o)).trans ?_⟩
  rw [exec_onTable, hDrop]

def Vacant (addr : UInt32) (t : Table (Object V)) : Prop := t.store.entry? addr = none

theorem Vacant.same {t t' : Table (Object V)} (hStore : t'.store = t.store) (h : Vacant addr t) : Vacant addr t' := by
  rwa [Vacant, hStore]

theorem keeps_vacant (a : UInt32) : Keeps (Vacant (V := V) addr) (Table.detach a) := by
  intro t hNone
  rcases Table.sheds_detach t a t (Table.sheds_of_store rfl) addr with hSame | ⟨hGone, -⟩
  · exact hSame.trans hNone
  · exact hGone

theorem vacant_detach {t : Table (Object V)} {f : Entry (Object V) → Step (Table (Object V)) α}
    (hFree : t.isFree addr = true)
    (hf : ∀ e, Keeps (Vacant addr) (f e)) : Vacant addr (exec (Table.detach addr >>= f) t).2 := by
  obtain ⟨e, hFound, hIdle⟩ := Table.isFree_eq_true_iff.mp hFree
  rcases Table.exec_detach_cases addr t with ⟨r, -, hBorrowed⟩ | ⟨e', -, -, hDetach⟩
  · cases hIdle.symm.trans (hBorrowed e hFound)
  · refine bind_holds ?_ hf
    rw [hDetach rfl]
    exact List.find?_eq_none.mpr fun x hx => by simpa using (List.mem_filter.mp hx).2

theorem vacant_drop (hNull : addr ≠ 0) (hFree : o.isFree addr = true) : Vacant addr (exec (drop addr) o).2.table := by
  have hRemove : Vacant addr (exec (Table.remove o.destroyer addr) o.table).2 := by
    refine vacant_detach hFree fun e => ?_
    refine Keeps.bind (Object.keeps_destroy (.of_store fun _ _ => Vacant.same) (fun d _ => ?_) _) fun _ => ?_
    · exact Object.keeps_remove (.of_store fun _ _ => Vacant.same) keeps_vacant _ d
    · exact Keeps.bind (Keeps.modify fun _ => id) fun _ => Keeps.pure _
  rw [drop, exec_bind_ok (exec_get o), exec_onTable]
  show Vacant addr (exec (Object.dropWith (Table.remove o.destroyer) addr) o.table).2
  rw [Object.dropWith, if_neg hNull]
  refine bind_holds (by rwa [state_attempt]) ?_
  rintro (why | v)
  · apply Keeps.get_bind
    intro t hNone
    split <;> exact hNone
  · exact Keeps.pure _

/-- The box at the address has left the table. No other has, and nothing was run. -/
structure Parted (addr : UInt32) (o o' : Owner V) : Prop where
  store : o'.table.store = o.table.store.erase addr
  journal : o'.table.journal = o.table.journal

theorem exec_unbox_cases (addr : UInt32) (o : Owner V) :
    (∃ why, exec (unbox addr) o = (.error (.refused why), o) ∧ o.isFree addr = false) ∨
      ∃ e r o', o.entry? addr = some e ∧ exec (unbox addr) o = (Except.map (fun _ : Unit => e.value) r, o') ∧
        o.Parted addr o' := by
  rw [unbox, exec_onTable, Table.take]
  rcases Table.exec_detach_cases addr o.table with ⟨r, hRefused, hBorrowed⟩ | ⟨e, hFound, -, hDetach⟩
  · rw [exec_bind_error hRefused]
    refine .inl ⟨.report r, rfl, Bool.eq_false_iff.mpr fun hFree => ?_⟩
    obtain ⟨e, hFound, hIdle⟩ := Table.isFree_eq_true_iff.mp hFree
    cases hIdle.symm.trans (hBorrowed e hFound)
  · rcases hRelease : exec (Heap.release addr) o.table.heap with ⟨stop | ⟨⟩, h⟩
    · rw [exec_bind_error (hDetach hRelease)]
      exact .inr ⟨e, .error stop, _, hFound, rfl, rfl, rfl⟩
    · rw [exec_bind_ok (hDetach hRelease)]
      exact .inr ⟨e, .ok (), _, hFound, rfl, rfl, rfl⟩

def runObject : Object V → Step (Owner V) Unit
  | .callback label => onTable (Table.note (.called (.callback label)))
  | _ => Step.crash

def unopened (addr : UInt32) : Stop → Stop
  | .refused _ => .trapped (.report (.doubleFree .async addr))
  | stop => stop

theorem exec_callBoxed_ok {object : Object V} (hUnbox : exec (unbox addr) o = (.ok object, o')) :
    exec (callBoxed addr) o = exec (runObject object) o' := by
  rw [callBoxed, exec_bind_ok (exec_attempt_ok hUnbox)]
  cases object <;> rfl

theorem exec_callBoxed_error {stop : Stop} (hUnbox : exec (unbox addr) o = (.error stop, o')) :
    exec (callBoxed addr) o = (.error (unopened addr stop), o') := by
  rw [callBoxed, exec_bind, exec_attempt, hUnbox]
  cases stop <;> rfl

theorem store_runObject (object : Object V) (o : Owner V) :
    (exec (runObject object) o).2.table.store = o.table.store := by
  cases object <;> rfl

theorem stops_callBoxed (hNot : o.isFree addr = false) : o.Stops (callBoxed addr) := by
  obtain ⟨r, hDetach⟩ := Table.exec_detach_unfree hNot
  have hUnbox : exec (unbox addr) o = (.error (.refused (.report r)), o) := by
    rw [unbox, exec_onTable, Table.take, exec_bind_error hDetach]
  exact ⟨_, exec_callBoxed_error hUnbox⟩

theorem vacant_callBoxed (hFree : o.isFree addr = true) : Vacant addr (exec (callBoxed addr) o).2.table := by
  rcases exec_unbox_cases addr o with ⟨why, -, hNot⟩ | ⟨e, r, o', -, hUnbox, hParted⟩
  · cases hNot.symm.trans hFree
  have hGone : Vacant addr o'.table := by
    rw [Vacant, hParted.store, Store.entry?_erase, if_pos rfl]
  cases r with
  | error stop => rwa [exec_callBoxed_error hUnbox]
  | ok _ =>
    rw [exec_callBoxed_ok hUnbox]
    exact hGone.same (store_runObject e.value o')

theorem callback_of_callBoxed (h : exec (callBoxed addr) o = (.ok (), o')) :
    ∃ e label, o.entry? addr = some e ∧ e.value = .callback label := by
  rcases exec_unbox_cases addr o with ⟨why, hUnbox, -⟩ | ⟨e, r, o₁, hFound, hUnbox, -⟩
  · cases h.symm.trans (exec_callBoxed_error hUnbox)
  cases r with
  | error stop => cases h.symm.trans (exec_callBoxed_error hUnbox)
  | ok _ =>
    have hRun := (exec_callBoxed_ok hUnbox).symm.trans h
    cases hValue : e.value with
    | callback label => exact ⟨e, label, hFound, hValue⟩
    | _ =>
      rw [hValue] at hRun
      cases hRun

/-! ## All functions -/

/-- How the functions treat an address where no object of their type is. -/
structure TypeChecks (o : Owner V) : Prop where
  absent : ∀ symbol f addr name args, o.export? symbol = some f → f.Applied addr name args → ¬ o.Holds name addr →
    o.Stops (call f args)
  second : ∀ symbol type key a b e, o.export? symbol = some (.equal type key) → a ≠ b → o.entry? a = some e →
    (guest? e.value >>= key).isSome → e.shared.toNat + 1 < 2 ^ 32 → ¬ o.Holds type.name b →
    ∃ why o', exec (call (.equal type key) [.u32 a, .u32 b]) o = (.error (.trapped why), o') ∧ o.SameObjects o'
  distinct : o.types.length < 2 ^ 32 → ∀ addr name name', name ∈ o.types → name' ∈ o.types → o.Holds name addr →
    o.Holds name' addr → name = name'
  itself : ∀ type key a, exec (call (.equal type key) [.u32 a, .u32 a]) o = (.ok (.datum (.bool true)), o)
  destructor : ∀ addr, addr ≠ 0 → (o.isFree addr = false → o.Stops (call .destructor [.u32 addr])) ∧
    (o.isFree addr = true → Vacant addr (exec (call .destructor [.u32 addr]) o).2.table)
  callBoxed : ∀ addr, (o.isFree addr = false → o.Stops (call .callBoxed [.u32 addr])) ∧
    (o.isFree addr = true → Vacant addr (exec (call .callBoxed [.u32 addr]) o).2.table) ∧
    ∀ r o', exec (call .callBoxed [.u32 addr]) o = (.ok r, o') →
      ∃ e label, o.entry? addr = some e ∧ e.value = .callback label

theorem Typed.second {symbol : Text} {a b : UInt32} {e : Entry (Object V)}
    (ht : o.Typed) (hExport : o.export? symbol = some (.equal type key)) (hNe : a ≠ b) (hFound : o.entry? a = some e)
    (hKey : (guest? e.value >>= key).isSome) (hRoom : e.shared.toNat + 1 < 2 ^ 32) (hNot : ¬ o.Holds type.name b) :
    ∃ why o', exec (call (.equal type key) [.u32 a, .u32 b]) o = (.error (.trapped why), o') ∧ o.SameObjects o' := by
  have hDeclared : type.DeclaredIn o.types := ht _ (mem_of_export? hExport)
  by_cases hFirst : o.Holds type.name a
  · obtain ⟨e', hFound', hType⟩ := hFirst
    cases hFound.symm.trans hFound'
    obtain ⟨k, hKey⟩ := Option.isSome_iff_exists.mp hKey
    rw [call, if_neg hNe]
    rcases exec_keyOf_cases hFound (hType.trans hDeclared.2.symm) hKey with ⟨-, why, hExec⟩ | ⟨o₁, hExec, hEdits⟩
    · exact ⟨why, o, exec_bind_error hExec, .refl o⟩
    · have hSame := SameObjects.of_keyOf hFound hRoom hExec hEdits
      have hNone := getTyped?_of_not_holds (mt (hSame.holds_iff type.name b).mp hNot)
      rw [hSame.types, ← hDeclared.2] at hNone
      have hStops : o₁.Stops (keyOf type b key) := stops_mustAccess hNone pure
      obtain ⟨why, hExec'⟩ := hStops
      exact ⟨why, o₁, (exec_bind_ok hExec).trans (exec_bind_error hExec'), hSame⟩
  · obtain ⟨why, hExec⟩ := stops_call (.equal type key b hNe) hDeclared hFirst
    exact ⟨why, o, hExec, .refl o⟩

/-- Whatever was done with an owner, its functions that look at an object of their type trap where there is none and
change nothing. Destructors and the call of a callback take the object that is there, of whatever type it is. -/
theorem Reached.typeChecks (hRun : o.Reached) : o.TypeChecks := by
  have ht := hRun.typed
  refine ⟨?_, ?_, ?_, ?_, ?_, ?_⟩
  · intro symbol f addr name args hExport hApplied hNot
    exact stops_call hApplied (ht _ (mem_of_export? hExport)) hNot
  · intro symbol type key a b e hExport hNe hFound hKey hRoom hNot
    exact ht.second hExport hNe hFound hKey hRoom hNot
  · rintro hFew addr name name' hName hName' ⟨e, hFound, hType⟩ ⟨e', hFound', hType'⟩
    cases hFound.symm.trans hFound'
    exact typeNumber_inj hFew hName hName' (hType.symm.trans hType')
  · intro type key a
    rw [call, if_pos rfl]
    rfl
  · intro addr hNull
    refine ⟨fun hNot => (stops_drop hNull hNot).bind _, fun hFree => ?_⟩
    exact bind_holds (P := fun o : Owner V => Vacant addr o.table) (vacant_drop hNull hFree) fun _ => Keeps.pure _
  · intro addr
    refine ⟨fun hNot => (stops_callBoxed hNot).bind _, fun hFree => ?_, fun r o' hOk => ?_⟩
    · exact bind_holds (P := fun o : Owner V => Vacant addr o.table) (vacant_callBoxed hFree) fun _ => Keeps.pure _
    · obtain ⟨_, o₁, hCall, -⟩ := exec_bind_eq_ok.mp hOk
      exact callback_of_callBoxed hCall

theorem exists_twoTypes :
    ∃ o : Owner Nat, o.Reached ∧ o.types = ["P", "Q"] ∧ o.export? (Symbol.ofType "Q" Symbol.free) = some .destructor ∧
      (o.export? (Symbol.ofType "Q" "get")).isSome ∧ (o.export? (Symbol.ofType "Q" Symbol.partialEq)).isSome ∧
      o.table.journal = [] ∧ o.isFree 16 = true ∧ o.Holds "P" 16 ∧ ¬ o.Holds "Q" 16 ∧
      ∃ o', exec (call .destructor [.u32 16]) o = (.ok .none, o') ∧ o'.entry? 16 = none ∧
        o'.table.journal = [.destroyed (.guest 7)] := by
  have hRun : Reached (V := Nat) _ := .create {} rfl
  have hRun := hRun.act (.register (.guests "P"))
  have hRun := hRun.act (.register (.guests "Q"))
  have hRun := hRun.method "Q" "get" (.inspect (.scalar .u64) fun n => some (.u64 n.toUInt64)) (by decide +kernel)
  have hRun := hRun.method "Q" Symbol.partialEq (.equal fun n => some [.u64 n.toUInt64]) (by decide +kernel)
  have hRun := hRun.act (.box "P" 7)
  refine ⟨_, hRun, by decide +kernel, rfl, by decide +kernel, by decide +kernel, rfl, by decide +kernel,
    ⟨_, rfl, by decide +kernel⟩, ?_, _, rfl, rfl, rfl⟩
  rintro ⟨e, hFound, hType⟩
  cases hFound
  revert hType
  decide +kernel

theorem Reached.typeChecks_twoTypes :
    ∃ o : Owner Nat, o.Reached ∧ o.types = ["P", "Q"] ∧ (o.export? (Symbol.ofType "Q" "get")).isSome ∧
      (o.export? (Symbol.ofType "Q" Symbol.partialEq)).isSome ∧ o.Holds "P" 16 ∧ ¬ o.Holds "Q" 16 ∧ o.TypeChecks := by
  obtain ⟨o, hRun, hTypes, -, hGet, hEqual, -, -, hHolds, hNot, -⟩ := exists_twoTypes
  exact ⟨o, hRun, hTypes, hGet, hEqual, hHolds, hNot, hRun.typeChecks⟩

/-- The destructor of a type destroys an object of another, and returns. -/
theorem Reached.destroys_other_type :
    ∃ o o' : Owner Nat, o.Reached ∧ o.types = ["P", "Q"] ∧
      o.export? (Symbol.ofType "Q" Symbol.free) = some .destructor ∧ o.Holds "P" 16 ∧ ¬ o.Holds "Q" 16 ∧
      exec (call .destructor [.u32 16]) o = (.ok .none, o') ∧ o'.entry? 16 = none ∧
      o.table.journal = [] ∧ o'.table.journal = [.destroyed (.guest 7)] := by
  obtain ⟨o, hRun, hTypes, hFree, -, -, hBefore, -, hHolds, hNot, o', hExec, hGone, hAfter⟩ := exists_twoTypes
  exact ⟨o, o', hRun, hTypes, hFree, hHolds, hNot, hExec, hGone, hBefore, hAfter⟩

end Owner

end Marshal
