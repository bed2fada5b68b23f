import Marshal.Proofs.Owner.Shelf

/-! # Calls on vectors as lists

Each function of a vector does to its list what its name says, whatever the vector has been through: a push
appends, a pop takes the last element off, and looking changes nothing. A push can stop only when the buffer is
full and cannot grow, and then everything is as it was. What holds after one call holds after every run.
-/
set_option autoImplicit false
namespace Marshal

open Step

namespace Owner

variable {V : Type} {o o' : Owner V} {l : Shelf}

namespace Shelves

variable {h : Heap} {addr : UInt32} {e : Entry (Object V)}

abbrev scalars (types : List Text) (s : Scalar) : VecForm V :=
  .scalar (declaredType types (vecTypeName s.name)) s

theorem exec_invoke {f : Export V} {symbol : Text} (hFound : o.export? symbol = some f) (args : List Datum) :
    exec (invoke symbol args) o = exec (call f args) o := by
  rw [invoke, exec_bind_ok (exec_get o), hFound]

theorem exec_invoke_none {symbol : Text} (hFound : o.export? symbol = none) (args : List Datum) :
    exec (invoke symbol args) o = (.error .crashed, o) := by
  rw [invoke, exec_bind_ok (exec_get o), hFound]
  rfl

variable {s : Scalar} {xs : List Datum}

theorem exec_invoke_vec (hs : o.Shelves l) (hHosts : o.Hosts s) (op : VecOp) (args : List Datum) :
    vecTypeName s.name ∈ o.types ∧
      exec (invoke (Symbol.ofVec s.name op.name) args) o = exec ((scalars o.types s).call op args) o := by
  obtain ⟨type, hFound⟩ := hHosts op
  obtain ⟨hVec, hSort⟩ := (hs.declared.known _ (mem_of_export? hFound)).vec_inv rfl
  rw [exec_invoke hFound]
  rcases hSort with ⟨s', -, hEq⟩ | ⟨-, hEq⟩
  · cases hEq
    exact ⟨hVec, rfl⟩
  · cases hEq

theorem get?_of_mem (hs : o.Shelves l) (he : e ∈ o.table.store.entries) :
    o.table.store.get? e.addr = some e.value := by
  rw [Store.get?, Store.entry?_of_mem hs.nodup he]
  rfl

theorem get?_turned (hs : o.Shelves l) (ht : o.Turned h o.table.store.entries o') (addr : UInt32) :
    o'.table.store.get? addr = o.table.store.get? addr := by
  rw [Store.get?, Store.get?, Store.entry?_perm hs.nodup ht.table.entries]

theorem lends (hs : o.Shelves l) (hx : l addr = some ⟨s, xs⟩) (kind : BorrowKind)
    (body : Buffer → Step (Owner V) Reply) :
    ∃ e rest buf o₁, (scalars o.types s).Lends o addr kind body e rest buf o₁ ∧ e.addr = addr ∧
      o.table.store.get? addr = some (.vector s buf) ∧ buf.Stores o.table.heap s xs := by
  obtain ⟨e, he, rfl, buf, hValue, hType, hStores⟩ := hs.shown addr _ hx
  have hl : (scalars o.types s : VecForm V).Lawful := VecForm.scalar_lawful ..
  obtain ⟨rest, o₁, hLent⟩ := VecForm.lends_of_mem hl hs.idle he hType hValue kind body
  exact ⟨e, rest, buf, o₁, hLent, rfl, hValue ▸ hs.get?_of_mem he, hStores⟩

theorem exec_absent (hs : o.Shelves l) (hNone : ∀ xs, l addr ≠ some ⟨s, xs⟩) (kind : BorrowKind)
    (body : Buffer → Step (Owner V) Reply) :
    ∃ stop, exec (mustAccess (scalars o.types s : VecForm V).type addr kind (vector? s) body) o =
      (.error stop, o) := by
  have hl : (scalars o.types s : VecForm V).Lawful := VecForm.scalar_lawful ..
  rcases VecForm.exec_lend_cases hl hs.idle addr kind body with
    ⟨stop, hExec, -⟩ | ⟨e, rest, buf, o₁, hLent⟩
  · exact ⟨stop, hExec⟩
  · have he : e ∈ o.table.store.entries := hLent.entries.mem_iff.mpr List.mem_cons_self
    have hAddr : e.addr = addr := by
      rw [← hLent.addr_eq]
      cases kind <;> rfl
    have hValue : e.value = .vector s buf := hLent.value_eq
    rcases hs.cases_of_mem he with ⟨-, ptr, len, hString⟩ | ⟨⟨s', xs⟩, hx, buf', hVector, -⟩
    · cases hValue.symm.trans hString
    · cases hValue.symm.trans hVector
      exact absurd (hAddr ▸ hx) (hNone xs)

theorem exec_look (hs : o.Shelves l) (hx : l addr = some ⟨s, xs⟩) (kind : BorrowKind)
    (body : Buffer → Step (Owner V) Reply) (answer : Buffer → Reply)
    (hBody : ∀ buf (o₁ : Owner V), o₁.table.heap = o.table.heap → buf.Stores o.table.heap s xs →
      exec (body buf) o₁ = (.ok (answer buf), o₁)) :
    ∃ buf o', o.table.store.get? addr = some (.vector s buf) ∧ buf.Stores o.table.heap s xs ∧
      exec (mustAccess (scalars o.types s : VecForm V).type addr kind (vector? s) body) o = (.ok (answer buf), o') ∧
      o.Becomes l o' := by
  obtain ⟨e, rest, buf, o₁, hLent, -, hFound, hStores⟩ := hs.lends hx kind body
  obtain ⟨o', hExec, ht⟩ := hLent.back_same (hBody buf o₁ hLent.turned.table.heap hStores)
  refine ⟨buf, o', hFound, hStores, hExec, hs.unchanged ?_⟩
  exact ⟨⟨ht.table.heap, ht.table.entries.trans hLent.entries.symm, ht.table.closed⟩, ht.types_eq, ht.exports_eq,
    ht.closed_eq⟩

theorem exec_len (hs : o.Shelves l) (hx : l addr = some ⟨s, xs⟩) :
    ∃ n o', exec (ShelfCall.len s addr).perform o = (.ok (.datum (.usize n)), o') ∧ n.toNat = xs.length ∧
      o.Becomes l o' := by
  obtain ⟨buf, o', -, hStores, hExec, hs'⟩ := hs.exec_look hx .shared
    (fun buf => return .datum (.usize buf.len.toUInt64)) (fun buf => .datum (.usize buf.len.toUInt64))
    fun buf o₁ _ _ => rfl
  refine ⟨buf.len.toUInt64, o', ?_, hStores.len_eq, hs'⟩
  exact (hs.exec_invoke_vec (hs.hosted addr ⟨s, xs⟩ hx) .len _).2.trans hExec

theorem exec_asPtr (hs : o.Shelves l) (hx : l addr = some ⟨s, xs⟩) :
    ∃ buf o', o.table.store.get? addr = some (.vector s buf) ∧ buf.Stores o.table.heap s xs ∧
      exec (ShelfCall.asPtr s addr).perform o = (.ok (.datum (.u32 buf.addr)), o') ∧ o.Becomes l o' := by
  obtain ⟨buf, o', hFound, hStores, hExec, hs'⟩ := hs.exec_look hx .shared
    (fun buf => return .datum (.u32 buf.addr)) (fun buf => .datum (.u32 buf.addr)) fun buf o₁ _ _ => rfl
  exact ⟨buf, o', hFound, hStores, (hs.exec_invoke_vec (hs.hosted addr ⟨s, xs⟩ hx) .asPtr _).2.trans hExec, hs'⟩

theorem exec_lookAt_stores {buf : Buffer} (hv : o.table.heap.Valid) (hStores : buf.Stores o.table.heap s xs)
    (types : List Text) (i : UInt64) :
    exec ((scalars types s).lookAt i buf) o = (.ok (.option (.ofOption s xs[i.toNat]?)), o) := by
  rw [VecForm.lookAt]
  split
  · rename_i hLarge
    have hPast : xs[i.toNat]? = none := by
      refine List.getElem?_eq_none ?_
      have hLen := hStores.len_eq
      have hBound := buf.len.toNat_lt
      have hi : 0xFFFFFFFF < i.toNat := hLarge
      omega
    rw [hPast]
    rfl
  · rename_i hSmall
    have hIndex : i.toUInt32.toNat = i.toNat := by
      have hi : i.toNat ≤ 0xFFFFFFFF := Nat.le_of_not_lt hSmall
      rw [UInt64.toNat_toUInt32, Nat.mod_eq_of_lt (by omega)]
    have hGet := Buffer.exec_get?_stores hv hStores i.toUInt32
    rw [hIndex] at hGet
    exact exec_bind_ok (exec_onHeap hGet)

theorem exec_elementAt (hs : o.Shelves l) (hx : l addr = some ⟨s, xs⟩) (i : UInt64) (kind : BorrowKind) :
    ∃ o', exec ((scalars o.types s).elementAt addr i kind) o = (.ok (.option (.ofOption s xs[i.toNat]?)), o') ∧
      o.Becomes l o' := by
  obtain ⟨buf, o', -, -, hExec, hs'⟩ := hs.exec_look hx kind ((scalars o.types s).lookAt i)
    (fun _ => .option (.ofOption s xs[i.toNat]?)) fun buf o₁ hHeap hStores =>
      exec_lookAt_stores (hHeap ▸ hs.valid) (hHeap ▸ hStores) o.types i
  exact ⟨o', hExec, hs'⟩

theorem exec_get (hs : o.Shelves l) (hx : l addr = some ⟨s, xs⟩) (i : UInt64) :
    ∃ o', exec (ShelfCall.get s addr i).perform o = (.ok (.option (.ofOption s xs[i.toNat]?)), o') ∧
      o.Becomes l o' := by
  obtain ⟨o', hExec, hs'⟩ := hs.exec_elementAt hx i .shared
  exact ⟨o', (hs.exec_invoke_vec (hs.hosted addr ⟨s, xs⟩ hx) .get _).2.trans hExec, hs'⟩

theorem exec_getMut (hs : o.Shelves l) (hx : l addr = some ⟨s, xs⟩) (i : UInt64) :
    ∃ o', exec (ShelfCall.getMut s addr i).perform o = (.ok (.option (.ofOption s xs[i.toNat]?)), o') ∧
      o.Becomes l o' := by
  obtain ⟨o', hExec, hs'⟩ := hs.exec_elementAt hx i .exclusive
  exact ⟨o', (hs.exec_invoke_vec (hs.hosted addr ⟨s, xs⟩ hx) .getMut _).2.trans hExec, hs'⟩

theorem exec_push (hs : o.Shelves l) (hx : l addr = some ⟨s, xs⟩) {v : Datum} (hTyped : s.holds v = true) :
    (∃ why o', exec (ShelfCall.push s addr v).perform o = (.error (.trapped why), o') ∧ o.Full s addr ∧
        o.Turned o.table.heap o.table.store.entries o') ∨
      ∃ o', exec (ShelfCall.push s addr v).perform o = (.ok .none, o') ∧
        o.Becomes (l.set addr (some ⟨s, xs ++ [v]⟩)) o' := by
  have hStart : exec (ShelfCall.push s addr v).perform o = exec (mustAccess _ addr .exclusive _
      ((scalars o.types s).pushTo addr v)) o :=
    (hs.exec_invoke_vec (hs.hosted addr ⟨s, xs⟩ hx) .push _).2
  obtain ⟨e, rest, buf, o₁, hLent, rfl, hFound, hStores⟩ := hs.lends hx .exclusive ((scalars o.types s).pushTo addr v)
  have hHeap : o₁.table.heap = o.table.heap := hLent.turned.table.heap
  rcases VecForm.exec_pushTo_cases hLent.valid hLent.nodup hLent.turned.table.entries hLent.fits v with
    ⟨hFull, hStuck, why, hStop⟩ | ⟨buf', h', o₂, hOk, hPushed, ht⟩
  · obtain ⟨o', hExec, ht⟩ := hLent.back_same hStop
    exact .inl ⟨why, o', hStart.trans hExec, ⟨buf, hFound, hFull, hHeap ▸ hStuck⟩,
      ⟨ht.table.heap, ht.table.entries.trans hLent.entries.symm, ht.table.closed⟩, ht.types_eq, ht.exports_eq,
      ht.closed_eq⟩
  · obtain ⟨o', hExec, ht'⟩ := hLent.back _ h' (.vector s buf') o₂ hOk ht
    rw [hHeap] at hPushed
    refine .inr ⟨o', hStart.trans hExec, hs.revalued hx hLent.entries hLent.value_eq ht' hPushed.replaced ?_⟩
    exact hStores.push hTyped hPushed.fits hPushed.words

theorem exec_pop (hs : o.Shelves l) (hx : l addr = some ⟨s, xs⟩) :
    ∃ o', exec (ShelfCall.pop s addr).perform o = (.ok (.option (.ofOption s xs.getLast?)), o') ∧
      o.Becomes (l.set addr (some ⟨s, xs.dropLast⟩)) o' := by
  have hStart : exec (ShelfCall.pop s addr).perform o = exec (mustAccess _ addr .exclusive _
      ((scalars o.types s).popFrom addr)) o :=
    (hs.exec_invoke_vec (hs.hosted addr ⟨s, xs⟩ hx) .pop _).2
  obtain ⟨e, rest, buf, o₁, hLent, rfl, -, hStores⟩ := hs.lends hx .exclusive ((scalars o.types s).popFrom addr)
  obtain ⟨buf', hPop, hStores', hAddr⟩ := Buffer.exec_pop_stores hs.valid hStores
  rw [← hLent.turned.table.heap] at hPop
  obtain ⟨o₂, hSet, ht⟩ := turned_onTable
    (Table.exec_setValue hLent.nodup hLent.turned.table.entries (.vector s buf'))
  obtain ⟨o', hExec, ht'⟩ := hLent.back _ _ (.vector s buf') o₂
    ((exec_bind_ok (exec_onHeap hPop)).trans (exec_bind_ok hSet)) ht
  rw [hLent.turned.table.heap] at ht'
  refine ⟨o', hStart.trans hExec, hs.revalued hx hLent.entries hLent.value_eq ht' ?_ hStores'⟩
  rw [Buffer.blocks, Buffer.blocks, hAddr]
  exact .same hs.valid _

theorem exec_new (hs : o.Shelves l) (hHosts : o.Hosts s) :
    (o.table.heap.Refuses Table.cellSize Table.cellSize ∧
        ∃ why, exec (ShelfCall.new s).perform o = (.error (.trapped why), o)) ∨
      ∃ a o', exec (ShelfCall.new s).perform o = (.ok (.datum (.u32 a)), o') ∧ l a = none ∧
        o.Becomes (l.set a (some ⟨s, []⟩)) o' := by
  obtain ⟨hVec, hStart⟩ := hs.exec_invoke_vec hHosts .new []
  rcases exec_box_turned hs.lodges hVec (.vector s {}) with ⟨hRefuses, r, hBox⟩ | ⟨a, h, o', hBox, hBoxed, ht⟩
  · exact .inl ⟨hRefuses, _, hStart.trans (exec_bind_error (exec_trapRefusal_refused hBox))⟩
  · refine .inr ⟨a, o', hStart.trans (exec_bind_ok (exec_trapRefusal_ok hBox)), ?_⟩
    refine hs.added ht hBoxed.replaced ⟨rfl, rfl⟩ (fun hNone => nomatch hNone) ?_
    rintro x ⟨⟩
    exact ⟨hHosts, {}, rfl, rfl, Buffer.stores_empty h s⟩

theorem exec_free (hs : o.Shelves l) (typeName : Text) (hFree : (o.export? (Symbol.ofType typeName Symbol.free)).isSome)
    (addr : UInt32) :
    (∃ why, exec (ShelfCall.free typeName addr).perform o = (.error (.trapped why), o) ∧
        addr ∉ Entries.addrs o.table.store.entries) ∨
      ∃ o', exec (ShelfCall.free typeName addr).perform o = (.ok .none, o') ∧ o.Becomes (l.set addr none) o' := by
  obtain ⟨f, hFound⟩ := Option.isSome_iff_exists.mp hFree
  obtain ⟨rfl, -⟩ := (hs.declared.known _ (mem_of_export? hFound)).free_inv rfl
  have hStart : exec (ShelfCall.free typeName addr).perform o = exec (drop addr >>= fun _ => pure Reply.none) o :=
    exec_invoke hFound _
  rw [hStart]
  by_cases hMem : addr ∈ Entries.addrs o.table.store.entries
  · obtain ⟨e, he, rfl⟩ := List.mem_map.mp hMem
    obtain ⟨rest, h, o', hDrop, hAt, hr, ht⟩ :=
      exec_drop_turned hs.lodges he (hs.unborrowed e he) (hs.isPlain he)
    exact .inr ⟨o', exec_bind_ok hDrop, hs.removed hAt ht hr⟩
  · rcases exec_drop_absent hMem with ⟨-, hDrop⟩ | ⟨why, hDrop⟩
    · have hNone : l addr = none := by
        refine Option.eq_none_iff_forall_ne_some.mpr fun x hx => ?_
        obtain ⟨e, he, rfl, -⟩ := hs.shown addr x hx
        exact hMem (List.mem_map_of_mem he)
      rw [Shelf.set_same hNone]
      exact .inr ⟨o, exec_bind_ok hDrop, hs.becomes⟩
    · exact .inl ⟨why, exec_bind_error hDrop, hMem⟩

theorem newString (hs : o.Shelves l) (hName : stringType ∈ o.types) (data : List UInt8) :
    o.Becomes l (exec (Owner.newString data) o).2 := by
  rcases exec_newString_turned hs.lodges hName data with
    ⟨why, h, hExec, hr, -⟩ | ⟨a, ptr, h, o', hExec, hStocked, ht⟩
  · rw [hExec]
    refine hs.turned (turned_withHeap o h) (hs.lodges.lodged.gain hr) hs.unborrowed hs.hosted hs.strings
      fun addr x hx => ?_
    obtain ⟨e, he, hAddr, hShows⟩ := hs.shown addr x hx
    exact ⟨e, he, hAddr, hShows.kept (fun c hc _ => hr.kept c hc (by simp)) hs.valid⟩
  · rw [hExec]
    obtain ⟨hNone, hs'⟩ := hs.added (y := none) ht hStocked.replaced ⟨rfl, rfl⟩ (fun _ => ⟨ptr, _, rfl⟩)
      fun x hx => nomatch hx
    rwa [Shelf.set_same hNone] at hs'

/-! ## Runs -/

theorem found_or_stops (hs : o.Shelves l) {c : ShelfCall} (hPermitted : c.Permitted o) :
    (∀ s addr, c.target? = some (s, addr) → ∃ xs, l addr = some ⟨s, xs⟩) ∨
      ∃ stop, exec c.perform o = (.error stop, o) := by
  by_cases hFound : ∀ s addr, c.target? = some (s, addr) → ∃ xs, l addr = some ⟨s, xs⟩
  · exact .inl hFound
  simp only [not_forall] at hFound
  obtain ⟨s, addr, hTarget, hNone⟩ := hFound
  have hAbsent := hs.exec_absent (not_exists.mp hNone)
  refine .inr ?_
  cases c with
  | push s' addr' v =>
    cases hTarget
    obtain ⟨stop, hExec⟩ := hAbsent .exclusive ((scalars o.types s).pushTo addr v)
    exact ⟨stop, (hs.exec_invoke_vec hPermitted.1 .push _).2.trans hExec⟩
  | pop s' addr' =>
    cases hTarget
    obtain ⟨stop, hExec⟩ := hAbsent .exclusive ((scalars o.types s).popFrom addr)
    exact ⟨stop, (hs.exec_invoke_vec hPermitted .pop _).2.trans hExec⟩
  | get s' addr' i =>
    cases hTarget
    obtain ⟨stop, hExec⟩ := hAbsent .shared ((scalars o.types s).lookAt i)
    exact ⟨stop, (hs.exec_invoke_vec hPermitted .get _).2.trans hExec⟩
  | getMut s' addr' i =>
    cases hTarget
    obtain ⟨stop, hExec⟩ := hAbsent .exclusive ((scalars o.types s).lookAt i)
    exact ⟨stop, (hs.exec_invoke_vec hPermitted .getMut _).2.trans hExec⟩
  | len s' addr' =>
    cases hTarget
    obtain ⟨stop, hExec⟩ := hAbsent .shared fun buf => return .datum (.usize buf.len.toUInt64)
    exact ⟨stop, (hs.exec_invoke_vec hPermitted .len _).2.trans hExec⟩
  | asPtr s' addr' =>
    cases hTarget
    obtain ⟨stop, hExec⟩ := hAbsent .shared fun buf => return .datum (.u32 buf.addr)
    exact ⟨stop, (hs.exec_invoke_vec hPermitted .asPtr _).2.trans hExec⟩
  | _ => cases hTarget

theorem step (hs : o.Shelves l) (c : ShelfCall) (hPermitted : c.Permitted o) :
    o.Becomes (l.next c (exec c.perform o).1) (exec c.perform o).2 := by
  have hStops : ∀ {stop : Stop}, exec c.perform o = (.error stop, o) →
      o.Becomes (l.next c (exec c.perform o).1) (exec c.perform o).2 := by
    intro stop hExec
    rw [hExec, Shelf.next_error]
    exact hs.becomes
  rcases hs.found_or_stops hPermitted with hFound | ⟨stop, hExec⟩
  swap
  · exact hStops hExec
  cases c with
  | new s =>
    rcases hs.exec_new hPermitted with ⟨-, why, hExec⟩ | ⟨a, o', hExec, -, hs'⟩
    · exact hStops hExec
    · rw [hExec]
      exact hs'
  | push s addr v =>
    obtain ⟨xs, hx⟩ := hFound s addr rfl
    rcases hs.exec_push hx hPermitted.2 with ⟨why, o', hExec, -, ht⟩ | ⟨o', hExec, hs'⟩
    · rw [hExec, Shelf.next_error]
      exact hs.unchanged ht
    · rw [hExec, Shelf.next, hx]
      exact hs'
  | pop s addr =>
    obtain ⟨xs, hx⟩ := hFound s addr rfl
    obtain ⟨o', hExec, hs'⟩ := hs.exec_pop hx
    rw [hExec, Shelf.next, hx]
    exact hs'
  | get s addr i =>
    obtain ⟨xs, hx⟩ := hFound s addr rfl
    obtain ⟨o', hExec, hs'⟩ := hs.exec_get hx i
    rw [hExec]
    exact hs'
  | getMut s addr i =>
    obtain ⟨xs, hx⟩ := hFound s addr rfl
    obtain ⟨o', hExec, hs'⟩ := hs.exec_getMut hx i
    rw [hExec]
    exact hs'
  | len s addr =>
    obtain ⟨xs, hx⟩ := hFound s addr rfl
    obtain ⟨n, o', hExec, -, hs'⟩ := hs.exec_len hx
    rw [hExec]
    exact hs'
  | asPtr s addr =>
    obtain ⟨xs, hx⟩ := hFound s addr rfl
    obtain ⟨buf, o', -, -, hExec, hs'⟩ := hs.exec_asPtr hx
    rw [hExec]
    exact hs'
  | free typeName addr =>
    cases hSymbol : o.export? (Symbol.ofType typeName Symbol.free) with
    | none => exact hStops (exec_invoke_none hSymbol _)
    | some f =>
      rcases hs.exec_free typeName (by rw [hSymbol]; rfl) addr with ⟨why, hExec, -⟩ | ⟨o', hExec, hs'⟩
      · exact hStops hExec
      · rw [hExec]
        exact hs'
  | newString =>
    cases hSymbol : o.export? (Symbol.ofType stringType "new") with
    | none => exact hStops (exec_invoke_none hSymbol _)
    | some f =>
      obtain ⟨hName, type, rfl⟩ := Known.string_inv (stringType, "new", .new) (by decide)
        (hs.declared.known _ (mem_of_export? hSymbol)) rfl
      have hExec : exec ShelfCall.newString.perform o = _ := (exec_invoke hSymbol _).trans (exec_bind_pure ..)
      rw [hExec]
      exact hs.newString hName []
  | newText start length =>
    cases hSymbol : o.export? (Symbol.ofType stringType "new_with_str") with
    | none => exact hStops (exec_invoke_none hSymbol _)
    | some f =>
      obtain ⟨hName, type, rfl⟩ := Known.string_inv (stringType, "new_with_str", .newWithStr) (by decide)
        (hs.declared.known _ (mem_of_export? hSymbol)) rfl
      have hStart : exec (ShelfCall.newText start length).perform o = exec (viewText ⟨start, length⟩ >>= fun text =>
          Owner.newString text >>= fun addr => pure (.datum (.u32 addr))) o := exec_invoke hSymbol _
      rcases exec_viewText ⟨start, length⟩ o with ⟨why, hView⟩ | ⟨text, hView⟩
      · exact hStops (hStart.trans (exec_bind_error hView))
      · rw [hStart, exec_bind_ok hView, exec_bind_pure]
        exact hs.newString hName text
  | heap use =>
    have hExec : exec (ShelfCall.heap use).perform o = _ := exec_bind_pure ..
    have hUse : exec (onHeap use.perform) o = (_, o.withHeap (exec use.perform o.table.heap).2) := exec_onHeap rfl
    rw [hExec, hUse]
    exact hs.used use hPermitted

theorem vector_of_get? (hs : o.Shelves l) {buf : Buffer} (hFound : o.table.store.get? addr = some (.vector s buf)) :
    ∃ xs, l addr = some ⟨s, xs⟩ ∧ buf.Stores o.table.heap s xs := by
  obtain ⟨e, hEntry, hValue⟩ := Option.map_eq_some_iff.mp hFound
  obtain ⟨he, rfl⟩ := Store.entry?_eq_some hEntry
  rcases hs.cases_of_mem he with ⟨-, ptr, len, hString⟩ | ⟨⟨s', xs⟩, hx, buf', hVector, -, hStores⟩
  · cases hString.symm.trans hValue
  · cases hVector.symm.trans hValue
    exact ⟨xs, hx, hStores⟩

theorem free_isSome (hs : o.Shelves l) (hHosts : o.Hosts s) :
    (o.export? (Symbol.ofType (vecTypeName s.name) Symbol.free)).isSome := by
  obtain ⟨type, hFound⟩ := hHosts .new
  obtain ⟨⟨d, hFree⟩, -⟩ := hs.declared.uniform _ (mem_of_export? hFound) (s.name, false) rfl
  refine Option.isSome_iff_ne_none.mpr fun hNone => ?_
  exact not_mem_of_export? hNone d hFree

end Shelves

/-- The vectors are the lists of the shelf: what each call on them answers, and where their elements are. -/
structure Refines (o : Owner V) (l : Shelf) : Prop where
  /-- The vectors are those on the shelf. -/
  vectors : ∀ addr s, (∃ xs, l addr = some ⟨s, xs⟩) ↔ ∃ buf, o.table.store.get? addr = some (.vector s buf)
  /-- A vector has as many elements as its list, and its buffer is null or a live block of exactly its capacity. -/
  sizes : ∀ addr s xs buf, l addr = some ⟨s, xs⟩ → o.table.store.get? addr = some (.vector s buf) →
    buf.len.toNat = xs.length ∧ buf.len ≤ buf.cap ∧ buf.Sized o.table.heap s ∧ buf.Exact s
  /-- A new vector has an address of its own. It can be had unless the heap has no room for a cell. -/
  new : ∀ s, o.Hosts s →
    (∃ addr o', exec (ShelfCall.new s).perform o = (.ok (.datum (.u32 addr)), o') ∧ l addr = none) ∨
      o.table.heap.Refuses Table.cellSize Table.cellSize ∧
        ∃ why, exec (ShelfCall.new s).perform o = (.error (.trapped why), o)
  /-- A push returns unless the buffer is full and cannot grow; then it leaves everything as it was. -/
  push : ∀ addr s xs v, l addr = some ⟨s, xs⟩ → s.holds v = true →
    (∃ o', exec (ShelfCall.push s addr v).perform o = (.ok .none, o')) ∨
      ∃ why o', exec (ShelfCall.push s addr v).perform o = (.error (.trapped why), o') ∧ o.Full s addr ∧
        o'.table.heap = o.table.heap ∧ ∀ a, o'.table.store.get? a = o.table.store.get? a
  pop : ∀ addr s xs, l addr = some ⟨s, xs⟩ →
    ∃ o', exec (ShelfCall.pop s addr).perform o = (.ok (.option (.ofOption s xs.getLast?)), o')
  get : ∀ addr s xs (i : UInt64), l addr = some ⟨s, xs⟩ →
    ∃ o', exec (ShelfCall.get s addr i).perform o = (.ok (.option (.ofOption s xs[i.toNat]?)), o')
  getMut : ∀ addr s xs (i : UInt64), l addr = some ⟨s, xs⟩ →
    ∃ o', exec (ShelfCall.getMut s addr i).perform o = (.ok (.option (.ofOption s xs[i.toNat]?)), o')
  len : ∀ addr s xs, l addr = some ⟨s, xs⟩ →
    ∃ n o', exec (ShelfCall.len s addr).perform o = (.ok (.datum (.usize n)), o') ∧ n.toNat = xs.length
  /-- Element `i` lies `i` elements behind the pointer, the lowest byte first. -/
  asPtr : ∀ addr s xs, l addr = some ⟨s, xs⟩ →
    ∃ (p : UInt32) (o' : Owner V), exec (ShelfCall.asPtr s addr).perform o = (.ok (.datum (.u32 p)), o') ∧
      ∀ i v, xs[i]? = some v → o.table.heap.memory.slice (p.toNat + i * s.width) s.width = s.bytes v
  free : ∀ addr s xs, l addr = some ⟨s, xs⟩ →
    ∃ o', exec (ShelfCall.free (vecTypeName s.name) addr).perform o = (.ok .none, o')

theorem Shelves.refines (hs : o.Shelves l) : o.Refines l where
  vectors addr s := by
    constructor
    · rintro ⟨xs, hx⟩
      obtain ⟨buf, -, hFound, -⟩ := hs.exec_asPtr hx
      exact ⟨buf, hFound⟩
    · rintro ⟨buf, hFound⟩
      obtain ⟨xs, hx, -⟩ := hs.vector_of_get? hFound
      exact ⟨xs, hx⟩
  sizes addr s xs buf hx hFound := by
    obtain ⟨xs', hx', hStores⟩ := hs.vector_of_get? hFound
    cases hx.symm.trans hx'
    exact ⟨hStores.len_eq, hStores.fits.len_le, hStores.fits.sized hs.valid, hStores.fits.exact hs.valid⟩
  new s hHosts := by
    rcases hs.exec_new hHosts with ⟨hRefuses, why, hExec⟩ | ⟨a, o', hExec, hNone, -⟩
    · exact .inr ⟨hRefuses, why, hExec⟩
    · exact .inl ⟨a, o', hExec, hNone⟩
  push addr s xs v hx hTyped := by
    rcases hs.exec_push hx hTyped with ⟨why, o', hExec, hFull, ht⟩ | ⟨o', hExec, -⟩
    · exact .inr ⟨why, o', hExec, hFull, ht.table.heap, hs.get?_turned ht⟩
    · exact .inl ⟨o', hExec⟩
  pop addr s xs hx := by
    obtain ⟨o', hExec, -⟩ := hs.exec_pop hx
    exact ⟨o', hExec⟩
  get addr s xs i hx := by
    obtain ⟨o', hExec, -⟩ := hs.exec_get hx i
    exact ⟨o', hExec⟩
  getMut addr s xs i hx := by
    obtain ⟨o', hExec, -⟩ := hs.exec_getMut hx i
    exact ⟨o', hExec⟩
  len addr s xs hx := by
    obtain ⟨n, o', hExec, hLen, -⟩ := hs.exec_len hx
    exact ⟨n, o', hExec, hLen⟩
  asPtr addr s xs hx := by
    obtain ⟨buf, o', -, hStores, hExec, -⟩ := hs.exec_asPtr hx
    exact ⟨buf.addr, o', hExec, fun i v hi => hStores.slice_eq hi⟩
  free addr s xs hx := by
    rcases hs.exec_free _ (hs.free_isSome (hs.hosted addr ⟨s, xs⟩ hx)) addr with ⟨why, -, hAbsent⟩ | ⟨o', hExec, -⟩
    · obtain ⟨e, he, rfl, -⟩ := hs.shown addr _ hx
      exact absurd (List.mem_map_of_mem he) hAbsent
    · exact ⟨o', hExec⟩

theorem shelves_register {config : Config} (hCreate : create config = .ok o)
    (hLimit : o.table.heap.memory.maxPages ≤ 65535) (rs : List Registration) :
    (o.register rs).Shelves fun _ => none := by
  obtain ⟨hd, hOpen, m, hValid, hFresh⟩ := register_fresh hCreate hLimit rs
  refine ⟨hd, ⟨⟨hOpen, by rw [hFresh], by rw [hFresh]⟩, ?_⟩, ?_, ?_, ?_, ?_⟩
  · rw [hFresh]
    exact ⟨hValid, [], .refl _⟩
  all_goals simp [hFresh]

end Owner

theorem ShelfRun.becomes {V : Type} {o o' : Owner V} {trace : List (ShelfCall × Except Stop Reply)}
    (hRun : ShelfRun o trace o') (hs : o.Shelves fun _ => none) : o.Becomes (Shelf.after trace) o' := by
  induction hRun with
  | nil => exact hs.becomes
  | cons c _ hPermitted ih => exact ih.trans (ih.shelves.step c hPermitted)

end Marshal
