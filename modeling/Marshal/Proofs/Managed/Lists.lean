import Mathlib.Logic.Function.Iterate
import Marshal.Proofs.Managed.Bound
import Marshal.Proofs.Owner.ShelfCalls

/-! # Vectors of the managed side as lists

The managed side works on a vector through the functions of its witness, so each of its operations is a call or a
sequence of calls, and what those do to the shelf is known. Reading all values gives the list and changes nothing;
so it gives the list again. Collecting gives it backwards and leaves the vector empty.
-/
set_option autoImplicit false
namespace Marshal

open Step

/-- The functions of the witness are those published for vectors of the element type. -/
structure Witness.Serves {V : Type} (w : Witness V) (o : Owner V) (elem : Scalar) : Prop where
  hosts : o.Hosts elem
  new : o.export? (Symbol.ofVec elem.name VecOp.new.name) = some w.new
  push : o.export? (Symbol.ofVec elem.name VecOp.push.name) = some w.push
  pop : o.export? (Symbol.ofVec elem.name VecOp.pop.name) = some w.pop
  get : o.export? (Symbol.ofVec elem.name VecOp.get.name) = some w.get

theorem Witness.Serves.becomes {V : Type} {w : Witness V} {o o' : Owner V} {elem : Scalar} {l : Shelf}
    (hw : w.Serves o elem) (hb : o.Becomes l o') : w.Serves o' elem := by
  obtain ⟨hHosts, hNew, hPush, hPop, hGet⟩ := hw
  refine ⟨hb.hosts hHosts, ?_, ?_, ?_, ?_⟩ <;> rwa [hb.export?_eq]

theorem OptionAggregate.toOption_ofOption (s : Scalar) (v : Option Datum) : (ofOption s v).toOption = v := by
  cases v <;> rfl

namespace Session

variable {V : Type} {s : Session V} {l : Shelf} {elem : Scalar} {w : Witness V} {v : OwnedVec V} {xs : List Datum}

theorem exec_ofScalar (hs : s.owner.Shelves l) (hHosts : s.owner.Hosts elem) :
    ∃ w : Witness V, exec (Witness.ofScalar elem) s = (.ok w, s) ∧ w.Serves s.owner elem := by
  obtain ⟨d, hFree⟩ := Option.isSome_iff_exists.mp (hs.free_isSome hHosts)
  obtain ⟨rfl, -⟩ := (hs.declared.known _ (Owner.mem_of_export? hFree)).free_inv rfl
  choose type hFound using id hHosts
  let f := fun op : VecOp => (.vec (type op) elem op : Export V)
  have hAll : Resolves s.symbols (Witness.wants elem.name (.scalar elem) (.option elem))
      [f .new, .destructor, f .len, f .push, f .pop, f .get, f .getMut, f .asPtr] :=
    .cons ⟨hFound .new, rfl⟩ <| .cons ⟨hFree, rfl⟩ <| .cons ⟨hFound .len, rfl⟩ <| .cons ⟨hFound .push, rfl⟩ <|
      .cons ⟨hFound .pop, rfl⟩ <| .cons ⟨hFound .get, rfl⟩ <| .cons ⟨hFound .getMut, rfl⟩ <|
        .cons ⟨hFound .asPtr, rfl⟩ .nil
  exact ⟨⟨elem.name, .scalar elem, f .new, .destructor, f .len, f .push, f .pop, f .get, f .getMut, f .asPtr⟩,
    exec_bind_ok (exec_resolveAll hAll), hHosts, hFound .new, hFound .push, hFound .pop, hFound .get⟩

theorem exec_call {symbol : Text} {f : Export V} {args : List Datum} {r : Except Stop Reply} {o : Owner V}
    (hFound : s.owner.export? symbol = some f) (hExec : exec (Owner.invoke symbol args) s.owner = (r, o)) :
    exec (call f args) s = (r, { s with owner := o }) :=
  exec_onOwner ((Owner.Shelves.exec_invoke hFound args).symm.trans hExec)

theorem exec_requireMutable (hMode : v.handle.mode ≠ .borrowed) (op : Text) :
    exec (v.requireMutable op) s = (.ok (), s) := by
  rw [OwnedVec.requireMutable, if_neg hMode]
  rfl

theorem exec_liftReply (form : ElementForm V) (mode : Mode) (x : Option Datum) :
    exec (form.liftReply mode (.option (.ofOption elem x))) s = (.ok (x.map .datum), s) := by
  rw [ElementForm.liftReply, OptionAggregate.toOption_ofOption]
  rfl

theorem exec_create (hw : w.Serves s.owner elem) (hs : s.owner.Shelves l) :
    (s.owner.table.heap.Refuses Table.cellSize Table.cellSize ∧
        ∃ why, exec (OwnedVec.create w) s = (.error (.trapped why), s)) ∨
      ∃ v s', exec (OwnedVec.create w) s = (.ok v, s') ∧ v.witness = w ∧ v.handle.mode = .owned ∧ l v.addr = none ∧
        s.owner.Becomes (l.set v.addr (some ⟨elem, []⟩)) s'.owner := by
  rcases hs.exec_new hw.hosts with ⟨hRefuses, why, hExec⟩ | ⟨a, o', hExec, hNone, hb⟩
  · exact .inl ⟨hRefuses, why, exec_bind_error (exec_bind_error (exec_call hw.new hExec))⟩
  · let lifted := Handle.lift w.typeName a .owned (some w.free) s.tokens
    refine .inr ⟨⟨w, lifted.1⟩, { s with owner := o', tokens := lifted.2 }, ?_, rfl, rfl, hNone, hb⟩
    rw [OwnedVec.create, callAddress, exec_bind, exec_bind_ok (exec_call hw.new hExec)]
    rfl

theorem exec_push (hw : v.witness.Serves s.owner elem) (hs : s.owner.Shelves l) (hMode : v.handle.mode ≠ .borrowed)
    (hx : l v.addr = some ⟨elem, xs⟩) {d : Datum} (hTyped : elem.holds d = true) :
    (∃ why s', exec (v.push (.datum d)) s = (.error (.trapped why), s') ∧ s'.owner.Full elem v.addr ∧
        s.owner.Becomes l s'.owner) ∨
      ∃ s', exec (v.push (.datum d)) s = (.ok (), s') ∧
        s.owner.Becomes (l.set v.addr (some ⟨elem, xs ++ [d]⟩)) s'.owner := by
  have hStart : exec (v.push (.datum d)) s =
      exec (call v.witness.push [.u32 v.addr, d] >>= fun _ => pure ()) s :=
    exec_bind_ok (exec_requireMutable hMode _)
  rw [hStart]
  rcases hs.exec_push hx hTyped with ⟨why, o', hExec, ⟨buf, hFound, hFull, hStuck⟩, ht⟩ | ⟨o', hExec, hb⟩
  · refine .inl ⟨why, _, exec_bind_error (exec_call hw.push hExec), ⟨buf, ?_, hFull, ?_⟩, hs.unchanged ht⟩
    · exact (hs.get?_turned ht v.addr).trans hFound
    · exact ht.table.heap.symm ▸ hStuck
  · exact .inr ⟨_, exec_bind_ok (exec_call hw.push hExec), hb⟩

theorem exec_pop (hw : v.witness.Serves s.owner elem) (hs : s.owner.Shelves l) (hMode : v.handle.mode ≠ .borrowed)
    (hx : l v.addr = some ⟨elem, xs⟩) :
    ∃ s', exec v.pop s = (.ok (xs.getLast?.map .datum), s') ∧
      s.owner.Becomes (l.set v.addr (some ⟨elem, xs.dropLast⟩)) s'.owner := by
  obtain ⟨o', hExec, hb⟩ := hs.exec_pop hx
  refine ⟨{ s with owner := o' }, ?_, hb⟩
  rw [OwnedVec.pop, exec_bind_ok (exec_requireMutable hMode _), exec_bind_ok (exec_call hw.pop hExec)]
  exact exec_liftReply _ .owned _

theorem exec_get_listed (hw : v.witness.Serves s.owner elem) (hs : s.owner.Shelves l) (hx : l v.addr = some ⟨elem, xs⟩)
    (i : UInt64) :
    ∃ s', exec (v.get i) s = (.ok (xs[i.toNat]?.map .datum), s') ∧ s.owner.Becomes l s'.owner := by
  obtain ⟨o', hExec, hb⟩ := hs.exec_get hx i
  refine ⟨{ s with owner := o' }, ?_, hb⟩
  rw [OwnedVec.get, exec_bind_ok (exec_call hw.get hExec)]
  exact exec_liftReply _ .borrowed _

theorem exec_bound_listed (hs : s.owner.Shelves l) (hx : l v.addr = some ⟨elem, xs⟩) :
    exec v.bound s = (.ok xs.length, s) ∧ xs.length < 2 ^ 32 := by
  obtain ⟨buf, -, hFound, hStores, -⟩ := hs.exec_asPtr hx
  rw [← hStores.len_eq]
  refine ⟨?_, buf.len.toNat_lt⟩
  rw [OwnedVec.bound, exec_bind_ok (exec_get s), hFound]
  rfl

theorem exec_valuesFrom (hw : v.witness.Serves s.owner elem) (hs : s.owner.Shelves l) (hx : l v.addr = some ⟨elem, xs⟩)
    (count : Nat) (i : UInt64) :
    ∃ s', exec (v.valuesFrom i count) s = (.ok (((xs.drop i.toNat).take count).map .datum), s') ∧
      s.owner.Becomes l s'.owner := by
  induction count generalizing s i with
  | zero => exact ⟨s, rfl, hs.becomes⟩
  | succ count ih =>
    obtain ⟨s₁, hGet, hb⟩ := exec_get_listed hw hs hx i
    rw [OwnedVec.valuesFrom, exec_bind_ok hGet]
    rcases Nat.lt_or_ge i.toNat xs.length with hi | hi
    · have hNext : (i + 1).toNat = i.toNat + 1 := by
        have hLength := (exec_bound_listed hs hx).2
        rw [UInt64.toNat_add, show (1 : UInt64).toNat = 1 from rfl, Nat.mod_eq_of_lt (by omega)]
      obtain ⟨s', hRest, hb'⟩ := ih (hw.becomes hb) hb.shelves (i + 1)
      refine ⟨s', ?_, hb.trans hb'⟩
      rw [List.getElem?_eq_getElem hi, List.drop_eq_getElem_cons hi, ← hNext]
      exact exec_bind_ok hRest
    · rw [List.getElem?_eq_none hi, List.drop_of_length_le hi, List.take_nil]
      exact ⟨s₁, rfl, hb⟩

theorem exec_values (hw : v.witness.Serves s.owner elem) (hs : s.owner.Shelves l) (hx : l v.addr = some ⟨elem, xs⟩)
    (limit : Option Nat) :
    ∃ s', exec (v.values limit) s = (.ok ((limit.elim xs xs.take).map .datum), s') ∧ s.owner.Becomes l s'.owner := by
  obtain ⟨hBound, -⟩ := exec_bound_listed hs hx
  rw [OwnedVec.values, exec_bind_ok hBound]
  cases limit with
  | none =>
    obtain ⟨s', hExec, hb⟩ := exec_valuesFrom hw hs hx (xs.length + 1) 0
    refine ⟨s', hExec.trans ?_, hb⟩
    rw [show (0 : UInt64).toNat = 0 from rfl, List.drop_zero, List.take_of_length_le (Nat.le_succ _)]
    rfl
  | some n =>
    obtain ⟨s', hExec, hb⟩ := exec_valuesFrom hw hs hx (min n (xs.length + 1)) 0
    refine ⟨s', hExec.trans ?_, hb⟩
    have hTake : xs.take (min n (xs.length + 1)) = xs.take n := List.take_eq_take_iff.mpr (by omega)
    rw [show (0 : UInt64).toNat = 0 from rfl, List.drop_zero, hTake]
    rfl

def reread (s : Session V) (v : OwnedVec V) (limit : Option Nat) (times : Nat) : Session V :=
  (fun s => (exec (v.values limit) s).2)^[times] s

theorem reread_becomes (hw : v.witness.Serves s.owner elem) (hs : s.owner.Shelves l)
    (hx : l v.addr = some ⟨elem, xs⟩) (limit : Option Nat) (times : Nat) :
    s.owner.Becomes l (s.reread v limit times).owner := by
  induction times with
  | zero => exact hs.becomes
  | succ times ih =>
    obtain ⟨s', hExec, hb⟩ := exec_values (hw.becomes ih) ih.shelves hx limit
    rw [reread, Function.iterate_succ_apply', ← reread, hExec]
    exact ih.trans hb

theorem exec_popAll (hw : v.witness.Serves s.owner elem) (hs : s.owner.Shelves l) (hMode : v.handle.mode ≠ .borrowed)
    (hx : l v.addr = some ⟨elem, xs⟩) (count : Nat) (hCount : xs.length < count) :
    ∃ s', exec (v.popAll count) s = (.ok (xs.reverse.map .datum), s') ∧
      s.owner.Becomes (l.set v.addr (some ⟨elem, []⟩)) s'.owner := by
  induction count generalizing s l xs with
  | zero => exact absurd hCount (Nat.not_lt_zero _)
  | succ count ih =>
    obtain ⟨s₁, hPop, hb⟩ := exec_pop hw hs hMode hx
    rw [OwnedVec.popAll, exec_bind_ok hPop]
    rcases List.eq_nil_or_concat' xs with rfl | ⟨ys, y, rfl⟩
    · exact ⟨s₁, rfl, hb⟩
    · rw [List.dropLast_concat] at hb
      obtain ⟨s', hRest, hb'⟩ := ih (hw.becomes hb) hb.shelves (Shelf.set_self ..) (by simpa using hCount)
      rw [Shelf.set_set] at hb'
      refine ⟨s', ?_, hb.trans hb'⟩
      rw [List.getLast?_concat, List.reverse_concat]
      exact exec_bind_ok hRest

theorem exec_collect (hw : v.witness.Serves s.owner elem) (hs : s.owner.Shelves l) (hMode : v.handle.mode ≠ .borrowed)
    (hx : l v.addr = some ⟨elem, xs⟩) :
    ∃ s', exec v.collect s = (.ok (xs.reverse.map .datum), s') ∧
      s.owner.Becomes (l.set v.addr (some ⟨elem, []⟩)) s'.owner := by
  rw [OwnedVec.collect, exec_bind_ok (exec_bound_listed hs hx).1]
  exact exec_popAll hw hs hMode hx _ (Nat.lt_succ_self _)

theorem exec_pushAll (hw : v.witness.Serves s.owner elem) (hs : s.owner.Shelves l) (hMode : v.handle.mode ≠ .borrowed)
    (hx : l v.addr = some ⟨elem, xs⟩) (ys : List Datum) (hTyped : ∀ y ∈ ys, elem.holds y = true) :
    (∃ why s' zs, exec (v.pushAll (ys.map .datum)) s = (.error (.trapped why), s') ∧ s'.owner.Full elem v.addr ∧
        s.owner.Becomes (l.set v.addr (some ⟨elem, xs ++ zs⟩)) s'.owner) ∨
      ∃ s', exec (v.pushAll (ys.map .datum)) s = (.ok (), s') ∧
        s.owner.Becomes (l.set v.addr (some ⟨elem, xs ++ ys⟩)) s'.owner := by
  induction ys generalizing s l xs with
  | nil =>
    refine .inr ⟨s, rfl, ?_⟩
    rw [List.append_nil, Shelf.set_same hx]
    exact hs.becomes
  | cons y ys ih =>
    rcases exec_push hw hs hMode hx (hTyped y List.mem_cons_self) with ⟨why, s', hExec, hFull, hb⟩ | ⟨s₁, hExec, hb⟩
    · refine .inl ⟨why, s', [], exec_bind_error hExec, hFull, ?_⟩
      rwa [List.append_nil, Shelf.set_same hx]
    · have hRest := ih (hw.becomes hb) hb.shelves (Shelf.set_self ..) fun z hz => hTyped z (List.mem_cons_of_mem y hz)
      simp only [Shelf.set_set, List.append_assoc, List.singleton_append] at hRest
      rcases hRest with ⟨why, s', zs, hStop, hFull, hb'⟩ | ⟨s', hOk, hb'⟩
      · exact .inl ⟨why, s', y :: zs, (exec_bind_ok hExec).trans hStop, hFull, hb.trans hb'⟩
      · exact .inr ⟨s', (exec_bind_ok hExec).trans hOk, hb.trans hb'⟩

/-- The operations on vectors through the witness are those on the lists of the shelf. -/
structure Lists (s : Session V) (l : Shelf) (elem : Scalar) (w : Witness V) : Prop where
  owner : s.owner.Refines l
  get : ∀ (v : OwnedVec V) xs (i : UInt64), v.witness = w → l v.addr = some ⟨elem, xs⟩ →
    ∃ s', exec (v.get i) s = (.ok (xs[i.toNat]?.map .datum), s') ∧ s'.owner.Refines l
  push : ∀ (v : OwnedVec V) xs d, v.witness = w → v.handle.mode ≠ .borrowed → l v.addr = some ⟨elem, xs⟩ →
    elem.holds d = true →
    (∃ s', exec (v.push (.datum d)) s = (.ok (), s') ∧ s'.owner.Refines (l.set v.addr (some ⟨elem, xs ++ [d]⟩))) ∨
      ∃ why s', exec (v.push (.datum d)) s = (.error (.trapped why), s') ∧ s'.owner.Full elem v.addr ∧
        s'.owner.Refines l
  pop : ∀ (v : OwnedVec V) xs, v.witness = w → v.handle.mode ≠ .borrowed → l v.addr = some ⟨elem, xs⟩ →
    ∃ s', exec v.pop s = (.ok (xs.getLast?.map .datum), s') ∧
      s'.owner.Refines (l.set v.addr (some ⟨elem, xs.dropLast⟩))
  /-- Reading the values gives them in order, however often they have been read before. -/
  values : ∀ (v : OwnedVec V) xs limit times, v.witness = w → l v.addr = some ⟨elem, xs⟩ →
    ∃ s', exec (v.values limit) (s.reread v limit times) = (.ok ((limit.elim xs xs.take).map .datum), s') ∧
      s'.owner.Refines l
  /-- Collecting gives the last element first and leaves the vector empty. -/
  collect : ∀ (v : OwnedVec V) xs, v.witness = w → v.handle.mode ≠ .borrowed → l v.addr = some ⟨elem, xs⟩ →
    ∃ s', exec v.collect s = (.ok (xs.reverse.map .datum), s') ∧ s'.owner.Refines (l.set v.addr (some ⟨elem, []⟩))

/-- A vector can be made of any list that there is room for, and the others stay as they are. -/
def Builds (s : Session V) (l : Shelf) (elem : Scalar) (w : Witness V) : Prop :=
  ∀ xs, (∀ x ∈ xs, elem.holds x = true) →
    (∃ v s', exec (OwnedVec.ofList w (xs.map .datum)) s = (.ok v, s') ∧ v.witness = w ∧ v.handle.mode = .owned ∧
        l v.addr = none ∧ s'.Lists (l.set v.addr (some ⟨elem, xs⟩)) elem w) ∨
      ∃ why s' l', exec (OwnedVec.ofList w (xs.map .datum)) s = (.error (.trapped why), s') ∧
        (s'.owner.table.heap.Refuses Table.cellSize Table.cellSize ∨ ∃ addr, l addr = none ∧ s'.owner.Full elem addr) ∧
        s'.owner.Refines l' ∧ ∀ addr x, l addr = some x → l' addr = some x

theorem lists_of_serves (hw : w.Serves s.owner elem) (hs : s.owner.Shelves l) : s.Lists l elem w where
  owner := hs.refines
  get v xs i := by
    rintro rfl hx
    obtain ⟨s', hExec, hb⟩ := exec_get_listed hw hs hx i
    exact ⟨s', hExec, hb.shelves.refines⟩
  push v xs d := by
    rintro rfl hMode hx hTyped
    rcases exec_push hw hs hMode hx hTyped with ⟨why, s', hExec, hFull, hb⟩ | ⟨s', hExec, hb⟩
    · exact .inr ⟨why, s', hExec, hFull, hb.shelves.refines⟩
    · exact .inl ⟨s', hExec, hb.shelves.refines⟩
  pop v xs := by
    rintro rfl hMode hx
    obtain ⟨s', hExec, hb⟩ := exec_pop hw hs hMode hx
    exact ⟨s', hExec, hb.shelves.refines⟩
  values v xs limit times := by
    rintro rfl hx
    have hb := reread_becomes hw hs hx limit times
    obtain ⟨s', hExec, hb'⟩ := exec_values (hw.becomes hb) hb.shelves hx limit
    exact ⟨s', hExec, hb'.shelves.refines⟩
  collect v xs := by
    rintro rfl hMode hx
    obtain ⟨s', hExec, hb⟩ := exec_collect hw hs hMode hx
    exact ⟨s', hExec, hb.shelves.refines⟩

theorem builds_of_serves (hw : w.Serves s.owner elem) (hs : s.owner.Shelves l) : s.Builds l elem w := by
  intro xs hTyped
  rcases exec_create hw hs with ⟨hRefuses, why, hExec⟩ | ⟨v, s₁, hExec, rfl, hMode, hNone, hb⟩
  · exact .inr ⟨why, s, l, exec_bind_error hExec, .inl hRefuses, hs.refines, fun _ _ hx => hx⟩
  rw [OwnedVec.ofList, exec_bind_ok hExec]
  have hPush := exec_pushAll (hw.becomes hb) hb.shelves (by simp [hMode]) (Shelf.set_self ..) xs hTyped
  simp only [Shelf.set_set, List.nil_append] at hPush
  rcases hPush with ⟨why, s', zs, hStop, hFull, hb'⟩ | ⟨s', hOk, hb'⟩
  · refine .inr ⟨why, s', _, exec_bind_error hStop, .inr ⟨v.addr, hNone, hFull⟩, hb'.shelves.refines, ?_⟩
    intro addr x hx
    have hNe : addr ≠ v.addr := by
      rintro rfl
      cases hNone.symm.trans hx
    rw [Shelf.set_of_ne _ _ hNe, hx]
  · exact .inl ⟨v, s', exec_bind_ok hOk, rfl, hMode, hNone,
      lists_of_serves (hw.becomes (hb.trans hb')) hb'.shelves⟩

end Session

/-- After every run of calls on a new owner its vectors are the lists that the calls make of them, and so they are
for a managed side that binds them. -/
theorem ShelfRun.behaves_as_lists {V : Type} (config : Config) {o o' : Owner V} (hCreate : Owner.create config = .ok o)
    (hLimit : o.table.heap.memory.maxPages ≤ 65535) (rs : List Owner.Registration)
    {trace : List (ShelfCall × Except Stop Reply)} (hRun : ShelfRun (o.register rs) trace o') :
    o'.Refines (Shelf.after trace) ∧ ∀ (s : Session V) (elem : Scalar), s.owner = o' → o'.Hosts elem →
      ∃ w : Witness V, exec (Witness.ofScalar elem) s = (.ok w, s) ∧ s.Lists (Shelf.after trace) elem w ∧
        s.Builds (Shelf.after trace) elem w := by
  have hs := (hRun.becomes (Owner.shelves_register hCreate hLimit rs)).shelves
  refine ⟨hs.refines, ?_⟩
  rintro s elem rfl hHosts
  obtain ⟨w, hExec, hw⟩ := Session.exec_ofScalar hs hHosts
  exact ⟨w, hExec, Session.lists_of_serves hw hs, Session.builds_of_serves hw hs⟩

/-- A vector of numbers grows past four elements into the place of a block that somebody else has freed, and a string
takes the place of its first buffer for a while. Another vector stays empty. -/
theorem ShelfRun.behaves_as_lists_moved :
    let rs : List Owner.Registration := [.scalars .u16, .scalars .bool, .strings]
    ∃ (o o' : Owner Nat) (trace : List (ShelfCall × Except Stop Reply)), Owner.create {} = .ok o ∧
      o.table.heap.memory.maxPages ≤ 65535 ∧ ShelfRun (o.register rs) trace o' ∧ o'.Hosts .u16 ∧
      (o'.table.heap.live.map Block.addr = [16, 48, 32] ∧
        (Shelf.after trace 32).map (fun x => x.items.map x.elem.toWord?) =
          some [some 1, some 2, some 3, some 4, some 258] ∧
        (Shelf.after trace 48).map (fun x => x.items.length) = some 0) ∧
      (o'.Refines (Shelf.after trace) ∧ ∀ (s : Session Nat) (elem : Scalar), s.owner = o' → o'.Hosts elem →
        ∃ w : Witness Nat, exec (Witness.ofScalar elem) s = (.ok w, s) ∧ s.Lists (Shelf.after trace) elem w ∧
          s.Builds (Shelf.after trace) elem w) := by
  intro rs
  have hStart : ∀ {o : Owner Nat}, Owner.create {} = .ok o → o.table.heap.memory.maxPages ≤ 65535 ∧
      (o.register rs).Hosts .u16 ∧ (o.register rs).Hosts .bool := by
    rintro o ⟨⟩
    refine ⟨by decide +kernel, ?_, ?_⟩ <;> intro op <;> cases op <;> exact ⟨_, rfl⟩
  have hHosts : ∀ {o o' : Owner Nat} {trace}, Owner.create {} = .ok o → ShelfRun (o.register rs) trace o' →
      o'.Hosts .u16 ∧ o'.Hosts .bool := by
    intro o o' trace hCreate hRun
    obtain ⟨hLimit, hNumbers, hBools⟩ := hStart hCreate
    have hb := hRun.becomes (Owner.shelves_register hCreate hLimit rs)
    exact ⟨hb.hosts hNumbers, hb.hosts hBools⟩
  have hNil : ∀ {o : Owner Nat}, Owner.create {} = .ok o → ShelfRun (o.register rs) [] (o.register rs) := fun _ => .nil
  have hCreate : Owner.create {} = .ok (_ : Owner Nat) := rfl
  have h₁ := (hNil hCreate).cons (.heap (.alloc 16 8)) ⟨trivial, nofun⟩
  have h₂ := h₁.cons (.new .u16) (hHosts hCreate h₁).1
  have h₃ := h₂.cons (.push .u16 32 (.u16 1)) ⟨(hHosts hCreate h₂).1, rfl⟩
  have h₄ := h₃.cons (.heap (.free 16)) (ShelfCall.permitted_free (by decide +kernel))
  have h₅ := h₄.cons (.new .bool) (hHosts hCreate h₄).2
  have h₆ := h₅.cons (.push .u16 32 (.u16 2)) ⟨(hHosts hCreate h₅).1, rfl⟩
  have h₇ := h₆.cons (.push .u16 32 (.u16 3)) ⟨(hHosts hCreate h₆).1, rfl⟩
  have h₈ := h₇.cons (.push .u16 32 (.u16 4)) ⟨(hHosts hCreate h₇).1, rfl⟩
  have hMoved := h₈.cons (.push .u16 32 (.u16 258)) ⟨(hHosts hCreate h₈).1, rfl⟩
  have hTaken := hMoved.cons .newString trivial
  have hPopped := hTaken.cons (.pop .bool 48) (hHosts hCreate hTaken).2
  have hRun := hPopped.cons (.free Owner.stringType 40) trivial
  exact ⟨_, _, _, hCreate, (hStart hCreate).1, hRun, (hHosts hCreate hRun).1, by decide +kernel,
    hRun.behaves_as_lists {} hCreate (hStart hCreate).1 rs⟩

end Marshal
