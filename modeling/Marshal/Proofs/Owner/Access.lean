import Marshal.Proofs.Object.Drop
import Marshal.Proofs.Owner.Declared

/-! # The steps of a sound owner

An owner is sound when it is open, its types and exports are the declared ones and its table is sound. Dropping an
object spends a title to it, and work under a borrow changes nothing but the value of the borrowed object and the
heap.
-/
set_option autoImplicit false
namespace Marshal

open Step

/-- The step was not refused: it stopped because a rule of the boundary was broken. -/
def Stop.IsHard (stop : Stop) : Prop := ∀ why, stop ≠ .refused why

/-- The rule that was broken is not that an object is freed once. -/
def Stop.IsTame (stop : Stop) : Prop :=
  ∀ why, stop = .trapped why → ∀ phase, why.matchesReport phase .doubleFree = false

theorem Stop.isHard_trapped (why : Failure) : (Stop.trapped why).IsHard := fun _ h => nomatch h

theorem Stop.isHard_crashed : Stop.crashed.IsHard := fun _ h => nomatch h

theorem Stop.isTame_crashed : Stop.crashed.IsTame := fun _ h => nomatch h

namespace Owner

variable {V : Type} {α β : Type} {types : List Text} {exports : List (Text × Export V)} {titles : List Title}
  {leaks spare : List UInt32} {o : Owner V}

structure Sound (types : List Text) (exports : List (Text × Export V)) (o : Owner V) (titles : List Title)
    (leaks spare : List UInt32) : Prop where
  types_eq : o.types = types
  exports_eq : o.exports = exports
  isOpen : o.closed = false
  table : o.table.Sound types titles leaks spare

variable {project : Object V → Option β} {r : Except Stop α} {t : Table (Object V)} {h : Heap} {type : OpaqueType}
  {kind : BorrowKind} {o' : Owner V}

theorem Sound.setTable {titles' : List Title} {leaks' spare' : List UInt32}
    (hs : o.Sound types exports titles leaks spare) (ht : t.Sound types titles' leaks' spare') :
    Sound types exports { o with table := t } titles' leaks' spare' :=
  ⟨hs.types_eq, hs.exports_eq, hs.isOpen, ht⟩

theorem exec_onTable (x : Step (Table (Object V)) α) (o : Owner V) :
    exec (onTable x) o = ((exec x o.table).1, { o with table := (exec x o.table).2 }) :=
  exec_within ..

def withHeap (o : Owner V) (h : Heap) : Owner V := { o with table := { o.table with heap := h } }

theorem exec_onHeap {x : Step Heap α} (hExec : exec x o.table.heap = (r, h)) :
    exec (onHeap x) o = (r, o.withHeap h) := by
  rw [onHeap, exec_onTable, Table.exec_onHeap, hExec]
  rfl

theorem Sound.withHeap {old new : List UInt32}
    (hs : o.Sound types exports titles leaks (old ++ spare)) (hr : Heap.Replaced o.table.heap old new h) :
    (o.withHeap h).Sound types exports titles leaks (new ++ spare) :=
  hs.setTable ⟨hs.table.accounts.replaceSpare hr, hs.table.unborrowed, hs.table.isOpen⟩

theorem exec_release {addr : UInt32} (hs : o.Sound types exports titles leaks (Heap.blockAt addr ++ spare)) :
    ∃ o', exec (onHeap (Heap.release addr)) o = (.ok (), o') ∧ o'.Sound types exports titles leaks spare := by
  obtain ⟨h', hExec, hAccounts, -⟩ := hs.table.accounts.exec_release
  exact ⟨o.withHeap h', exec_onHeap hExec, hs.setTable ⟨hAccounts, hs.table.unborrowed, hs.table.isOpen⟩⟩

/-! ## Boxing and dropping -/

theorem exec_box (hOpen : o.closed = false) {name : Text} (hName : name ∈ o.types) (object : Object V) :
    exec (box name object) o = exec (onTable (Table.insert (typeNumber o.types name) object)) o := by
  have hTypes : withType o.types name = o.types := if_pos hName
  rw [box, exec_bind_ok (exec_get o), hOpen]
  show exec (typeId name >>= fun id => onTable (Table.insert id object)) o = _
  rw [exec_bind_ok (exec_typeId name o), hTypes]

theorem exec_drop {w : Title} (hs : o.Sound types exports (w :: titles) leaks spare) :
    ∃ o', exec (drop w.addr) o = (.ok (), o') ∧ o'.Sound types exports titles leaks spare := by
  obtain ⟨t', hExec, hTable, -⟩ := Object.exec_dropWith (Object.removes types (o.table.store.size + 1)) hs.table
    (Nat.le_succ _)
  refine ⟨{ o with table := t' }, ?_, hs.setTable hTable⟩
  rw [drop, exec_bind_ok (exec_get o), exec_onTable, destroyer, hs.isOpen, hExec]

theorem exec_viewText (v : View) (o : Owner V) :
    (∃ why, exec (viewText v) o = (.error (.trapped why), o)) ∨ ∃ t, exec (viewText v) o = (.ok t, o) := by
  have hBytes : (∃ why, exec (viewBytes v) o = (.error (.trapped why), o)) ∨
      ∃ bytes, exec (viewBytes v) o = (.ok bytes, o) := by
    rcases Heap.exec_readBytes_cases o.table.heap v.start v.len with ⟨r, hRead⟩ | ⟨bytes, hRead⟩
    · exact .inl ⟨_, exec_trapRefusal_refused (exec_onHeap hRead)⟩
    · exact .inr ⟨bytes, exec_trapRefusal_ok (exec_onHeap hRead)⟩
  rcases hBytes with ⟨why, hExec⟩ | ⟨bytes, hExec⟩
  · exact .inl ⟨why, exec_bind_error hExec⟩
  · rw [viewText, exec_bind_ok hExec]
    split
    · exact .inr ⟨bytes, rfl⟩
    · exact .inl ⟨_, rfl⟩

/-! ## Work under a borrow -/

structure Turned (o : Owner V) (h : Heap) (es : Entries V) (o' : Owner V) : Prop where
  table : o.table.Turned h es o'.table
  types_eq : o'.types = o.types
  exports_eq : o'.exports = o.exports
  closed_eq : o'.closed = o.closed

theorem Turned.trans {h h' : Heap} {es es' : Entries V} {o₁ o₂ : Owner V} (ht : o.Turned h es o₁)
    (ht' : o₁.Turned h' es' o₂) : o.Turned h' es' o₂ :=
  ⟨ht.table.trans ht'.table, ht'.types_eq.trans ht.types_eq, ht'.exports_eq.trans ht.exports_eq,
    ht'.closed_eq.trans ht.closed_eq⟩

theorem turned_onTable {x : Step (Table (Object V)) α} {es : Entries V}
    (hx : ∃ t', exec x o.table = (r, t') ∧ o.table.Turned h es t') :
    ∃ o', exec (onTable x) o = (r, o') ∧ o.Turned h es o' := by
  obtain ⟨t', hExec, ht⟩ := hx
  exact ⟨{ o with table := t' }, by rw [exec_onTable, hExec], ht, rfl, rfl, rfl⟩

theorem mem_of_getTyped? {addr id : UInt32} {v : Object V} (h : t.getTyped? addr id = some v) :
    ∃ e ∈ t.store.entries, e.addr = addr ∧ e.typeId = id ∧ e.value = v := by
  unfold Table.getTyped? at h
  split at h
  · rename_i hType
    obtain ⟨e, hFound, rfl⟩ := Option.map_eq_some_iff.mp hType
    obtain ⟨e', hFound', rfl⟩ := Option.map_eq_some_iff.mp h
    obtain rfl := Option.some.inj (hFound.symm.trans hFound')
    obtain ⟨he, hAddr⟩ := Store.entry?_eq_some hFound
    exact ⟨e, he, hAddr, rfl, rfl⟩
  · cases h

theorem exec_enter {e : Entry (Object V)} {rest : Entries V}
    {b : β} (hNodup : (Entries.addrs (e :: rest)).Nodup) (hAt : o.table.store.entries.Perm (e :: rest))
    (hFound : o.table.getTyped? e.addr type.typeId = some e.value) (hProject : project e.value = some b)
    (hAdmits : e.admits kind = true) :
    ∃ o₁, exec (enter type e.addr kind project) o = (.ok b, o₁) ∧
      o.Turned o.table.heap (e.borrow kind :: rest) o₁ := by
  obtain ⟨o₁, hBorrow, ht⟩ := turned_onTable (Table.exec_borrow hNodup hAt hAdmits)
  refine ⟨o₁, ?_, ht⟩
  rw [enter, exec_bind_ok (exec_get o)]
  simp only [hFound, hProject]
  exact exec_bind_ok hBorrow

theorem exec_leave {e e' : Entry (Object V)} {rest : Entries V}
    (hNodup : (Entries.addrs (e :: rest)).Nodup) (hAt : o.table.store.entries.Perm (e :: rest))
    (hBack : e.giveBack? kind = some e') :
    ∃ o', exec (leave e.addr kind) o = (.ok (), o') ∧ o.Turned o.table.heap (e' :: rest) o' := by
  obtain ⟨o', hExec, ht⟩ := turned_onTable (Table.exec_giveBack hNodup hAt hBack)
  exact ⟨o', exec_bind_ok hExec, ht⟩

def hardened : Except Stop α → Except Stop α
  | .error (.refused why) => .error (.trapped why)
  | r => r

theorem hardened_isHard {stop : Stop} (h : hardened r = .error stop) : stop.IsHard := by
  rcases r with (_ | _ | _) | a <;> cases h
  · exact Stop.isHard_trapped _
  · exact Stop.isHard_trapped _
  · exact Stop.isHard_crashed

theorem exec_mustAccess_entered {addr : UInt32} {body : β → Step (Owner V) α} {b : β} {o₁ o₂ o' : Owner V}
    (hEnter : exec (enter type addr kind project) o = (.ok b, o₁)) (hBody : exec (body b) o₁ = (r, o₂))
    (hLeave : exec (leave addr kind) o₂ = (.ok (), o')) :
    exec (mustAccess type addr kind project body) o = (hardened r, o') := by
  rw [mustAccess, exec_trapRefusal, access, exec_bind_ok hEnter, exec_andFinally, hBody]
  rcases r with (_ | _ | _) | a <;> simp only [exec_bind_ok hLeave] <;> rfl

/-- Nothing is borrowed, and every object has an address of its own and fits. -/
structure Idle (o : Owner V) : Prop where
  valid : o.table.heap.Valid
  nodup : (Entries.addrs o.table.store.entries).Nodup
  unborrowed : ∀ e ∈ o.table.store.entries, e.shared = 0 ∧ e.exclusive = false
  fits : ∀ e ∈ o.table.store.entries, e.value.Fits o.table.heap

theorem Sound.idle (hs : o.Sound types exports titles leaks spare) : o.Idle :=
  ⟨hs.table.accounts.valid, hs.table.accounts.addrs_nodup, hs.table.unborrowed, hs.table.accounts.fits⟩

theorem getTyped?_of_mem (hNodup : (Entries.addrs t.store.entries).Nodup)
    {e : Entry (Object V)} (he : e ∈ t.store.entries) : t.getTyped? e.addr e.typeId = some e.value := by
  have hFound := Store.entry?_of_mem hNodup he
  rw [Table.getTyped?, if_pos (by rw [Store.typeId?, hFound]; rfl), Store.get?, hFound]
  rfl

theorem exec_mustAccess_found (hi : o.Idle) {e : Entry (Object V)} (he : e ∈ o.table.store.entries)
    (hType : e.typeId = type.typeId) {b : β}
    (hProject : project e.value = some b) (kind : BorrowKind) (body : β → Step (Owner V) α) :
    ∃ rest o₁, o.table.store.entries.Perm (e :: rest) ∧ o.Turned o.table.heap (e.borrow kind :: rest) o₁ ∧
      ∀ r h v o₂, exec (body b) o₁ = (r, o₂) → o₁.Turned h ({ e.borrow kind with value := v } :: rest) o₂ →
        ∃ o', exec (mustAccess type e.addr kind project body) o = (hardened r, o') ∧
          o.Turned h ({ e with value := v } :: rest) o' := by
  have hFound : o.table.getTyped? e.addr type.typeId = some e.value := hType ▸ getTyped?_of_mem hi.nodup he
  have hAt := perm_cons_filter Entry.addr hi.nodup he
  have hNodup := (hAt.map Entry.addr).nodup_iff.mp hi.nodup
  have hFree := hi.unborrowed e he
  obtain ⟨o₁, hEnter, ht⟩ := exec_enter hNodup hAt hFound hProject (Table.admits_of_free hFree kind)
  refine ⟨_, o₁, hAt, ht, ?_⟩
  intro r h v o₂ hBody ht₂
  have hAddr : (e.borrow kind).addr = e.addr := by cases kind <;> rfl
  -- the body has put another value in the entry; its borrow is the one that was taken
  obtain ⟨o', hLeave, ht'⟩ := exec_leave (e := { e.borrow kind with value := v })
    (by rw [Entries.addrs, List.map_cons, hAddr]; exact hNodup) ht₂.table.entries
    (Table.giveBack?_borrow hFree kind v)
  rw [hAddr] at hLeave
  rw [ht₂.table.heap] at ht'
  exact ⟨o', exec_mustAccess_entered hEnter hBody hLeave, (ht.trans ht₂).trans ht'⟩

theorem exec_mustAccess_cases (hi : o.Idle) (type : OpaqueType) (addr : UInt32)
    (kind : BorrowKind) (project : Object V → Option β) (body : β → Step (Owner V) α) :
    exec (mustAccess type addr kind project body) o = (.error (.trapped (.report (noLive type.name addr))), o) ∨
    exec (mustAccess type addr kind project body) o = (.error .crashed, o) ∨
    ∃ e rest b o₁, o.table.store.entries.Perm (e :: rest) ∧ e.addr = addr ∧ e.typeId = type.typeId ∧
      project e.value = some b ∧ o.Turned o.table.heap (e.borrow kind :: rest) o₁ ∧
      ∀ r h v o₂, exec (body b) o₁ = (r, o₂) → o₁.Turned h ({ e.borrow kind with value := v } :: rest) o₂ →
        ∃ o', exec (mustAccess type addr kind project body) o = (hardened r, o') ∧
          o.Turned h ({ e with value := v } :: rest) o' := by
  cases hFound : o.table.getTyped? addr type.typeId with
  | none =>
    refine .inl (exec_trapRefusal_refused (exec_bind_error ?_))
    rw [enter, exec_bind_ok (exec_get o)]
    simp only [hFound]
    rfl
  | some value =>
    obtain ⟨e, he, rfl, hType, rfl⟩ := mem_of_getTyped? hFound
    cases hProject : project e.value with
    | none =>
      refine .inr (.inl ?_)
      have hEnter : exec (enter type e.addr kind project) o = (.error .crashed, o) := by
        rw [enter, exec_bind_ok (exec_get o)]
        simp only [hFound, hProject]
        rfl
      rw [mustAccess, exec_trapRefusal, access, exec_bind_error hEnter]
    | some b =>
      obtain ⟨rest, o₁, hAt, ht, hBack⟩ := exec_mustAccess_found hi he hType hProject kind body
      exact .inr (.inr ⟨e, rest, b, o₁, hAt, rfl, hType, hProject, ht, hBack⟩)

theorem Sound.turned {es : Entries V} {titles' : List Title} {leaks' spare' : List UInt32}
    (hs : o.Sound types exports titles leaks spare) (ht : o.Turned h es o')
    (ha : Accounts types h es titles' leaks' spare') (hFree : ∀ e ∈ es, e.shared = 0 ∧ e.exclusive = false) :
    o'.Sound types exports titles' leaks' spare' :=
  ⟨ht.types_eq.trans hs.types_eq, ht.exports_eq.trans hs.exports_eq, ht.closed_eq.trans hs.isOpen,
    hs.table.turned ht.table ha hFree⟩

variable {e : Entry (Object V)} {rest : Entries V}

theorem Sound.revalued {v : Object V} {elem : Text} {gained lost : List Title}
    (hs : o.Sound types exports (gained ++ titles) leaks spare) (hAt : o.table.store.entries.Perm (e :: rest))
    (ht : o.Turned h ({ e with value := v } :: rest) o') (hOld : e.value.Suits types e.typeId elem)
    (hNew : v.Suits types e.typeId elem) (hr : Heap.Replaced o.table.heap e.value.blocks v.blocks h)
    (hFits : v.Fits h)
    (hSlots : (titlesOf elem (e.value.slots o.table.heap.memory) ++ gained).Perm
      (titlesOf elem (v.slots h.memory) ++ lost)) : o'.Sound types exports (lost ++ titles) leaks spare := by
  have hFree : ∀ e' ∈ e :: rest, e'.shared = 0 ∧ e'.exclusive = false :=
    fun e' he' => hs.table.unborrowed e' (hAt.mem_iff.mpr he')
  refine hs.turned ht ((hs.table.accounts.perm_entries hAt).revalue hOld hNew hr hFits hSlots) ?_
  intro e' he'
  rcases List.mem_cons.mp he' with rfl | he'
  · exact hFree e List.mem_cons_self
  · exact hFree e' (List.mem_cons_of_mem e he')

theorem Sound.unchanged (hs : o.Sound types exports titles leaks spare)
    (hAt : o.table.store.entries.Perm (e :: rest)) (ht : o.Turned o.table.heap (e :: rest) o') :
    o'.Sound types exports titles leaks spare :=
  hs.turned ht (hs.table.accounts.perm_entries hAt) fun e' he' => hs.table.unborrowed e' (hAt.mem_iff.mpr he')

end Owner

end Marshal
