import Marshal.Proofs.Heap.Shared
import Marshal.Proofs.Managed.SingleOwner
import Marshal.Proofs.Object.Closing

/-! # Closing an owner

A caller may use the heap on its own besides its objects. When the owner is closed, every object goes, once, with all
of its blocks, and what is left are the blocks that the caller has allocated itself. This holds as long as no block
is at address 0, which a memory of full size does not exclude: there an object may have a buffer at address 0, and
keeps it.
-/
set_option autoImplicit false
namespace Marshal

open Step

namespace HeapUse

def Within (h : Heap) (own : List UInt32) : HeapUse → Prop
  | .free addr => addr ∈ own
  | .write offset data => ∃ b ∈ h.live, b.addr ∈ own ∧ b.addr ≤ offset ∧
      offset.toNat + data.length ≤ b.addr.toNat + b.capacity.toNat
  | _ => True

def owned (h : Heap) (own : List UInt32) : HeapUse → List UInt32
  | .alloc size align =>
    match (exec (Heap.allocate size align) h).1 with
    | .ok addr => addr :: own
    | .error _ => own
  | .free addr => own.erase addr
  | _ => own

theorem exec_replaced {h : Heap} {own : List UInt32} (hv : h.Valid) (hLive : ∀ a ∈ own, a ∈ h.addrs) {c : HeapUse}
    (hWithin : c.Within h own) : ∃ old new kept, own.Perm (old ++ kept) ∧ (c.owned h own).Perm (new ++ kept) ∧
      Heap.Replaced h old new (exec c.perform h).2 := by
  cases c with
  | alloc size align =>
    rw [perform, exec_map, owned]
    rcases Heap.exec_allocate_cases hv size align with ⟨r, hAlloc⟩ | ⟨addr, h₁, hAlloc, ha⟩
    · rw [hAlloc]
      exact ⟨[], [], own, .refl _, .refl _, .refl hv⟩
    · rw [hAlloc]
      exact ⟨[], [addr], own, .refl _, .refl _, ha.replaced⟩
  | free addr =>
    obtain ⟨b, hb, rfl⟩ := Heap.mem_addrs_iff.mp (hLive addr hWithin)
    obtain ⟨h₁, hExec, hFreed⟩ := Heap.exec_release_live hv hb
    rw [perform, hExec]
    exact ⟨[b.addr], [], _, List.perm_cons_erase hWithin, .refl _, hFreed.replaced hv hb⟩
  | write offset data =>
    obtain ⟨b, hb, hOwn, hFrom, hTo⟩ := hWithin
    have hBytes := hv.live_bytes hb
    rw [UInt32.le_iff_toNat_le] at hFrom
    have hOffset : b.addr.toNat + (offset.toNat - b.addr.toNat) = offset.toNat := by omega
    have hRoom : offset.toNat - b.addr.toNat + data.length ≤ b.capacity.toNat := by omega
    have hr := Heap.replaced_of_write hv hb hRoom
    rw [hOffset] at hr
    rw [perform, Heap.exec_write (by omega)]
    exact ⟨[b.addr], [b.addr], _, List.perm_cons_erase hOwn, List.perm_cons_erase hOwn, hr⟩
  | grow delta =>
    have hk : Heap.Keeps h.live h (exec (grow delta).perform h).2 := Heap.keeps_use hv trivial
    refine ⟨[], [], own, .refl _, .refl _, hk.valid, ?_, fun b hb _ => ⟨hk.live b hb hb, hk.bytes b hb hb⟩⟩
    rw [perform, exec_map, Heap.growPages, exec_bind_ok (exec_get h)]
    rcases h.memory.grow delta with ⟨_ | m, previous⟩ <;> exact .of_eq (List.append_nil _)

end HeapUse

theorem Accounts.perm_spare {V : Type} {types : List Text} {h : Heap} {es : Entries V} {titles : List Title}
    {leaks spare spare' : List UInt32} (ha : Accounts types h es titles leaks spare) (hPerm : spare.Perm spare') :
    Accounts types h es titles leaks spare' :=
  ⟨ha.few, ha.valid, ha.cells.trans (hPerm.append_right _), ha.owners, ha.fits, ha.named, ha.titled, ha.slotted⟩

/-! ## Closing -/

namespace Owner

variable {V : Type} {o : Owner V}

/-- Closing has dropped every object once and left what the caller has allocated itself. -/
structure Released (o : Owner V) (own : List UInt32) (o' : Owner V) : Prop where
  closes : exec close o = (.ok (), o')
  objects : o'.table.store.entries = []
  blocks : o'.table.heap.addrs.Perm own
  kept : ∀ b ∈ o.table.heap.live, b.addr ∈ own → b ∈ o'.table.heap.live
  memory : o'.table.heap.memory = o.table.heap.memory
  /-- The destructor of every guest has run once. -/
  destroyed : ∃ deeds, o'.table.journal = o.table.journal ++ deeds ∧
    deeds.Perm (Entries.deeds o.table.store.entries)
  /-- Every observer was told once of every object. -/
  told : ∃ events, o'.table.observers = o.table.observers.map (fun (id, seen) => (id, seen ++ events)) ∧
    events.Perm (Entries.farewells o.table.store.entries)
  again : exec close o' = (.ok (), o')

theorem close_released {types : List Text} {exports : List (Text × Export V)} {titles : List Title}
    {leaks own : List UInt32} (hs : o.Sound types exports titles leaks own) : ∃ o', o.Released own o' := by
  let o₀ : Owner V := { o with closed := true, executor := o.executor.close.settle fun _ => true }
  have ht : o₀.table.Accounted own := hs.table.accounted
  obtain ⟨t, hLoses, hNone, hClose⟩ := Table.exec_close_loses (o.table.store.size + 1) ht
    (fun e he => Entry.isBorrowed_of_free (hs.table.unborrowed e he)) hs.table.isOpen.2
  have hLeft : t.heap.addrs.Perm own := by
    have hOwn : t.Accounted own := hLoses.of_accounted ⟨ht.valid, ht.cells, ht.fits⟩
    have hCells := hOwn.cells
    rw [hNone] at hCells
    simpa [Entries.blocks] using hCells
  refine ⟨{ o₀ with table := { t with store := { entries := [], closed := true } } }, ?_, rfl, hLeft, ?_,
    hLoses.memory, hLoses.journal, hLoses.told, ?_⟩
  · rw [close, exec_bind_ok (exec_get o), hs.isOpen]
    refine (exec_bind_ok (exec_modify ..)).trans ((exec_bind_ok (exec_get o₀)).trans ?_)
    rw [exec_onTable]
    show (_, { o₀ with table := _ }) = _
    rw [show exec (Table.close o₀.destroyer) o₀.table = _ from hClose]
  · intro b hb hOwn
    refine (hLoses.heap.kept b hb fun hBlock => ?_).1
    exact (List.nodup_append.mp hs.table.accounts.cells_nodup).2.2 b.addr hOwn b.addr hBlock rfl
  · rfl

end Owner

namespace Play

variable {V : Type} {types : List Text} {exports : List (Text × Export V)} {leaks own : List UInt32} {p : Play V}

def table (p : Play V) : Table (Object V) := p.session.owner.table

def withTable (p : Play V) (t : Table (Object V)) : Play V :=
  { p with session := { p.session with owner := { p.session.owner with table := t } } }

/-- The caller has come to a state in which it has the blocks itself. -/
inductive Reached (p₀ : Play V) : Play V → List UInt32 → Prop
  | start : Reached p₀ p₀ []
  | step {p : Play V} {own : List UInt32} (op : Op V) (hRun : Reached p₀ p own) : Reached p₀ (p.step op) own
  | use {p : Play V} {own : List UInt32} (c : HeapUse) (hWithin : c.Within p.table.heap own)
      (hRun : Reached p₀ p own) :
      Reached p₀ (p.withTable { p.table with heap := (exec c.perform p.table.heap).2 }) (c.owned p.table.heap own)
  | subscribe {p : Play V} {own : List UInt32} (hRun : Reached p₀ p own) :
      Reached p₀ (p.withTable (exec Table.subscribe p.table).2) own

structure Hosts (types : List Text) (exports : List (Text × Export V)) (p : Play V) (leaks own : List UInt32) :
    Prop where
  sound : p.session.Sound types exports [] leaks own
  holds : p.session.tokens.Holds types p.held

theorem step_hosts (hd : Declared types exports) (hh : p.Hosts types exports leaks own) (op : Op V) :
    ∃ leaks', (p.step op).Hosts types exports leaks' own := by
  have hEnds := Session.perform_ends hd hh.sound hh.holds.valid op
  unfold step
  generalize exec (op.perform p.held) p.session = out at hEnds
  cases hEnds with
  | returned hs hg => exact ⟨leaks, hs, hh.holds.append hg⟩
  | refused hP hs hg => exact ⟨leaks, hs, hh.holds.follows hg.follows⟩
  | @stopped stop s' lost hHard hP hs hf =>
    cases stop with
    | refused why => exact absurd rfl (hHard why)
    | trapped why => exact ⟨lost, hs, hh.holds.follows hf⟩
    | crashed => exact ⟨lost, hs, hh.holds.follows hf⟩

theorem Hosts.withTable (hh : p.Hosts types exports leaks own) {t : Table (Object V)} {own' : List UInt32}
    (ht : t.Sound types p.session.tokens.titles leaks own') : (p.withTable t).Hosts types exports leaks own' :=
  ⟨⟨hh.sound.owner.setTable ht, hh.sound.tokens⟩, hh.holds⟩

theorem Hosts.use (hh : p.Hosts types exports leaks own) {c : HeapUse} (hWithin : c.Within p.table.heap own) :
    (p.withTable { p.table with heap := (exec c.perform p.table.heap).2 }).Hosts types exports leaks
      (c.owned p.table.heap own) := by
  have hs := hh.sound.owner.table
  obtain ⟨old, new, kept, hOld, hNew, hr⟩ := HeapUse.exec_replaced hs.accounts.valid
    (fun a ha => hs.accounts.spare_live ha) hWithin
  have hSplit := (hs.accounts.perm_spare hOld).replaceSpare hr
  exact hh.withTable ⟨hSplit.perm_spare hNew.symm, hs.unborrowed, hs.isOpen⟩

theorem Reached.hosts {p₀ : Play V} (hd : Declared types exports) (hStart : p₀.Hosts types exports [] [])
    (hRun : p₀.Reached p own) : ∃ leaks, p.Hosts types exports leaks own := by
  induction hRun with
  | start => exact ⟨[], hStart⟩
  | step op _ ih =>
    obtain ⟨leaks, hh⟩ := ih
    exact step_hosts hd hh op
  | use c hWithin _ ih =>
    obtain ⟨leaks, hh⟩ := ih
    exact ⟨leaks, hh.use hWithin⟩
  | subscribe _ ih =>
    obtain ⟨leaks, hh⟩ := ih
    have hs := hh.sound.owner.table
    exact ⟨leaks, hh.withTable ⟨hs.accounts, hs.unborrowed, hs.isOpen⟩⟩

/-- Whatever a caller has done, closing releases everything once. -/
theorem Reached.close_releases (config : Config) {o : Owner V} (hCreate : Owner.create config = .ok o)
    (hLimit : o.table.heap.memory.maxPages ≤ 65535) (rs : List Owner.Registration)
    (hFew : (o.register rs).types.length < 2 ^ 32) (hRun : (Play.start (o.register rs)).Reached p own) :
    ∃ o', p.session.owner.Released own o' := by
  obtain ⟨hd, hStart, -⟩ := start_keeps hCreate hLimit rs hFew
  obtain ⟨leaks, hh⟩ := hRun.hosts hd ⟨hStart.sound, hStart.holds⟩
  exact Owner.close_released hh.sound.owner

theorem Reached.run {p₀ : Play V} (hRun : p₀.Reached p own) (ops : List (Op V)) : p₀.Reached (p.run ops) own := by
  induction ops generalizing p with
  | nil => exact hRun
  | cons op rest ih => exact ih (.step op hRun)

/-- One string has an address below that of its vector, and one above; the vector is in another one. The caller has a
block itself. -/
theorem Reached.close_releases_nested :
    let rs : List Owner.Registration := [.strings, .objects (vecTypeName Owner.stringType), .guests "Point"]
    ∃ (o : Owner Nat) (p : Play Nat) (own : List UInt32), Owner.create {} = .ok o ∧
      o.table.heap.memory.maxPages ≤ 65535 ∧ (o.register rs).types.length < 2 ^ 32 ∧
      (Play.start (o.register rs)).Reached p own ∧ (own = [16] ∧ p.trapped = false ∧
      p.table.store.entries.map Entry.addr = [224, 160, 176, 152, 144]) ∧ ∃ o', p.session.owner.Released own o' := by
  intro rs
  have hRun {o : Owner Nat} : (Play.start (o.register rs)).Reached _ _ :=
    (Reached.start.subscribe.use (.alloc 100 8) trivial).run [.newString, .newVec .strings, .fromText "cd",
      .push 1 (.held 0), .push 1 (.held 2), .fromList (.handles (vecTypeName Owner.stringType)) [.held 1],
      .own "Point" 5]
  refine ⟨_, _, _, rfl, by decide +kernel, by decide +kernel, hRun, by decide +kernel, ?_⟩
  exact Reached.close_releases {} rfl (by decide +kernel) rs (by decide +kernel) hRun

def allocateAll (p : Play V) (own : List UInt32) : List UInt32 → Play V × List UInt32
  | [] => (p, own)
  | size :: rest =>
    let c := HeapUse.alloc size 1
    allocateAll (p.withTable { p.table with heap := (exec c.perform p.table.heap).2 }) (c.owned p.table.heap own) rest

theorem Reached.allocateAll {p₀ : Play V} (hRun : p₀.Reached p own) (sizes : List UInt32) :
    p₀.Reached (p.allocateAll own sizes).1 (p.allocateAll own sizes).2 := by
  induction sizes generalizing p own with
  | nil => exact hRun
  | cons size rest ih => exact ih (.use (.alloc size 1) trivial hRun)

/-- A memory of full size with 32 bytes left at its end: after the cell of a vector, the first free address wraps to 0,
and the vector's buffer is placed there. Closing does not free it. -/
theorem Reached.close_releases_not_full :
    ∃ (o : Owner Nat) (p : Play Nat) (own : List UInt32),
      Owner.create { initialPages := 65536, maxPages := 65536 } = .ok o ∧
      (o.register [.scalars .u32]).types.length < 2 ^ 32 ∧
      (Play.start (o.register [.scalars .u32])).Reached p own ∧ ¬ ∃ o', p.session.owner.Released own o' := by
  let largest : UInt32 := 0x40000000
  let sizes := [largest, largest] ++ (List.range 26).map fun i => largest >>> i.toUInt32
  have hRun {o : Owner Nat} : (Play.start (o.register [.scalars .u32])).Reached _ _ :=
    (Reached.start.allocateAll sizes).run [.newVec (.scalars .u32), .push 0 (.datum (.u32 7))]
  refine ⟨_, _, _, rfl, by decide +kernel, hRun, ?_⟩
  rintro ⟨o', hReleased⟩
  have hLeft := hReleased.blocks.length_eq
  obtain rfl := congrArg Prod.snd hReleased.closes
  revert hLeft
  decide +kernel

end Play

end Marshal
