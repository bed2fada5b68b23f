import Marshal.Proofs.Managed.Play

/-! # Single ownership

Whatever a caller does, every address is held by one owner at most, a handle or a slot of a vector, and the
object there is of the type that the owner takes it for. So nothing is ever freed twice. As long as no operation
has stopped, every object has its owner, and freeing the handles gives everything back. That no object is left
over needs an argument of its own: objects might own each other in a circle. They do not, because a vector's
type has a longer name than the type of its elements.
-/
set_option autoImplicit false
namespace Marshal

open Step

namespace Accounts

variable {V : Type} {types : List Text} {h : Heap} {es : Entries V} {titles : List Title}
  {leaks spare : List UInt32}

theorem slot_owner (ha : Accounts types h es titles leaks spare) {e : Entry (Object V)} (he : e ∈ es)
    (hSlot : e.addr ∈ es.slots h.memory) {name : Text} (hName : name ∈ types)
    (hId : e.typeId = typeNumber types name) :
    vecTypeName name ∈ types ∧ ∃ e' ∈ es, e'.typeId = typeNumber types (vecTypeName name) := by
  obtain ⟨e', he', hMem⟩ := List.mem_flatMap.mp hSlot
  obtain ⟨elem, hSuits, hTyped⟩ := ha.slotted e' he'
  obtain ⟨e₁, he₁, hAddr, hElemId⟩ := hTyped e.addr hMem
  obtain rfl : e₁ = e := List.inj_on_of_nodup_map ha.addrs_nodup he₁ he hAddr
  cases hValue : e'.value with
  | refVector buf =>
    rw [hValue] at hSuits
    obtain ⟨hElem, hVec, hVecId⟩ := hSuits
    obtain rfl : elem = name := typeNumber_inj ha.few hElem hName (hElemId.symm.trans hId)
    exact ⟨hVec, e', he', hVecId⟩
  | guest _ => simp [hValue, Object.slots] at hMem
  | string _ _ => simp [hValue, Object.slots] at hMem
  | vector _ _ => simp [hValue, Object.slots] at hMem
  | callback _ => simp [hValue, Object.slots] at hMem

/-- Objects cannot all be owned by each other. -/
theorem entries_eq_nil (ha : Accounts types h es [] [] spare) : es = [] := by
  have hOwned : ∀ e ∈ es, e.addr ∈ es.slots h.memory := by
    intro e he
    have hAddr : e.addr ∈ es.addrs := List.mem_map_of_mem he
    simpa using ha.owners.mem_iff.mp hAddr
  by_contra hSome
  -- from owner to owner the names of the types grow, and so past every declared name
  have hLong : ∀ n, ∃ e ∈ es, ∃ name ∈ types, e.typeId = typeNumber types name ∧ n ≤ name.length := by
    intro n
    induction n with
    | zero =>
      obtain ⟨e, he⟩ := List.exists_mem_of_ne_nil es hSome
      obtain ⟨name, hName, hId⟩ := ha.named e he
      exact ⟨e, he, name, hName, hId, Nat.zero_le _⟩
    | succ n ih =>
      obtain ⟨e, he, name, hName, hId, hLength⟩ := ih
      obtain ⟨hVec, e', he', hId'⟩ := ha.slot_owner he (hOwned e he) hName hId
      refine ⟨e', he', vecTypeName name, hVec, hId', ?_⟩
      have hLonger : (vecTypeName name).length = 4 + name.length := List.length_append
      omega
  obtain ⟨_, _, name, hName, -, hLength⟩ := hLong (types.flatten.length + 1)
  have hShort := (List.sublist_flatten_of_mem hName).length_le
  omega

end Accounts

namespace Session

variable {V : Type}

def slots (s : Session V) : List UInt32 := Entries.slots s.owner.table.heap.memory s.owner.table.store.entries

def typeAt? (s : Session V) (addr : UInt32) : Option UInt32 := s.owner.table.store.typeId? addr

end Session

namespace Play

variable {V : Type}

def start (o : Owner V) : Play V := { session := { owner := o } }

def owners (p : Play V) : List (Handle (Export V)) :=
  (p.held.map Item.handleOf).filter (·.owns p.session.tokens)

/-- What single ownership means for a caller that has come from one state to another. -/
structure SingleOwner (p₀ p : Play V) : Prop where
  /-- No address has two owners. -/
  distinct : (p.owners.map Handle.addr ++ p.session.slots).Nodup
  /-- That includes handles out of reach, which were made by an operation that stopped. -/
  unspent : (p.session.tokens.grants.map Grant.addr ++ p.session.slots).Nodup
  /-- The object of a handle that owns is of the handle's type. -/
  handles : ∀ h ∈ p.owners, h.typeName ∈ p.session.owner.types ∧
    p.session.typeAt? h.addr = some (typeNumber p.session.owner.types h.typeName)
  /-- The objects in the slots of a vector are of the vector's element type. -/
  slots : ∀ e ∈ p.session.owner.table.store.entries, ∀ buf, e.value = .refVector buf →
    ∃ elem ∈ p.session.owner.types, e.typeId = typeNumber p.session.owner.types (vecTypeName elem) ∧
      ∀ a ∈ e.value.slots p.session.owner.table.heap.memory,
        p.session.typeAt? a = some (typeNumber p.session.owner.types elem)
  /-- Freeing always succeeds, and taking elements out never frees anything twice. -/
  stops : ∀ (op : Op V) (stop : Stop), (exec (op.perform p.held) p.session).1 = .error stop → op.Stops stop
  /-- As long as no operation has stopped, every object has exactly one owner. -/
  owned : p.trapped = false → ∀ e ∈ p.session.owner.table.store.entries,
    (p.owners.map Handle.addr ++ p.session.slots).count e.addr = 1
  /-- Then freeing the handles that own, in any order, leaves what there was at the start. -/
  freed : p.trapped = false → ∀ places : List Nat,
    (∀ (n : Nat) (i : Item V), p.held[n]? = some i → i.handleOf.owns p.session.tokens = true → n ∈ places) →
      let q := p.run (places.map Op.free)
      q.session.owner.table.store.size = p₀.session.owner.table.store.size ∧
        q.session.owner.table.heap.live = p₀.session.owner.table.heap.live

section Kept

variable {types : List Text} {exports : List (Text × Export V)} {leaks : List UInt32} {p : Play V}

variable {h : Handle (Export V)}

theorem mem_owners : h ∈ p.owners ↔ ∃ i ∈ p.held, i.handleOf = h ∧ h.owns p.session.tokens = true := by
  simp only [owners, List.mem_filter, List.mem_map]
  grind

theorem owns_of_grant {t : Tokens} {g : Grant} (hg : g ∈ t.grants)
    (hMode : h.mode = .owned) (hToken : h.token = g.token) : h.owns t = true := by
  have hHeld : t.isHeld h.token = true := List.any_eq_true.mpr ⟨g, hg, by simpa using hToken.symm⟩
  rw [Handle.owns, hMode, hHeld]
  rfl

theorem Keeps.grant_of_owns (hk : p.Keeps types exports leaks) (hh : h ∈ p.owners) :
    h.mode = .owned ∧ ∃ g ∈ p.session.tokens.grants, g.token = h.token ∧ g.addr = h.addr ∧
      g.typeName = h.typeName := by
  obtain ⟨i, hi, rfl, hOwns⟩ := mem_owners.mp hh
  obtain ⟨hMode, hHeld⟩ := Bool.and_eq_true_iff.mp hOwns
  replace hMode : i.handleOf.mode = .owned := of_decide_eq_true hMode
  obtain ⟨g, hg, hToken⟩ := List.any_eq_true.mp hHeld
  replace hToken : g.token = i.handleOf.token := of_decide_eq_true hToken
  exact ⟨hMode, g, hg, hToken, ((hk.holds.valid i hi).backed hMode).2.2 g hg hToken⟩

theorem Keeps.unspent_nodup (hk : p.Keeps types exports leaks) :
    (p.session.tokens.grants.map Grant.addr ++ p.session.slots).Nodup := by
  have hNodup := hk.sound.owner.table.accounts.owners_nodup
  rw [List.nil_append, Tokens.titles, List.map_map] at hNodup
  exact (List.nodup_append.mp hNodup).1

theorem Keeps.owners_nodup (hk : p.Keeps types exports leaks) :
    (p.owners.map Handle.addr ++ p.session.slots).Nodup := by
  obtain ⟨hGrants, hSlots, hApart⟩ := List.nodup_append.mp hk.unspent_nodup
  have hTokens : p.owners.Pairwise fun h h' => h.mode = .owned → h'.mode = .owned → h.token ≠ h'.token :=
    (hk.holds.apart.map Item.handleOf fun _ _ hApart => hApart).filter _
  refine List.nodup_append.mpr ⟨List.pairwise_map.mpr (hTokens.imp_of_mem ?_), hSlots, ?_⟩
  · intro h h' hh hh' hNe hAddr
    obtain ⟨hMode, g, hg, hToken, hGrant, -⟩ := hk.grant_of_owns hh
    obtain ⟨hMode', g', hg', hToken', hGrant', -⟩ := hk.grant_of_owns hh'
    -- two handles that own one address would own it by one token
    obtain rfl : g = g' := List.inj_on_of_nodup_map hGrants hg hg' (by rw [hGrant, hGrant', hAddr])
    exact hNe hMode hMode' (hToken.symm.trans hToken')
  · intro a ha
    obtain ⟨h, hh, rfl⟩ := List.mem_map.mp ha
    obtain ⟨-, g, hg, -, hGrant, -⟩ := hk.grant_of_owns hh
    exact hApart _ (List.mem_map.mpr ⟨g, hg, hGrant⟩)

theorem Keeps.typeAt? (hk : p.Keeps types exports leaks) {addr id : UInt32}
    (h : Entries.HasType p.session.owner.table.store.entries addr id) : p.session.typeAt? addr = some id :=
  (Store.typeId?_eq_some_iff hk.sound.owner.table.accounts.addrs_nodup).mpr h

theorem Keeps.owner_typed (hk : p.Keeps types exports leaks) (hh : h ∈ p.owners) :
    h.typeName ∈ types ∧ p.session.typeAt? h.addr = some (typeNumber types h.typeName) := by
  obtain ⟨-, g, hg, -, hAddr, hName⟩ := hk.grant_of_owns hh
  have hTitle : (⟨h.addr, h.typeName⟩ : Title) ∈ p.session.tokens.titles :=
    List.mem_map.mpr ⟨g, hg, by rw [hAddr, hName]⟩
  obtain ⟨hDeclared, hType⟩ := hk.sound.owner.table.accounts.titled _ hTitle
  exact ⟨hDeclared, hk.typeAt? hType⟩

theorem Keeps.slot_typed (hk : p.Keeps types exports leaks) {e : Entry (Object V)}
    (he : e ∈ p.session.owner.table.store.entries) {buf : Buffer} (hValue : e.value = .refVector buf) :
    ∃ elem ∈ types, e.typeId = typeNumber types (vecTypeName elem) ∧
      ∀ a ∈ e.value.slots p.session.owner.table.heap.memory,
        p.session.typeAt? a = some (typeNumber types elem) := by
  obtain ⟨elem, hSuits, hTyped⟩ := hk.sound.owner.table.accounts.slotted e he
  rw [hValue] at hSuits
  exact ⟨elem, hSuits.1, hSuits.2.2, fun a ha => hk.typeAt? (hTyped a ha)⟩

theorem Keeps.count_owners (hk : p.Keeps types exports leaks) (hQuiet : p.trapped = false) {e : Entry (Object V)}
    (he : e ∈ p.session.owner.table.store.entries) :
    (p.owners.map Handle.addr ++ p.session.slots).count e.addr = 1 := by
  obtain ⟨rfl, hHeld⟩ := hk.quiet hQuiet
  refine List.count_eq_one_of_mem hk.owners_nodup ?_
  have hAddr := hk.sound.owner.table.accounts.owners.mem_iff.mp (List.mem_map_of_mem he)
  rw [List.append_nil, List.nil_append, Tokens.titles, List.map_map] at hAddr
  rcases List.mem_append.mp hAddr with hGrant | hSlot
  · obtain ⟨g, hg, hEq⟩ := List.mem_map.mp hGrant
    obtain ⟨i, hi, hMode, hToken⟩ := hHeld g hg
    have hGrant := ((hk.holds.valid i hi).backed hMode).2.2 g hg hToken.symm
    have hOwner : i.handleOf ∈ p.owners := mem_owners.mpr ⟨i, hi, rfl, owns_of_grant hg hMode hToken⟩
    exact List.mem_append_left _ (List.mem_map.mpr ⟨_, hOwner, hGrant.1.symm.trans hEq⟩)
  · exact List.mem_append_right _ hSlot

theorem step_free (hk : p.Keeps types exports leaks) (place : Nat) :
    ∃ s, p.step (.free place) = { p with session := s } ∧ ∀ g ∈ s.tokens.grants, g ∈ p.session.tokens.grants ∧
      ∀ i, p.held[place]? = some i → i.handleOf.mode = .owned → g.token ≠ i.handleOf.token := by
  unfold step
  rw [Op.perform]
  cases hFound : p.held[place]? with
  | none =>
    refine ⟨p.session, ?_, fun g hg => ⟨hg, by simp⟩⟩
    show { p with session := p.session, held := p.held ++ [] } = _
    rw [List.append_nil]
  | some i =>
    have hi := hk.holds.valid i (List.mem_of_getElem? hFound)
    obtain ⟨s, hFree, -, -, hGrants, hSpent⟩ := Session.exec_free hk.sound hi.backed
    refine ⟨s, ?_, fun g hg => ⟨hGrants g hg, ?_⟩⟩
    · dsimp only
      rw [exec_bind_ok hFree]
      show { p with session := s, held := p.held ++ [] } = _
      rw [List.append_nil]
    · rintro _ ⟨⟩ hMode
      exact hSpent hMode g hg

theorem run_frees (hd : Declared types exports) (hk : p.Keeps types exports leaks) (places : List Nat) :
    ∃ s, p.run (places.map Op.free) = { p with session := s } ∧ ∀ g ∈ s.tokens.grants,
      g ∈ p.session.tokens.grants ∧ ∀ place ∈ places, ∀ i, p.held[place]? = some i → i.handleOf.mode = .owned →
        g.token ≠ i.handleOf.token := by
  induction places generalizing p leaks with
  | nil => exact ⟨p.session, rfl, fun g hg => ⟨hg, List.forall_mem_nil _⟩⟩
  | cons place rest ih =>
    obtain ⟨s₁, hStep, hFirst⟩ := step_free hk place
    obtain ⟨leaks', hk'⟩ := step_keeps hd hk (.free place)
    obtain ⟨s, hRun, hRest⟩ := ih hk'
    rw [hStep] at hRun hRest
    refine ⟨s, ?_, fun g hg => ?_⟩
    · show (p.step (.free place)).run (rest.map Op.free) = _
      rw [hStep, hRun]
    · obtain ⟨hOld, hSpent⟩ := hRest g hg
      exact ⟨(hFirst g hOld).1, List.forall_mem_cons.mpr ⟨(hFirst g hOld).2, hSpent⟩⟩

theorem Keeps.freed (hd : Declared types exports) (hk : p.Keeps types exports leaks) (hQuiet : p.trapped = false)
    {places : List Nat} (hAll : ∀ (n : Nat) (i : Item V), p.held[n]? = some i →
      i.handleOf.owns p.session.tokens = true → n ∈ places) :
    (p.run (places.map Op.free)).session.owner.table.store.entries = [] ∧
      (p.run (places.map Op.free)).session.owner.table.heap.live = [] := by
  obtain ⟨s, hRun, hGrants⟩ := run_frees hd hk places
  obtain ⟨leaks', hk'⟩ := run_keeps hd (places.map Op.free) hk
  rw [hRun] at hk' ⊢
  obtain ⟨rfl, -⟩ := hk'.quiet hQuiet
  -- whoever held a token that is left over has been freed
  have hSpent : s.tokens.grants = [] := by
    refine List.eq_nil_iff_forall_not_mem.mpr fun g hg => ?_
    obtain ⟨hOld, hFreed⟩ := hGrants g hg
    obtain ⟨i, hi, hMode, hToken⟩ := (hk.quiet hQuiet).2 g hOld
    obtain ⟨n, hn⟩ := List.mem_iff_getElem?.mp hi
    exact hFreed n (hAll n i hn (owns_of_grant hOld hMode hToken)) i hn hMode hToken.symm
  have hAccounts : Accounts types s.owner.table.heap s.owner.table.store.entries [] [] [] := by
    have hAll := hk'.sound.owner.table.accounts
    rw [Tokens.titles, hSpent] at hAll
    exact hAll
  have hEntries := hAccounts.entries_eq_nil
  refine ⟨hEntries, ?_⟩
  have hCells := hAccounts.cells
  rw [hEntries] at hCells
  exact List.map_eq_nil_iff.mp hCells.eq_nil

theorem Keeps.stops (hd : Declared types exports) (hk : p.Keeps types exports leaks) {op : Op V} {stop : Stop}
    (h : (exec (op.perform p.held) p.session).1 = .error stop) : op.Stops stop := by
  have hEnds := Session.perform_ends hd hk.sound hk.holds.valid op
  generalize exec (op.perform p.held) p.session = out at h hEnds
  cases hEnds with
  | returned => cases h
  | refused hP => exact Except.error.inj h ▸ hP
  | stopped _ _ hP => exact Except.error.inj h ▸ hP

end Kept

theorem start_keeps {config : Config} {o : Owner V} (hCreate : Owner.create config = .ok o)
    (hLimit : o.table.heap.memory.maxPages ≤ 65535) (rs : List Owner.Registration)
    (hFew : (o.register rs).types.length < 2 ^ 32) :
    Declared (o.register rs).types (o.register rs).exports ∧
      (start (o.register rs)).Keeps (o.register rs).types (o.register rs).exports [] ∧
      (o.register rs).table.store.entries = [] ∧ (o.register rs).table.heap.live = [] := by
  obtain ⟨hd, hOpen, m, hValid, hFresh⟩ := Owner.register_fresh hCreate hLimit rs
  have hAccounts : Accounts (V := V) (o.register rs).types { memory := m } [] [] [] [] :=
    ⟨hFew, hValid, .refl _, .refl _, List.forall_mem_nil _, List.forall_mem_nil _,
      List.forall_mem_nil _, List.forall_mem_nil _⟩
  have hSound : (o.register rs).table.Sound (o.register rs).types [] [] [] := by
    rw [hFresh]
    exact ⟨hAccounts, List.forall_mem_nil _, rfl, rfl⟩
  refine ⟨hd, ⟨?_, .nil _, fun _ => ⟨rfl, List.forall_mem_nil _⟩⟩, by rw [hFresh], by rw [hFresh]⟩
  exact ⟨⟨rfl, rfl, hOpen, hSound⟩, .nil, List.forall_mem_nil _⟩

/-- Single ownership after every run of a caller of a new owner. -/
theorem run_singleOwner (config : Config) {o : Owner V} (hCreate : Owner.create config = .ok o)
    (hLimit : o.table.heap.memory.maxPages ≤ 65535) (rs : List Owner.Registration)
    (hFew : (o.register rs).types.length < 2 ^ 32) (ops : List (Op V)) :
    SingleOwner (start (o.register rs)) ((start (o.register rs)).run ops) := by
  obtain ⟨hd, hStart, hEntries, hLive⟩ := start_keeps hCreate hLimit rs hFew
  obtain ⟨leaks, hk⟩ := run_keeps hd ops hStart
  have hTypes := hk.sound.owner.types_eq
  refine ⟨hk.owners_nodup, hk.unspent_nodup, ?_, ?_, fun _ _ => hk.stops hd, ?_, ?_⟩
  · rw [hTypes]
    exact fun _ => hk.owner_typed
  · rw [hTypes]
    exact fun _ he _ => hk.slot_typed he
  · exact fun hQuiet _ => hk.count_owners hQuiet
  · intro hQuiet places hAll
    obtain ⟨hNone, hBlocks⟩ := hk.freed hd hQuiet hAll
    exact ⟨congrArg List.length (hNone.trans hEntries.symm), hBlocks.trans hLive.symm⟩

/-- A vector is moved into another and out again and then freed, and its address is used for a new object. The
handles that it had before are without effect. -/
theorem run_singleOwner_reused :
    let rs : List Owner.Registration := [.scalars .i32, .objects (vecTypeName Scalar.i32.name), .guests "Point"]
    let ops : List (Op Nat) := [.newVec (.scalars .i32), .push 0 (.datum (.i32 7)),
      .fromList (.handles (vecTypeName Scalar.i32.name)) [.held 0], .pop 1, .free 2, .own "Point" 5, .free 0,
      .free 2]
    ∃ (o : Owner Nat) (p : Play Nat), Owner.create {} = .ok o ∧ o.table.heap.memory.maxPages ≤ 65535 ∧
      (o.register rs).types.length < 2 ^ 32 ∧ p = (start (o.register rs)).run ops ∧
      (p.trapped = false ∧ p.held.map (·.handleOf.addr) = [16, 48, 16, 16] ∧ p.owners.map Handle.addr = [48, 16]) ∧
      SingleOwner (start (o.register rs)) p := by
  intro rs ops
  refine ⟨_, _, rfl, by decide +kernel, by decide +kernel, rfl, by decide +kernel, ?_⟩
  exact run_singleOwner {} rfl (by decide +kernel) rs (by decide +kernel) ops

end Play

end Marshal
