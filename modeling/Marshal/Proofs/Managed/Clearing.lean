import Marshal.Proofs.Managed.Closing
import Marshal.Proofs.Object.Clearing

/-! # Clearing an owner

While an owner is open, clearing its objects is a matter of their addresses. A caller has each object once, so that
what it holds are trees of vectors; if the root of every tree comes first in memory, all objects are dropped and what is
left are the caller's own blocks. A vector that was made after one of its elements is enough for a trap.
-/
set_option autoImplicit false
namespace Marshal

open Step

/-- A trap can be found by evaluation, whatever its words. -/
theorem Step.exists_trapped {σ α : Type} {x : Step σ α} {s : σ} {test : Failure → Bool}
    (h : (match (exec x s).1 with | .error (.trapped why) => test why | _ => false) = true) :
    ∃ why s', exec x s = (.error (.trapped why), s') ∧ test why = true := by
  generalize exec x s = out at h ⊢
  rcases out with ⟨(_ | why | _) | a, s'⟩
  · cases h
  · exact ⟨why, s', rfl, h⟩
  · cases h
  · cases h

/-- Every object has been dropped once, and the blocks that are left are the caller's. -/
structure Table.Emptied {V : Type} (t : Table (Object V)) (own : List UInt32) (t' : Table (Object V)) : Prop where
  objects : t'.store.entries = []
  blocks : t'.heap.addrs.Perm own
  kept : ∀ b ∈ t.heap.live, b.addr ∈ own → b ∈ t'.heap.live
  destroyed : ∃ deeds, t'.journal = t.journal ++ deeds ∧ deeds.Perm (Entries.deeds t.store.entries)
  told : ∃ events, t'.observers = t.observers.map (fun (id, seen) => (id, seen ++ events)) ∧
    events.Perm (Entries.farewells t.store.entries)

theorem Table.Sound.emptied {V : Type} {types : List Text} {titles : List Title} {leaks own : List UInt32}
    {t t' : Table (Object V)} (hs : t.Sound types titles leaks own) (hLoses : t.Loses (.of t.store.entries) t')
    (hEmpty : t'.store.entries = []) : t.Emptied own t' := by
  refine ⟨hEmpty, ?_, fun b hb hOwn => ?_, hLoses.journal, hLoses.told⟩
  · have hCells := (hLoses.of_accounted hs.accounted).cells
    rw [hEmpty] at hCells
    simpa [Entries.blocks] using hCells
  · refine (hLoses.heap.kept b hb fun hBlock => ?_).1
    exact (List.nodup_append.mp hs.accounts.cells_nodup).2.2 b.addr hOwn b.addr hBlock rfl

namespace Play

variable {V : Type} {own : List UInt32} {p : Play V}

theorem Reached.sound (config : Config) {o : Owner V} (hCreate : Owner.create config = .ok o)
    (hLimit : o.table.heap.memory.maxPages ≤ 65535) (rs : List Owner.Registration)
    (hFew : (o.register rs).types.length < 2 ^ 32) (hRun : (Play.start (o.register rs)).Reached p own) :
    ∃ types titles leaks, p.table.Sound types titles leaks own ∧
      p.session.owner.destroyer = Object.destroy false (p.table.store.size + 1) := by
  obtain ⟨hd, hStart, -⟩ := start_keeps hCreate hLimit rs hFew
  obtain ⟨leaks, hh⟩ := hRun.hosts hd ⟨hStart.sound, hStart.holds⟩
  refine ⟨_, _, _, hh.sound.owner.table, ?_⟩
  rw [Owner.destroyer, hh.sound.owner.isOpen]
  rfl

/-- Whatever a caller has done, clearing drops every object once if owners come first in memory, and traps otherwise. -/
theorem Reached.clear_empties_or_traps (config : Config) {o : Owner V} (hCreate : Owner.create config = .ok o)
    (hLimit : o.table.heap.memory.maxPages ≤ 65535) (rs : List Owner.Registration)
    (hFew : (o.register rs).types.length < 2 ^ 32) (hRun : (Play.start (o.register rs)).Reached p own) :
    (p.table.OwnersFirst ∧
        ∃ t', exec (Table.clear p.session.owner.destroyer) p.table = (.ok (), t') ∧ p.table.Emptied own t') ∨
      ¬ p.table.OwnersFirst ∧
        ∃ why t', exec (Table.clear p.session.owner.destroyer) p.table = (.error (.trapped why), t') := by
  obtain ⟨types, titles, leaks, hs, hDestroyer⟩ := hRun.sound config hCreate hLimit rs hFew
  rw [hDestroyer]
  obtain ⟨hFirst, t', hExec, hLoses, hEmpty⟩ | hTraps := hs.exec_clear
  · exact .inl ⟨hFirst, t', hExec, hs.emptied hLoses hEmpty⟩
  · exact .inr hTraps

/-- A vector in a vector, with a string in it: each comes after its owner. The caller has a block itself. -/
theorem Reached.clear_empties_nested :
    let rs : List Owner.Registration := [.strings, .objects (vecTypeName Owner.stringType), .guests "Point"]
    ∃ (o : Owner Nat) (p : Play Nat) (own : List UInt32), Owner.create {} = .ok o ∧
      o.table.heap.memory.maxPages ≤ 65535 ∧ (o.register rs).types.length < 2 ^ 32 ∧
      (Play.start (o.register rs)).Reached p own ∧ (own = [16] ∧ p.trapped = false ∧
      p.table.store.entries.map (fun e => (e.addr, p.table.owned e.addr)) =
        [(160, []), (176, []), (152, [176]), (144, [152])]) ∧
      ∃ t', exec (Table.clear p.session.owner.destroyer) p.table = (.ok (), t') ∧ p.table.Emptied own t' := by
  intro rs
  have hRun {o : Owner Nat} : (Play.start (o.register rs)).Reached _ _ :=
    (Reached.start.subscribe.use (.alloc 100 8) trivial).run [.newVec (.handles (vecTypeName Owner.stringType)),
      .newVec .strings, .fromText "cd", .push 1 (.held 2), .push 0 (.held 1), .own "Point" 5]
  refine ⟨_, _, _, rfl, by decide +kernel, by decide +kernel, hRun, by decide +kernel, ?_⟩
  obtain ⟨-, hEmpties⟩ | ⟨hNot, -⟩ :=
    Reached.clear_empties_or_traps {} rfl (by decide +kernel) rs (by decide +kernel) hRun
  · exact hEmpties
  · exact absurd (Table.ownersFirst_of_all (by decide +kernel)) hNot

/-- A point was made before the vector that it is put in. Clearing traps. So do its two removals one by one: that of the
point succeeds, and that of the vector then finds the point gone. -/
theorem Reached.clear_traps_after_element :
    let rs : List Owner.Registration := [.guests "Point", .objects "Point"]
    ∃ (o : Owner Nat) (p : Play Nat), Owner.create {} = .ok o ∧
      o.table.heap.memory.maxPages ≤ 65535 ∧ (o.register rs).types.length < 2 ^ 32 ∧
      (Play.start (o.register rs)).Reached p [] ∧ (p.trapped = false ∧
      p.table.store.entries.map (fun e => (e.addr, p.table.owned e.addr)) = [(24, [16]), (16, [])]) ∧
      (∃ why t', exec (Table.clear p.session.owner.destroyer) p.table = (.error (.trapped why), t')) ∧
      (exec (Owner.drop 16) p.session.owner).1.isOk = true ∧
      ∃ why o', exec (do Owner.drop 16; Owner.drop 24) p.session.owner = (.error (.trapped why), o') ∧
        why.matchesReport .runtime .doubleFree = true := by
  intro rs
  have hRun {o : Owner Nat} : (Play.start (o.register rs)).Reached _ _ :=
    Reached.start.run [.own "Point" 5, .newVec (.handles "Point"), .push 1 (.held 0)]
  refine ⟨_, _, rfl, by decide +kernel, by decide +kernel, hRun, by decide +kernel, ?_, by decide +kernel,
    exists_trapped (by decide +kernel)⟩
  obtain ⟨types, titles, leaks, hs, hDestroyer⟩ := hRun.sound {} rfl (by decide +kernel) rs (by decide +kernel)
  rw [hDestroyer]
  obtain ⟨hFirst, -⟩ | ⟨-, hTraps⟩ := hs.exec_clear
  · exact absurd hFirst (Table.not_ownersFirst_of_all (a := 24) (b := 16) (by decide +kernel) (by decide +kernel))
  · exact hTraps

end Play

end Marshal
