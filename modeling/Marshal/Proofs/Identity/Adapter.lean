import Marshal.Proofs.Async.Service
import Marshal.Proofs.Identity.Key
import Marshal.Proofs.Identity.Set
import Marshal.Proofs.Managed.Bound
import Marshal.Proofs.Owner.TypeChecks

/-! # Sets of objects

The equality and the hash that a type publishes go by the same key. As long as the objects can be read and keep their
keys, equality is therefore an equivalence that the hash respects, and a set of objects is a set up to equal keys.
-/
set_option autoImplicit false
namespace Marshal

open Step

namespace Owner

variable {V : Type} {o o' : Owner V} {type : OpaqueType} {key : V → Option (List Datum)} {addr : UInt32}
  {k : List Datum}

/-- There is an object of the type at the address, it has the key, and it can be borrowed to be read. -/
def Reads (o : Owner V) (type : OpaqueType) (key : V → Option (List Datum)) (addr : UInt32) (k : List Datum) : Prop :=
  ∃ e, o.entry? addr = some e ∧ e.typeId = type.typeId ∧ (guest? e.value >>= key) = some k ∧ e.exclusive = false

/-- Whatever could be read still can be. -/
def Rereads (o : Owner V) (type : OpaqueType) (key : V → Option (List Datum)) (o' : Owner V) : Prop :=
  ∀ a k, o.Reads type key a k → o'.Reads type key a k

theorem Reads.reread {a : UInt32} (h : o.Reads type key addr k) (hEdits : o.Edits a Entry.reread o') :
    o'.Reads type key addr k := by
  obtain ⟨e, hFound, h⟩ := h
  have hAfter := hEdits addr
  rw [hFound] at hAfter
  split at hAfter
  · exact ⟨e.reread, hAfter, h⟩
  · exact ⟨e, hAfter, h⟩

theorem Reads.exec_keyOf (h : o.Reads type key addr k) :
    ∃ o', exec (keyOf type addr key) o = (.ok k, o') ∧ o.Rereads type key o' := by
  obtain ⟨e, hFound, hType, hKey, hFree⟩ := h
  obtain ⟨hTaken, -⟩ | ⟨o', hExec, hEdits⟩ := exec_keyOf_cases hFound hType hKey
  · cases hFree.symm.trans hTaken
  · exact ⟨o', hExec, fun _ _ h => h.reread hEdits⟩

theorem Reads.exec_equal {a b : UInt32} {ka kb : List Datum} (ha : o.Reads type key a ka) (hb : o.Reads type key b kb)
    (hKeys : a = b → ka = kb) :
    ∃ o', exec (call (.equal type key) [.u32 a, .u32 b]) o = (.ok (.datum (.bool (Key.equal ka kb))), o') ∧
      o.Rereads type key o' := by
  rw [call]
  by_cases hSame : a = b
  · obtain rfl := hKeys hSame
    rw [if_pos hSame, Key.equal_equivalence.refl ka]
    exact ⟨o, rfl, fun _ _ h => h⟩
  · obtain ⟨o₁, hFirst, hs₁⟩ := ha.exec_keyOf
    obtain ⟨o₂, hSecond, hs₂⟩ := (hs₁ b kb hb).exec_keyOf
    rw [if_neg hSame]
    exact ⟨o₂, (exec_bind_ok hFirst).trans (exec_bind_ok hSecond), fun a k h => hs₂ a k (hs₁ a k h)⟩

theorem Reads.exec_hash (h : o.Reads type key addr k) :
    ∃ o', exec (call (.hash type key) [.u32 addr]) o = (.ok (.datum (.u64 (Key.hash k))), o') ∧
      o.Rereads type key o' := by
  obtain ⟨o', hKey, hs⟩ := h.exec_keyOf
  exact ⟨o', exec_bind_ok hKey, hs⟩

theorem export?_of_exportAs {name : Text} {f : Export V} (h : exec (exportAs name f) o = (.ok (), o')) :
    o.export? name = none ∧ ∀ symbol, o'.export? symbol = if name = symbol then some f else o.export? symbol := by
  obtain ⟨why, hExec⟩ | ⟨hExec, hNew⟩ := exec_exportAs_cases name f o
  · cases hExec.symm.trans h
  · cases hExec.symm.trans h
    exact ⟨hNew, export?_append hNew f⟩

theorem export?_of_exportIdentity (h : exec (exportIdentity type key) o = (.ok (), o')) :
    o'.export? (Symbol.ofType type.name Symbol.partialEq) = some (.equal type key) ∧
      o'.export? (Symbol.ofType type.name Symbol.hash) = some (.hash type key) := by
  obtain ⟨_, o₁, hFirst, hSecond⟩ := exec_bind_eq_ok.mp h
  obtain ⟨-, hEqual⟩ := export?_of_exportAs hFirst
  obtain ⟨hNew, hHash⟩ := export?_of_exportAs hSecond
  have hFound : o₁.export? (Symbol.ofType type.name Symbol.partialEq) = some (.equal type key) := by
    rw [hEqual, if_pos rfl]
  have hNe : Symbol.ofType type.name Symbol.hash ≠ Symbol.ofType type.name Symbol.partialEq := by
    intro hSame
    rw [hSame, hFound] at hNew
    cases hNew
  rw [hHash, hHash, if_neg hNe, if_pos rfl]
  exact ⟨hFound, rfl⟩

end Owner

variable {V α : Type} {type : OpaqueType} {key : V → Option (List Datum)} {s : Session V}

/-- The objects at the addresses can be read and have these keys. -/
def Session.Keyed (type : OpaqueType) (key : V → Option (List Datum)) (dom : UInt32 → Prop) (k : UInt32 → List Datum)
    (s : Session V) : Prop :=
  ∀ a, dom a → s.owner.Reads type key a (k a)

theorem Session.Keyed.same {dom : UInt32 → Prop} {k : UInt32 → List Datum} {o : Owner V} (h : s.Keyed type key dom k)
    (hs : s.owner.Rereads type key o) : { s with owner := o }.Keyed type key dom k := fun a ha => hs _ _ (h a ha)

namespace Adapter

def ofKey (type : OpaqueType) (key : V → Option (List Datum)) : Adapter V :=
  ⟨type.name, .equal type key, some (.hash type key)⟩

theorem exec_resolve_ofKey
    (hEqual : s.symbols.lookup (Symbol.ofType type.name Symbol.partialEq) = some (.equal type key))
    (hHash : s.symbols.lookup (Symbol.ofType type.name Symbol.hash) = some (.hash type key)) :
    exec (resolve type.name) s = (.ok (ofKey type key), s) := by
  have hFirst := Session.exec_resolve hEqual (Eq.refl (⟨[.address, .address], some .bool⟩ : FunctionType))
  rw [resolve, exec_bind_ok hFirst, exec_bind_ok (exec_get s), hHash]
  exact exec_bind_ok (Session.exec_resolve hHash rfl)

theorem lawful_ofKey (type : OpaqueType) (key : V → Option (List Datum)) (addr : α → UInt32) (dom : UInt32 → Prop)
    (k : UInt32 → List Datum) :
    ((ofKey type key).hooks addr).Lawful (Session.Keyed type key dom k) (fun x => dom (addr x))
      (fun x y => Key.equal (k (addr x)) (k (addr y))) (fun x => Key.hash (k (addr x))) where
  equal := by
    intro s x y hs hx hy
    obtain ⟨o, hCall, hSame⟩ := (hs _ hx).exec_equal (hs _ hy) (congrArg k)
    exact ⟨_, exec_bind_ok (Session.exec_onOwner hCall), hs.same hSame⟩
  hash := by
    intro s x hs hx
    obtain ⟨o, hCall, hSame⟩ := (hs _ hx).exec_hash
    exact ⟨_, exec_bind_ok (Session.exec_onOwner hCall), hs.same hSame⟩
  refl := fun x _ => Key.equal_equivalence.refl _
  symm := fun x y _ _ => Key.equal_equivalence.symm
  trans := fun x y z _ _ _ => Key.equal_equivalence.trans
  code_eq := fun x y _ _ hSame => congrArg Digest.xxh3 (Key.encode_eq_of_equal hSame)

end Adapter

namespace IdentitySet

/-- Whatever a set is asked, and however the hashes collide, it is a set up to equality if equality is an equivalence
and equal elements have one hash. What a type publishes by a key is of this kind while the objects keep their keys. -/
theorem refines_set_modulo_equality :
    (∀ {σ α : Type} (hooks : Hooks σ α) (inv : σ → Prop) (dom : α → Prop) (same : α → α → Bool) (code : α → UInt64),
      hooks.Lawful inv dom same code → ∀ set, Reached hooks inv dom set → set.IsSetModulo hooks inv dom same) ∧
    ∀ {V α : Type} (type : OpaqueType) (key : V → Option (List Datum)) (s s' : Session V),
      exec (Session.onOwner (Owner.exportIdentity type key)) s = (.ok (), s') →
      ∃ a : Adapter V, exec (Adapter.resolve type.name) s' = (.ok a, s') ∧ a.newSet (α := α) = .ok {} ∧
        ∀ (addr : α → UInt32) (dom : UInt32 → Prop) (k : UInt32 → List Datum),
          (a.hooks addr).Lawful (Session.Keyed type key dom k) (fun x => dom (addr x))
            (fun x y => Key.equal (k (addr x)) (k (addr y))) (fun x => Key.hash (k (addr x))) := by
  constructor
  · intro σ α hooks inv dom same code hl set hRun
    exact (hRun.sound hl).isSetModulo hl
  · intro V α type key s s' hExec
    rcases hOwner : exec (Owner.exportIdentity type key) s.owner with ⟨r, o⟩
    cases (Session.exec_onOwner hOwner).symm.trans hExec
    obtain ⟨hEqual, hHash⟩ := Owner.export?_of_exportIdentity hOwner
    exact ⟨.ofKey type key, Adapter.exec_resolve_ofKey hEqual hHash, rfl, Adapter.lawful_ofKey type key⟩

def lastDigit : Hooks Unit Nat := { equal := fun x y => pure (x % 10 == y % 10), hash := fun _ => pure 0 }

theorem lawful_lastDigit :
    lastDigit.Lawful (fun _ => True) (fun _ => True) (fun x y => x % 10 == y % 10) (fun _ => 0) where
  equal := fun s x y _ _ _ => ⟨s, rfl, trivial⟩
  hash := fun s x _ _ => ⟨s, rfl, trivial⟩
  refl := fun x _ => beq_self_eq_true _
  symm := fun x y _ _ h => by rw [beq_iff_eq] at h ⊢; exact h.symm
  trans := fun x y z _ _ _ h h' => by rw [beq_iff_eq] at h h' ⊢; exact h.trans h'
  code_eq := fun _ _ _ _ _ => rfl

def twoObjects : Owner Nat :=
  { table :=
      { heap := .create .linear 1 1
        store := { entries := [⟨16, 1, .guest 7, 0, false⟩, ⟨24, 1, .guest 17, 0, false⟩] } }
    types := ["P"]
    executor := .create 1
    config := {} }

theorem refines_set_modulo_equality_lastDigit :
    (∃ set, Reached lastDigit (fun _ => True) (fun _ => True) set ∧ set.toList = [1, 33] ∧
      set.IsSetModulo lastDigit (fun _ => True) (fun _ => True) (fun x y => x % 10 == y % 10)) ∧
    ∃ (s : Session Nat) (a : Adapter Nat), exec (Adapter.resolve "P") s = (.ok a, s) ∧
      s.Keyed ⟨"P", 1⟩ (fun n => some [.u64 (n % 10).toUInt64]) (· ∈ [16, 24]) (fun _ => [.u64 7]) ∧
      (a.hooks id).Lawful
        (Session.Keyed ⟨"P", 1⟩ (fun n => some [.u64 (n % 10).toUInt64]) (· ∈ [16, 24]) fun _ => [.u64 7])
        (· ∈ [16, 24]) (fun _ _ => Key.equal [.u64 7] [.u64 7]) (fun _ => Key.hash [.u64 7]) := by
  constructor
  · have hRun : Reached lastDigit (fun _ => True) (fun _ => True) {} := .empty
    have hRun := hRun.step (.add 1) trivial (s := ()) trivial rfl
    have hRun := hRun.step (.add 12) trivial (s := ()) trivial rfl
    have hRun := hRun.step (.add 21) trivial (s := ()) trivial rfl
    have hRun := hRun.step (.remove 2) trivial (s := ()) trivial rfl
    have hRun := hRun.step (.add 33) trivial (s := ()) trivial rfl
    exact ⟨_, hRun, rfl, refines_set_modulo_equality.1 _ _ _ _ _ lawful_lastDigit _ hRun⟩
  · obtain ⟨a, hResolve, -, hLawful⟩ := refines_set_modulo_equality.2 (α := UInt32) ⟨"P", 1⟩
      (fun n : Nat => some [.u64 (n % 10).toUInt64]) { owner := twoObjects } _ rfl
    refine ⟨_, a, hResolve, ?_, hLawful id _ _⟩
    intro addr hAddr
    simp only [List.mem_cons, List.not_mem_nil, or_false] at hAddr
    obtain rfl | rfl := hAddr
    · exact ⟨⟨16, 1, .guest 7, 0, false⟩, rfl, rfl, rfl, rfl⟩
    · exact ⟨⟨24, 1, .guest 17, 0, false⟩, rfl, rfl, rfl, rfl⟩

end IdentitySet

end Marshal
