import Marshal.Managed.Session
import Marshal.Proofs.Owner.Calls

/-! # Tokens and titles

Every unspent token is a title to an object. A token is minted once and spent once, so later tokens never
stand for what an earlier one stood for: a handle that was freed or moved stays without effect, even when its
address is in use again.
-/
set_option autoImplicit false
namespace Marshal

namespace Tokens

variable {t t' t'' : Tokens}

structure Valid (t : Tokens) : Prop where
  nodup : (t.grants.map Grant.token).Nodup
  below : ∀ g ∈ t.grants, g.token < t.next

def titles (t : Tokens) : List Title := t.grants.map fun g => ⟨g.addr, g.typeName⟩

/-- Tokens have been spent, and new ones minted. -/
structure Follows (t t' : Tokens) : Prop where
  next_le : t.next ≤ t'.next
  grants : ∀ g ∈ t'.grants, g ∈ t.grants ∨ t.next ≤ g.token

theorem Follows.refl (t : Tokens) : t.Follows t := ⟨Nat.le_refl _, fun _ hg => .inl hg⟩

theorem Follows.trans (h : t.Follows t') (h' : t'.Follows t'') : t.Follows t'' := by
  refine ⟨Nat.le_trans h.next_le h'.next_le, fun g hg => ?_⟩
  rcases h'.grants g hg with hOld | hNew
  · exact h.grants g hOld
  · exact .inr (Nat.le_trans h.next_le hNew)

theorem mint_valid (hv : t.Valid) (name : Text) (addr : UInt32) : (t.mint name addr).2.Valid := by
  constructor
  · refine List.nodup_cons.mpr ⟨?_, hv.nodup⟩
    intro hMem
    obtain ⟨g, hg, hToken⟩ := List.mem_map.mp hMem
    exact Nat.lt_irrefl _ (hToken ▸ hv.below g hg)
  · intro g hg
    rcases List.mem_cons.mp hg with rfl | hg
    · exact Nat.lt_succ_self _
    · exact Nat.lt_succ_of_lt (hv.below g hg)

theorem mint_follows (t : Tokens) (name : Text) (addr : UInt32) : t.Follows (t.mint name addr).2 := by
  refine ⟨Nat.le_succ _, fun g hg => ?_⟩
  rcases List.mem_cons.mp hg with rfl | hg
  · exact .inr (Nat.le_refl _)
  · exact .inl hg

theorem spend?_eq_some {token : Nat} (hv : t.Valid) (h : t.spend? token = some t') :
    ∃ g ∈ t.grants, g.token = token ∧ t.titles.Perm (⟨g.addr, g.typeName⟩ :: t'.titles) ∧ t'.Valid ∧
      t'.next = t.next ∧ ∀ g' ∈ t'.grants, g' ∈ t.grants ∧ g'.token ≠ token := by
  unfold spend? at h
  split at h
  · rename_i hHeld
    obtain rfl := Option.some.inj h
    obtain ⟨g, hg, hToken⟩ := List.any_eq_true.mp hHeld
    obtain rfl : g.token = token := of_decide_eq_true hToken
    refine ⟨g, hg, rfl, ?_, ?_, rfl, ?_⟩
    · exact (perm_cons_filter Grant.token hv.nodup hg).map _
    · exact ⟨hv.nodup.sublist (List.filter_sublist.map _), fun g' hg' => hv.below g' (List.mem_filter.mp hg').1⟩
    · intro g' hg'
      obtain ⟨hMem, hNe⟩ := List.mem_filter.mp hg'
      exact ⟨hMem, of_decide_eq_true hNe⟩
  · cases h

end Tokens

namespace Handle

theorem spend?_of_owns {δ : Type} {h : Handle δ} {t : Tokens} (hOwns : h.owns t = true) :
    ∃ t', h.spend? t = some t' ∧ h.owns t' = false ∧
      ∀ h' : Handle δ, h'.token ≠ h.token → h'.owns t' = h'.owns t := by
  obtain ⟨hMode, hHeld⟩ := (Bool.and_eq_true _ _).mp hOwns
  refine ⟨_, by rw [spend?, if_pos (of_decide_eq_true hMode), Tokens.spend?, if_pos hHeld], ?_, fun h' hNe => ?_⟩
  · have hGone : (t.grants.filter (·.token ≠ h.token)).any (·.token = h.token) = false := by simp
    rw [owns, Tokens.isHeld, hGone, Bool.and_false]
  · have hKept : (t.grants.filter (·.token ≠ h.token)).any (·.token = h'.token) = t.isHeld h'.token := by
      rw [Tokens.isHeld, List.any_filter]
      refine congrArg t.grants.any (funext fun g => ?_)
      by_cases hToken : g.token = h'.token <;> simp [hToken, hNe]
    rw [owns, owns, Tokens.isHeld, hKept]

theorem spend?_of_not_owns {δ : Type} {h : Handle δ} {t : Tokens} (hSpent : h.owns t = false) : h.spend? t = none := by
  unfold spend?
  split
  · rename_i hMode
    have hGone : t.isHeld h.token = false := by simpa [owns, hMode] using hSpent
    rw [Tokens.spend?, hGone]
    rfl
  · rfl

variable {V : Type} {t t' : Tokens} {h : Handle (Export V)}

/-- While the token of an owning handle is unspent, it gives a right to what the handle names. -/
def Backed (t : Tokens) (h : Handle (Export V)) : Prop :=
  h.mode = .owned → h.token < t.next ∧ h.destructor = some .destructor ∧
    ∀ g ∈ t.grants, g.token = h.token → g.addr = h.addr ∧ g.typeName = h.typeName

theorem Backed.follows (hb : h.Backed t) (hf : t.Follows t') : h.Backed t' := by
  intro hOwned
  obtain ⟨hBelow, hDestructor, hGrants⟩ := hb hOwned
  refine ⟨Nat.lt_of_lt_of_le hBelow hf.next_le, hDestructor, fun g hg hToken => ?_⟩
  rcases hf.grants g hg with hOld | hNew
  · exact hGrants g hOld hToken
  · omega

theorem backed_of_mode (hMode : h.mode ≠ .owned) (t : Tokens) : h.Backed t := fun hOwned => absurd hOwned hMode

theorem Backed.spend? (hb : h.Backed t) (hv : t.Valid) (hSpend : h.spend? t = some t') :
    h.mode = .owned ∧ t.titles.Perm (⟨h.addr, h.typeName⟩ :: t'.titles) ∧ t'.Valid ∧ t.Follows t' ∧
      ∀ g ∈ t'.grants, g ∈ t.grants ∧ g.token ≠ h.token := by
  unfold Handle.spend? at hSpend
  split at hSpend
  · rename_i hOwned
    obtain ⟨g, hg, hToken, hPerm, hv', hNext, hGrants⟩ := Tokens.spend?_eq_some hv hSpend
    obtain ⟨hAddr, hName⟩ := (hb hOwned).2.2 g hg hToken
    rw [hAddr, hName] at hPerm
    exact ⟨hOwned, hPerm, hv', ⟨Nat.le_of_eq hNext.symm, fun g hg => .inl (hGrants g hg).1⟩, hGrants⟩
  · cases hSpend

end Handle

namespace Owner

theorem Sound.perm_titles {V : Type} {types : List Text} {exports : List (Text × Export V)}
    {titles titles' : List Title} {leaks spare : List UInt32} {o : Owner V}
    (hs : o.Sound types exports titles leaks spare) (hPerm : titles.Perm titles') :
    o.Sound types exports titles' leaks spare :=
  hs.setTable ⟨hs.table.accounts.perm_titles hPerm, hs.table.unborrowed, hs.table.isOpen⟩

end Owner

namespace Session

open Step

variable {V α β : Type} {types : List Text} {exports : List (Text × Export V)} {extra : List Title}
  {leaks spare : List UInt32} {s : Session V}

/-- The owner is sound, and the titles are those of the unspent tokens and some in flight. -/
structure Sound (types : List Text) (exports : List (Text × Export V)) (s : Session V) (extra : List Title)
    (leaks spare : List UInt32) : Prop where
  owner : s.owner.Sound types exports (extra ++ s.tokens.titles) leaks spare
  tokens : s.tokens.Valid

theorem exec_onOwner {x : Step (Owner V) α} {r : Except Stop α} {o : Owner V} (hExec : exec x s.owner = (r, o)) :
    exec (onOwner x) s = (r, { s with owner := o }) := by
  rw [onOwner, exec_within, hExec]

theorem exec_onHeap {x : Step Heap α} {r : Except Stop α} {h : Heap}
    (hExec : exec x s.owner.table.heap = (r, h)) :
    exec (onHeap x) s = (r, { s with owner := s.owner.withHeap h }) :=
  exec_onOwner (Owner.exec_onHeap hExec)

theorem exec_lift_owned {name : Text} {addr : UInt32} (hs : s.Sound types exports [⟨addr, name⟩] leaks spare) :
    ∃ h s', exec (lift name addr .owned .destructor) s = (.ok h, s') ∧ s'.Sound types exports [] leaks spare ∧
      h.Backed s'.tokens ∧ h.token = s.tokens.next ∧ s.tokens.Follows s'.tokens ∧
      ∀ g ∈ s'.tokens.grants, g ∈ s.tokens.grants ∨ h.mode = .owned ∧ h.token = g.token := by
  refine ⟨_, _, rfl, ⟨hs.owner, Tokens.mint_valid hs.tokens name addr⟩, ?_, rfl, Tokens.mint_follows .., ?_⟩
  · intro _
    refine ⟨Nat.lt_succ_self _, rfl, ?_⟩
    intro g hg hToken
    rcases List.mem_cons.mp hg with rfl | hg
    · exact ⟨rfl, rfl⟩
    · exact absurd (hs.tokens.below g hg) (Nat.not_lt.mpr (Nat.le_of_eq hToken.symm))
  · intro g hg
    rcases List.mem_cons.mp hg with rfl | hg
    · exact .inr ⟨rfl, rfl⟩
    · exact .inl hg

theorem exec_lift_borrowed {mode : Mode} (hMode : mode ≠ .owned) (name : Text) (addr : UInt32)
    (release : Export V) (s : Session V) :
    ∃ h, exec (lift name addr mode release) s = (.ok h, s) ∧ h.mode ≠ .owned := by
  cases mode with
  | owned => exact absurd rfl hMode
  | borrowed => exact ⟨_, rfl, hMode⟩
  | borrowedMut => exact ⟨_, rfl, hMode⟩

variable {h : Handle (Export V)}

theorem Sound.spend? {t : Tokens} (hs : s.Sound types exports [] leaks spare) (hb : h.Backed s.tokens)
    (hSpend : h.spend? s.tokens = some t) :
    Sound types exports { s with tokens := t } [⟨h.addr, h.typeName⟩] leaks spare := by
  obtain ⟨-, hPerm, hv, -⟩ := hb.spend? hs.tokens hSpend
  exact ⟨hs.owner.perm_titles hPerm, hv⟩

theorem exec_free (hs : s.Sound types exports [] leaks spare) (hb : h.Backed s.tokens) :
    ∃ s', exec (free h) s = (.ok (), s') ∧ s'.Sound types exports [] leaks spare ∧
      s.tokens.Follows s'.tokens ∧ (∀ g ∈ s'.tokens.grants, g ∈ s.tokens.grants) ∧
      (h.mode = .owned → ∀ g ∈ s'.tokens.grants, g.token ≠ h.token) := by
  unfold free
  rw [exec_bind_ok (exec_get s)]
  cases hSpend : h.spend? s.tokens with
  | none =>
    have hFree : h.free s.tokens = (none, s.tokens) := by rw [Handle.free, hSpend]
    refine ⟨s, ?_, hs, .refl _, fun _ hg => hg, ?_⟩
    · rw [hFree]
      rfl
    · -- a handle that owns and cannot spend has spent its token before
      intro hOwned g hg hToken
      rw [Handle.spend?, if_pos hOwned, Tokens.spend?] at hSpend
      have hHeld : s.tokens.isHeld h.token = true := List.any_eq_true.mpr ⟨g, hg, by simpa using hToken⟩
      rw [if_pos hHeld] at hSpend
      cases hSpend
  | some t =>
    obtain ⟨hOwned, -, -, hf, hGrants⟩ := hb.spend? hs.tokens hSpend
    have hSpent := hs.spend? hb hSpend
    have hNull : h.addr ≠ 0 := Object.title_ne_zero hSpent.owner.table
    have hFree : h.free s.tokens = (some (.destructor, h.addr), t) := by
      rw [Handle.free, hSpend, if_neg hNull, (hb hOwned).2.1]
      rfl
    obtain ⟨o, hDrop, hOwner⟩ := Owner.exec_call_destructor hSpent.owner
    refine ⟨{ s with tokens := t, owner := o }, ?_, ⟨hOwner, hSpent.tokens⟩, hf,
      fun g hg => (hGrants g hg).1, fun _ g hg => (hGrants g hg).2⟩
    rw [hFree]
    have hCall : exec (call .destructor [.u32 h.addr]) { s with tokens := t } =
        (.ok .none, { s with tokens := t, owner := o }) := exec_onOwner hDrop
    exact exec_bind_ok hCall

theorem exec_mustTransfer_cases (hs : s.Sound types exports [] leaks spare) (hb : h.Backed s.tokens) :
    (∃ why, exec (mustTransfer h) s = (.error (.trapped why), s)) ∨
      ∃ s', exec (mustTransfer h) s = (.ok h.addr, s') ∧
        s'.Sound types exports [⟨h.addr, h.typeName⟩] leaks spare ∧ s.tokens.Follows s'.tokens ∧
        ∀ g ∈ s'.tokens.grants, g ∈ s.tokens.grants := by
  unfold mustTransfer
  rw [exec_bind_ok (exec_get s), Handle.mustTransfer]
  cases hSpend : h.spend? s.tokens with
  | none => exact .inl ⟨_, rfl⟩
  | some t =>
    obtain ⟨-, -, -, hf, hGrants⟩ := hb.spend? hs.tokens hSpend
    exact .inr ⟨{ s with tokens := t }, rfl, hs.spend? hb hSpend, hf, fun g hg => (hGrants g hg).1⟩

end Session

end Marshal
