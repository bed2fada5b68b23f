import Marshal.Proofs.Managed.Bound
import Marshal.Proofs.Owner.Intact

/-! # Strings across the boundary

A string made from a text takes a cell and, unless the text is empty, a buffer. The text goes in through a block of its
own, which is freed however the call ends, and every allocation on the way can fail: then all that was taken is given
back. A string that was made reads as its text until it is taken out, and freeing it gives back what it takes.
-/
set_option autoImplicit false
namespace Marshal

open Step

namespace Owner

variable {V : Type} {o o' : Owner V} {addr ptr : UInt32} {t : Text} {h h' : Heap}

/-! ## Reading -/

theorem Intact.exec_mustGet (hi : o.Intact addr ptr t) (hs : o.Solvent []) :
    exec (mustGet stringType addr string?) o = (.ok (ptr, t.length.toUInt32), o) := by
  obtain ⟨e, he, rfl, hType, hValue⟩ := hi.entry
  have hFound : o.entry? e.addr = some e := Store.entry?_of_mem hs.table.addrs_nodup he
  exact Owner.exec_mustGet hi.declared hFound hType (by rw [hValue]; rfl)

/-! ## Making -/

/-- What becomes of an owner that was asked for a string: its heap is as it was but for what is free in it, or it has
got the string. -/
def Makes (o : Owner V) (room : Nat) (t : Text) (out : Except Stop UInt32 × Owner V) : Prop :=
  (∃ why h, out = (.error (.trapped why), o.withHeap h) ∧ Heap.Replaced o.table.heap [] [] h ∧
      (o.closed = true ∨ o.table.heap.Cramped room)) ∨
    ∃ addr ptr h o', out = (.ok addr, o') ∧ o.closed = false ∧ Stocked o.table.heap addr ptr t h ∧
      o.Turned h ({ addr, typeId := typeNumber o.types stringType, value := .string ptr t.length.toUInt32 } ::
        o.table.store.entries) o'

theorem Solvent.stocked (hs : o.Solvent []) (hStocked : Stocked o.table.heap addr ptr t h) {id len : UInt32}
    (ht : o.Turned h ({ addr, typeId := id, value := .string ptr len } :: o.table.store.entries) o') :
    o'.Solvent [] := by
  obtain ⟨spare, ha⟩ := hs.table.accounted
  have hr := hStocked.replaced
  refine ⟨ht.closed_eq.trans hs.isOpen, ?_, spare, ?_, ?_, ?_⟩
  · rw [ht.table.closed.1, ht.table.closed.2]
    exact hs.table.isOpen
  · rw [ht.table.heap]
    exact hr.valid
  · have hBlocks : (Entries.blocks o'.table.store.entries).Perm
        (addr :: Heap.blockAt ptr ++ Entries.blocks o.table.store.entries) := ht.table.entries.flatMap_right _
    have hLive := hr.live
    rw [List.append_nil] at hLive
    rw [ht.table.heap]
    refine (hLive.trans (ha.cells.append_left _)).trans (List.Perm.trans ?_ (hBlocks.symm.append_left _))
    exact List.perm_append_comm_assoc ..
  · intro e he
    rw [ht.table.heap]
    rcases List.mem_cons.mp (ht.table.entries.mem_iff.mp he) with rfl | he
    · trivial
    · exact (ha.fits e he).of_live fun b hb _ => (hr.kept b hb List.not_mem_nil).1

theorem Stocked.given_back {h₁ h₂ h₃ : Heap} {scratch : UInt32} {data : List UInt8}
    (hc : Heap.Copied h data scratch h₁) (hStocked : Stocked h₁ addr ptr t h₂)
    (hBack : Heap.Replaced h₂ (Heap.blockAt scratch) [] h₃) : Stocked h addr ptr t h₃ := by
  refine ⟨hStocked.toStringIn.kept (hBack.keeps fun b hb hMem => ?_), hc.given_back hStocked.replaced hBack⟩
  refine hStocked.replaced.not_mem_new (hc.addr_live _ hMem) List.not_mem_nil ?_
  rw [← hStocked.addrs]
  exact List.mem_map_of_mem hb

variable {out : Except Stop UInt32 × Owner V}

theorem Makes.mono {n m : Nat} (hm : o.Makes n t out) (hLe : n ≤ m) : o.Makes m t out := by
  rcases hm with ⟨why, h, hOut, hr, hCause⟩ | hMade
  · refine .inl ⟨why, h, hOut, hr, hCause.imp id ?_⟩
    rintro ⟨new, h₁, size, align, hFew, hRefuses⟩
    exact ⟨new, h₁, size, align, Nat.le_trans hFew hLe, hRefuses⟩
  · exact .inr hMade

theorem Makes.given_back {n : Nat} {scratch : UInt32} {data : List UInt8}
    (hc : Heap.Copied o.table.heap data scratch h) (hm : (o.withHeap h).Makes n t out) :
    ∃ h', exec (Heap.release scratch) out.2.table.heap = (.ok (), h') ∧
      o.Makes (n + 1) t (out.1, out.2.withHeap h') := by
  rcases hm with ⟨why, h₂, rfl, hr, hCause⟩ | ⟨addr, ptr, h₂, o₂, rfl, hOpen, hStocked, ht⟩
  · obtain ⟨h', hRelease, hBack⟩ := hc.exec_release hr
    exact ⟨h', hRelease, .inl ⟨why, h', rfl, hc.given_back hr hBack, hCause.imp id hc.cramped⟩⟩
  · obtain ⟨h', hRelease, hBack⟩ := hc.exec_release hStocked.replaced
    refine ⟨h', by rw [ht.table.heap]; exact hRelease, ?_⟩
    refine .inr ⟨addr, ptr, h', o₂.withHeap h', rfl, hOpen, hStocked.given_back hc hBack, ?_⟩
    exact ⟨⟨rfl, ht.table.entries, ht.table.closed⟩, ht.types_eq, ht.exports_eq, ht.closed_eq⟩

end Owner

namespace StringOps

variable {V : Type} {s : Session V} {ops : StringOps V} {t : Text}

def hold (ops : StringOps V) (addr : UInt32) (tokens : Tokens) : OwnedString V :=
  ⟨ops, (Handle.own Owner.stringType addr (some ops.free) tokens).1⟩

def lifted (ops : StringOps V) (s : Session V) :
    Except Stop UInt32 × Owner V → Except Stop (OwnedString V) × Session V
  | (.error stop, o) => (.error stop, { s with owner := o })
  | (.ok addr, o) =>
    (.ok (ops.hold addr s.tokens), { s with owner := o, tokens := (s.tokens.mint Owner.stringType addr).2 })

end StringOps

theorem Handle.free_of_owns {δ : Type} {h : Handle δ} {tokens : Tokens} (hOwns : h.owns tokens = true)
    (hNull : h.addr ≠ 0) :
    ∃ tokens', h.free tokens = (h.destructor.map (·, h.addr), tokens') ∧ h.owns tokens' = false := by
  obtain ⟨tokens', hSpend, hSpent, -⟩ := spend?_of_owns hOwns
  exact ⟨tokens', by rw [Handle.free, hSpend, if_neg hNull], hSpent⟩

namespace OwnedString

variable {V : Type} {s : Session V} {str : OwnedString V} {types : List Text} {ptr : UInt32} {t : Text}

/-! ## Reading and freeing -/

theorem exec_len (ho : str.ops.Serves types) (hs : s.owner.Solvent []) (hi : s.owner.Intact str.addr ptr t) :
    ∃ n, exec str.len s = (.ok n, s) ∧ n.toNat = t.length := by
  obtain ⟨type, hOp⟩ := ho.len
  have hCall : exec (Owner.call str.ops.len [.u32 str.addr]) s.owner =
      (.ok (.datum (.usize t.length.toUInt32.toUInt64)), s.owner) := by
    rw [hOp]
    exact exec_bind_ok (hi.exec_mustGet hs)
  refine ⟨t.length.toUInt32.toUInt64, exec_bind_ok (Session.exec_onOwner hCall), ?_⟩
  rw [UInt32.toNat_toUInt64, hi.heap.text.length_toNat hs.table.valid]

/-- Freeing takes out the entry of the string and gives back its blocks, and nothing else. -/
structure Freed (s : Session V) (str : OwnedString V) (ptr : UInt32) (t : Text) (s' : Session V) : Prop where
  entries : ∃ e, e.addr = str.addr ∧ e.value = .string ptr t.length.toUInt32 ∧
    s.owner.table.store.entries.Perm (e :: s'.owner.table.store.entries)
  live : s.owner.table.heap.live.Perm (Owner.stringBlocks str.addr ptr t ++ s'.owner.table.heap.live)
  spent : str.handle.owns s'.tokens = false

theorem exec_free (hFree : str.handle.destructor = some .destructor) (hOwns : str.handle.owns s.tokens = true)
    (hs : s.owner.Solvent []) (hi : s.owner.Intact str.addr ptr t) (hIdle : s.owner.table.isFree str.addr = true) :
    ∃ s', exec (Session.free str.handle) s = (.ok (), s') ∧ Freed s str ptr t s' := by
  have hv := hs.table.valid
  obtain ⟨e, he, hAddr, -, hValue⟩ := hi.entry
  have hUnborrowed : e.shared = 0 ∧ e.exclusive = false := by
    obtain ⟨e', hFound, hFree'⟩ := Table.isFree_eq_true_iff.mp hIdle
    have hSame := Store.entry?_of_mem hs.table.addrs_nodup he
    rw [hAddr, hFound] at hSame
    rw [Option.some.inj hSame] at hFree'
    simpa [Entry.isBorrowed] using hFree'
  obtain ⟨rest, h, o', hDrop, hAt, hr, ht⟩ := Owner.exec_drop_turned hs.lodges he hUnborrowed (by rw [hValue]; trivial)
  rw [hAddr] at hDrop hr
  obtain ⟨tokens, hSpent, hGone⟩ := Handle.free_of_owns hOwns (hv.live_addr_ne_zero hi.heap.cell)
  rw [hFree] at hSpent
  have hCall : exec (Session.call .destructor [.u32 str.addr]) { s with tokens } =
      (.ok .none, { s with owner := o', tokens }) := Session.exec_onOwner (exec_bind_ok hDrop)
  refine ⟨{ s with owner := o', tokens }, ?_,
    ⟨e, hAddr, hValue, hAt.trans (ht.table.entries.symm.cons e)⟩, ?_, hGone⟩
  · rw [Session.free, exec_bind_ok (exec_get s), hSpent]
    exact exec_bind_ok hCall
  · have hBlocks : str.addr :: e.value.blocks = (Owner.stringBlocks str.addr ptr t).map Block.addr := by
      rw [hi.heap.addrs, hValue]
      rfl
    rw [hBlocks] at hr
    have hPerm := hr.live_perm hv _ [] hi.heap.live (List.forall_mem_nil _) fun _ _ => List.not_mem_nil
    show s.owner.table.heap.live.Perm (_ ++ o'.table.heap.live)
    rw [ht.table.heap]
    exact hPerm.symm.trans List.perm_append_comm

end OwnedString

def StringOps.ofType {V : Type} (type : OpaqueType) : StringOps V where
  new := .string type .new
  newWithStr := .string type .newWithStr
  len := .string type .len
  asStr := .string type .asStr
  asPtr := .string type .asPtr
  trim := .string type .trim
  free := .destructor
  viewEqual := .string type .viewEqual

end Marshal
