import Marshal.Proofs.Owner.Lodging
import Marshal.Proofs.Owner.Vectors

/-! # Exported functions

What a call of an exported function does to the titles: a constructor gives one, the destructor spends one, a
push and a pop move one, and looking at an element changes nothing.
-/
set_option autoImplicit false
namespace Marshal
namespace Owner

open Step

variable {V : Type} {types : List Text} {exports : List (Text × Export V)} {titles : List Title}
  {leaks spare : List UInt32} {o : Owner V}

/-- The function answers with the address of a new object of the type, or stops and changes no ownership. -/
def Creates (types : List Text) (exports : List (Text × Export V)) (f : Export V) (args : List Datum)
    (name : Text) : Prop :=
  ∀ (o : Owner V) (titles : List Title) (leaks spare : List UInt32), o.Sound types exports titles leaks spare →
    (∃ stop o', exec (call f args) o = (.error stop, o') ∧ stop.IsHard ∧
        o'.Sound types exports titles leaks spare) ∨
      ∃ addr o', exec (call f args) o = (.ok (.datum (.u32 addr)), o') ∧
        o'.Sound types exports (⟨addr, name⟩ :: titles) leaks spare

theorem string_new_creates (hString : stringType ∈ types) (type : OpaqueType) :
    Creates types exports (.string type .new) [] stringType := by
  intro o titles leaks spare hs
  rcases exec_newString_cases hs hString [] with ⟨why, o', hExec, hSound⟩ | ⟨addr, o', hExec, hSound⟩
  · exact .inl ⟨_, o', exec_bind_error hExec, Stop.isHard_trapped why, hSound⟩
  · exact .inr ⟨addr, o', exec_bind_ok hExec, hSound⟩

theorem string_newWithStr_creates (hString : stringType ∈ types) (type : OpaqueType) (start len : UInt32) :
    Creates types exports (.string type .newWithStr) [.view start len] stringType := by
  intro o titles leaks spare hs
  rcases exec_viewText ⟨start, len⟩ o with ⟨why, hExec⟩ | ⟨t, hView⟩
  · exact .inl ⟨_, o, exec_bind_error hExec, Stop.isHard_trapped why, hs⟩
  rcases exec_newString_cases hs hString t with ⟨why, o', hExec, hSound⟩ | ⟨addr, o', hExec, hSound⟩
  · exact .inl ⟨_, o', (exec_bind_ok hView).trans (exec_bind_error hExec), Stop.isHard_trapped why, hSound⟩
  · exact .inr ⟨addr, o', (exec_bind_ok hView).trans (exec_bind_ok hExec), hSound⟩

theorem vec_new_creates {elem : Scalar} (hVec : vecTypeName elem.name ∈ types) :
    Creates types exports (.vec (declaredType types (vecTypeName elem.name)) elem .new) []
      (vecTypeName elem.name) := by
  intro o titles leaks spare hs
  rcases exec_mustBox_cases [] (.vector elem {}) hs hVec (fun h => Buffer.fits_empty h elem)
    (fun _ => rfl) trivial with ⟨why, hExec⟩ | ⟨addr, o', hExec, hSound⟩
  · exact .inl ⟨_, o, exec_bind_error hExec, Stop.isHard_trapped why, hs⟩
  · exact .inr ⟨addr, o', exec_bind_ok hExec, hSound⟩

theorem refVec_new_creates {elem : Text} (hElem : elem ∈ types) (hVec : vecTypeName elem ∈ types) :
    Creates types exports (.refVec (declaredType types (vecTypeName elem)) (declaredType types elem) .new) []
      (vecTypeName elem) := by
  intro o titles leaks spare hs
  rcases exec_mustBox_cases elem (.refVector {}) hs hVec (fun h => Buffer.fits_empty h .u32)
    (fun m => congrArg (List.map Nat.toUInt32) (Buffer.words_empty m .u32)) ⟨hElem, hVec, rfl⟩ with
    ⟨why, hExec⟩ | ⟨addr, o', hExec, hSound⟩
  · exact .inl ⟨_, o, exec_bind_error hExec, Stop.isHard_trapped why, hs⟩
  · exact .inr ⟨addr, o', exec_bind_ok hExec, hSound⟩

theorem call_vec (type : OpaqueType) (elem : Scalar) (op : VecOp) (args : List Datum) :
    call (.vec type elem op : Export V) args = (VecForm.scalar type elem).call op args := rfl

theorem call_refVec (type elem : OpaqueType) (op : VecOp) (args : List Datum) :
    call (.refVec type elem op : Export V) args = (VecForm.reference type elem).call op args := rfl

theorem exec_call_destructor {w : Title} (hs : o.Sound types exports (w :: titles) leaks spare) :
    ∃ o', exec (call .destructor [.u32 w.addr]) o = (.ok .none, o') ∧
      o'.Sound types exports titles leaks spare := by
  obtain ⟨o', hExec, hSound⟩ := exec_drop hs
  exact ⟨o', exec_bind_ok hExec, hSound⟩

end Owner

end Marshal
