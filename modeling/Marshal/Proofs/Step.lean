import Marshal.Step

/-! # Running steps

`Step.exec` is what a step does to a state: how it ends, and the state it leaves. Each way of combining
steps has one equation here, so that later proofs follow a step without opening the monad it runs in.
-/
set_option autoImplicit false
namespace Marshal
namespace Step

variable {σ τ α β : Type}

def exec (x : Step σ α) (s : σ) : Except Stop α × σ := x.run.run s

@[simp] theorem exec_pure (a : α) (s : σ) : exec (pure a : Step σ α) s = (.ok a, s) := rfl

@[simp] theorem exec_throw (e : Stop) (s : σ) : exec (throw e : Step σ α) s = (.error e, s) := rfl

@[simp] theorem exec_get (s : σ) : exec (get : Step σ σ) s = (.ok s, s) := rfl

@[simp] theorem exec_set (s' s : σ) : exec (set s' : Step σ PUnit) s = (.ok ⟨⟩, s') := rfl

@[simp] theorem exec_modify (f : σ → σ) (s : σ) : exec (modify f : Step σ PUnit) s = (.ok ⟨⟩, f s) := rfl

theorem exec_bind (x : Step σ α) (f : α → Step σ β) (s : σ) :
    exec (x >>= f) s = match exec x s with
      | (.ok a, s') => exec (f a) s'
      | (.error e, s') => (.error e, s') := by
  show StateT.run (ExceptT.run (x >>= f)) s = _
  simp only [exec, ExceptT.run_bind, StateT.run_bind]
  rcases (x.run.run s : Except Stop α × σ) with ⟨r, s'⟩
  cases r <;> simp <;> rfl

variable {x : Step σ α} {s s' : σ} {f : α → Step σ β}

variable {a : α}

theorem exec_bind_ok (h : exec x s = (.ok a, s')) : exec (x >>= f) s = exec (f a) s' := by
  rw [exec_bind, h]

theorem exec_bind_error {e : Stop} (h : exec x s = (.error e, s')) : exec (x >>= f) s = (.error e, s') := by
  rw [exec_bind, h]

theorem exec_bind_eq_ok {b : β} :
    exec (x >>= f) s = (.ok b, s') ↔ ∃ a s₁, exec x s = (.ok a, s₁) ∧ exec (f a) s₁ = (.ok b, s') := by
  rw [exec_bind]
  rcases exec x s with ⟨e | a, s₁⟩
  · simp
  · constructor
    · intro h
      exact ⟨a, s₁, rfl, h⟩
    · rintro ⟨a', s', hRun, h⟩
      cases hRun
      exact h

theorem exec_map (f : α → β) (x : Step σ α) (s : σ) :
    exec (f <$> x) s = ((exec x s).1.map f, (exec x s).2) := by
  rw [map_eq_pure_bind, exec_bind]
  rcases exec x s with ⟨_ | a, s₁⟩ <;> rfl

theorem exec_bind_pure (x : Step σ α) (f : α → β) (s : σ) :
    exec (x >>= fun a => pure (f a)) s = ((exec x s).1.map f, (exec x s).2) := by
  rw [← map_eq_pure_bind, exec_map]

@[simp] theorem exec_refuse (r : Report) (s : σ) :
    exec (refuse r : Step σ α) s = (.error (.refused (.report r)), s) := rfl

@[simp] theorem exec_trap (r : Report) (s : σ) :
    exec (trap r : Step σ α) s = (.error (.trapped (.report r)), s) := rfl

@[simp] theorem exec_trapWith (f : Failure) (s : σ) :
    exec (trapWith f : Step σ α) s = (.error (.trapped f), s) := rfl

@[simp] theorem exec_crash (s : σ) : exec (crash : Step σ α) s = (.error .crashed, s) := rfl

theorem exec_ofExcept (r : Except Report α) (s : σ) :
    exec (ofExcept r : Step σ α) s = (r.mapError fun r => .refused (.report r), s) := by
  cases r <;> rfl

theorem exec_update (f : σ → Except Report (α × σ)) (s : σ) :
    exec (update f) s = match f s with
      | .ok (a, s') => (.ok a, s')
      | .error r => (.error (.refused (.report r)), s) := by
  rw [update, exec_bind_ok (exec_get s)]
  cases f s <;> rfl

theorem exec_within (part : τ → σ) (put : σ → τ → τ) (x : Step σ α) (t : τ) :
    exec (within part put x) t = ((exec x (part t)).1, put (exec x (part t)).2 t) := by
  rw [within, exec_bind_ok (exec_get t)]
  unfold exec
  rcases (x.run.run (part t) : Except Stop α × σ) with ⟨_ | a, s⟩ <;> rfl

theorem exec_tryCatch (x : Step σ α) (f : Stop → Step σ α) (s : σ) :
    exec (tryCatch x f) s = match exec x s with
      | (.ok a, s') => (.ok a, s')
      | (.error e, s') => exec (f e) s' := by
  simp only [exec, tryCatch, tryCatchThe, MonadExceptOf.tryCatch, ExceptT.tryCatch, ExceptT.run,
    ExceptT.mk, StateT.run_bind]
  rcases (StateT.run x s : Except Stop α × σ) with ⟨r, s'⟩
  cases r <;> rfl

theorem exec_tryCatch_ok {f : Stop → Step σ α} (h : exec x s = (.ok a, s')) :
    exec (tryCatch x f) s = (.ok a, s') := by
  rw [exec_tryCatch, h]

theorem exec_tryCatch_error {f : Stop → Step σ α} {e : Stop}
    (h : exec x s = (.error e, s')) : exec (tryCatch x f) s = exec (f e) s' := by
  rw [exec_tryCatch, h]

theorem exec_trapRefusal (f : Failure → Failure) (x : Step σ α) (s : σ) :
    exec (trapRefusal f x) s = match exec x s with
      | (.ok a, s') => (.ok a, s')
      | (.error (.refused why), s') => (.error (.trapped (f why)), s')
      | (.error e, s') => (.error e, s') := by
  rw [trapRefusal, exec_tryCatch]
  rcases exec x s with ⟨(_ | _ | _) | a, s'⟩ <;> rfl

theorem exec_trapRefusal_ok {f : Failure → Failure}
    (h : exec x s = (.ok a, s')) : exec (trapRefusal f x) s = (.ok a, s') := by
  rw [exec_trapRefusal, h]

theorem exec_trapRefusal_refused {f : Failure → Failure} {why : Failure}
    (h : exec x s = (.error (.refused why), s')) :
    exec (trapRefusal f x) s = (.error (.trapped (f why)), s') := by
  rw [exec_trapRefusal, h]

theorem exec_attempt (x : Step σ α) (s : σ) :
    exec (attempt x) s = match exec x s with
      | (.ok a, s') => (.ok (.ok a), s')
      | (.error (.refused why), s') => (.ok (.error why), s')
      | (.error e, s') => (.error e, s') := by
  rw [attempt, exec_tryCatch, exec_bind]
  rcases exec x s with ⟨(_ | _ | _) | a, s'⟩ <;> rfl

theorem exec_attempt_ok (h : exec x s = (.ok a, s')) : exec (attempt x) s = (.ok (.ok a), s') := by
  rw [exec_attempt, h]

theorem exec_attempt_refused {why : Failure}
    (h : exec x s = (.error (.refused why), s')) : exec (attempt x) s = (.ok (.error why), s') := by
  rw [exec_attempt, h]

theorem exec_andFinally (x : Step σ α) (y : Step σ Unit) (s : σ) :
    exec (andFinally x y) s = match exec x s with
      | (.ok a, s') => exec (y >>= fun _ => pure a) s'
      | (.error e, s') => exec (y >>= fun _ => throw e) s' := by
  rw [andFinally, exec_bind, exec_tryCatch]
  rcases exec x s with ⟨e | a, s'⟩
  · simp only [exec_bind]
    rcases exec y s' with ⟨_ | _, s''⟩ <;> rfl
  · rfl

/-! ## What a step keeps -/

/-- The property survives the step, however the step ends. -/
def Keeps (P : σ → Prop) (x : Step σ α) : Prop := ∀ s, P s → P (exec x s).2

namespace Keeps

variable {P : σ → Prop}

theorem pure (a : α) : Keeps P (pure a : Step σ α) := fun _ hs => hs

theorem throw (e : Stop) : Keeps P (throw e : Step σ α) := fun _ hs => hs

theorem modify {f : σ → σ} (hf : ∀ s, P s → P (f s)) : Keeps P (modify f : Step σ PUnit) := hf

theorem bind (hx : Keeps P x) (hf : ∀ a, Keeps P (f a)) : Keeps P (x >>= f) := by
  intro s hs
  have hs' := hx s hs
  rw [exec_bind]
  generalize exec x s = out at hs' ⊢
  rcases out with ⟨e | a, s'⟩
  · exact hs'
  · exact hf a s' hs'

theorem get_bind {f : σ → Step σ α} (hf : ∀ s, P s → P (exec (f s) s).2) : Keeps P (get >>= f) := by
  intro s hs
  rw [exec_bind_ok (exec_get s)]
  exact hf s hs

theorem tryCatch {x : Step σ α} {f : Stop → Step σ α} (hx : Keeps P x) (hf : ∀ e, Keeps P (f e)) :
    Keeps P (tryCatch x f) := by
  intro s hs
  have hs' := hx s hs
  rw [exec_tryCatch]
  generalize exec x s = out at hs' ⊢
  rcases out with ⟨e | a, s'⟩
  · exact hf e s' hs'
  · exact hs'

theorem trapRefusal {x : Step σ α} (hx : Keeps P x) (f : Failure → Failure) : Keeps P (trapRefusal f x) := by
  apply tryCatch hx
  intro e
  cases e with
  | refused why => exact throw _
  | trapped why => exact throw _
  | crashed => exact throw _

theorem attempt {x : Step σ α} (hx : Keeps P x) : Keeps P (attempt x) := by
  apply tryCatch
  · exact bind hx fun _ => pure _
  · intro e
    cases e with
    | refused why => exact pure _
    | trapped why => exact throw _
    | crashed => exact throw _

end Keeps

end Step

end Marshal
