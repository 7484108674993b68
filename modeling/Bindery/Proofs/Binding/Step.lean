import Bindery.Binding.Error

/-! Steps that may fail and that keep the state they reached. -/

namespace Bindery

variable {σ α β : Type}

/-- What holds of the result of a step, a failure or not, and of the state that it leaves. -/
def Ends (x : ExceptT BindError (StateM σ) α) (s : σ) (Q : Except BindError α → σ → Prop) : Prop :=
  Q (x.run.run s).1 (x.run.run s).2

/-- What follows a step begins where the step ended, unless the step failed. -/
theorem ends_bind {x : ExceptT BindError (StateM σ) α} {f : α → ExceptT BindError (StateM σ) β}
    {s : σ} {Q : Except BindError β → σ → Prop} :
    Ends (x >>= f) s Q ↔ Ends x s fun r s' =>
      match r with
      | .ok a => Ends (f a) s' Q
      | .error e => Q (.error e) s' := by
  simp only [Ends, ExceptT.run_bind, StateT.run_bind]
  rcases h : x.run.run s with ⟨r, s'⟩
  cases r <;> rfl

theorem Ends.imp {x : ExceptT BindError (StateM σ) α} {s : σ}
    {P Q : Except BindError α → σ → Prop} (h : Ends x s P) (hi : ∀ r s', P r s' → Q r s') :
    Ends x s Q :=
  hi _ _ h

theorem Ends.bind {x : ExceptT BindError (StateM σ) α} {f : α → ExceptT BindError (StateM σ) β}
    {s : σ} {P : Except BindError α → σ → Prop} {Q : Except BindError β → σ → Prop}
    (h : Ends x s P) (hok : ∀ a s', P (.ok a) s' → Ends (f a) s' Q)
    (herr : ∀ e s', P (.error e) s' → Q (.error e) s') : Ends (x >>= f) s Q := by
  rw [ends_bind]
  apply h.imp
  intro r s' hp
  cases r with
  | ok a => exact hok a s' hp
  | error e => exact herr e s' hp

/-- The step, begun in the state `s`, gives a result and leaves a state of which `P` holds, if it
succeeds. -/
def Attains (x : ExceptT BindError (StateM σ) α) (s : σ) (P : α → σ → Prop) : Prop :=
  Ends x s fun result s' => ∀ a, result = .ok a → P a s'

namespace Attains

variable {s s' : σ} {P P' : α → σ → Prop} {Q : β → σ → Prop} {x : ExceptT BindError (StateM σ) α}

theorem pure {a : α} (h : P a s) : Attains (pure a) s P := by
  intro a' ha
  cases ha
  exact h

theorem throw (e : BindError) : Attains (throw e) s P :=
  fun _ ha => by cases ha

theorem bind {f : α → ExceptT BindError (StateM σ) β} (hx : Attains x s P)
    (hf : ∀ a s', P a s' → Attains (f a) s' Q) : Attains (x >>= f) s Q :=
  Ends.bind hx (fun a s' hp => hf a s' (hp a rfl)) fun _ _ _ => nofun

theorem imp (hx : Attains x s P) (hi : ∀ a s', P a s' → P' a s') : Attains x s P' :=
  Ends.imp hx fun _ s' h a ha => hi a s' (h a ha)

theorem ran {a : α} (hx : Attains x s P) (h : x.run.run s = (.ok a, s')) : P a s' := by
  rw [Attains, Ends, h] at hx
  exact hx a rfl

end Attains

end Bindery
