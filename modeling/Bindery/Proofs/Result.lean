/-! Steps that succeed: what the parts of a step have given when the whole has given a result. -/

namespace Bindery

variable {ε ε' α β : Type}

theorem except_bind_ok {x : Except ε α} {f : α → Except ε β} {b : β} (h : x >>= f = .ok b) :
    ∃ a, x = .ok a ∧ f a = .ok b := by
  cases x with
  | error e => simp [bind, Except.bind] at h
  | ok a => exact ⟨a, rfl, h⟩

theorem except_map_ok {f : α → β} {x : Except ε α} {b : β} (h : x.map f = .ok b) :
    ∃ a, x = .ok a ∧ b = f a := by
  cases x with
  | error e => cases h
  | ok a => exact ⟨a, rfl, (Except.ok.inj h).symm⟩

theorem except_bind_pure_iff {f : α → β} {x : Except ε α} {b : β} :
    (x >>= fun a => pure (f a)) = .ok b ↔ ∃ a, x = .ok a ∧ b = f a := by
  constructor
  · intro h
    obtain ⟨a, ha, he⟩ := except_bind_ok h
    exact ⟨a, ha, (Except.ok.inj he).symm⟩
  · rintro ⟨a, rfl, rfl⟩
    rfl

theorem except_forM_ok {f : α → Except ε Unit} {xs : List α} (h : xs.forM f = .ok ()) :
    ∀ x ∈ xs, f x = .ok () := by
  induction xs with
  | nil => exact nofun
  | cons x xs ih =>
    obtain ⟨_, hx, hxs⟩ := except_bind_ok h
    exact List.forall_mem_cons.mpr ⟨hx, ih hxs⟩

theorem except_mapM_ok {f : α → Except ε β} {xs : List α} {ys : List β} (h : xs.mapM f = .ok ys) :
    ∀ x ∈ xs, ∃ y ∈ ys, f x = .ok y := by
  induction xs generalizing ys with
  | nil => exact nofun
  | cons x xs ih =>
    rw [List.mapM_cons] at h
    obtain ⟨y, hy, h⟩ := except_bind_ok h
    obtain ⟨rest, hrest, he⟩ := except_bind_ok h
    cases he
    refine List.forall_mem_cons.mpr ⟨⟨y, List.mem_cons_self, hy⟩, fun x' hx' => ?_⟩
    obtain ⟨y', hy', hf⟩ := ih hrest x' hx'
    exact ⟨y', List.mem_cons_of_mem y hy', hf⟩

theorem ok_mapError (f : ε → ε') (a : α) : (Except.ok a).mapError f = .ok a :=
  rfl

theorem mapError_ok {f : ε → ε'} {x : Except ε α} {a : α} (h : x.mapError f = .ok a) :
    x = .ok a := by
  cases x with
  | error e => cases h
  | ok b =>
    cases h
    rfl

theorem ok_of_all_isOk {results : List (Except ε Unit)} (h : results.all (·.isOk) = true) :
    ∀ result ∈ results, result = .ok () := by
  intro result hr
  have hok := List.all_eq_true.mp h result hr
  cases result with
  | ok a => rfl
  | error e => exact absurd hok nofun

end Bindery
