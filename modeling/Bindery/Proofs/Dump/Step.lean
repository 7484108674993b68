import Bindery.Proofs.Result

/-! Steps that carry a state and stop where they fail: what they give, need and leave. -/

namespace Bindery

variable {σ ε α β : Type} {I : σ → Prop} {F : Prop}

/-- A step keeps an invariant and gives a result with a property. It fails only if `F`. -/
def Gives (I : σ → Prop) (F : Prop) (x : StateT σ (Except ε) α) (Q : α → Prop) : Prop :=
  ∀ s, I s → (∀ a s', x.run s = .ok (a, s') → Q a ∧ I s') ∧ ∀ e, x.run s = .error e → F

namespace Gives

theorem any (x : StateT σ (Except ε) α) : Gives (fun _ => True) True x fun _ => True :=
  fun _ _ => ⟨fun _ _ _ => ⟨trivial, trivial⟩, fun _ _ => trivial⟩

theorem pure {a : α} {Q : α → Prop} (h : Q a) :
    Gives I F (pure a : StateT σ (Except ε) α) Q := by
  intro s hs
  refine ⟨fun b s' hb => ?_, nofun⟩
  cases hb
  exact ⟨h, hs⟩

theorem bind {x : StateT σ (Except ε) α} {f : α → StateT σ (Except ε) β} {P : α → Prop}
    {Q : β → Prop} (hx : Gives I F x P) (hf : ∀ a, P a → Gives I F (f a) Q) :
    Gives I F (x >>= f) Q := by
  intro s hs
  obtain ⟨hok, herr⟩ := hx s hs
  simp only [StateT.run_bind]
  cases h : x.run s with
  | error e =>
    have hfails : F := herr e h
    exact ⟨nofun, fun _ _ => hfails⟩
  | ok r =>
    obtain ⟨hp, hs'⟩ := hok r.1 r.2 h
    exact hf r.1 hp r.2 hs'

theorem imp {x : StateT σ (Except ε) α} {P Q : α → Prop} (h : Gives I F x P)
    (hi : ∀ a, P a → Q a) : Gives I F x Q := by
  intro s hs
  obtain ⟨hok, herr⟩ := h s hs
  exact ⟨fun a s' ha => ⟨hi a (hok a s' ha).1, (hok a s' ha).2⟩, herr⟩

theorem fails {G : Prop} {x : StateT σ (Except ε) α} {Q : α → Prop} (h : Gives I F x Q)
    (hi : F → G) : Gives I G x Q :=
  fun s hs => ⟨(h s hs).1, fun e he => hi ((h s hs).2 e he)⟩

theorem map {f : α → β} {x : StateT σ (Except ε) α} {Q : β → Prop}
    (h : Gives I F x fun a => Q (f a)) : Gives I F (f <$> x) Q := by
  intro s hs
  obtain ⟨hok, herr⟩ := h s hs
  simp only [StateT.run_map]
  cases hx : x.run s with
  | error e =>
    have hfails : F := herr e hx
    exact ⟨nofun, fun _ _ => hfails⟩
  | ok r =>
    refine ⟨fun b s' hb => ?_, nofun⟩
    cases hb
    exact hok r.1 r.2 hx

theorem get_bind {f : σ → StateT σ (Except ε) α} {Q : α → Prop}
    (hf : ∀ s, I s → Gives I F (f s) Q) : Gives I F (get >>= f) Q :=
  fun s hs => hf s hs s hs

theorem modify {f : σ → σ} (hf : ∀ s, I s → I (f s)) :
    Gives I F (modify f : StateT σ (Except ε) PUnit) fun _ => True := by
  intro s hs
  refine ⟨fun a s' ha => ?_, nofun⟩
  cases ha
  exact ⟨trivial, hf s hs⟩

theorem lift {x : Except ε α} (h : ∀ e, x = .error e → F) :
    Gives I F (liftM x : StateT σ (Except ε) α) fun a => x = .ok a := by
  intro s hs
  cases x with
  | error e =>
    have hfails : F := h e rfl
    exact ⟨nofun, fun _ _ => hfails⟩
  | ok a => exact ⟨fun b s' hb => by cases hb; exact ⟨rfl, hs⟩, nofun⟩

end Gives

/-- A step that keeps an invariant and succeeds exactly if `P`. -/
def Needs (I : σ → Prop) (P : Prop) (x : StateT σ (Except ε) α) (Q : α → Prop) : Prop :=
  Gives I (¬ P) x fun a => P ∧ Q a

namespace Needs

variable {P P' : Prop} {x : StateT σ (Except ε) α} {f : α → StateT σ (Except ε) β} {Q R : α → Prop}
  {S : β → Prop}

theorem bind (hx : Needs I P x R) (hf : ∀ a, R a → Needs I P' (f a) S) :
    Needs I (P ∧ P') (x >>= f) S := by
  have hlost : ¬ P → ¬ (P ∧ P') := fun hp hboth => hp hboth.1
  refine Gives.bind (Gives.fails hx hlost) fun a ⟨hp, ha⟩ => ?_
  have hrest : Gives I (¬ (P ∧ P')) (f a) fun b => P' ∧ S b :=
    (hf a ha).fails fun hp' hboth => hp' hboth.2
  exact hrest.imp fun b ⟨hp', hb⟩ => ⟨⟨hp, hp'⟩, hb⟩

theorem of_true (hp : P) (h : Gives I False x Q) : Needs I P x Q :=
  (h.fails False.elim).imp fun _ ha => ⟨hp, ha⟩

theorem congr (h : Needs I P x Q) (hiff : P ↔ P') : Needs I P' x Q := by
  have hpost : ∀ a, P ∧ Q a → P' ∧ Q a := fun a ⟨hp, ha⟩ => ⟨hiff.mp hp, ha⟩
  exact (Gives.fails h fun hp hp' => hp (hiff.mpr hp')).imp hpost

/-- What comes before is known, if it succeeds, so what comes behind may need something of it. -/
theorem determined {v : Option α} {N : α → Prop} (hx : Needs I P x fun a => v = some a)
    (hf : ∀ a, v = some a → Needs I (N a) (f a) S) :
    Needs I (P ∧ ∀ a, v = some a → N a) (x >>= f) S :=
  .bind hx fun a ha => Needs.congr (hf a ha) (by simp [ha])

theorem imp (h : Needs I P x Q) (hi : ∀ a, Q a → R a) : Needs I P x R :=
  Gives.imp h fun a ⟨hp, ha⟩ => ⟨hp, hi a ha⟩

/-- What comes before cannot fail. -/
theorem after (hx : Gives I False x R) (hf : ∀ a, R a → Needs I P (f a) S) :
    Needs I P (x >>= f) S :=
  (bind (of_true trivial hx) hf).congr (.of_eq (true_and P))

/-- What comes behind cannot fail. -/
theorem before (hx : Needs I P x R) (hf : ∀ a, R a → Gives I False (f a) S) :
    Needs I P (x >>= f) S :=
  (bind hx fun a ha => of_true trivial (hf a ha)).congr (.of_eq (and_true P))

theorem map {g : α → β} (h : Needs I P x fun a => S (g a)) : Needs I P (g <$> x) S :=
  Gives.map h

theorem lift {x : Except ε α} (h : P ↔ ∃ a, x = .ok a) :
    Needs I P (liftM x : StateT σ (Except ε) α) fun a => x = .ok a := by
  have hfails : ∀ e, x = .error e → ¬ P := by
    rintro e rfl hp
    obtain ⟨a, ha⟩ := h.mp hp
    cases ha
  exact (Gives.lift hfails).imp fun a ha => ⟨h.mpr ⟨a, ha⟩, ha⟩

theorem run (h : Needs I P x Q) :
    Needs I P x fun a => Q a ∧ ∃ s s', I s ∧ x.run s = .ok (a, s') := by
  intro s hs
  obtain ⟨hok, herr⟩ := h s hs
  refine ⟨fun a s' ha => ?_, herr⟩
  obtain ⟨⟨hp, hq⟩, hs'⟩ := hok a s' ha
  exact ⟨⟨hp, hq, s, s', hs, ha⟩, hs'⟩

theorem succeeds_iff (h : Needs I P x Q) {s : σ} (hs : I s) : (∃ a s', x.run s = .ok (a, s')) ↔ P := by
  obtain ⟨hok, herr⟩ := h s hs
  refine ⟨fun ⟨a, s', ha⟩ => (hok a s' ha).1.1, fun hp => ?_⟩
  cases hx : x.run s with
  | error e => exact absurd hp (herr e hx)
  | ok r => exact ⟨r.1, r.2, rfl⟩

end Needs

/-- What holds of the result and of the state that is left, if a step succeeds. -/
def Leaves (s : σ) (x : StateT σ (Except ε) α) (Q : α → σ → Prop) : Prop :=
  ∀ a s', x.run s = .ok (a, s') → Q a s'

namespace Leaves

variable {s : σ} {x : StateT σ (Except ε) α} {f : α → StateT σ (Except ε) β} {P Q : α → σ → Prop}
  {R : β → σ → Prop}

theorem pure {a : α} (h : Q a s) : Leaves s (pure a : StateT σ (Except ε) α) Q := by
  intro b s' hb
  cases hb
  exact h

theorem bind (hx : Leaves s x Q) (hf : ∀ a s', Q a s' → Leaves s' (f a) R) :
    Leaves s (x >>= f) R := by
  intro b s' hb
  obtain ⟨r, hr, hb⟩ := except_bind_ok hb
  exact hf r.1 r.2 (hx r.1 r.2 hr) b s' hb

theorem imp (h : Leaves s x P) (hi : ∀ a s', P a s' → Q a s') : Leaves s x Q :=
  fun a s' ha => hi a s' (h a s' ha)

theorem map {g : α → β} (h : Leaves s x fun a s' => R (g a) s') : Leaves s (g <$> x) R := by
  rw [map_eq_pure_bind]
  exact bind h fun _ _ ha => pure ha

theorem get_bind {f : σ → StateT σ (Except ε) α} (h : Leaves s (f s) Q) :
    Leaves s (get >>= f) Q :=
  h

theorem modify_bind {f : σ → σ} {x : PUnit → StateT σ (Except ε) α}
    (h : Leaves (f s) (x ⟨⟩) Q) : Leaves s (modify f >>= x) Q :=
  h

theorem set_bind {t : σ} {x : PUnit → StateT σ (Except ε) α} (h : Leaves t (x ⟨⟩) Q) :
    Leaves s (set t >>= x) Q :=
  h

theorem lift {x : Except ε α} :
    Leaves s (liftM x : StateT σ (Except ε) α) fun a s' => x = .ok a ∧ s' = s := by
  intro b s' hb
  obtain ⟨a, ha, hb⟩ := except_bind_ok hb
  cases hb
  exact ⟨ha, rfl⟩

theorem lift_bind {x : Except ε α} (h : ∀ a, x = .ok a → Leaves s (f a) R) :
    Leaves s (liftM x >>= f) R :=
  bind lift fun a _ ⟨ha, hs⟩ => hs ▸ h a ha

end Leaves

end Bindery
