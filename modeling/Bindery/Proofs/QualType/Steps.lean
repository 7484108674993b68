import Bindery.Proofs.QualType.Positions

/-! Readings for more steps. Where a reading comes to an end, more steps change nothing. -/

namespace Bindery

namespace QualType

open Search (goesOn)

variable {α β : Type} {n m : Nat}

/-- What more steps may change: only a reading that still goes on. -/
def Extends (x y : Reading α) : Prop :=
  x.run.run = none ∨ x = y

namespace Extends

variable {x y : Reading α}

theorem refl (x : Reading α) : Extends x x :=
  .inr rfl

theorem start (y : Reading α) : Extends goesOn y :=
  .inl rfl

theorem ended (h : Extends x y) (hx : x.run.run ≠ none) : y = x := by
  obtain hgoes | rfl := h
  · exact absurd hgoes hx
  · rfl

theorem bind {f g : α → Reading β} (h : Extends x y) (hf : ∀ a, Extends (f a) (g a)) :
    Extends (x >>= f) (y >>= g) := by
  obtain hgoes | rfl := h
  · obtain rfl : x = goesOn := hgoes
    exact .start _
  · rcases x with _ | fault | e | a
    · exact .start _
    · exact .refl _
    · exact .refl _
    · exact hf a

theorem ite {c : Prop} [Decidable c] {x' y' : Reading α} (ht : Extends x y) (he : Extends x' y') :
    Extends (if c then x else x') (if c then y else y') := by
  split
  · exact ht
  · exact he

end Extends

variable (anonymous : String → Option String) (tokens : List Token)

theorem specifiersAt_extends (h : n ≤ m) (s : Specifiers) (p : Progress) :
    Extends (specifiersAt anonymous tokens n s p) (specifiersAt anonymous tokens m s p) := by
  induction n generalizing m s p with
  | zero => exact .start _
  | succ n ih =>
    obtain ⟨m, rfl⟩ := Nat.exists_eq_add_one_of_ne_zero (Nat.ne_zero_of_lt h)
    have ih := fun s p => ih (Nat.le_of_succ_le_succ h) s p
    rw [specifiersAt, specifiersAt]
    refine .bind (.refl _) fun next => ?_
    cases next with
    | none => exact .refl _
    | some t =>
      cases t with
      | word w =>
        refine .ite (ih _ _) (.ite (ih _ _) (.ite ?tag (.ite (ih _ _) (.ite (ih _ _) (.refl _)))))
        refine .bind (.refl _) fun described => ?_
        cases described with
        | none => exact .refl _
        | some t => exact .bind (.refl _) fun base => ih _ _
      | _ => exact .refl _

theorem qualifiersAt_extends (h : n ≤ m) (t : RawType) (p : Progress) :
    Extends (qualifiersAt tokens n t p) (qualifiersAt tokens m t p) := by
  induction n generalizing m t p with
  | zero => exact .start _
  | succ n ih =>
    obtain ⟨m, rfl⟩ := Nat.exists_eq_add_one_of_ne_zero (Nat.ne_zero_of_lt h)
    have ih := fun t p => ih (Nat.le_of_succ_le_succ h) t p
    rw [qualifiersAt, qualifiersAt]
    refine .bind (.refl _) fun next => ?_
    cases next with
    | none => exact .refl _
    | some next =>
      cases next with
      | word w => exact .ite (ih _ _) (.ite (ih _ _) (.refl _))
      | _ => exact .refl _

theorem starsAt_extends (h : n ≤ m) (t : RawType) (p : Progress) :
    Extends (starsAt tokens n t p) (starsAt tokens m t p) := by
  induction n generalizing m t p with
  | zero => exact .start _
  | succ n ih =>
    obtain ⟨m, rfl⟩ := Nat.exists_eq_add_one_of_ne_zero (Nat.ne_zero_of_lt h)
    rw [starsAt, starsAt]
    refine .bind (.refl _) fun next => .ite ?_ (.refl _)
    exact .bind (qualifiersAt_extends tokens h _ _) fun r => ih (Nat.le_of_succ_le_succ h) _ _

/-- What the readers that call each other give for more steps. -/
structure ReadersExtend (n m : Nat) : Prop where
  typeName : ∀ p, Extends (typeNameAt anonymous tokens n p) (typeNameAt anonymous tokens m p)
  declarator : ∀ t p, Extends (declaratorAt anonymous tokens n t p) (declaratorAt anonymous tokens m t p)
  suffixes : ∀ p, Extends (suffixesAt anonymous tokens n p) (suffixesAt anonymous tokens m p)
  parameters : ∀ p, Extends (parametersAt anonymous tokens n p) (parametersAt anonymous tokens m p)
  parameterList : ∀ p,
    Extends (parameterListAt anonymous tokens n p) (parameterListAt anonymous tokens m p)

variable {anonymous tokens}

theorem typeNameAt_extends (h : n ≤ m) (ih : ReadersExtend anonymous tokens n m) (p : Progress) :
    Extends (typeNameAt anonymous tokens (n + 1) p) (typeNameAt anonymous tokens (m + 1) p) := by
  rw [typeNameAt, typeNameAt]
  refine .bind (specifiersAt_extends _ _ (Nat.succ_le_succ h) _ _) fun r => ?_
  refine .bind (.refl _) fun next => .bind (.refl _) fun base => ?_
  exact .bind (ih.declarator _ _) fun r' => .refl _

theorem declaratorAt_extends (h : n ≤ m) (ih : ReadersExtend anonymous tokens n m) (t : RawType)
    (p : Progress) :
    Extends (declaratorAt anonymous tokens (n + 1) t p) (declaratorAt anonymous tokens (m + 1) t p) := by
  rw [declaratorAt, declaratorAt]
  refine .bind (starsAt_extends _ (Nat.succ_le_succ h) _ _) fun r => ?_
  refine .bind (.refl _) fun grouped => .ite ?group ?suffixes
  case group =>
    refine .bind (.refl _) fun found => ?_
    cases found with
    | none => exact .refl _
    | some close =>
      refine .bind (ih.suffixes _) fun behind => ?_
      exact .bind (ih.declarator _ _) fun inside => .refl _
  case suffixes => exact .bind (ih.suffixes _) fun r' => .refl _

theorem suffixesAt_extends (ih : ReadersExtend anonymous tokens n m) (p : Progress) :
    Extends (suffixesAt anonymous tokens (n + 1) p) (suffixesAt anonymous tokens (m + 1) p) := by
  rw [suffixesAt, suffixesAt]
  refine .bind (.refl _) fun next => ?_
  cases next with
  | none => exact .refl _
  | some t =>
    cases t with
    | openBracket => exact .bind (.refl _) fun r => .bind (ih.suffixes _) fun r' => .refl _
    | openParen => exact .bind (ih.parameters _) fun r => .bind (ih.suffixes _) fun r' => .refl _
    | _ => exact .refl _

theorem parametersAt_extends (ih : ReadersExtend anonymous tokens n m) (p : Progress) :
    Extends (parametersAt anonymous tokens (n + 1) p) (parametersAt anonymous tokens (m + 1) p) := by
  rw [parametersAt, parametersAt]
  refine .bind (.refl _) fun next => .ite (.refl _) ?_
  exact .bind (ih.parameterList _) fun r => .refl _

theorem parameterListAt_extends (ih : ReadersExtend anonymous tokens n m) (p : Progress) :
    Extends (parameterListAt anonymous tokens (n + 1) p)
      (parameterListAt anonymous tokens (m + 1) p) := by
  rw [parameterListAt, parameterListAt]
  refine .bind (.refl _) fun next => ?_
  refine .bind (.ite (.refl _) (.bind (ih.typeName _) fun r => .refl _)) fun r => ?_
  refine .bind (.refl _) fun behind => ?_
  cases behind with
  | none => exact .refl _
  | some t =>
    cases t with
    | comma => exact .bind (ih.parameterList _) fun r' => .refl _
    | _ => exact .refl _

theorem readers_extend (h : n ≤ m) : ReadersExtend anonymous tokens n m := by
  induction n generalizing m with
  | zero =>
    exact ⟨fun p => .start _, fun t p => .start _, fun p => .start _, fun p => .start _,
      fun p => .start _⟩
  | succ n ih =>
    obtain ⟨m, rfl⟩ := Nat.exists_eq_add_one_of_ne_zero (Nat.ne_zero_of_lt h)
    have hm := Nat.le_of_succ_le_succ h
    exact
      { typeName := typeNameAt_extends hm (ih hm)
        declarator := declaratorAt_extends hm (ih hm)
        suffixes := suffixesAt_extends (ih hm)
        parameters := parametersAt_extends (ih hm)
        parameterList := parameterListAt_extends (ih hm) }

end QualType

end Bindery
