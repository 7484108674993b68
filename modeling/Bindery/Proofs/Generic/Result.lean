import Bindery.Proofs.CType.Returned
import Bindery.Proofs.Generic.Bound

/-! The functions that a function gives back are bound with the parameters of that function. -/

namespace Bindery

open RegistryM (outcome outcome_bind outcome_map)

def Decl.withChildren (d : Decl) (children : List Decl) : Decl :=
  { d with children }

def Decl.childless (d : Decl) : Decl :=
  d.withChildren []

variable {source : SourceMap}

theorem firstToken_childless (sites : List Decl) : firstToken source (sites.map Decl.childless) =
    (firstToken source sites).map (·.map (Prod.map Decl.childless id)) := by
  induction sites with
  | nil => rfl
  | cons d ds ih =>
    have htoken : d.childless.annotationToken source = d.annotationToken source := rfl
    rw [List.map_cons, firstToken, firstToken, htoken]
    rcases d.annotationToken source with _ | _ | token
    · rfl
    · exact ih
    · rfl

/-- The instance of a record is told by comments, not by members or parameters. -/
theorem bindRecord_childless (sites : List Decl) (tag : String) :
    bindRecord source (sites.map Decl.childless) tag = bindRecord source sites tag := by
  have hlocations : (sites.map Decl.childless).map (·.location) = sites.map (·.location) := by
    rw [List.map_map]
    rfl
  rw [bindRecord, bindRecord, firstToken_childless, hlocations]
  refine bind_congr fun r => ?_
  cases r.forStruct? tag with
  | none => rfl
  | some g =>
    rcases firstToken source sites with _ | _ | ⟨site, token⟩
    · rfl
    · rfl
    · rfl

mutual

/-- Only the functions that are given back look at parameters, and those at the last ones. -/
theorem CType.specialize_congr (source : SourceMap) {sites sites' : List Decl} (t : CType)
    (hs : sites.map Decl.childless = sites'.map Decl.childless)
    (hl : t.returned = [] ∨ sites.getLast? = sites'.getLast?) :
    t.specialize source sites = t.specialize source sites' := by
  obtain ⟨kind, spelling, isConst⟩ := t
  rw [CType.specialize, CType.specialize, kind.specialize_congr source hs hl]

theorem CKind.specialize_congr (source : SourceMap) {sites sites' : List Decl} (kind : CKind)
    (hs : sites.map Decl.childless = sites'.map Decl.childless)
    (hl : kind.returned = [] ∨ sites.getLast? = sites'.getLast?) :
    kind.specialize source sites = kind.specialize source sites' := by
  cases kind with
  | primitive p => rfl
  | array element count => rfl
  | pointer pointee => rw [CKind.specialize, CKind.specialize, pointee.specialize_congr source hs hl]
  | record tag isUnion binding =>
    have hrecord : bindRecord source sites tag = bindRecord source sites' tag := by
      rw [← bindRecord_childless, hs, bindRecord_childless]
    rw [CKind.specialize, CKind.specialize, hrecord]
  | typedef name canonical decl =>
    have hsame : (sites ++ typedefSites canonical decl).map Decl.childless =
        (sites' ++ typedefSites canonical decl).map Decl.childless := by
      rw [List.map_append, List.map_append, hs]
    have hlast : canonical.returned = [] ∨ (sites ++ typedefSites canonical decl).getLast? =
        (sites' ++ typedefSites canonical decl).getLast? := by
      rw [typedefSites]
      split
      next hrec => exact .inl (CType.ends_of_isEnd (CType.isEnd_of_record hrec)).2
      next => cases decl with
        | none => rwa [Option.toList_none, List.append_nil, List.append_nil]
        | some d => exact .inr (by simp)
    rw [CKind.specialize_typedef, CKind.specialize_typedef,
      canonical.specialize_congr source hsame hlast]
  | function result args argNames variadic =>
    have hlast := hl.resolve_left (List.cons_ne_nil _ _)
    rw [CKind.specialize, CKind.specialize, result.specialize_congr source hs (.inr hlast), hlast]

end

variable {α β γ : Type} {r : Registry} {owner : Decl}

/-- How the binding of a type goes on when the binding of its end has `ended`: with the error of the
end, or by counting the arguments of the `last` function that is given back. -/
def Follows (owner : Decl) (last : Option FunctionUse) (ended : Except BindError α × Registry)
    (whole : Except BindError β × Registry) : Prop :=
  match ended, last with
  | (.error e, r), _ => whole = (.error e, r)
  | (.ok _, r), none => ∃ b, whole = (.ok b, r)
  | (.ok _, r), some f =>
    owner.params.length ≠ f.arity → whole = (.error (owner.miscounted f.arity), r)

namespace Follows

variable {last : Option FunctionUse} {ended : Except BindError α × Registry}
  {whole : Except BindError β × Registry}

theorem refl (ended : Except BindError α × Registry) : Follows owner none ended ended := by
  rcases ended with ⟨_ | a, r⟩
  · rfl
  · exact ⟨a, rfl⟩

theorem map (f : β → γ) (h : Follows owner last ended whole) :
    Follows owner last ended (whole.1.map f, whole.2) := by
  rcases ended with ⟨_ | a, r⟩
  · obtain rfl := h
    rfl
  · cases last with
    | none =>
      obtain ⟨b, rfl⟩ := h
      exact ⟨f b, rfl⟩
    | some g =>
      intro hcount
      obtain rfl := h hcount
      rfl

theorem failed {e : BindError} (h : Follows owner last ended whole) (he : ended.1 = .error e) :
    whole = (.error e, ended.2) := by
  obtain ⟨_, r⟩ := ended
  obtain rfl := he
  exact h

theorem counted {f : FunctionUse} {a : α} (h : Follows owner (some f) ended whole)
    (ha : ended.1 = .ok a) (hcount : owner.params.length ≠ f.arity) :
    whole.1 = .error (owner.miscounted f.arity) := by
  obtain ⟨_, r⟩ := ended
  obtain rfl := ha
  exact congrArg Prod.fst (h hcount)

/-- A function is counted after the functions that it gives back. -/
theorem bind {x : RegistryM β} {f : β → RegistryM γ} {use : FunctionUse}
    (h : Follows owner last ended (outcome x r))
    (hf : ∀ b r', owner.params.length ≠ use.arity →
      outcome (f b) r' = (.error (owner.miscounted use.arity), r')) :
    Follows owner (some (last.getD use)) ended (outcome (x >>= f) r) := by
  rw [outcome_bind]
  generalize outcome x r = ran at h
  rcases ended with ⟨_ | a, r'⟩
  · obtain rfl := h
    rfl
  · cases last with
    | none =>
      obtain ⟨b, rfl⟩ := h
      exact hf b r'
    | some g =>
      intro hcount
      obtain rfl := h hcount
      rfl

end Follows

theorem CType.outcome_follows (r : Registry) (source : SourceMap) {sites : List Decl}
    (howner : sites.getLast? = some owner) (t : CType) :
    Follows owner t.returned.getLast? (outcome (t.returnEnd.specialize source sites) r)
      (outcome (t.specialize source sites) r) := by
  induction t using CType.results_induction with
  | ending t hend =>
    obtain ⟨hself, hnone⟩ := CType.ends_of_isEnd hend
    rw [hself, hnone]
    exact .refl _
  | pointer pointee spelling isConst ih =>
    rw [CType.specialize_pointer, outcome_map]
    exact ih.map _
  | undeclared name canonical spelling isConst ih =>
    rw [CType.specialize_undeclared, outcome_map]
    exact ih.map _
  | function result args argNames variadic spelling isConst ih =>
    have hreturned : CType.returned ⟨.function result args argNames variadic, spelling, isConst⟩ =
        ⟨args.length, argNames⟩ :: result.returned := rfl
    rw [CType.specialize_function howner, hreturned, List.getLast?_cons]
    refine ih.bind fun result' r' hcount => ?_
    rw [if_neg hcount]
    rfl

theorem toString_injective : Function.Injective (toString : Nat → String) := by
  have hread : ∀ n : Nat, Nat.ofDigitChars 10 (toString n).toList 0 = n := by
    simp [Nat.ofDigitChars_toDigits]
  intro n n' h
  calc n
    _ = Nat.ofDigitChars 10 (toString n).toList 0 := (hread n).symm
    _ = Nat.ofDigitChars 10 (toString n').toList 0 := by rw [h]
    _ = n' := hread n'

theorem Decl.miscounted_inj {d : Decl} {children children' : List Decl} {n : Nat}
    (h : (d.withChildren children).miscounted n = (d.withChildren children').miscounted n) :
    (d.withChildren children).params.length = (d.withChildren children').params.length := by
  have hdetail := (BindError.unexpectedShape.inj h).2.1
  simp only [String.append_left_inj] at hdetail
  exact toString_injective hdetail

/-- The arguments are those of the last declaration: as many, and called by the same names. -/
def Decl.use (owner : Decl) : FunctionUse :=
  ⟨owner.params.length, some (owner.params.mapIdx argName)⟩

theorem CType.specialize_returned (r : Registry) (source : SourceMap) {sites : List Decl}
    (howner : sites.getLast? = some owner) (t : CType) :
    Records r (t.specialize source sites) fun t' _ => ∀ f ∈ t'.returned, f = owner.use := by
  have hs : sites ≠ [] := by
    rintro rfl
    cases howner
  induction t using CType.results_induction with
  | ending t hend =>
    apply (t.specialize_specializes r source hs).imp
    rintro t' _ ⟨hsame, -⟩
    have hend' : t'.isEnd := by rw [← CType.isEnd_unbound, hsame, CType.isEnd_unbound, hend]
    rw [(CType.ends_of_isEnd hend').2]
    exact List.forall_mem_nil _
  | pointer pointee spelling isConst ih =>
    rw [CType.specialize_pointer]
    exact ih.bind fun _ _ h => .pure h
  | undeclared name canonical spelling isConst ih =>
    rw [CType.specialize_undeclared]
    exact ih.bind fun _ _ h => .pure h
  | function result args argNames variadic spelling isConst ih =>
    rw [CType.specialize_function howner]
    refine ih.bind fun result' uses hresult => ?_
    split
    next hlen =>
      have henough : args.length ≤ owner.params.length := Nat.le_of_eq hlen.symm
      apply (CType.specializeArgs_specializes (r.recordAll uses) source args henough).bind
      rintro args' _ ⟨hsame, -⟩
      refine .pure ?_
      have huse : FunctionUse.mk args'.length (some (owner.params.mapIdx argName)) = owner.use := by
        rw [Decl.use, hlen, CType.length_eq_of_unboundList hsame]
      exact List.forall_mem_cons.mpr ⟨huse, hresult⟩
    next => exact .throw _ _

def anonymousParams (n : Nat) : List Decl :=
  List.replicate n (Decl.bare .parameter "" .unknown)

theorem params_anonymousParams (d : Decl) (n : Nat) :
    (d.withChildren (anonymousParams n)).params.length = n := by
  simp [Decl.withChildren, Decl.params, anonymousParams, Decl.bare]

section

variable (result : CType) (r : Registry) (source : SourceMap) (sites : List Decl) (d : Decl)

theorem childless_withChildren (children : List Decl) :
    (sites ++ [d.withChildren children]).map Decl.childless = (sites ++ [d]).map Decl.childless := by
  rw [List.map_append, List.map_append]
  rfl

theorem CType.follows_withChildren (children : List Decl) :
    Follows (d.withChildren children) result.returned.getLast?
      (outcome (result.returnEnd.specialize source (sites ++ [d])) r)
      (outcome (result.specialize source (sites ++ [d.withChildren children])) r) := by
  have hlast : (sites ++ [d.withChildren children]).getLast? = some (d.withChildren children) :=
    List.getLast?_concat
  have hfollows := result.outcome_follows r source hlast
  rwa [result.returnEnd.specialize_congr source (childless_withChildren sites d children)
    (.inl result.returned_returnEnd)] at hfollows

/-- Two numbers of parameters that are both wrong give two errors. -/
theorem CType.returned_of_independent {a : CType}
    (hend : (outcome (result.returnEnd.specialize source (sites ++ [d])) r).1 = .ok a)
    (h : ∀ children children',
      outcome (result.specialize source (sites ++ [d.withChildren children])) r =
        outcome (result.specialize source (sites ++ [d.withChildren children'])) r) :
    result.returned = [] := by
  refine List.getLast?_eq_none_iff.mp (Option.eq_none_iff_forall_ne_some.mpr fun f hf => ?_)
  have hcounted : ∀ n, n ≠ f.arity →
      (outcome (result.specialize source (sites ++ [d.withChildren (anonymousParams n)])) r).1 =
        .error ((d.withChildren (anonymousParams n)).miscounted f.arity) := by
    intro n hn
    have hfollows := result.follows_withChildren r source sites d (anonymousParams n)
    rw [hf] at hfollows
    exact hfollows.counted hend (by rwa [params_anonymousParams])
  have hsame := congrArg Prod.fst
    (h (anonymousParams (f.arity + 1)) (anonymousParams (f.arity + 2)))
  rw [hcounted _ (by omega), hcounted _ (by omega)] at hsame
  have hlengths := Decl.miscounted_inj (Except.error.inj hsame)
  rw [params_anonymousParams, params_anonymousParams] at hlengths
  omega

end

/-- Binding what a function gives back at the declaration of the function. It does not depend on the
parameters of the declaration only if no function is given back or what is given back last cannot be
bound; if it succeeds, each function that is given back has the arguments of the declaration. -/
theorem CType.specialize_result_iff (r : Registry) (source : SourceMap) (sites : List Decl) (d : Decl)
    (result : CType) :
    let ended := fun children =>
      outcome (result.specialize source (sites ++ [d.withChildren children])) r
    ((∀ children children', ended children = ended children') ↔
      result.returned = [] ∨
        ∃ e, (outcome (result.returnEnd.specialize source (sites ++ [d])) r).1 = .error e) ∧
    ∀ children t, (ended children).1 = .ok t →
      ∀ f ∈ t.returned, f = (d.withChildren children).use := by
  intro ended
  refine ⟨⟨fun h => ?_, ?_⟩, ?_⟩
  · cases hend : (outcome (result.returnEnd.specialize source (sites ++ [d])) r).1 with
    | error e => exact .inr ⟨e, rfl⟩
    | ok a => exact .inl (result.returned_of_independent r source sites d hend h)
  · rintro (hnone | ⟨e, he⟩) children children'
    · have hplaces := (childless_withChildren sites d children).trans
        (childless_withChildren sites d children').symm
      exact congrArg (outcome · r) (result.specialize_congr source hplaces (.inl hnone))
    · have hfails := fun children => (result.follows_withChildren r source sites d children).failed he
      exact (hfails children).trans (hfails children').symm
  · intro children t ht
    obtain ⟨uses, -, -, hreturned⟩ :=
      result.specialize_returned r source (List.getLast?_concat (a := d.withChildren children))
    exact hreturned t ht

def pick : Decl :=
  { Decl.bare .function "rz_pick" ⟨"pick.h", 1, 7, 6⟩ with
    children := [Decl.bare .parameter "which" ⟨"pick.h", 1, 19, 18⟩] }

/-- The type of `int (*rz_pick(int which))(int, int)`. -/
def pickType : CType :=
  let int := ⟨.primitive .int, "int", false⟩
  let picked := ⟨.function int [int, int] none false, "int (int, int)", false⟩
  ⟨.function ⟨.pointer picked, "int (*)(int, int)", false⟩ [int] none false,
    "int (*(int))(int, int)", false⟩

/-- The one parameter of the function is counted against the two arguments of the function that it
gives back. -/
theorem pick_miscounted :
    (outcome (pickType.specialize ⟨[]⟩ [pick]) {}).1 =
      .error (.unexpectedShape "rz_pick" "1 parameter declarations for 2 arguments"
        pick.location) := by
  rfl

end Bindery
