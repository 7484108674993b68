import Bindery.CType.Declarator
import Bindery.Proofs.Generic.Specialize

/-! What binding a type gives, with one equation for each form of it. -/

namespace Bindery

namespace RegistryM

variable {α β : Type} {r r' : Registry}

/-- What a step gives when it is begun with a registry, and the registry that it leaves. -/
def outcome (x : RegistryM α) (r : Registry) : Except BindError α × Registry :=
  x.run.run r

theorem outcome_get : outcome get r = (.ok r, r) := rfl

theorem outcome_bind (x : RegistryM α) (f : α → RegistryM β) :
    outcome (x >>= f) r = match outcome x r with
      | (.ok a, r') => outcome (f a) r'
      | (.error e, r') => (.error e, r') := by
  simp only [outcome, ExceptT.run_bind, StateT.run_bind]
  rcases x.run.run r with ⟨_ | _, _⟩ <;> rfl

theorem outcome_bind_ok {x : RegistryM α} {f : α → RegistryM β} {b : β}
    (h : (outcome (x >>= f) r).1 = .ok b) :
    ∃ a r', outcome x r = (.ok a, r') ∧ (outcome (f a) r').1 = .ok b := by
  rw [outcome_bind] at h
  rcases hx : outcome x r with ⟨e | a, r'⟩
  · rw [hx] at h
    cases h
  · rw [hx] at h
    exact ⟨a, r', rfl, h⟩

theorem outcome_map (x : RegistryM α) (f : α → β) :
    outcome (x >>= fun a => pure (f a)) r = ((outcome x r).1.map f, (outcome x r).2) := by
  rw [outcome_bind]
  rcases outcome x r with ⟨_ | _, _⟩ <;> rfl

theorem outcome_map_ok_iff {x : RegistryM α} {f : α → β} {a : α} (hf : f.Injective) :
    outcome (x >>= fun a => pure (f a)) r = (.ok (f a), r') ↔ outcome x r = (.ok a, r') := by
  rw [outcome_map]
  rcases outcome x r with ⟨_ | b, r''⟩
  · simp [Except.map]
  · simp [Except.map, hf.eq_iff]

end RegistryM

open RegistryM (outcome outcome_bind outcome_map)

section

variable {source : SourceMap} {sites : List Decl}

/-- The places that a typedef adds for comments on the type that it stands for. -/
def typedefSites (canonical : CType) (decl : Option Decl) : List Decl :=
  if canonical.kind.record?.isSome then [] else decl.toList

theorem CKind.specialize_typedef (name : String) (canonical : CType) (decl : Option Decl) :
    (CKind.typedef name canonical decl).specialize source sites =
      canonical.specialize source (sites ++ typedefSites canonical decl) >>=
        fun c => pure (.typedef name c decl) := by
  obtain ⟨kind, spelling, isConst⟩ := canonical
  cases decl <;> cases kind <;> simp [specialize, typedefSites, record?]

theorem CType.specialize_pointer (pointee : CType) (spelling : String) (isConst : Bool) :
    CType.specialize source sites ⟨.pointer pointee, spelling, isConst⟩ =
      pointee.specialize source sites >>= fun p => pure ⟨.pointer p, spelling, isConst⟩ := by
  simp only [CType.specialize, CKind.specialize, bind_assoc, pure_bind]

theorem CType.specialize_typedef (name : String) (canonical : CType) (decl : Option Decl)
    (spelling : String) (isConst : Bool) :
    CType.specialize source sites ⟨.typedef name canonical decl, spelling, isConst⟩ =
      canonical.specialize source (sites ++ typedefSites canonical decl) >>=
        fun c => pure ⟨.typedef name c decl, spelling, isConst⟩ := by
  simp only [CType.specialize, CKind.specialize_typedef, bind_assoc, pure_bind]

theorem CType.specialize_undeclared (name : String) (canonical : CType) (spelling : String)
    (isConst : Bool) :
    CType.specialize source sites ⟨.typedef name canonical none, spelling, isConst⟩ =
      canonical.specialize source sites >>=
        fun c => pure ⟨.typedef name c none, spelling, isConst⟩ := by
  rw [CType.specialize_typedef, typedefSites, Option.toList_none, ite_self, List.append_nil]

/-- The error for a declaration that has not as many parameters as a function has arguments. -/
def Decl.miscounted (d : Decl) (arguments : Nat) : BindError :=
  .unexpectedShape d.name
    s!"{d.params.length} parameter declarations for {arguments} arguments" d.location

theorem CType.specialize_function {owner : Decl} (h : sites.getLast? = some owner)
    (result : CType) (args : List CType) (argNames : Option (List String)) (variadic : Bool)
    (spelling : String) (isConst : Bool) :
    CType.specialize source sites ⟨.function result args argNames variadic, spelling, isConst⟩ = (do
      let result ← result.specialize source sites
      if owner.params.length = args.length then
        let args ← CType.specializeArgs source owner.params args
        let names := owner.params.mapIdx argName
        pure ⟨.function result args (some names) variadic, spelling, isConst⟩
      else throw (owner.miscounted args.length)) := by
  rw [CType.specialize, CKind.specialize, h, bind_assoc]
  refine bind_congr fun result' => ?_
  simp only
  split
  next => rw [bind_assoc]; rfl
  next => rfl

theorem CType.specialize_function_unsited (result : CType) (args : List CType)
    (argNames : Option (List String)) (variadic : Bool) (spelling : String) (isConst : Bool) :
    CType.specialize source [] ⟨.function result args argNames variadic, spelling, isConst⟩ =
      result.specialize source [] >>=
        fun t => pure ⟨.function t args argNames variadic, spelling, isConst⟩ := by
  simp only [CType.specialize, CKind.specialize, List.getLast?_nil, bind_assoc, pure_bind]

theorem CType.specialize_record (tag : String) (isUnion : Bool) (binding : Option GenericBinding)
    (spelling : String) (isConst : Bool) :
    CType.specialize source sites ⟨.record tag isUnion binding, spelling, isConst⟩ =
      bindRecord source sites tag >>= fun found =>
        pure ⟨.record tag isUnion (found.orElse fun _ => binding), spelling, isConst⟩ := by
  simp only [CType.specialize, CKind.specialize, bind_assoc, pure_bind]

end

theorem firstToken_unannotated {source : SourceMap} {sites : List Decl}
    (h : ∀ d ∈ sites, d.annotationToken source = .ok none) :
    firstToken source sites = .ok none := by
  induction sites with
  | nil => rfl
  | cons d ds ih =>
    obtain ⟨hd, hds⟩ := List.forall_mem_cons.mp h
    rw [firstToken, hd]
    exact ih hds

/-- A record of a generic is refused if no comment is found. -/
theorem forStruct?_of_outcome {r : Registry} {source : SourceMap} {sites : List Decl} {tag : String}
    {found : Option GenericBinding} (h : ∀ d ∈ sites, d.annotationToken source = .ok none)
    (hfound : (outcome (bindRecord source sites tag) r).1 = .ok found) :
    r.forStruct? tag = none := by
  rw [bindRecord, outcome_bind, RegistryM.outcome_get, firstToken_unannotated h] at hfound
  cases hg : r.forStruct? tag with
  | none => rfl
  | some g =>
    simp only [hg] at hfound
    cases hfound

theorem outcome_bindRecord {r : Registry} {source : SourceMap} {sites : List Decl} {tag : String}
    (h : r.forStruct? tag = none) :
    outcome (bindRecord source sites tag) r = (.ok none, r) := by
  rw [bindRecord, outcome_bind, RegistryM.outcome_get]
  simp only [h]
  rfl

end Bindery
