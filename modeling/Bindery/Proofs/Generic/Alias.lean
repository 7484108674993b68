import Mathlib
import Bindery.Proofs.Dump.Arity
import Bindery.Proofs.Generic.Element

/-! A typedef that stands for another typedef. The comment and the parameters of that one are not
found. -/

namespace Bindery

open RegistryM (outcome outcome_bind outcome_bind_ok outcome_map)

/-- Nothing on the way along the results asks for a declaration: no function on it has arguments, and
at its end there is no record of a generic. -/
structure CType.Quiet (r : Registry) (t : CType) : Prop where
  arities : ∀ f ∈ t.returned, f.arity = 0
  idle : t.returnEnd.Idle r

section

variable {r : Registry} {source : SourceMap}

/-- A type that asks for nothing is bound in the same way at all declarations without parameters. -/
theorem CType.Quiet.exists_outcome {t : CType} (hquiet : t.Quiet r) :
    ∃ t', ∀ source sites owner, sites.getLast? = some owner → t.returned = [] ∨ owner.params = [] →
      outcome (t.specialize source sites) r = (.ok t', r) := by
  obtain ⟨harity, hidle⟩ := hquiet
  induction t using CType.results_induction with
  | ending t hend =>
    rw [(CType.ends_of_isEnd hend).1] at hidle
    exact ⟨t, fun _ sites _ _ _ => CType.outcome_of_idle sites t hidle⟩
  | pointer pointee spelling isConst ih =>
    obtain ⟨pointee', hpointee⟩ := ih harity hidle
    refine ⟨⟨.pointer pointee', spelling, isConst⟩, fun source sites owner howner hparams => ?_⟩
    rw [CType.specialize_pointer, outcome_map, hpointee source sites owner howner hparams]
    rfl
  | undeclared name canonical spelling isConst ih =>
    obtain ⟨canonical', hcanonical⟩ := ih harity hidle
    refine ⟨⟨.typedef name canonical' none, spelling, isConst⟩,
      fun source sites owner howner hparams => ?_⟩
    rw [CType.specialize_undeclared, outcome_map, hcanonical source sites owner howner hparams]
    rfl
  | function result args argNames variadic spelling isConst ih =>
    obtain ⟨hargs, hresults⟩ := List.forall_mem_cons.mp harity
    obtain rfl : args = [] := List.eq_nil_of_length_eq_zero hargs
    obtain ⟨result', hresult⟩ := ih hresults hidle
    refine ⟨⟨.function result' [] (some []) variadic, spelling, isConst⟩,
      fun source sites owner howner hparams => ?_⟩
    have hnone : owner.params = [] := hparams.resolve_left (List.cons_ne_nil _ _)
    rw [CType.specialize_function howner, outcome_bind,
      hresult source sites owner howner (.inr hnone), hnone]
    rfl

/-- Without comments and parameters only a type that asks for nothing can be bound. -/
theorem CType.quiet_of_outcome {sites : List Decl} {owner : Decl}
    (hcomments : ∀ d ∈ sites, d.annotationToken source = .ok none)
    (howner : sites.getLast? = some owner) (hparams : owner.params = []) {t : CType}
    (hconcrete : t.Concrete) {t' : CType}
    (h : (outcome (t.specialize source sites) r).1 = .ok t') : t.Quiet r := by
  induction t using CType.results_induction generalizing t' with
  | ending t hend =>
    obtain ⟨kind, spelling, isConst⟩ := t
    cases kind with
    | primitive p => exact ⟨nofun, rfl, nofun⟩
    | array element count => exact ⟨nofun, rfl, nofun⟩
    | pointer pointee => cases hend
    | function result args argNames variadic => cases hend
    | typedef name canonical decl =>
      cases decl with
      | none => cases hend
      | some d => exact absurd rfl (hconcrete name canonical (some d))
    | record tag isUnion binding =>
      rw [CType.specialize_record] at h
      obtain ⟨found, _, hfound, -⟩ := outcome_bind_ok h
      have hnone := forStruct?_of_outcome hcomments (congrArg Prod.fst hfound)
      exact ⟨nofun, rfl, List.forall_mem_singleton.mpr hnone⟩
  | pointer pointee spelling isConst ih =>
    rw [CType.specialize_pointer] at h
    obtain ⟨pointee', _, hpointee, -⟩ := outcome_bind_ok h
    have hquiet := ih hconcrete (congrArg Prod.fst hpointee)
    exact ⟨hquiet.arities, hquiet.idle⟩
  | undeclared name canonical spelling isConst ih =>
    rw [CType.specialize_undeclared] at h
    obtain ⟨canonical', _, hcanonical, -⟩ := outcome_bind_ok h
    have hquiet := ih hconcrete (congrArg Prod.fst hcanonical)
    exact ⟨hquiet.arities, hquiet.idle⟩
  | function result args argNames variadic spelling isConst ih =>
    rw [CType.specialize_function howner, hparams] at h
    obtain ⟨result', r', hresult, h⟩ := outcome_bind_ok h
    have hquiet := ih hconcrete (congrArg Prod.fst hresult)
    refine ⟨List.forall_mem_cons.mpr ⟨?_, hquiet.arities⟩, hquiet.idle⟩
    by_contra hargs
    have hcount : ¬ ([] : List Decl).length = args.length := fun hsame => hargs hsame.symm
    rw [if_neg hcount] at h
    cases h

end

namespace Decl

/-- The type that the name of a typedef stands for. -/
def asType (d : Decl) : RawType :=
  .typedef d.name (d.type.getD .unknown) (some d)

/-- A declaration of the same name at the same place, with another type. -/
def ofType (d : Decl) (t : RawType) : Decl :=
  { d with type := some t }

/-- The type of a field, bound. -/
def boundType (source : SourceMap) (d : Decl) : RegistryM CType := do
  let t ← RegistryM.ofExcept d.classify
  d.specializeType source t

section

variable {source : SourceMap} {d a : Decl} {t : RawType}

theorem classify_asType {c : CType} (ht : a.type = some t) :
    a.asType.classify = .ok c ↔ ∃ c', t.desugared.classifySugarless = .ok c' ∧
      c = ⟨.typedef a.name c' (some a), a.name, false⟩ := by
  rw [asType, ht]
  exact RawType.classify_typedef_iff

/-- The type is looked up behind the typedef, at the field and at the declaration of the typedef. -/
theorem outcome_boundType {c : CType} (r : Registry) (ht : a.type = some t)
    (hc : t.desugared.classifySugarless = .ok c) (hrecord : ¬ c.kind.record?.isSome) :
    outcome ((d.ofType a.asType).boundType source) r =
      ((outcome (c.specialize source [d.ofType a.asType, a]) r).1.map fun c' =>
          ⟨.typedef a.name c' (some a), a.name, false⟩,
        (outcome (c.specialize source [d.ofType a.asType, a]) r).2) := by
  have hclassify : (d.ofType a.asType).classify =
      .ok ⟨.typedef a.name c (some a), a.name, false⟩ := by
    have htype := (classify_asType ht).mpr ⟨c, hc, rfl⟩
    simp only [classify, ofType, htype]
    rfl
  rw [boundType, hclassify]
  show outcome (CType.specialize source [d.ofType a.asType] _) r = _
  rw [CType.specialize_typedef, outcome_map, typedefSites, if_neg hrecord]
  rfl

theorem boundType_error {e : BindError} (source : SourceMap) (d : Decl) (r : Registry)
    (ht : a.type = some t) (he : t.desugared.classifySugarless = .error e) :
    ∃ e', outcome ((d.ofType a.asType).boundType source) r = (.error e', r) := by
  have hclassify : ∃ e', (d.ofType a.asType).classify = .error e' := by
    cases h : (d.ofType a.asType).classify with
    | error e' => exact ⟨e', rfl⟩
    | ok c =>
      obtain ⟨c', hc', -⟩ := (classify_asType ht).mp (mapError_ok h)
      rw [he] at hc'
      cases hc'
  obtain ⟨e', he'⟩ := hclassify
  rw [boundType, he']
  exact ⟨e', rfl⟩

end

end Decl

/-- Both fail, or both give the same instances and names and leave the same registry. -/
def Agree : Except BindError CType × Registry → Except BindError CType × Registry → Prop
  | (.ok t, r), (.ok t', r') => t'.records = t.records ∧ t'.functions = t.functions ∧ r' = r
  | (.error _, _), (.error _, _) => True
  | _, _ => False

theorem Agree.failed_iff {x y : Except BindError CType × Registry} {e : BindError}
    (hy : y.1 = .error e) : Agree x y ↔ ∃ e, x.1 = .error e := by
  obtain ⟨_, r⟩ := y
  obtain rfl := hy
  rcases x with ⟨e' | t, r'⟩
  · exact ⟨fun _ => ⟨e', rfl⟩, fun _ => trivial⟩
  · exact ⟨False.elim, nofun⟩

/-- Using a typedef `g` of a typedef `f` agrees with using `f`, in a field without a comment, if and
only if the use of `f` fails too or nothing behind `f` asks for a declaration. -/
theorem Decl.alias_agrees_iff {o : Origin} {nf ng : Node} {t : RawType} {f g : Decl}
    {texts texts' more more' : SourceMap}
    (hf : (nf.typed o .typedef t).run texts = .ok (f, texts'))
    (hg : (ng.typed o .typedef f.asType).run more = .ok (g, more'))
    (hrecord : t.recordName = none) {source : SourceMap} {d : Decl}
    (hd : d.annotationToken source = .ok none) (hplain : g.annotationToken source = .ok none)
    (r : Registry) :
    Agree (outcome ((d.ofType f.asType).boundType source) r)
        (outcome ((d.ofType g.asType).boundType source) r) ↔
      (∃ e, (outcome ((d.ofType f.asType).boundType source) r).1 = .error e) ∨
        ∃ c, t.desugared.classifySugarless = .ok c ∧ c.Quiet r := by
  obtain ⟨⟨hftype, -, hfparams⟩, -⟩ := (nf.typed_gives .typedef t texts trivial).1 f texts' hf
  obtain ⟨⟨hgtype, hgparams, -⟩, -⟩ := (ng.typed_gives .typedef f.asType more trivial).1 g more' hg
  have hsame : f.asType.desugared = t.desugared := by rw [asType, hftype]; rfl
  cases hc : t.desugared.classifySugarless with
  | error e =>
    obtain ⟨e₁, hffails⟩ := boundType_error source d r hftype hc
    obtain ⟨e₂, hgfails⟩ := boundType_error source d r hgtype (hsame ▸ hc)
    rw [hffails, hgfails]
    exact ⟨fun _ => .inl ⟨e₁, rfl⟩, fun _ => trivial⟩
  | ok c =>
    have hother : ¬ c.kind.record?.isSome := by
      intro h
      have hname := RawType.recordName_of_desugared h t hc
      rw [hrecord] at hname
      cases hname
    have hgnone : g.params = [] := by rw [params, hgparams rfl]; rfl
    rw [outcome_boundType r hftype hc hother, outcome_boundType r hgtype (hsame ▸ hc) hother]
    by_cases hquiet : c.Quiet r
    · have hfnone : c.returned = [] ∨ f.params = [] := by
        cases hreturned : c.returned with
        | nil => exact .inl rfl
        | cons u us =>
          have hhead : c.returned.head? = some u := by rw [hreturned]; rfl
          have harity : u.arity = 0 := hquiet.arities u (List.mem_of_mem_head? hhead)
          rw [params, hfparams ⟨c, u, hc, hhead, harity⟩]
          exact .inr rfl
      obtain ⟨c', hc'⟩ := hquiet.exists_outcome
      rw [hc' source [d.ofType f.asType, f] f rfl hfnone,
        hc' source [d.ofType g.asType, g] g rfl (.inr hgnone)]
      exact ⟨fun _ => .inr ⟨c, rfl, hquiet⟩, fun _ => ⟨rfl, rfl, rfl⟩⟩
    · -- the alias hides the comment and the parameters, so it fails where they are asked for
      have hgfails : ∃ e, (outcome (c.specialize source [d.ofType g.asType, g]) r).1 = .error e := by
        cases hended : (outcome (c.specialize source [d.ofType g.asType, g]) r).1 with
        | error e => exact ⟨e, rfl⟩
        | ok c' =>
          have hcomments : ∀ s ∈ [d.ofType g.asType, g], s.annotationToken source = .ok none :=
            List.forall_mem_cons.mpr ⟨hd, List.forall_mem_singleton.mpr hplain⟩
          have hconcrete := RawType.classifySugarless_lasting CType.concrete_lasting hc
          exact absurd (CType.quiet_of_outcome hcomments rfl hgnone hconcrete hended) hquiet
      obtain ⟨e, he⟩ := hgfails
      rw [he, Agree.failed_iff rfl]
      refine ⟨.inl, fun h => h.resolve_right ?_⟩
      rintro ⟨c', hc', hquiet'⟩
      cases hc'
      exact hquiet hquiet'

/-- The typedefs stand in a header that cannot be read. -/
def runOrigin : Origin :=
  ⟨"run.h", "", fun _ => none⟩

def typedefNode (name : String) (line column offset : Nat) : Node :=
  ⟨"TypedefDecl", name, ⟨some ⟨"lib.h", line, column, offset, name.length⟩, none⟩, {}, {}, none,
    false, false, none, none, none, []⟩

def runField : Decl :=
  Decl.bare .field "run" ⟨"run.h", 1, 20, 19⟩

def callbackType : RawType :=
  ⟨.pointer ⟨.function ⟨.builtin .void, "void", false⟩ [] false, "void (void)", false⟩,
    "void (*)(void)", false⟩

/-- The lines `typedef void (*Callback)(void);` and `typedef Callback Alias;`. -/
def callback : Decl :=
  { typedefAt "Callback" ⟨"lib.h", 1, 16, 15⟩ with type := some callbackType }

def callbackAlias : Decl :=
  { typedefAt "Alias" ⟨"lib.h", 2, 18, 49⟩ with type := some callback.asType }

/-- A function without arguments has no parameters to be hidden. -/
theorem callback_alias_agrees :
    ((typedefNode "Callback" 1 16 15).typed runOrigin .typedef callbackType).run {} =
        .ok (callback, {}) ∧
      ((typedefNode "Alias" 2 18 49).typed runOrigin .typedef callback.asType).run {} =
        .ok (callbackAlias, {}) ∧
      callbackType.recordName = none ∧ runField.annotationToken {} = .ok none ∧
      callbackAlias.annotationToken {} = .ok none ∧
      Agree (outcome ((runField.ofType callback.asType).boundType {}) {})
        (outcome ((runField.ofType callbackAlias.asType).boundType {}) {}) := by
  have hf : ((typedefNode "Callback" 1 16 15).typed runOrigin .typedef callbackType).run {} =
      .ok (callback, {}) := by cbv
  have hg : ((typedefNode "Alias" 2 18 49).typed runOrigin .typedef callback.asType).run {} =
      .ok (callbackAlias, {}) := by rfl
  refine ⟨hf, hg, rfl, rfl, rfl, (Decl.alias_agrees_iff hf hg rfl rfl rfl {}).mpr (.inr ?_)⟩
  refine ⟨_, rfl, ?_, rfl, List.forall_mem_nil _⟩
  exact List.forall_mem_singleton.mpr rfl

def handlerType : RawType :=
  let int := ⟨.builtin .int, "int", false⟩
  ⟨.pointer ⟨.function int [int] false, "int (int)", false⟩, "int (*)(int)", false⟩

/-- The lines `typedef int (*Handler)(int);` and `typedef Handler Alias;`. -/
def handler : Decl :=
  { typedefAt "Handler" ⟨"lib.h", 1, 15, 14⟩ with
    type := some handlerType
    children := [{ Decl.bare .parameter "" ⟨"lib.h", 1, 15, 14⟩ with
      type := some ⟨.builtin .int, "int", false⟩ }] }

def handlerAlias : Decl :=
  { typedefAt "Alias" ⟨"lib.h", 2, 17, 45⟩ with type := some handler.asType }

/-- A field of the alias is refused, since the alias has no parameters. -/
theorem handler_alias_refused :
    ((typedefNode "Handler" 1 15 14).typed runOrigin .typedef handlerType).run {} =
        .ok (handler, {}) ∧
      ((typedefNode "Alias" 2 17 45).typed runOrigin .typedef handler.asType).run {} =
        .ok (handlerAlias, {}) ∧
      handlerType.recordName = none ∧ runField.annotationToken {} = .ok none ∧
      handlerAlias.annotationToken {} = .ok none ∧
      ¬ Agree (outcome ((runField.ofType handler.asType).boundType {}) {})
        (outcome ((runField.ofType handlerAlias.asType).boundType {}) {}) := by
  refine ⟨by cbv, by rfl, rfl, rfl, rfl, fun h => ?_⟩
  have hrefused : (outcome ((runField.ofType handlerAlias.asType).boundType {}) {}).1 =
      .error (.unexpectedShape "Alias" "0 parameter declarations for 1 arguments"
        handlerAlias.location) := by rfl
  obtain ⟨e, he⟩ := (Agree.failed_iff hrefused).mp h
  cases he

end Bindery
