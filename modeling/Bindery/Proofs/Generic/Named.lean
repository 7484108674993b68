import Bindery.Interface.Director
import Bindery.Proofs.Binding.Director
import Bindery.Proofs.CType.Frame
import Bindery.Proofs.Generic.Result

/-! The names that the arguments of functions get when a type is bound. -/

namespace Bindery

open RegistryM (outcome outcome_bind_ok)

theorem madeName_inj {i j : Nat} (h : s!"arg{i}" = s!"arg{j}") : i = j := by
  simp only [String.append_right_inj] at h
  exact toString_injective h

theorem madeName_ne_empty (i : Nat) : s!"arg{i}" ≠ "" := by
  simp [String.append_eq_empty_iff]

theorem argName_of_name {d : Decl} (i : Nat) (h : d.name ≠ "") : argName i d = d.name := by
  simp [argName, h]

theorem argName_of_unnamed {d : Decl} (i : Nat) (h : d.name = "") : argName i d = s!"arg{i}" := by
  simp [argName, h]

theorem argName_ne_empty (i : Nat) (d : Decl) : argName i d ≠ "" := by
  by_cases h : d.name = ""
  · rw [argName_of_unnamed i h]
    exact madeName_ne_empty i
  · rwa [argName_of_name i h]

namespace Decl

/-- What the arguments of a function are called after the parameters of its declaration. -/
def argNames (d : Decl) : List String :=
  d.params.mapIdx argName

/-- No two parameters have one name. Any of them may have none. -/
def NamedApart (d : Decl) : Prop :=
  ((d.params.map name).filter (· ≠ "")).Nodup

instance (d : Decl) : Decidable d.NamedApart :=
  inferInstanceAs (Decidable (List.Nodup _))

/-- A parameter is called in the source what another one without a name gets called. -/
def TakesMadeName (d : Decl) : Prop :=
  ∃ (i : Nat) (p q : Decl), d.params[i]? = some p ∧ p.name = "" ∧ q ∈ d.params ∧ q.name = s!"arg{i}"

variable {d : Decl}

theorem argNames_ne_empty : ∀ n ∈ d.argNames, n ≠ "" := by
  intro n hn
  obtain ⟨i, hi, rfl⟩ := List.mem_mapIdx.mp hn
  exact argName_ne_empty i _

theorem getElem?_argNames {i : Nat} {p : Decl} (hp : d.params[i]? = some p) :
    d.argNames[i]? = some (argName i p) := by
  rw [argNames, List.getElem?_mapIdx, hp, Option.map_some]

theorem NamedApart.ne {i j : Nat} {p q : Decl} (h : d.NamedApart) (hij : i < j)
    (hp : d.params[i]? = some p) (hq : d.params[j]? = some q) (hn : p.name ≠ "") :
    p.name ≠ q.name := by
  obtain ⟨hi, rfl⟩ := List.getElem?_eq_some_iff.mp hp
  obtain ⟨hj, rfl⟩ := List.getElem?_eq_some_iff.mp hq
  rw [NamedApart, List.Nodup, List.pairwise_filter, List.pairwise_map] at h
  intro hsame
  have hq' : d.params[j].name ≠ "" := hsame ▸ hn
  exact List.pairwise_iff_getElem.mp h i j hi hj hij (by simpa using hn) (by simpa using hq') hsame

theorem not_takesMadeName (h : d.argNames.Nodup) : ¬d.TakesMadeName := by
  rintro ⟨i, p, q, hp, hunnamed, hq, htaken⟩
  obtain ⟨j, hq⟩ := List.mem_iff_getElem?.mp hq
  have hnamed : q.name ≠ "" := htaken ▸ madeName_ne_empty i
  have hsame : d.argNames[i]? = d.argNames[j]? := by
    rw [getElem?_argNames hp, getElem?_argNames hq, argName_of_unnamed i hunnamed,
      argName_of_name j hnamed, htaken]
  have hi := (List.getElem?_eq_some_iff.mp (getElem?_argNames hp)).1
  obtain rfl := (List.getElem?_inj hi h).mp hsame
  obtain rfl := Option.some.inj (hp.symm.trans hq)
  exact hnamed hunnamed

/-- Two parameters with names have different ones, and so have two without. -/
theorem nodup_argNames (hapart : d.NamedApart) (h : ¬d.TakesMadeName) : d.argNames.Nodup := by
  refine List.nodup_iff_getElem?_ne_getElem?.mpr fun i j hij hj hsame => ?_
  have hlength : d.argNames.length = d.params.length := List.length_mapIdx
  obtain ⟨p, hp⟩ : ∃ p, d.params[i]? = some p := ⟨_, List.getElem?_eq_getElem (by omega)⟩
  obtain ⟨q, hq⟩ : ∃ q, d.params[j]? = some q := ⟨_, List.getElem?_eq_getElem (by omega)⟩
  rw [getElem?_argNames hp, getElem?_argNames hq, Option.some.injEq] at hsame
  by_cases hpn : p.name = "" <;> by_cases hqn : q.name = ""
  · rw [argName_of_unnamed i hpn, argName_of_unnamed j hqn] at hsame
    exact absurd (madeName_inj hsame) (by omega)
  · rw [argName_of_unnamed i hpn, argName_of_name j hqn] at hsame
    exact h ⟨i, p, q, hp, hpn, List.mem_of_getElem? hq, hsame.symm⟩
  · rw [argName_of_name i hpn, argName_of_unnamed j hqn] at hsame
    exact h ⟨j, q, p, hq, hqn, List.mem_of_getElem? hp, hsame⟩
  · rw [argName_of_name i hpn, argName_of_name j hqn] at hsame
    exact hapart.ne hij hp hq hpn hsame

end Decl

/-- The declaration of which the parameters name the functions in a typedef: its own, unless it is a
typedef of a record. -/
def typedefOwner (owner : Decl) (canonical : CType) (decl : Option Decl) : Decl :=
  (typedefSites canonical decl).getLastD owner

mutual

/-- The declarations of which the parameters name the functions of a type, in the order of the
functions. `owner` is the last one of those at which the type is bound. -/
def CType.owners (owner : Decl) : CType → List Decl
  | ⟨kind, _, _⟩ => kind.owners owner

def CKind.owners (owner : Decl) : CKind → List Decl
  | .primitive _ => []
  | .pointer pointee => pointee.owners owner
  | .array _ _ => []
  | .typedef _ canonical decl => canonical.owners (typedefOwner owner canonical decl)
  | .record _ _ _ => []
  | .function result args _ _ => owner :: (result.owners owner ++ CType.ownersList owner.params args)

def CType.ownersList : List Decl → List CType → List Decl
  | p :: ps, t :: ts => t.owners p ++ CType.ownersList ps ts
  | _, _ => []

end

section

variable {source : SourceMap}

theorem getLast?_typedefSites {sites : List Decl} {owner : Decl} (h : sites.getLast? = some owner)
    (canonical : CType) (decl : Option Decl) :
    (sites ++ typedefSites canonical decl).getLast? = some (typedefOwner owner canonical decl) := by
  rw [List.getLast?_append, h, typedefOwner, List.getLastD_eq_getLast?]
  cases (typedefSites canonical decl).getLast? <;> rfl

mutual

theorem CType.functions_of_outcome {sites : List Decl} {owner : Decl}
    (howner : sites.getLast? = some owner) (t : CType) {t' : CType} {r : Registry}
    (h : (outcome (t.specialize source sites) r).1 = .ok t') :
    t'.functions = (t.owners owner).map Decl.use := by
  obtain ⟨kind, spelling, isConst⟩ := t
  rw [CType.specialize] at h
  obtain ⟨kind', r', hkind, h⟩ := outcome_bind_ok h
  cases h
  exact kind.functions_of_outcome howner (congrArg Prod.fst hkind)

theorem CKind.functions_of_outcome {sites : List Decl} {owner : Decl}
    (howner : sites.getLast? = some owner) (kind : CKind) {kind' : CKind} {r : Registry}
    (h : (outcome (kind.specialize source sites) r).1 = .ok kind') :
    kind'.functions = (kind.owners owner).map Decl.use := by
  cases kind with
  | primitive p =>
    cases h
    rfl
  | array element count =>
    cases h
    rfl
  | record tag isUnion binding =>
    obtain ⟨found, r', -, h⟩ := outcome_bind_ok h
    cases h
    rfl
  | pointer pointee =>
    obtain ⟨p, r', hp, h⟩ := outcome_bind_ok h
    cases h
    exact pointee.functions_of_outcome howner (congrArg Prod.fst hp)
  | typedef name canonical decl =>
    rw [CKind.specialize_typedef] at h
    obtain ⟨c, r', hc, h⟩ := outcome_bind_ok h
    cases h
    exact canonical.functions_of_outcome (getLast?_typedefSites howner canonical decl)
      (congrArg Prod.fst hc)
  | function result args argNames variadic =>
    obtain ⟨result', r', hresult, h⟩ := outcome_bind_ok h
    simp only [howner] at h
    split at h
    next hlen =>
      obtain ⟨args', r'', hargs, h⟩ := outcome_bind_ok h
      cases h
      have hinner := result.functions_of_outcome howner (congrArg Prod.fst hresult)
      obtain ⟨hsame, hlist⟩ := CType.functionsList_of_outcome args hlen (congrArg Prod.fst hargs)
      have huse : FunctionUse.mk args'.length (some (owner.params.mapIdx argName)) = owner.use := by
        rw [Decl.use, hsame, hlen]
      rw [CKind.functions, CKind.owners, List.map_cons, List.map_append, huse, hinner, hlist]
    next => cases h

/-- Each argument is bound at its own parameter. -/
theorem CType.functionsList_of_outcome {params : List Decl} (ts : List CType)
    (hlen : params.length = ts.length) {ts' : List CType} {r : Registry}
    (h : (outcome (CType.specializeArgs source params ts) r).1 = .ok ts') :
    ts'.length = ts.length ∧
      CType.functionsList ts' = (CType.ownersList params ts).map Decl.use := by
  cases ts with
  | nil =>
    cases h
    obtain rfl := List.length_eq_zero_iff.mp hlen
    exact ⟨rfl, rfl⟩
  | cons t ts =>
    obtain ⟨p, ps, rfl⟩ := List.exists_cons_of_length_eq_add_one hlen
    obtain ⟨u, r', ht, h⟩ := outcome_bind_ok h
    obtain ⟨us, r'', hts, h⟩ := outcome_bind_ok h
    cases h
    have hfirst : u.functions = (t.owners p).map Decl.use :=
      t.functions_of_outcome rfl (congrArg Prod.fst ht)
    obtain ⟨hsame, hrest⟩ :=
      CType.functionsList_of_outcome ts (Nat.succ.inj hlen) (congrArg Prod.fst hts)
    refine ⟨congrArg Nat.succ hsame, ?_⟩
    rw [CType.functionsList, CType.ownersList, List.map_append, hfirst, hrest]

end

end

/-- What the adapter of a hook passes on. -/
def Hook.actuals (h : Hook) : List String :=
  h.args.map (·.1)

/-- The virtual function of a hook and its adapter declare each argument by a name of its own, and
the adapter passes the arguments on by these names. -/
structure Director.Forwards (names : RecordNames) (d : Director) (h : Hook) : Prop where
  virtual : "    " ++ ("virtual " ++ h.declared names h.name) ∈ d.virtuals names
  adapter : h.declared names s!"SWIG_{d.name}_{h.name}" ∈ d.adapters names
  call : "    return SWIG_" ++ d.name ++ "Director->" ++ h.name ++ "(" ++
    ", ".intercalate h.actuals ++ ");" ∈ d.adapters names
  declared : h.parameters names = ", ".intercalate
    (h.args.map fun a => (a.2.frame names false false).around a.1)
  named : ∀ n ∈ h.actuals, n ≠ ""
  once : h.actuals.Nodup

theorem Director.forwards_iff {d : Director} {h : Hook} (hmem : h ∈ d.hooks)
    (hnamed : ∀ n ∈ h.actuals, n ≠ "") (names : RecordNames) :
    d.Forwards names h ↔ h.actuals.Nodup := by
  refine ⟨Forwards.once, fun honce => ⟨?_, ?_, ?_, ?_, hnamed, honce⟩⟩
  · refine List.mem_append_left _ (List.mem_append_right _ (List.mem_map_of_mem ?_))
    refine List.mem_append_left _ (List.mem_flatMap.mpr ⟨h, hmem, ?_⟩)
    exact List.mem_cons_self
  · refine List.mem_append_left _ (List.mem_append_right _ (List.mem_flatMap.mpr ⟨h, hmem, ?_⟩))
    exact List.mem_cons_self
  · refine List.mem_append_left _ (List.mem_append_right _ (List.mem_flatMap.mpr ⟨h, hmem, ?_⟩))
    exact List.mem_cons_of_mem _ List.mem_cons_self
  · refine congrArg _ (List.map_congr_left fun a ha => ?_)
    exact CType.declare_eq_around names a.2 false (hnamed a.1 (List.mem_map_of_mem ha))

/-- The first function of a type that points to a function is that one. -/
theorem CType.function_of_pointer {t : CType} (h : t.asFunctionPointer.isSome) :
    ∃ result args argNames variadic spelling isConst,
      t.asFunctionPointer = some ⟨.function result args argNames variadic, spelling, isConst⟩ ∧
        t.functions.head? = some ⟨args.length, argNames⟩ := by
  obtain ⟨f, hf⟩ := Option.isSome_iff_exists.mp h
  have hsame : f.functions = t.functions :=
    CType.eq_of_asFunctionPointer (fun _ _ _ => rfl) (fun _ _ _ _ _ => rfl) hf
  have hfunction := (Option.filter_eq_some_iff.mp hf).2
  obtain ⟨kind, spelling, isConst⟩ := f
  cases kind with
  | function result args argNames variadic =>
    refine ⟨result, args, argNames, variadic, spelling, isConst, hf, ?_⟩
    rw [← hsame]
    rfl
  | primitive _ => cases hfunction
  | pointer _ => cases hfunction
  | array _ _ => cases hfunction
  | typedef _ _ _ => cases hfunction
  | record _ _ _ => cases hfunction

/-- A field that points to a function is a hook with the arguments that the function is given. -/
theorem Director.exists_hook {c : Class} {director : Director} {f : Field} {d : Decl}
    (hd : Director.ofClass c = .ok director) (hslot : .single f ∈ c.slots)
    (hf : f.type.asFunctionPointer.isSome) (huse : f.type.functions.head? = some d.use) :
    ∃ hook ∈ director.hooks, hook.name = f.name ∧ hook.actuals = d.argNames := by
  obtain ⟨parts, hparts, he⟩ := except_bind_ok hd
  cases he
  obtain ⟨part, hmem, hpart⟩ := except_mapM_ok hparts _ hslot
  obtain ⟨result, args, argNames, variadic, spelling, isConst, hpointer, hhead⟩ :=
    CType.function_of_pointer hf
  rw [huse] at hhead
  obtain rfl : some d.argNames = argNames :=
    congrArg FunctionUse.argNames (Option.some.inj hhead)
  simp only [HookOrData.ofSlot, hpointer, Option.map_some] at hpart
  split at hpart
  next hlen =>
    cases hpart
    have hactuals := List.map_fst_zip (Nat.le_of_eq hlen)
    exact ⟨_, List.mem_flatMap.mpr ⟨_, hmem, List.mem_singleton_self _⟩, rfl, hactuals⟩
  next => cases hpart

/-- The names that binding a type gives to the arguments of its functions, each after a declaration
`d`. None is empty; they are pairwise different, if those in the source are, unless a parameter is
called what another one without a name gets called. A director that has a field of the type forwards
the arguments of the function that the field points to under the same condition. -/
theorem CType.arguments_apart_iff (r : Registry) (source : SourceMap) {sites : List Decl}
    {owner : Decl} (howner : sites.getLast? = some owner) (t : CType) {t' : CType}
    (h : (outcome (t.specialize source sites) r).1 = .ok t') :
    t'.functions = (t.owners owner).map Decl.use ∧
    (∀ d ∈ t.owners owner, (∀ n ∈ d.argNames, n ≠ "") ∧
      (d.NamedApart → (d.argNames.Nodup ↔ ¬d.TakesMadeName))) ∧
    ∀ (c : Class) (director : Director) (f : Field), f.type = t' → .single f ∈ c.slots →
      Director.ofClass c = .ok director → t'.asFunctionPointer.isSome →
      ∃ hook ∈ director.hooks, hook.name = f.name ∧
        ∃ d, (t.owners owner).head? = some d ∧ hook.actuals = d.argNames ∧
          (d.NamedApart → ∀ names, director.Forwards names hook ↔ ¬d.TakesMadeName) := by
  have hfunctions := t.functions_of_outcome howner h
  have hapart : ∀ d : Decl, d.NamedApart → (d.argNames.Nodup ↔ ¬d.TakesMadeName) :=
    fun d hd => ⟨Decl.not_takesMadeName, Decl.nodup_argNames hd⟩
  refine ⟨hfunctions, fun d _ => ⟨Decl.argNames_ne_empty, hapart d⟩, ?_⟩
  rintro c director f rfl hslot hdirector hpointer
  obtain ⟨_, _, _, _, _, _, -, hhead⟩ := CType.function_of_pointer hpointer
  rw [hfunctions, List.head?_map] at hhead
  obtain ⟨d, hd, -⟩ := Option.map_eq_some_iff.mp hhead
  have huse : f.type.functions.head? = some d.use := by
    rw [hfunctions, List.head?_map, hd]
    rfl
  obtain ⟨hook, hmem, hname, hactuals⟩ := Director.exists_hook hdirector hslot hpointer huse
  refine ⟨hook, hmem, hname, d, hd, hactuals, fun hnamed names => ?_⟩
  have hne : ∀ n ∈ hook.actuals, n ≠ "" := hactuals ▸ Decl.argNames_ne_empty
  rw [Director.forwards_iff hmem hne, hactuals, hapart d hnamed]

/-- A field `int (*run)(int, int)` with a name for the second parameter. -/
def runnerDecl (second : String) : Decl :=
  { Decl.bare .field "run" ⟨"run.h", 2, 7, 22⟩ with
    children := [
      Decl.bare .parameter "" ⟨"run.h", 2, 15, 30⟩,
      Decl.bare .parameter second ⟨"run.h", 2, 21, 36⟩] }

def runnerType (argNames : Option (List String)) : CType :=
  let int := ⟨.primitive .int, "int", false⟩
  let run := ⟨.function int [int, int] argNames false, "int (int, int)", false⟩
  ⟨.pointer run, "int (*)(int, int)", false⟩

def runnerField (argNames : List String) : Field :=
  ⟨"run", none, runnerType (some argNames), .unknown⟩

def runnerClass (argNames : List String) : Class :=
  { name := "Runner", structName := "runner", slots := [.single (runnerField argNames)] }

theorem run_forwarded :
    [runnerDecl "count"].getLast? = some (runnerDecl "count") ∧
    (outcome ((runnerType none).specialize ⟨[]⟩ [runnerDecl "count"]) {}).1 =
      .ok (runnerType (some ["arg0", "count"])) ∧
    ∃ director, Director.ofClass (runnerClass ["arg0", "count"]) = .ok director ∧
      ∃ hook ∈ director.hooks, hook.actuals = ["arg0", "count"] ∧ director.Forwards {} hook := by
  have hlast : [runnerDecl "count"].getLast? = some (runnerDecl "count") := rfl
  have hbound : (outcome ((runnerType none).specialize ⟨[]⟩ [runnerDecl "count"]) {}).1 =
      .ok (runnerType (some ["arg0", "count"])) := by rfl
  refine ⟨hlast, hbound, _, rfl, ?_⟩
  obtain ⟨-, -, hhooks⟩ := CType.arguments_apart_iff {} ⟨[]⟩ hlast (runnerType none) hbound
  obtain ⟨hook, hmem, -, d, hd, hactuals, hforwards⟩ :=
    hhooks (runnerClass _) _ (runnerField _) rfl (List.mem_singleton_self _) rfl rfl
  obtain rfl : runnerDecl "count" = d := Option.some.inj hd
  refine ⟨hook, hmem, hactuals, (hforwards (by decide) {}).mpr ?_⟩
  exact Decl.not_takesMadeName (by decide)

/-- The first parameter of `int (*run)(int, int arg0)` gets the name of the second one. -/
theorem run_not_forwarded :
    (runnerDecl "arg0").NamedApart ∧
    (outcome ((runnerType none).specialize ⟨[]⟩ [runnerDecl "arg0"]) {}).1 =
      .ok (runnerType (some ["arg0", "arg0"])) ∧
    ∃ director hook, Director.ofClass (runnerClass ["arg0", "arg0"]) = .ok director ∧
      director.hooks = [hook] ∧ hook.declared {} "run" = "int run(int arg0, int arg0) \x7b" ∧
      ¬director.Forwards {} hook := by
  refine ⟨by decide, by rfl, _, _, rfl, rfl, by decide, fun hforwards => ?_⟩
  exact absurd hforwards.once (by decide)

end Bindery
