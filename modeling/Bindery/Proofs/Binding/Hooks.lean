import Bindery.Proofs.Binding.Requested

/-! Directors come of classes without fail, with a hook for every field that points to a function. -/

namespace Bindery

/-- The field of a slot, if it points to a function. -/
def FieldSlot.hook? : FieldSlot → Option Field
  | .single f => if f.type.asFunctionPointer.isSome then some f else none
  | .union _ => none

/-- The fields of a slot that are copied: all but one that points to a function. -/
def FieldSlot.data : FieldSlot → List Field
  | .single f => if f.type.asFunctionPointer.isSome then [] else [f]
  | .union members => members

/-- The hook is called as the function that the field points to, and each argument has a name. -/
structure Hook.Calls (f : Field) (h : Hook) : Prop where
  name : h.name = f.name
  function : ∃ variadic spelling isConst, f.type.asFunctionPointer =
    some ⟨.function h.result (h.args.map (·.2)) (some h.actuals) variadic, spelling, isConst⟩
  named : ∀ n ∈ h.actuals, n ≠ ""

/-- The director has a hook for each field that points to a function, and copies the other ones. -/
structure Director.Sorts (c : Class) (d : Director) : Prop where
  ofClass : Director.ofClass c = .ok d
  name : d.name = c.name
  hooks : List.Forall₂ Hook.Calls (c.slots.filterMap FieldSlot.hook?) d.hooks
  fields : d.fields = (c.slots.flatMap FieldSlot.data).map fun f => (f.name, f.type)

theorem FieldWishes.Walks.declared {source : SourceMap} {w w' : FieldWishes} {ds : List Decl}
    {fs : List Field} (h : FieldWishes.Walks source w ds fs w') : ∀ f ∈ fs, ∃ d, f.Declared d := by
  induction h with
  | nil => exact nofun
  | leave _ _ ih => exact ih
  | @take _ _ d _ _ _ _ _ bound _ _ ih => exact List.forall_mem_cons.mpr ⟨⟨d, bound.declared⟩, ih⟩

/-- A field that points to a function points to one of which the arguments are named. -/
theorem Field.Declared.pointed {d : Decl} {f : Field} (h : f.Declared d)
    (hf : f.type.asFunctionPointer.isSome) :
    ∃ result args owner variadic spelling isConst, f.type.asFunctionPointer =
      some ⟨.function result args (some (Decl.argNames owner)) variadic, spelling, isConst⟩ ∧
        (Decl.argNames owner).length = args.length := by
  obtain ⟨t, -, -, hfunctions⟩ := h.type
  -- the function is the first of those in the type, and all of these are named
  obtain ⟨result, args, argNames, variadic, spelling, isConst, hpointer, hhead⟩ :=
    CType.function_of_pointer hf
  rw [hfunctions, List.head?_map] at hhead
  obtain ⟨owner, -, huse⟩ := Option.map_eq_some_iff.mp hhead
  obtain ⟨hlen, rfl⟩ := FunctionUse.mk.inj huse
  exact ⟨result, args, owner, variadic, spelling, isConst, hpointer,
    List.length_mapIdx.trans hlen⟩

namespace HookOrData

theorem ofSlot_ok (className : String) {slot : FieldSlot}
    (h : ∀ f ∈ slot.fields, ∃ d, f.Declared d) : ∃ part, ofSlot className slot = .ok part ∧
      part.fields = slot.data.map (fun f => (f.name, f.type)) ∧
      List.Forall₂ Hook.Calls slot.hook?.toList part.hooks := by
  cases slot with
  | union members => exact ⟨_, rfl, rfl, .nil⟩
  | single f =>
    simp only [FieldSlot.hook?, FieldSlot.data]
    cases hf : f.type.asFunctionPointer with
    | none => exact ⟨.data [(f.name, f.type)], by rw [ofSlot, hf]; rfl, rfl, .nil⟩
    | some t =>
      obtain ⟨d, hd⟩ := h f (.head _)
      obtain ⟨result, args, owner, variadic, spelling, isConst, hpointer, hlen⟩ :=
        hd.pointed (hf ▸ rfl)
      have hsorted : ofSlot className (.single f) =
          .ok (.hook ⟨f.name, owner.argNames.zip args, result⟩) := by
        simp only [ofSlot, hpointer, Option.map_some]
        exact if_pos hlen
      have hactuals : (owner.argNames.zip args).map (·.1) = owner.argNames :=
        List.map_fst_zip (Nat.le_of_eq hlen)
      have hargs : (owner.argNames.zip args).map (·.2) = args :=
        List.map_snd_zip (Nat.le_of_eq hlen.symm)
      refine ⟨_, hsorted, rfl, .cons ⟨rfl, ⟨variadic, spelling, isConst, ?_⟩, ?_⟩ .nil⟩
      · rw [Hook.actuals, hactuals, hargs, hpointer]
      · rw [Hook.actuals, hactuals]
        exact owner.argNames_ne_empty

theorem ofSlots_ok (className : String) {slots : List FieldSlot}
    (h : ∀ f ∈ slots.flatMap FieldSlot.fields, ∃ d, f.Declared d) :
    ∃ parts, slots.mapM (ofSlot className) = .ok parts ∧
      parts.flatMap fields = (slots.flatMap FieldSlot.data).map (fun f => (f.name, f.type)) ∧
      List.Forall₂ Hook.Calls (slots.filterMap FieldSlot.hook?) (parts.flatMap hooks) := by
  induction slots with
  | nil => exact ⟨[], rfl, rfl, .nil⟩
  | cons slot slots ih =>
    rw [List.flatMap_cons, List.forall_mem_append] at h
    obtain ⟨part, hpart, hfields, hhooks⟩ := ofSlot_ok className h.1
    obtain ⟨parts, hparts, hfields', hhooks'⟩ := ih h.2
    refine ⟨part :: parts, ?_, ?_, ?_⟩
    · rw [List.mapM_cons, hpart, hparts]
      rfl
    · rw [List.flatMap_cons, List.flatMap_cons, List.map_append, hfields, hfields']
    · rw [filterMap_cons_toList, List.flatMap_cons]
      exact List.rel_append hhooks hhooks'

end HookOrData

theorem Director.sorts_of_declared {c : Class} (h : ∀ f ∈ c.allFields, ∃ d, f.Declared d) :
    ∃ d, Director.Sorts c d := by
  obtain ⟨parts, hparts, hfields, hhooks⟩ := HookOrData.ofSlots_ok c.name h
  have hd : Director.ofClass c = .ok ⟨c.name, parts.flatMap HookOrData.fields,
      parts.flatMap HookOrData.hooks⟩ := by
    rw [Director.ofClass, hparts]
    rfl
  exact ⟨_, hd, rfl, hhooks, hfields⟩

theorem Class.ofRecord_sorts (source : SourceMap) (spec : ClassSpec) (policy : StalePolicy)
    (record : Decl) (r : Registry) : Attains (Class.ofRecord source spec policy record) r
      fun res _ => ∃ d, Director.Sorts res.1 d := by
  intro res hres
  obtain ⟨uses, -, -, hcls⟩ := Class.ofRecord_records (r := r) source spec policy record
  obtain ⟨-, -, -, w, hfills⟩ := hcls res hres
  exact Director.sorts_of_declared hfills.walks.declared

theorem getHeader_bind_ends {α : Type} {f : Header → BindM α} {w : Workspace}
    {Q : Except BindError α → Workspace → Prop} (h : Ends (f w.header) w Q) :
    Ends (BindM.getHeader >>= f) w Q := h

theorem recordBehind_ends (d : Decl) (name : String) (w : Workspace) :
    Ends (BindM.recordBehind d name) w fun _ w' => w' = w := by
  unfold BindM.recordBehind
  cases d.type.bind RawType.recordName <;> rfl

theorem pop_context (kind : DeclKind) (name : String) (w : Workspace) :
    Ends (BindM.pop kind name) w fun _ w' => w'.context = w.context := by
  refine (pop_ends kind name w).imp fun result w' h => ?_
  cases result with
  | ok d =>
    obtain ⟨h, -, rfl⟩ := h
    rfl
  | error e => rw [h]

theorem popStruct_context (spec : ClassSpec) (w : Workspace) :
    Ends (BindM.popStruct spec) w fun _ w' => w'.context = w.context := by
  unfold BindM.popStruct
  split
  · exact pop_context _ _ w
  · refine (pop_context _ _ w).bind (fun d w₁ hw₁ => ?_) fun _ _ h => h
    refine (recordBehind_ends d _ w₁).bind (fun tag w₂ hw₂ => ?_) fun _ _ h => by rw [h, hw₁]
    refine (pop_context _ _ w₂).imp fun _ _ h => ?_
    rw [h, hw₂, hw₁]

theorem addClass_ends (spec : ClassSpec) (w : Workspace) :
    Ends (BindM.addClass spec) w fun result w' =>
      w'.context.directors = w.context.directors ∧
      match result with
      | .ok cls => w'.context.classes = w.context.classes ++ [cls] ∧ ∃ d, Director.Sorts cls d
      | .error _ => w'.context.classes = w.context.classes := by
  apply getContext_bind_ends
  by_cases hc : w.context.classes.any (·.name == spec.typedefName)
  · simp only [hc, if_true]
    exact ⟨rfl, rfl⟩
  · simp only [hc, if_false, Bool.false_eq_true]
    refine (popStruct_context spec w).bind ?_ fun _ _ h => by rw [h]; exact ⟨rfl, rfl⟩
    intro record w₁ hw₁
    apply getHeader_bind_ends
    refine Ends.bind (P := fun result w' => w'.context.directors = w.context.directors ∧
      w'.context.classes = w.context.classes ∧
      ∀ res, result = .ok res → ∃ d, Director.Sorts res.1 d) ?_ ?_ ?_
    · unfold Ends
      rw [onRegistry_run, hw₁]
      exact ⟨rfl, rfl, Class.ofRecord_sorts _ _ _ _ _⟩
    · rintro ⟨cls, warnings⟩ w₂ ⟨hdirectors, hclasses, hsorts⟩
      exact ⟨hdirectors, congrArg (· ++ [cls]) hclasses, hsorts _ rfl⟩
    · rintro e w₂ ⟨hdirectors, hclasses, -⟩
      exact ⟨hdirectors, hclasses⟩

theorem addDirector_ends (typedefName : String) (w : Workspace) :
    Ends (BindM.addDirector typedefName) w fun result w' =>
      match result with
      | .ok _ => ∃ cls d, Director.Sorts cls d ∧
          w'.context.classes = w.context.classes ++ [cls] ∧
          w'.context.directors = w.context.directors ++ [d]
      | .error _ => w'.context.classes = w.context.classes ∧
          w'.context.directors = w.context.directors := by
  apply getContext_bind_ends
  by_cases hc : w.context.directors.any (·.name == typedefName)
  · simp only [hc, if_true]
    exact ⟨rfl, rfl⟩
  · simp only [hc, if_false, Bool.false_eq_true]
    refine (addClass_ends _ w).bind ?_ fun _ _ h => ⟨h.2, h.1⟩
    rintro cls w₁ ⟨hdirectors, hclasses, d, hd⟩
    rw [hd.ofClass]
    exact ⟨cls, d, hd, hclasses, congrArg (· ++ [d]) hdirectors⟩

/-- A class that a struct is bound to can be made a director, whose hooks are the fields that point
to functions and whose other fields are copied. So a director is registered together with its class,
and neither of them is when the call fails. -/
theorem director_whole :
    (∀ (source : SourceMap) (spec : ClassSpec) (policy : StalePolicy) (record : Decl)
      (r r' : Registry) (cls : Class) (warnings : List String),
      (Class.ofRecord source spec policy record).run.run r = (.ok (cls, warnings), r') →
        ∃ d, Director.Sorts cls d) ∧
    ∀ (typedefName : String) (w w' : Workspace) (result : Except BindError Unit),
      (BindM.addDirector typedefName).run.run w = (result, w') →
        match result with
        | .ok _ => ∃ cls d, Director.Sorts cls d ∧
            w'.context.classes = w.context.classes ++ [cls] ∧
            w'.context.directors = w.context.directors ++ [d]
        | .error _ => w'.context.classes = w.context.classes ∧
            w'.context.directors = w.context.directors := by
  constructor
  · intro source spec policy record r r' cls warnings h
    exact (Class.ofRecord_sorts source spec policy record r).ran h
  · intro typedefName w w' result h
    have hends := addDirector_ends typedefName w
    rw [Ends, h] at hends
    exact hends

/-- A struct of a pointer to a function and a number. -/
def pluginRecord : Decl :=
  let int := RawType.builtin .int
  let run := { runnerDecl "count" with type := some (.pointer (.function int [int, int] false)) }
  let flags := { Decl.bare .field "flags" .unknown with type := some int }
  { Decl.bare .struct "plugin" .unknown with children := [run, flags] }

def pluginWorkspace : Workspace where
  context := {}
  header := {
    name := "plugin.h"
    source := ⟨[]⟩
    entries := [
      ⟨{ typedefAt "Plugin" .unknown with type := some (.struct "plugin") }, false⟩,
      ⟨pluginRecord, false⟩] }

def pluginBound : Except BindError (Class × List String) × Registry :=
  (Class.ofRecord ⟨[]⟩ ⟨"Plugin", none, [], []⟩ .warn pluginRecord).run.run {}

theorem plugin_whole :
    (∃ cls r, pluginBound = (.ok (cls, []), r) ∧
      ∃ d, Director.Sorts cls d ∧ d.hooks.map Hook.actuals = [["arg0", "count"]] ∧
        d.fields.map (·.1) = ["flags"]) ∧
    ∃ w', (BindM.addDirector "Plugin").run.run pluginWorkspace = (.ok (), w') ∧
      ∃ cls d, Director.Sorts cls d ∧ w'.context.classes = [cls] ∧ w'.context.directors = [d] := by
  constructor
  · have hsome : (pluginBound.1.toOption.map fun res =>
        (res.2, (Director.ofClass res.1).toOption.map fun d =>
          (d.hooks.map Hook.actuals, d.fields.map (·.1)))) =
        some ([], some ([["arg0", "count"]], ["flags"])) := by
      decide
    rcases h : pluginBound with ⟨e | ⟨cls, warnings⟩, r⟩
    · rw [h] at hsome
      cases hsome
    · obtain ⟨d, hd⟩ := director_whole.1 _ _ _ _ _ _ _ _ h
      simp only [h, Except.toOption, Option.map_some, hd.ofClass, Option.some.injEq,
        Prod.mk.injEq] at hsome
      obtain ⟨rfl, hhooks, hfields⟩ := hsome
      exact ⟨cls, r, rfl, d, hd, hhooks, hfields⟩
  · have hok : ((BindM.addDirector "Plugin").run.run pluginWorkspace).1.isOk = true := by
      decide
    rcases h : (BindM.addDirector "Plugin").run.run pluginWorkspace with ⟨e | _, w'⟩
    · rw [h] at hok
      cases hok
    · exact ⟨w', rfl, director_whole.2 _ _ _ _ h⟩

end Bindery
