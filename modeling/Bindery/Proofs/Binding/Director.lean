import Bindery.Proofs.Binding.Reached

/-! A director uses no instance of a generic that no field of its class uses. -/

namespace Bindery

namespace CType

section

variable {β : Type} {g : CType → β}

theorem eq_of_canonical (htypedef : ∀ name canonical decl spelling isConst,
      g ⟨.typedef name canonical decl, spelling, isConst⟩ = g canonical) (t : CType) :
    g t.canonical = g t := by
  fun_induction CType.canonical t with
  | case1 name canonical decl spelling isConst ih => rw [ih, htypedef]
  | case2 t h => rfl

theorem eq_of_pointee (hpointer : ∀ pointee spelling isConst,
      g ⟨.pointer pointee, spelling, isConst⟩ = g pointee) {t p : CType} (h : t.pointee = some p) :
    g p = g t := by
  obtain ⟨kind, spelling, isConst⟩ := t
  cases kind with
  | pointer pointee =>
    cases h
    exact (hpointer p spelling isConst).symm
  | primitive _ => cases h
  | array _ _ => cases h
  | typedef _ _ _ => cases h
  | record _ _ _ => cases h
  | function _ _ _ _ => cases h

/-- What typedefs and pointers take over from the type in them is the same of a pointer to a function
as of the function. -/
theorem eq_of_asFunctionPointer (hpointer : ∀ pointee spelling isConst,
      g ⟨.pointer pointee, spelling, isConst⟩ = g pointee)
    (htypedef : ∀ name canonical decl spelling isConst,
      g ⟨.typedef name canonical decl, spelling, isConst⟩ = g canonical)
    {t f : CType} (h : t.asFunctionPointer = some f) : g f = g t := by
  obtain ⟨hf, _⟩ := Option.filter_eq_some_iff.mp h
  obtain ⟨p, hp, rfl⟩ := Option.map_eq_some_iff.mp hf
  rw [eq_of_canonical htypedef, eq_of_pointee hpointer hp, eq_of_canonical htypedef]

end

theorem bindings_asFunctionPointer {t f : CType} (h : t.asFunctionPointer = some f) :
    f.bindings = t.bindings :=
  eq_of_asFunctionPointer (fun _ _ _ => rfl) (fun _ _ _ _ _ => rfl) h

theorem bindingsList_eq (ts : List CType) : bindingsList ts = ts.flatMap bindings := by
  induction ts with
  | nil => rfl
  | cons t ts ih => rw [bindingsList, ih, List.flatMap_cons]

end CType

def typeBindings (named : List (String × CType)) : List GenericBinding :=
  named.flatMap (·.2.bindings)

theorem typeBindings_fields (fs : List Field) :
    typeBindings (fs.map fun f => (f.name, f.type)) = fieldBindings fs := by
  simp [typeBindings, fieldBindings, List.flatMap_map]

theorem typeBindings_zip (names : List String) (ts : List CType) :
    typeBindings (names.zip ts) ⊆ CType.bindingsList ts := by
  intro b hb
  obtain ⟨⟨name, t⟩, ht, hb⟩ := List.mem_flatMap.mp hb
  rw [CType.bindingsList_eq]
  exact List.mem_flatMap.mpr ⟨t, (List.of_mem_zip ht).2, hb⟩

def Hook.bindings (h : Hook) : List GenericBinding :=
  typeBindings h.args ++ h.result.bindings

def HookOrData.bindings (p : HookOrData) : List GenericBinding :=
  typeBindings p.fields ++ p.hooks.flatMap Hook.bindings

/-- The instances that a director uses, in its fields and in its hooks. -/
def Director.bindings (d : Director) : List GenericBinding :=
  typeBindings d.fields ++ d.hooks.flatMap Hook.bindings

theorem HookOrData.ofSlot_bindings {className : String} {slot : FieldSlot} {part : HookOrData}
    (h : HookOrData.ofSlot className slot = .ok part) :
    part.bindings ⊆ fieldBindings slot.fields := by
  cases slot with
  | union members =>
    cases h
    simp [bindings, fields, hooks, typeBindings_fields, FieldSlot.fields]
  | single f =>
    have hdata : HookOrData.bindings (.data [(f.name, f.type)]) ⊆
        fieldBindings (FieldSlot.single f).fields := by
      simp [bindings, fields, hooks, typeBindings, fieldBindings, FieldSlot.fields]
    unfold HookOrData.ofSlot at h
    cases hf : f.type.asFunctionPointer with
    | none =>
      simp only [hf, Option.map_none] at h
      cases h
      exact hdata
    | some t =>
      have ht := CType.bindings_asFunctionPointer hf
      obtain ⟨kind, spelling, isConst⟩ := t
      simp only [hf, Option.map_some] at h
      cases kind with
      | function result args argNames variadic =>
        cases argNames with
        | none => cases h
        | some names =>
          by_cases hlen : names.length = args.length
          · simp only [hlen, if_true] at h
            cases h
            intro b hb
            simp only [bindings, fields, hooks, Hook.bindings, typeBindings, List.flatMap_nil,
              List.nil_append, List.flatMap_cons, List.append_nil, List.mem_append] at hb
            have hmem : b ∈ f.type.bindings := by
              rw [← ht]
              refine List.mem_append.mpr (hb.symm.imp_right fun hb => ?_)
              exact typeBindings_zip names args hb
            simpa [fieldBindings, FieldSlot.fields] using hmem
          · simp [hlen] at h
      | primitive _ => cases h; exact hdata
      | pointer _ => cases h; exact hdata
      | array _ _ => cases h; exact hdata
      | typedef _ _ _ => cases h; exact hdata
      | record _ _ _ => cases h; exact hdata

theorem slotBindings_cons (slot : FieldSlot) (slots : List FieldSlot) :
    slotBindings (slot :: slots) = fieldBindings slot.fields ++ slotBindings slots := by
  simp [slotBindings, fieldBindings]

theorem partBindings_subset {className : String} {slots : List FieldSlot}
    {parts : List HookOrData} (h : slots.mapM (HookOrData.ofSlot className) = .ok parts) :
    parts.flatMap HookOrData.bindings ⊆ slotBindings slots := by
  induction slots generalizing parts with
  | nil =>
    cases h
    exact List.nil_subset _
  | cons slot slots ih =>
    rw [List.mapM_cons] at h
    obtain ⟨part, hpart, h⟩ := except_bind_ok h
    obtain ⟨rest, hrest, he⟩ := except_bind_ok h
    cases he
    rw [slotBindings_cons, List.flatMap_cons]
    have hfirst := HookOrData.ofSlot_bindings hpart
    exact List.append_subset.mpr ⟨List.subset_append_of_subset_left _ hfirst,
      List.subset_append_of_subset_right _ (ih hrest)⟩

theorem Director.ofClass_bindings {c : Class} {d : Director} (h : Director.ofClass c = .ok d) :
    d.bindings ⊆ slotBindings c.slots := by
  obtain ⟨parts, hparts, he⟩ := except_bind_ok h
  cases he
  refine List.Subset.trans (fun b hb => ?_) (partBindings_subset hparts)
  simp only [bindings, typeBindings, List.flatMap_assoc, List.mem_append, List.mem_flatMap] at hb
  rcases hb with ⟨part, hpart, hb⟩ | ⟨part, hpart, hb⟩
  · exact List.mem_flatMap.mpr ⟨part, hpart, List.mem_append_left _ (List.mem_flatMap.mpr hb)⟩
  · exact List.mem_flatMap.mpr ⟨part, hpart, List.mem_append_right _ (List.mem_flatMap.mpr hb)⟩

namespace Context

def fieldUses (c : Context) : List GenericBinding :=
  (c.classes.map (·.slots)).flatMap slotBindings

/-- Directors use no instance that no field uses. -/
def Directed (c : Context) : Prop :=
  ∀ d ∈ c.directors, d.bindings ⊆ c.fieldUses

theorem Directed.mono {c c' : Context} (h : c.Directed) (hd : c'.directors = c.directors)
    (hu : c.fieldUses ⊆ c'.fieldUses) : c'.Directed :=
  fun d hmem => List.Subset.trans (h d (hd ▸ hmem)) hu

end Context

theorem Move.directed {ok : Bool} {w w' : Workspace} (h : Move ok w w')
    (hd : w.context.Directed) : w'.context.Directed := by
  cases h with
  | claim _ => exact hd
  | addInclude header =>
    unfold Context.addInclude
    split
    · exact hd
    · exact hd
  | dress _ => exact hd
  | bindFunc _ _ hp =>
    refine hd.mono hp.aside.2.2 ?_
    rw [Context.fieldUses, Context.fieldUses, hp.slots]
    exact List.Subset.refl _
  | bindClass _ _ _ =>
    refine hd.mono rfl ?_
    simp only [Context.fieldUses, List.map_append, List.flatMap_append]
    exact List.subset_append_left _ _
  | @bindDirector _ _ cls d bound sorted =>
    intro d' hmem
    rcases List.mem_append.mp hmem with hmem | hmem
    · exact hd d' hmem
    · obtain rfl := List.mem_singleton.mp hmem
      refine List.Subset.trans (Director.ofClass_bindings sorted) fun b hb => ?_
      exact List.mem_flatMap.mpr ⟨cls.slots, List.mem_map_of_mem bound, hb⟩
  | bindEnum _ _ _ => exact hd
  | bindDefines _ => exact hd
  | loseFunc _ _ => exact hd
  | loseClass _ _ => exact hd

theorem Turn.directed {ok : Bool} {w w' : Workspace} {call : BindCall} (h : Turn ok w call w')
    (hd : w.context.Directed) : w'.context.Directed := by
  cases h with
  | registers _ _ _ => exact hd
  | moves hc =>
    induction hc with
    | refl => exact hd
    | tail _ hm ih => exact hm.directed ih

theorem Session.perform_directed (options : BindOptions) (headers : List Header)
    (calls : List (Nat × BindCall)) :
    ((Session.start options headers).perform calls).2.context.Directed :=
  perform_invariant (fun _ _ _ _ => Turn.directed) _ calls nofun

end Bindery
