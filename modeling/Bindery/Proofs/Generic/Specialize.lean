import Bindery.Binding.Class
import Bindery.Proofs.CType.Bindings
import Bindery.Proofs.Generic.Record

/-! What binding types, functions and fields records: one use for each instance in the result. -/

namespace Bindery

variable {α β : Type}

/-- The step, begun with the registry `r`, records uses of registered generics; if it succeeds, its
result and the uses satisfy `P`. -/
def Records (r : Registry) (x : RegistryM α) (P : α → List GenericBinding → Prop) : Prop :=
  ∃ uses, (x.run.run r).2 = r.recordAll uses ∧ (∀ b ∈ uses, b.generic ∈ r.names) ∧
    ∀ a, (x.run.run r).1 = .ok a → P a uses

namespace Records

variable {r : Registry}

theorem pure {a : α} {P : α → List GenericBinding → Prop} (h : P a []) :
    Records r (pure a) P := by
  refine ⟨[], rfl, by simp, fun a' ha => ?_⟩
  cases ha
  exact h

theorem throw (e : BindError) (P : α → List GenericBinding → Prop) :
    Records r (throw e) P := by
  refine ⟨[], rfl, by simp, fun a' ha => ?_⟩
  cases ha

theorem get : Records r get fun a uses => a = r ∧ uses = [] := by
  refine ⟨[], rfl, by simp, fun a ha => ?_⟩
  cases ha
  exact ⟨rfl, rfl⟩

theorem record {name key : String} (h : name ∈ r.names) :
    Records r (modify (·.record name key)) fun _ uses => uses = [⟨name, key⟩] :=
  ⟨[⟨name, key⟩], rfl, by simpa using h, fun _ _ => rfl⟩

theorem imp {x : RegistryM α} {P Q : α → List GenericBinding → Prop} (h : Records r x P)
    (hi : ∀ a uses, P a uses → Q a uses) : Records r x Q := by
  obtain ⟨uses, hr, hk, hp⟩ := h
  exact ⟨uses, hr, hk, fun a ha => hi a uses (hp a ha)⟩

theorem bind {x : RegistryM α} {f : α → RegistryM β} {P : α → List GenericBinding → Prop}
    {Q : β → List GenericBinding → Prop} (hx : Records r x P)
    (hf : ∀ a uses, P a uses → Records (r.recordAll uses) (f a) fun b more => Q b (uses ++ more)) :
    Records r (x >>= f) Q := by
  obtain ⟨uses, hr, hk, hp⟩ := hx
  simp only [Records, ExceptT.run_bind, StateT.run_bind]
  rcases he : x.run.run r with ⟨res, r'⟩
  rw [he] at hr hp
  obtain rfl : r' = r.recordAll uses := hr
  cases res with
  | error e =>
    refine ⟨uses, rfl, hk, fun b hb => ?_⟩
    cases hb
  | ok a =>
    obtain ⟨more, hr', hk', hq⟩ := hf a uses (hp a rfl)
    refine ⟨uses ++ more, ?_, ?_, hq⟩
    · exact hr'.trans (Registry.recordAll_append r uses more).symm
    · intro b hb
      rcases List.mem_append.mp hb with hb | hb
      · exact hk b hb
      · exact Registry.recordAll_names r uses ▸ hk' b hb

theorem ofExcept (x : Except BindError α) :
    Records r (RegistryM.ofExcept x) fun a uses => x = .ok a ∧ uses = [] := by
  cases x with
  | error e => exact Records.throw e _
  | ok a => exact Records.pure ⟨rfl, rfl⟩

theorem liftExcept (x : Except BindError α) :
    Records r (bindRecord.liftExcept x) fun a uses => x = .ok a ∧ uses = [] := by
  cases x with
  | error e => exact Records.throw e _
  | ok a => exact Records.pure ⟨rfl, rfl⟩

/-- What a step gives is what it gives when it is begun with the registry. -/
theorem witnessed {x : RegistryM α} {P : α → List GenericBinding → Prop} (h : Records r x P) :
    Records r x fun a uses => (x.run.run r).1 = .ok a ∧ P a uses := by
  obtain ⟨uses, hr, hk, hp⟩ := h
  exact ⟨uses, hr, hk, fun a ha => ⟨ha, hp a ha⟩⟩

theorem ran {x : RegistryM α} {P : α → List GenericBinding → Prop} (h : Records r x P)
    {result : Except BindError α} {r' : Registry} (hx : x.run.run r = (result, r')) :
    ∃ uses, r' = r.recordAll uses ∧ (∀ b ∈ uses, b.generic ∈ r.names) ∧
      ∀ a, result = .ok a → P a uses := by
  obtain ⟨uses, hr, hk, hp⟩ := h
  rw [hx] at hr hp
  exact ⟨uses, hr, hk, hp⟩

end Records

/-- No record of which the struct stands behind a generic is without an instance. -/
def Registry.Annotated (r : Registry) (uses : List RecordUse) : Prop :=
  ∀ u ∈ uses, (r.forStruct? u.tag).isSome → u.binding.isSome

namespace Registry.Annotated

variable {r : Registry} {uses more : List RecordUse}

theorem nil : r.Annotated [] :=
  nofun

theorem congr {r' : Registry} (h : r.Annotated uses) (hs : r'.structs = r.structs) :
    r'.Annotated uses := by
  intro u hu htag
  rw [forStruct?_isSome_iff, hs, ← forStruct?_isSome_iff] at htag
  exact h u hu htag

/-- Recording uses adds no generic. -/
theorem of_recordAll {recorded : List GenericBinding} (h : (r.recordAll recorded).Annotated uses) :
    r.Annotated uses :=
  h.congr (r.recordAll_structs recorded).symm

theorem append (h : r.Annotated uses) (h' : r.Annotated more) : r.Annotated (uses ++ more) :=
  fun u hu => (List.mem_append.mp hu).elim (h u) (h' u)

end Registry.Annotated

theorem Registry.forStruct?_mem {r : Registry} {tag : String} {g : Generic}
    (h : r.forStruct? tag = some g) : g ∈ r.generics :=
  List.mem_reverse.mp (List.mem_of_find?_eq_some h)

/-- Binding a record records the instance that is found, which is one of the generic of its struct. -/
theorem bindRecord_records (r : Registry) (source : SourceMap) (sites : List Decl) (tag : String) :
    Records r (bindRecord source sites tag) fun found uses =>
      uses = found.toList ∧ found.map (·.generic) = (r.forStruct? tag).map (·.name) := by
  refine Records.get.bind fun r' uses ⟨hr, hu⟩ => ?_
  subst hr hu
  cases hg : r'.forStruct? tag with
  | none => exact .pure ⟨rfl, rfl⟩
  | some g =>
    refine (Records.liftExcept _).bind fun found uses ⟨_, hu⟩ => ?_
    subst hu
    cases found with
    | none => exact .throw _ _
    | some site =>
      refine (Records.liftExcept _).bind fun key uses ⟨_, hu⟩ => ?_
      subst hu
      have hmem : g.name ∈ r'.names := List.mem_map_of_mem (Registry.forStruct?_mem hg)
      apply (Records.record hmem).bind
      intro _ uses hu
      subst hu
      exact .pure ⟨rfl, rfl⟩

mutual

/-- Binding a type that is bound to nothing yet records the instances that it becomes bound to, and
leaves no record of a generic without one. -/
theorem CType.specialize_records (r : Registry) (source : SourceMap) {sites : List Decl}
    (hs : sites ≠ []) (t : CType) (h : t.bindings = []) :
    Records r (t.specialize source sites) fun t' uses =>
      uses = t'.bindings ∧ r.Annotated t'.records := by
  obtain ⟨kind, spelling, isConst⟩ := t
  apply (CKind.specialize_records r source hs kind h).bind
  rintro kind' uses ⟨hu, ha⟩
  exact .pure ⟨(List.append_nil uses).trans hu, ha⟩

theorem CKind.specialize_records (r : Registry) (source : SourceMap) {sites : List Decl}
    (hs : sites ≠ []) (kind : CKind) (h : kind.bindings = []) :
    Records r (kind.specialize source sites) fun kind' uses =>
      uses = kind'.bindings ∧ r.Annotated kind'.records := by
  cases kind with
  | primitive p => exact .pure ⟨rfl, .nil⟩
  | array element count => exact .pure ⟨h.symm, .nil⟩
  | pointer pointee =>
    apply (CType.specialize_records r source hs pointee h).bind
    rintro t uses ⟨hu, ha⟩
    exact .pure ⟨(List.append_nil uses).trans hu, ha⟩
  | typedef name canonical decl =>
    refine (CType.specialize_records r source ?_ canonical h).bind fun t uses ⟨hu, ha⟩ =>
      .pure ⟨(List.append_nil uses).trans hu, ha⟩
    split
    · exact hs
    · exact List.append_ne_nil_of_left_ne_nil hs _
    · exact hs
  | record tag isUnion binding =>
    have hb : binding = none := Option.toList_eq_nil_iff.mp h
    subst hb
    apply (bindRecord_records r source sites tag).bind
    rintro found _ ⟨rfl, hfound⟩
    refine .pure ⟨by cases found <;> rfl, fun u hu htag => ?_⟩
    obtain rfl := List.mem_singleton.mp hu
    have hsome : (found.map (·.generic)).isSome := by rw [hfound, Option.isSome_map]; exact htag
    obtain ⟨b, rfl⟩ := Option.isSome_iff_exists.mp (Option.isSome_map.symm.trans hsome)
    rfl
  | function result args argNames variadic =>
    obtain ⟨hresult, hargs⟩ := List.append_eq_nil_iff.mp h
    apply (CType.specialize_records r source hs result hresult).bind
    rintro t _ ⟨rfl, ht⟩
    -- arguments are bound at the parameters of the last site, if there are as many of both
    obtain ⟨owner, howner⟩ := Option.ne_none_iff_exists'.mp (mt List.getLast?_eq_none_iff.mp hs)
    simp only [howner]
    by_cases hlen : owner.params.length = args.length
    · simp only [hlen, if_true]
      apply (CType.specializeArgs_records _ source args (Nat.le_of_eq hlen.symm) hargs).bind
      rintro ts _ ⟨rfl, hts⟩
      exact .pure ⟨by simp [CKind.bindings], ht.append hts.of_recordAll⟩
    · simp only [hlen, if_false]
      exact .throw _ _

theorem CType.specializeArgs_records (r : Registry) (source : SourceMap) {params : List Decl}
    (ts : List CType) (hlen : ts.length ≤ params.length) (h : CType.bindingsList ts = []) :
    Records r (CType.specializeArgs source params ts) fun ts' uses =>
      uses = CType.bindingsList ts' ∧ r.Annotated (CType.recordsList ts') := by
  cases ts with
  | nil => exact .pure ⟨rfl, .nil⟩
  | cons t ts =>
    cases params with
    | nil => simp at hlen
    | cons p params =>
      obtain ⟨ht, hts⟩ := List.append_eq_nil_iff.mp h
      apply (CType.specialize_records r source (List.cons_ne_nil p []) t ht).bind
      rintro t' _ ⟨rfl, ha⟩
      apply (CType.specializeArgs_records _ source ts (Nat.le_of_succ_le_succ hlen) hts).bind
      rintro ts' _ ⟨rfl, hrest⟩
      exact .pure ⟨by simp [CType.bindingsList], ha.append hrest.of_recordAll⟩

end

theorem Decl.specializeType_records (r : Registry) (source : SourceMap) (d : Decl) {t : CType}
    (h : t.bindings = []) :
    Records r (d.specializeType source t) fun t' uses =>
      uses = t'.bindings ∧ r.Annotated t'.records :=
  t.specialize_records r source (List.cons_ne_nil d []) h

end Bindery
