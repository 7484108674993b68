import Bindery.CType.Declarator
import Bindery.Proofs.Binding.Reached

/-! What a struct stands for: the generic and the class that were entered last for it. -/

namespace Bindery

/-- Names of entities with the structs behind them, in the order in which they were entered. -/
abbrev Backing := List (String × String)

namespace Backing

variable {b more : Backing} {tag name : String}

def names (b : Backing) : List String :=
  b.map (·.1)

def structs (b : Backing) : List String :=
  b.map (·.2)

/-- The name of the entity that was entered last over a struct. -/
def last? (b : Backing) (tag : String) : Option String :=
  (b.reverse.find? (·.2 == tag)).map (·.1)

theorem last?_append (b more : Backing) (tag : String) :
    (b ++ more).last? tag = (more.last? tag).or (b.last? tag) := by
  simp [last?, List.find?_append, Option.map_or]

theorem last?_isSome_iff : (b.last? tag).isSome ↔ tag ∈ b.structs := by
  simp [last?, structs]

theorem last?_mem (h : b.last? tag = some name) : (name, tag) ∈ b := by
  obtain ⟨p, hp, rfl⟩ := Option.map_eq_some_iff.mp h
  have hmem := List.mem_of_find?_eq_some hp
  have htag : p.2 = tag := by simpa using List.find?_some hp
  rw [← htag]
  exact List.mem_reverse.mp hmem

/-- Entities that differ in their names are found by their structs if and only if they differ in
their structs too. -/
theorem identifies_iff (hn : b.names.Nodup) :
    (∀ p ∈ b, b.last? p.2 = some p.1) ↔ b.structs.Nodup := by
  rw [structs, List.nodup_map_iff_inj_on (List.Nodup.of_map _ hn)]
  constructor
  · intro h p hp q hq he
    have hname : p.1 = q.1 := Option.some.inj ((h p hp).symm.trans (he ▸ h q hq))
    exact Prod.ext hname he
  · intro h p hp
    have hsome : (b.last? p.2).isSome := last?_isSome_iff.mpr (List.mem_map_of_mem hp)
    obtain ⟨name, hname⟩ := Option.isSome_iff_exists.mp hsome
    have heq := h _ (last?_mem hname) p hp rfl
    rw [hname, ← heq]

/-- What is entered later changes what a struct stands for if and only if it is entered over that
struct. -/
theorem last?_append_eq_iff (hn : (b ++ more).names.Nodup) :
    (b ++ more).last? tag = b.last? tag ↔ tag ∉ more.structs := by
  rw [last?_append]
  constructor
  · intro h hm
    obtain ⟨name, hname⟩ := Option.isSome_iff_exists.mp (last?_isSome_iff.mpr hm)
    rw [hname, Option.some_or] at h
    have hold : name ∈ b.names := List.mem_map_of_mem (last?_mem h.symm)
    have hnew : name ∈ more.names := List.mem_map_of_mem (last?_mem hname)
    rw [names, List.map_append] at hn
    exact (List.nodup_append.mp hn).2.2 name hold name hnew rfl
  · intro hm
    have hnone : more.last? tag = none := by
      rw [← Option.not_isSome_iff_eq_none, last?_isSome_iff]
      exact hm
    rw [hnone, Option.none_or]

theorem structs_of_prefix {later : Backing} (h : b <+: later) (hn : later.names.Nodup) :
    ∃ added, later.structs = b.structs ++ added ∧
      ∀ tag, later.last? tag = b.last? tag ↔ tag ∉ added := by
  obtain ⟨more, rfl⟩ := h
  exact ⟨structs more, List.map_append, fun tag => last?_append_eq_iff hn⟩

end Backing

def Registry.backing (r : Registry) : Backing :=
  r.generics.map fun g => (g.name, g.structName)

def Context.classBacking (c : Context) : Backing :=
  c.classes.map fun k => (k.name, k.structName)

def Context.classStructs (c : Context) : List String :=
  c.classes.map (·.structName)

namespace Registry

variable {r : Registry}

theorem backing_names (r : Registry) : r.backing.names = r.names := by
  simp [Backing.names, backing, names]

theorem backing_structs (r : Registry) : r.backing.structs = r.structs := by
  simp [Backing.structs, backing, structs]

theorem forStruct?_name (r : Registry) (tag : String) :
    (r.forStruct? tag).map (·.name) = r.backing.last? tag := by
  simp only [forStruct?, Backing.last?, backing, ← List.map_reverse, List.find?_map, Option.map_map]
  rfl

theorem forStruct?_iff (hn : r.names.Nodup) {g : Generic} (hg : g ∈ r.generics) (tag : String) :
    r.forStruct? tag = some g ↔ r.backing.last? tag = some g.name := by
  rw [← forStruct?_name]
  constructor
  · intro h
    rw [h, Option.map_some]
  · intro h
    obtain ⟨g', hg', hname⟩ := Option.map_eq_some_iff.mp h
    have hmem : g' ∈ r.generics := List.mem_reverse.mp (List.mem_of_find?_eq_some hg')
    rw [hg', eq_of_name_eq hn hmem hg hname]

/-- Each generic is the one of its struct if and only if no two generics have one struct. -/
theorem forStruct?_self_iff (hn : r.names.Nodup) :
    (∀ g ∈ r.generics, r.forStruct? g.structName = some g) ↔ r.structs.Nodup := by
  have hall : (∀ g ∈ r.generics, r.forStruct? g.structName = some g) ↔
      ∀ p ∈ r.backing, r.backing.last? p.2 = some p.1 := by
    rw [backing, List.forall_mem_map]
    exact forall₂_congr fun g hg => forStruct?_iff hn hg g.structName
  rw [hall, Backing.identifies_iff (r.backing_names ▸ hn), backing_structs]

theorem recordAll_backing (r : Registry) (uses : List GenericBinding) :
    (r.recordAll uses).backing = r.backing :=
  r.recordAll_map uses _ fun _ _ => rfl

end Registry

namespace Context

variable {c c' : Context}

theorem classBacking_names (c : Context) : c.classBacking.names = c.classNames := by
  simp [Backing.names, classBacking, classNames]

theorem classBacking_structs (c : Context) : c.classBacking.structs = c.classStructs := by
  simp [Backing.structs, classBacking, classStructs]

theorem classForStruct?_eq (c : Context) (tag : String) :
    c.classForStruct? tag = c.classBacking.last? tag := by
  simp only [classForStruct?, Backing.last?, classBacking, ← List.map_reverse, List.find?_map,
    Option.map_map]
  rfl

theorem classForStruct?_isSome_iff {tag : String} :
    (c.classForStruct? tag).isSome ↔ tag ∈ c.classStructs := by
  rw [classForStruct?_eq, Backing.last?_isSome_iff, classBacking_structs]

/-- Each class is the one of its struct if and only if no two classes have one struct. -/
theorem classForStruct?_self_iff (hn : c.classNames.Nodup) :
    (∀ k ∈ c.classes, c.classForStruct? k.structName = some k.name) ↔ c.classStructs.Nodup := by
  have hall : (∀ k ∈ c.classes, c.classForStruct? k.structName = some k.name) ↔
      ∀ p ∈ c.classBacking, c.classBacking.last? p.2 = some p.1 := by
    simp only [classForStruct?_eq, classBacking, List.forall_mem_map]
  rw [hall, Backing.identifies_iff (c.classBacking_names ▸ hn), classBacking_structs]

/-- Generics and classes stay over their structs; new ones are entered behind them. -/
structure Enters (c c' : Context) : Prop where
  generics : c.generics.backing <+: c'.generics.backing
  classes : c.classBacking <+: c'.classBacking

theorem Enters.of_eq (hg : c'.generics.backing = c.generics.backing)
    (hc : c'.classBacking = c.classBacking) : c.Enters c' :=
  ⟨hg ▸ List.prefix_refl _, hc ▸ List.prefix_refl _⟩

theorem Enters.trans {c'' : Context} (h : c.Enters c') (h' : c'.Enters c'') : c.Enters c'' :=
  ⟨h.generics.trans h'.generics, h.classes.trans h'.classes⟩

end Context

theorem Change.enters {ok : Bool} {c c' : Context} (h : Change ok c c') (hd : c.Distinct) :
    c.Enters c' := by
  cases h with
  | aside hg hc _ => exact .of_eq (by rw [hg]) (by rw [Context.classBacking, hc]; rfl)
  | register hr =>
    obtain ⟨_, keys, _, rfl⟩ := Registry.register_ok hr
    refine ⟨?_, List.prefix_refl _⟩
    simp [Registry.backing]
  | dress hsame =>
    exact .of_eq (Registry.modify_map _ _ _ fun g _ => by rw [hsame]) rfl
  | bindFunc hb hp =>
    obtain ⟨uses, rfl, _, _⟩ := (Func.bind_records _ _ _ _).ran hb
    have hg : c'.generics.backing = (c.generics.recordAll uses).backing :=
      hp.map_generics (hd.recordAll uses).generics _ fun _ _ => rfl
    have hc : c'.classBacking = c.classBacking := hp.map_classes _ fun _ _ _ _ _ => rfl
    exact .of_eq (hg.trans (Registry.recordAll_backing _ uses)) hc
  | bindClass _ hb =>
    obtain ⟨uses, rfl, _, _⟩ := (Class.ofRecord_records _ _ _ _).ran hb
    refine ⟨(Registry.recordAll_backing _ uses).symm ▸ List.prefix_refl _, ?_⟩
    simp [Context.classBacking]
  | loseFunc hb =>
    obtain ⟨uses, rfl, _, _⟩ := (Func.bind_records _ _ _ _).ran hb
    exact .of_eq (Registry.recordAll_backing _ uses) rfl
  | loseClass hb =>
    obtain ⟨uses, rfl, _, _⟩ := (Class.ofRecord_records _ _ _ _).ran hb
    exact .of_eq (Registry.recordAll_backing _ uses) rfl

theorem Evolution.enters {ok : Bool} {c c' : Context} (h : Evolution ok c c') (hd : c.Distinct) :
    c.Enters c' := by
  induction h with
  | refl => exact .of_eq rfl rfl
  | tail hsteps hstep ih => exact ih.trans (hstep.enters (Evolution.distinct hsteps hd))

namespace Context

variable {c c' : Context}

theorem Enters.generics_structs (h : c.Enters c') (hd : c'.Distinct) : ∃ added,
    c'.generics.structs = c.generics.structs ++ added ∧
      ∀ tag, c'.recordNames.ofGeneric tag = c.recordNames.ofGeneric tag ↔ tag ∉ added := by
  have hn : c'.generics.backing.names.Nodup := c'.generics.backing_names ▸ hd.generics
  obtain ⟨added, hstructs, hlast⟩ := Backing.structs_of_prefix h.generics hn
  simp only [Registry.backing_structs, ← Registry.forStruct?_name] at hstructs hlast
  exact ⟨added, hstructs, hlast⟩

theorem Enters.class_structs (h : c.Enters c') (hd : c'.Distinct) : ∃ added,
    c'.classStructs = c.classStructs ++ added ∧
      ∀ tag, c'.recordNames.ofClass tag = c.recordNames.ofClass tag ↔ tag ∉ added := by
  have hn : c'.classBacking.names.Nodup := c'.classBacking_names ▸ hd.classes
  obtain ⟨added, hstructs, hlast⟩ := Backing.structs_of_prefix h.classes hn
  simp only [classBacking_structs, ← classForStruct?_eq] at hstructs hlast
  exact ⟨added, hstructs, hlast⟩

end Context

namespace RecordNames

variable {names later : RecordNames}

/-- A record that is called by a generic in templates is called by the same name later exactly if
its struct stands for the same generic. -/
theorem record_template_eq_iff {u : RecordUse} (h : (names.ofGeneric u.tag).isSome)
    (h' : (later.ofGeneric u.tag).isSome) : later.record true u = names.record true u ↔
      later.ofGeneric u.tag = names.ofGeneric u.tag := by
  obtain ⟨g, hg⟩ := Option.isSome_iff_exists.mp h
  obtain ⟨g', hg'⟩ := Option.isSome_iff_exists.mp h'
  simp [record, hg, hg']

theorem record_class_eq_iff {tag : String} (isUnion : Bool) (h : (names.ofClass tag).isSome)
    (h' : (later.ofClass tag).isSome) :
    later.record false ⟨tag, isUnion, none⟩ = names.record false ⟨tag, isUnion, none⟩ ↔
      later.ofClass tag = names.ofClass tag := by
  obtain ⟨cls, hc⟩ := Option.isSome_iff_exists.mp h
  obtain ⟨cls', hc'⟩ := Option.isSome_iff_exists.mp h'
  simp [record, hc, hc']

end RecordNames

/-- Structs identify the generics if and only if no two generics have one struct, and likewise the
classes; what is entered later changes the name of a record that has one exactly if it is entered
over the struct of the record. -/
theorem structs_identify_iff (options : BindOptions) (headers : List Header)
    (calls more : List (Nat × BindCall)) :
    let reached := fun calls => ((Session.start options headers).perform calls).2.context
    let c := reached calls
    let later := reached (calls ++ more)
    ((∀ g ∈ c.generics.generics, c.generics.forStruct? g.structName = some g) ↔
      c.generics.structs.Nodup) ∧
    ((∀ k ∈ c.classes, c.classForStruct? k.structName = some k.name) ↔ c.classStructs.Nodup) ∧
    ∃ generics classes,
      later.generics.structs = c.generics.structs ++ generics ∧
      later.classStructs = c.classStructs ++ classes ∧
      (∀ u : RecordUse, u.tag ∈ c.generics.structs →
        (later.recordNames.record true u = c.recordNames.record true u ↔ u.tag ∉ generics)) ∧
      ∀ tag isUnion, tag ∈ c.classStructs →
        (later.recordNames.record false ⟨tag, isUnion, none⟩ =
          c.recordNames.record false ⟨tag, isUnion, none⟩ ↔ tag ∉ classes) := by
  intro reached c later
  have hc : c.Distinct := Session.perform_distinct options headers calls
  have hlater : later.Distinct := Session.perform_distinct options headers (calls ++ more)
  have henters : c.Enters later := by
    have happend : later = (((Session.start options headers).perform calls).2.perform more).2.context :=
      congrArg Session.context (Session.perform_append _ calls more)
    rw [happend]
    exact (Session.perform_evolves _ more).enters hc
  obtain ⟨generics, hg, hgnames⟩ := henters.generics_structs hlater
  obtain ⟨classes, hk, hknames⟩ := henters.class_structs hlater
  refine ⟨Registry.forStruct?_self_iff hc.generics, Context.classForStruct?_self_iff hc.classes,
    generics, classes, hg, hk, fun u hu => ?_, fun tag isUnion htag => ?_⟩
  · have hold : (c.recordNames.ofGeneric u.tag).isSome := by
      rw [Context.recordNames, Option.isSome_map]
      exact Registry.forStruct?_isSome_iff.mpr hu
    have hnew : (later.recordNames.ofGeneric u.tag).isSome := by
      rw [Context.recordNames, Option.isSome_map]
      exact Registry.forStruct?_isSome_iff.mpr (hg ▸ List.mem_append_left _ hu)
    rw [RecordNames.record_template_eq_iff hold hnew]
    exact hgnames u.tag
  · have hold : (c.recordNames.ofClass tag).isSome := Context.classForStruct?_isSome_iff.mpr htag
    have hnew : (later.recordNames.ofClass tag).isSome :=
      Context.classForStruct?_isSome_iff.mpr (hk ▸ List.mem_append_left _ htag)
    rw [RecordNames.record_class_eq_iff isUnion hold hnew]
    exact hknames tag

def listAlias (name : String) (line offset : Nat) : HeaderEntry :=
  ⟨{ Decl.bare .typedef name ⟨"list.h", line, 21, offset⟩ with type := some (.struct "list") }, false⟩

/-- Two typedefs of one struct. -/
def listHeader : Header where
  name := "list.h"
  source := ⟨[("list.h", "typedef struct list List;\ntypedef struct list Chain;\n")]⟩
  entries := [listAlias "List" 1 20, listAlias "Chain" 2 46]

/-- A second generic is registered over the struct of the first, which is then called by the name of
the second. -/
theorem second_generic_misnames :
    let first := (Session.start {} [listHeader]).perform [(0, .addGeneric "List" .forbidden [])]
    let both := (Session.start {} [listHeader]).perform
      [(0, .addGeneric "List" .forbidden []), (0, .addGeneric "Chain" .forbidden [])]
    (∀ result ∈ both.1, result = .ok ()) ∧
      (∃ g ∈ both.2.context.generics.generics,
        g.name = "List" ∧ both.2.context.generics.forStruct? g.structName ≠ some g) ∧
      first.2.context.recordNames.record true ⟨"list", false, none⟩ = "List_##TYPE" ∧
      both.2.context.recordNames.record true ⟨"list", false, none⟩ = "Chain_##TYPE" := by
  intro first both
  have hall : both.1.all (·.isOk) = true := by decide
  have hmem : ("List", "list") ∈ both.2.context.generics.backing := by decide
  have hlast : both.2.context.generics.backing.last? "list" = some "Chain" := by decide
  have hfirst : first.2.context.generics.backing.last? "list" = some "List" := by decide
  refine ⟨ok_of_all_isOk hall, ?_, ?_, ?_⟩
  · obtain ⟨g, hg, he⟩ := List.mem_map.mp hmem
    obtain ⟨hname, hstruct⟩ := Prod.mk.inj he
    refine ⟨g, hg, hname, fun h => ?_⟩
    have hchain := both.2.context.generics.forStruct?_name g.structName
    rw [h, hstruct, hlast, Option.map_some, hname] at hchain
    exact absurd hchain (by decide)
  · rw [← Registry.forStruct?_name] at hfirst
    simp [Context.recordNames, RecordNames.record, hfirst]
  · rw [← Registry.forStruct?_name] at hlast
    simp [Context.recordNames, RecordNames.record, hlast]

end Bindery
