import Bindery.Proofs.Interface.Sections

/-! The order of the instances in an interface. None stands before that of a dependency for the same
key. -/

namespace Bindery

/-- A key that a dependency lacks was not recorded for the generic itself, but for one that depends
on it. -/
theorem Registry.Exact.handed_on {r : Registry} {used : List GenericBinding} (he : r.Exact used)
    {g g' : Generic} (hg : g ∈ r.generics) (hg' : g' ∈ r.generics)
    (hd : g'.name ∈ g.dependencies) {k : String} (hk : k ∈ g.specializations)
    (hk' : k ∉ g'.specializations) :
    ⟨g.name, k⟩ ∉ used ∧
      ∃ h ∈ r.generics, g.name ∈ h.dependencies ∧ k ∈ h.specializations := by
  have hunused : ⟨g.name, k⟩ ∉ used := fun hu =>
    hk' ((he.keys g' hg' k).mpr (.inr ⟨g, hg, hd, hu⟩))
  obtain ⟨h, hh, hdep, hu⟩ := ((he.keys g hg k).mp hk).resolve_left hunused
  exact ⟨hunused, h, hh, hdep, (he.keys h hh k).mpr (.inl hu)⟩

/-- Where an instance stands, those of the dependencies of its generic stand before it, and those of
the generics that depend on its own behind it. -/
theorem Registry.InOrder.around {r : Registry} {order : List Generic} (ho : r.InOrder order)
    {secs before after : List Section} {n k : String}
    (hdefs : secs.flatMap Section.definitions = order.flatMap Generic.definitions)
    (hsplit : secs = before ++ .instantiation n k :: after) {g : Generic} (hg : g ∈ order)
    (hn : g.name = n) :
    (∀ d ∈ g.dependencies, .instantiation d k ∈ secs → .instantiation d k ∈ before) ∧
      ∀ h ∈ order, n ∈ h.dependencies → .instantiation h.name k ∈ secs →
        .instantiation h.name k ∈ after := by
  have hforwards := ho.definitions_forwards
  rw [← hdefs, hsplit, List.flatMap_append, List.flatMap_cons] at hforwards
  obtain ⟨_, hbehind, hacross⟩ := List.pairwise_append.mp hforwards
  have hafter := (List.pairwise_cons.mp hbehind).1
  rw [hsplit]
  refine ⟨fun d hd hmem => ?_, fun h hh hdep hmem => ?_⟩
  · rcases List.mem_append.mp hmem with hmem | hmem
    · exact hmem
    rcases List.mem_cons.mp hmem with heq | hmem
    · cases heq
      exact absurd (hn ▸ hd) (ho.irreflexive g hg)
    · exact absurd hd (hafter _ (Section.mem_definitions_instantiation.mpr hmem) g hg hn)
  · rcases List.mem_append.mp hmem with hmem | hmem
    · exact absurd hdep (hacross _ (Section.mem_definitions_instantiation.mpr hmem) _
        List.mem_cons_self h hh rfl)
    rcases List.mem_cons.mp hmem with heq | hmem
    · obtain ⟨hname, _⟩ := Section.instantiation.inj heq
      exact absurd (hname ▸ hdep) (ho.irreflexive h hh)
    · exact hmem

/-- In an interface no instance stands before that of a dependency for the same key. The instance of
the dependency is missing only where no bound position uses the instance itself, and where a later
instance of a generic that depends on its own needs it. -/
theorem dependencies_instantiated (options : BindOptions) (headers : List Header)
    (calls : List (Nat × BindCall)) :
    let c := ((Session.start options headers).perform calls).2.context
    c.generics.validate = .ok () → ∃ secs, c.sections = .ok secs ∧
      c.render = .ok (c.written secs) ∧
      ∀ before n k after, secs = before ++ .instantiation n k :: after →
        ∃ g, c.generics.get? n = some g ∧ ∀ d ∈ g.dependencies,
          .instantiation d k ∈ before ∨
            (.instantiation d k ∉ secs ∧ ⟨n, k⟩ ∉ c.bindings ∧
              ∃ h ∈ c.generics.generics, n ∈ h.dependencies ∧
                .instantiation h.name k ∈ after) := by
  intro c valid
  have ht : c.Tracked _ := Session.perform_tracked options headers calls
  obtain ⟨order, ho, hsecs⟩ := Context.sections_ok ht valid
  obtain ⟨used, he, hbound, _⟩ := ht
  refine ⟨_, hsecs, Context.render_ok hsecs, fun before n k after hsplit => ?_⟩
  have hinstance : .instantiation n k ∈
      .preamble :: order.flatMap Section.ofGeneric ++ c.restSections order := by
    rw [hsplit]
    exact List.mem_append_right _ List.mem_cons_self
  obtain ⟨g, hg, rfl, hk⟩ := Context.mem_sections_instantiation.mp hinstance
  have hreg := ho.perm.mem_iff.mp hg
  obtain ⟨hfirst, hlast⟩ := ho.around (c.definitions_sections order) hsplit hg rfl
  refine ⟨g, Registry.get?_of_mem he.nodup hreg, fun d hd => ?_⟩
  obtain ⟨g', hg', rfl⟩ := List.mem_map.mp (((Registry.validate_ok valid).1 g hreg).1 d hd)
  -- either the dependency has the key too, or the key was handed on to the generic
  by_cases hk' : k ∈ g'.specializations
  · refine .inl (hfirst _ hd ?_)
    exact Context.mem_sections_instantiation.mpr ⟨g', ho.perm.mem_iff.mpr hg', rfl, hk'⟩
  · obtain ⟨hunused, h, hh, hdep, hkey⟩ := he.handed_on hreg hg' hd hk hk'
    have hh' := ho.perm.mem_iff.mpr hh
    refine .inr ⟨fun hmem => ?_, fun hb => hunused (hbound _ hb), h, hh, hdep, ?_⟩
    · obtain ⟨g'', hg'', hname, hk''⟩ := Context.mem_sections_instantiation.mp hmem
      rw [Registry.eq_of_name_eq he.nodup (ho.perm.mem_iff.mp hg'') hg' hname] at hk''
      exact hk' hk''
    · exact hlast h hh' hdep (Context.mem_sections_instantiation.mpr ⟨h, hh', rfl, hkey⟩)

def namedStruct (name tag : String) : HeaderEntry :=
  ⟨{ Decl.bare .typedef name ⟨"chain.h", 1, 1, 0⟩ with type := some (.struct tag) }, false⟩

def chainField (name tag : String) : Decl :=
  { Decl.bare .field "items" ⟨"chain.h", 1, 27, 26⟩ with
    typeStart := some ⟨"chain.h", 1, 14, 13⟩
    type := some (.pointer (.typedef name (.struct tag) none)) }

/-- Typedefs of three structs, and a struct with a field that points to the first. -/
def chainHeader : Header where
  name := "chain.h"
  source := ⟨[("chain.h", "struct box { A /*<int>*/ *items; };")]⟩
  entries := [namedStruct "A" "a", namedStruct "B" "b", namedStruct "C" "c",
    ⟨{ Decl.bare .struct "box" ⟨"chain.h", 1, 8, 7⟩ with children := [chainField "A" "a"] }, false⟩]

/-- Three generics in a chain, and a use of the first. -/
def chainCalls : List (Nat × BindCall) :=
  [(0, .addGeneric "A" .forbidden ["B"]), (0, .addGeneric "B" .forbidden ["C"]),
    (0, .addGeneric "C" .forbidden []), (0, .addClass ⟨"Box", some "box", [], []⟩)]

theorem chainCalls_valid :
    ((Session.start {} [chainHeader]).perform chainCalls).2.context.generics.validate = .ok () := by
  cbv

/-- The key reaches the second generic of the chain but not the third. -/
theorem chainCalls_keys :
    ((Session.start {} [chainHeader]).perform chainCalls).2.context.generics.generics.map
      (fun g => (g.name, g.dependencies, g.specializations)) =
        [("A", ["B"], ["int"]), ("B", ["C"], ["int"]), ("C", [], [])] := by
  cbv

/-- The instance of the first generic has that of the second before it. -/
theorem chain_dependency_first :
    let c := ((Session.start {} [chainHeader]).perform chainCalls).2.context
    c.generics.validate = .ok () ∧ ∃ secs, c.sections = .ok secs ∧
      ∀ before after, secs = before ++ .instantiation "A" "int" :: after →
        .instantiation "B" "int" ∈ before := by
  obtain ⟨secs, hsecs, _, hall⟩ := dependencies_instantiated {} [chainHeader] chainCalls
    chainCalls_valid
  refine ⟨chainCalls_valid, secs, hsecs, fun before after hsplit => ?_⟩
  obtain ⟨g, hg, hdeps⟩ := hall before "A" "int" after hsplit
  obtain ⟨hmem, hname⟩ := Registry.get?_name hg
  have hkeys := List.mem_map_of_mem (f := fun g => (g.name, g.dependencies, g.specializations)) hmem
  have hbound : ⟨"A", "int"⟩ ∈
      ((Session.start {} [chainHeader]).perform chainCalls).2.context.bindings := by
    decide +kernel
  rw [chainCalls_keys] at hkeys
  obtain ⟨hdep, _⟩ : g.dependencies = ["B"] ∧ g.specializations = ["int"] := by
    simpa [hname] using hkeys
  rcases hdeps "B" (by simp [hdep]) with h | ⟨_, hunused, _⟩
  · exact h
  · exact absurd hbound hunused

/-- An instance of a generic stands in the interface and that of its dependency does not. -/
theorem chain_dependency_missing :
    let c := ((Session.start {} [chainHeader]).perform chainCalls).2.context
    c.generics.validate = .ok () ∧
      (∃ g ∈ c.generics.generics, g.name = "B" ∧ "C" ∈ g.dependencies) ∧
      ∃ secs, c.sections = .ok secs ∧ .instantiation "B" "int" ∈ secs ∧
        .instantiation "C" "int" ∉ secs := by
  obtain ⟨order, ho, hsecs⟩ := Context.sections_ok
    (Session.perform_tracked {} [chainHeader] chainCalls) chainCalls_valid
  have hkeys := chainCalls_keys
  have hB : ("B", ["C"], ["int"]) ∈ ((Session.start {} [chainHeader]).perform
      chainCalls).2.context.generics.generics.map
        (fun g => (g.name, g.dependencies, g.specializations)) := by
    rw [hkeys]
    decide
  have hC : ∀ g ∈ ((Session.start {} [chainHeader]).perform
      chainCalls).2.context.generics.generics, g.name = "C" → g.specializations = [] := by
    intro g hg hname
    have hmem := List.mem_map_of_mem (f := fun g => (g.name, g.dependencies, g.specializations)) hg
    rw [hkeys] at hmem
    obtain ⟨_, hspecs⟩ : g.dependencies = [] ∧ g.specializations = [] := by
      simpa [hname] using hmem
    exact hspecs
  obtain ⟨g, hg, he⟩ := List.mem_map.mp hB
  obtain ⟨hname, hdeps, hspecs⟩ : g.name = "B" ∧ g.dependencies = ["C"] ∧
      g.specializations = ["int"] := by simpa using he
  refine ⟨chainCalls_valid, ⟨g, hg, hname, by simp [hdeps]⟩, _, hsecs, ?_, fun h => ?_⟩
  · exact Context.mem_sections_instantiation.mpr
      ⟨g, ho.perm.mem_iff.mpr hg, hname, by simp [hspecs]⟩
  · obtain ⟨g', hg', hname', hk⟩ := Context.mem_sections_instantiation.mp h
    rw [hC g' (ho.perm.mem_iff.mp hg') hname'] at hk
    exact List.not_mem_nil hk

end Bindery
