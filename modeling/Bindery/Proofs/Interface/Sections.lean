import Mathlib
import Bindery.Interface.Section
import Bindery.Proofs.Binding.Director
import Bindery.Proofs.Generic.Exact
import Bindery.Proofs.Generic.Order
import Bindery.Proofs.Generic.Sorted

/-! The sections of an interface, by what they define of the generics. Everything is defined once. -/

namespace Bindery

/-- What a section defines for others: the template of a generic, or one of its instances. -/
inductive Defined where
  | template (generic : String)
  | instantiation (generic key : String)
  deriving DecidableEq

def Defined.generic : Defined → String
  | .template n => n
  | .instantiation n _ => n

namespace Section

def definitions : Section → List Defined
  | .template g => [.template g.name]
  | .instantiation n k => [.instantiation n k]
  | _ => []

theorem mem_definitions_instantiation {secs : List Section} {n k : String} :
    Defined.instantiation n k ∈ secs.flatMap definitions ↔ .instantiation n k ∈ secs := by
  rw [List.mem_flatMap]
  constructor
  · rintro ⟨s, hs, hd⟩
    cases s with
    | instantiation n' k' =>
      obtain ⟨rfl, rfl⟩ : n = n' ∧ k = k' := by simpa [definitions] using hd
      exact hs
    | _ => simp [definitions] at hd
  · intro h
    exact ⟨_, h, List.mem_singleton_self _⟩

end Section

def Generic.definitions (g : Generic) : List Defined :=
  .template g.name :: g.specializations.map (.instantiation g.name)

theorem Generic.definitions_generic {g : Generic} {x : Defined} (h : x ∈ g.definitions) :
    x.generic = g.name := by
  rcases List.mem_cons.mp h with rfl | h
  · rfl
  · obtain ⟨k, _, rfl⟩ := List.mem_map.mp h
    rfl

theorem Generic.mem_definitions {g : Generic} {n k : String} :
    .instantiation n k ∈ g.definitions ↔ n = g.name ∧ k ∈ g.specializations := by
  simp [definitions, eq_comm, and_comm]

theorem Section.definitions_ofGeneric (g : Generic) :
    (Section.ofGeneric g).flatMap Section.definitions = g.definitions := by
  have hmap : ∀ keys : List String, (keys.map (Section.instantiation g.name)).flatMap
      Section.definitions = keys.map (Defined.instantiation g.name) := by
    intro keys
    induction keys with
    | nil => rfl
    | cons k keys ih => exact congrArg (_ :: ·) ih
  exact congrArg (_ :: ·) (hmap g.specializations)

theorem Section.definitions_generics (order : List Generic) :
    (order.flatMap Section.ofGeneric).flatMap Section.definitions =
      order.flatMap Generic.definitions := by
  simp only [List.flatMap_assoc, definitions_ofGeneric]

namespace Context

def restSections (c : Context) (order : List Generic) : List Section :=
  order.flatMap Section.extensionsOf ++ c.classes.map .class ++ c.directors.map .director ++
    c.enums.map .enumeration ++ c.defines.map .defines

theorem mem_restSections {c : Context} {order : List Generic} {s : Section}
    (h : s ∈ c.restSections order) :
    (∃ g ∈ order, ∃ e ∈ g.extensions, s = .extension g.name e.1 e.2) ∨
      (∃ cls ∈ c.classes, s = .class cls) ∨ (∃ d ∈ c.directors, s = .director d) ∨
      (∃ e, s = .enumeration e) ∨ ∃ group, s = .defines group := by
  simp only [restSections, List.append_assoc, List.mem_append, List.mem_flatMap,
    Section.extensionsOf, List.mem_map] at h
  rcases h with ⟨g, hg, e, he, rfl⟩ | ⟨k, hk, rfl⟩ | ⟨d, hd, rfl⟩ | ⟨e, _, rfl⟩ | ⟨p, _, rfl⟩
  · exact .inl ⟨g, hg, e, he, rfl⟩
  · exact .inr (.inl ⟨k, hk, rfl⟩)
  · exact .inr (.inr (.inl ⟨d, hd, rfl⟩))
  · exact .inr (.inr (.inr (.inl ⟨e, rfl⟩)))
  · exact .inr (.inr (.inr (.inr ⟨p, rfl⟩)))

theorem definitions_restSections (c : Context) (order : List Generic) :
    (c.restSections order).flatMap Section.definitions = [] := by
  refine List.flatMap_eq_nil_iff.mpr fun s hs => ?_
  rcases mem_restSections hs with ⟨g, _, e, _, rfl⟩ | ⟨k, _, rfl⟩ | ⟨d, _, rfl⟩ | ⟨e, rfl⟩ |
    ⟨p, rfl⟩ <;> rfl

theorem not_mem_restSections {c : Context} {order : List Generic} {s : Section}
    (h : s.definitions ≠ []) : s ∉ c.restSections order :=
  fun hs => h (List.flatMap_eq_nil_iff.mp (c.definitions_restSections order) s hs)

/-- The lines of sections, one section after the other. -/
def written (c : Context) (secs : List Section) : String :=
  String.join ((secs.flatMap (Section.lines c)).map (· ++ "\n"))

end Context

theorem Writer.addLines_start (texts : List String) :
    (({} : Writer).addLines texts).text = String.join (texts.map (· ++ "\n")) := by
  have hadd : ∀ w : Writer, w.depth = 0 → (w.addLines texts).lines = w.lines ++ texts := by
    induction texts with
    | nil => simp [addLines]
    | cons t texts ih =>
      intro w hw
      have hline : w.line t = { w with lines := w.lines ++ [t] } := by simp [line, margin, hw]
      simpa [addLines, hline] using ih (w.line t) (by rw [hline]; exact hw)
  rw [text, hadd {} rfl, List.nil_append]

theorem Context.render_ok {c : Context} {secs : List Section} (h : c.sections = .ok secs) :
    c.render = .ok (c.written secs) := by
  rw [render, h]
  exact congrArg Except.ok (Writer.addLines_start _)

/-- The generics of a valid registry stand in an order, and the sections follow it. -/
theorem Context.sections_ok {ok : Bool} {c : Context} (ht : c.Tracked ok)
    (valid : c.generics.validate = .ok ()) : ∃ order, c.generics.InOrder order ∧
      c.sections = .ok (.preamble :: order.flatMap Section.ofGeneric ++ c.restSections order) := by
  obtain ⟨used, he, _⟩ := ht
  obtain ⟨_, names, hnames⟩ := Registry.validate_ok valid
  refine ⟨_, Registry.dependencyOrder_inOrder he.nodup hnames, ?_⟩
  simp only [sections, hnames, restSections, List.append_assoc]
  rfl

namespace Registry.InOrder

variable {r : Registry} {order : List Generic}

theorem definitions_nodup (ho : r.InOrder order) (hs : r.Sorted) :
    (order.flatMap Generic.definitions).Nodup := by
  refine List.nodup_flatMap.mpr ⟨fun g hg => ?_, ho.distinct.imp fun {g h} hne x hx hx' => ?_⟩
  · have hkeys := (hs g (ho.perm.mem_iff.mp hg)).imp fun {k k'} hlt => String.ne_of_lt hlt
    refine List.nodup_cons.mpr ⟨by simp, List.Nodup.map (fun k k' he => ?_) hkeys⟩
    exact (Defined.instantiation.inj he).2
  · exact hne ((Generic.definitions_generic hx).symm.trans (Generic.definitions_generic hx'))

theorem eq_of_definition (ho : r.InOrder order) {g g' : Generic} (hg : g ∈ order)
    (hg' : g' ∈ order) {x : Defined} (hx : x ∈ g.definitions) (hn : g'.name = x.generic) :
    g' = g := by
  rw [Generic.definitions_generic hx] at hn
  exact List.inj_on_of_nodup_map (List.pairwise_map.mpr ho.distinct) hg' hg hn

/-- What a generic depends on is not defined behind it. -/
theorem definitions_forwards (ho : r.InOrder order) :
    (order.flatMap Generic.definitions).Pairwise fun x y =>
      ∀ g ∈ order, g.name = x.generic → y.generic ∉ g.dependencies := by
  refine List.pairwise_flatMap.mpr ⟨fun g hg => ?_, ho.forwards.imp_of_mem ?_⟩
  · refine List.pairwise_of_forall_mem_list fun x hx y hy g' hg' hn => ?_
    rw [ho.eq_of_definition hg hg' hx hn, Generic.definitions_generic hy]
    exact ho.irreflexive g hg
  · intro g h hg _ hno x hx y hy g' hg' hn
    rw [ho.eq_of_definition hg hg' hx hn, Generic.definitions_generic hy]
    exact hno

end Registry.InOrder

namespace Context

variable {c : Context} {order : List Generic}

theorem mem_sections_instantiation {n k : String} :
    .instantiation n k ∈ .preamble :: order.flatMap Section.ofGeneric ++ c.restSections order ↔
      ∃ g ∈ order, g.name = n ∧ k ∈ g.specializations := by
  have hrest : .instantiation n k ∉ c.restSections order :=
    not_mem_restSections (List.cons_ne_nil _ _)
  simp [hrest, Section.ofGeneric, and_comm]

theorem Tracked.mem_keys {ok : Bool} (ht : c.Tracked ok) {b : GenericBinding}
    (hb : b ∈ c.bindings) :
    ∃ g ∈ c.generics.generics, g.name = b.generic ∧ b.specialization ∈ g.specializations := by
  obtain ⟨used, he, hbound, _⟩ := ht
  have hu := hbound b hb
  obtain ⟨g, hg, hname⟩ := List.mem_map.mp (he.known b hu)
  exact ⟨g, hg, hname, (he.keys g hg _).mpr (.inl (hname ▸ hu))⟩

end Context

theorem Context.definitions_sections (c : Context) (order : List Generic) :
    (.preamble :: order.flatMap Section.ofGeneric ++ c.restSections order).flatMap
      Section.definitions = order.flatMap Generic.definitions := by
  rw [List.flatMap_append, c.definitions_restSections, List.append_nil, List.flatMap_cons,
    Section.definitions_generics]
  rfl

end Bindery
