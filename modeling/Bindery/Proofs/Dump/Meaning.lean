import Mathlib.Logic.Relation
import Bindery.Proofs.Dump.Steady
import Bindery.Proofs.Dump.Typedefs
import Bindery.Proofs.QualType.Asked

/-! What a typedef stands for, found without a table of those that are built. -/

namespace Bindery

open Relation

/-- What names stand for if these are their typedefs. -/
def TypedefLookup.ofDecls (found : String → Option Decl) : TypedefLookup := fun name =>
  (found name).map fun d => (d.type.getD .unknown, some d)

namespace Node

variable {names : DumpNames} {all : List Node} {n t : Node} {name asked : String}

/-- The type of a node depends on what the names that it asks for stand for. -/
theorem type_congr {typedefs typedefs' : TypedefLookup}
    (h : ∀ asked ∈ n.typeNames names, typedefs asked = typedefs' asked) :
    n.type names typedefs = n.type names typedefs' := by
  unfold typeNames at h
  unfold type
  split
  · rfl
  · next text htext =>
    rw [htext] at h
    unfold QualType.parse QualType.tryParse
    cases hread : QualType.read names.adopted.name? text with
    | error r => rfl
    | ok r =>
      obtain ⟨t, asked⟩ := r
      simp only [hread] at h
      have hsame : t.resolved typedefs = t.resolved typedefs' :=
        t.resolved_congr fun name hname => h name (QualType.read_notes hread hname)
      simp only [hsame]

/-- The typedef of a node, built when no text has been read. -/
def typedefWith (names : DumpNames) (found : String → Option Decl) (n : Node) : Option Decl :=
  ((n.typed names.origin .typedef (n.type names (.ofDecls found))).run {}).toOption.map (·.1)

theorem typedefWith_congr {found found' : String → Option Decl}
    (h : ∀ asked ∈ n.typeNames names, found asked = found' asked) :
    n.typedefWith names found = n.typedefWith names found' := by
  have htype : n.type names (.ofDecls found) = n.type names (.ofDecls found') :=
    type_congr fun asked hasked => by rw [TypedefLookup.ofDecls, TypedefLookup.ofDecls, h asked hasked]
  rw [typedefWith, typedefWith, htype]

/-- The typedef of a name. On the way to what it asks for the name itself means nothing. -/
def meaning (names : DumpNames) (all : List Node) (name : String) : Option Decl :=
  match _h : first? name all with
  | none => none
  | some t => t.typedefWith names (meaning names (otherThan name all))
termination_by all.length
decreasing_by exact length_otherThan_lt _h

theorem meaning_none (h : first? name all = none) : meaning names all name = none := by
  rw [meaning]
  split
  · rfl
  · next ht => cases h.symm.trans ht

theorem meaning_some (h : first? name all = some t) :
    meaning names all name = t.typedefWith names (meaning names (otherThan name all)) := by
  rw [meaning]
  split
  · next hnone => cases h.symm.trans hnone
  · next t' ht =>
    obtain rfl : t = t' := Option.some.inj (h.symm.trans ht)
    rfl

/-- The type of the typedef of a name asks for another name. -/
def Mentions (names : DumpNames) (all : List Node) (name asked : String) : Prop :=
  ∃ t, first? name all = some t ∧ asked ∈ t.typeNames names

/-- No typedef is mentioned in its own type or in those of the typedefs on the way to it. -/
def Acyclic (names : DumpNames) (all : List Node) : Prop :=
  ∀ name, ¬ TransGen (Mentions names all) name name

theorem first?_otherThan (other : String) (h : name ≠ other) :
    first? name (otherThan other all) = first? name all := by
  rw [first?, otherThan, List.find?_filter, first?]
  congr 1
  funext n
  by_cases hn : n.name = name <;> simp [hn, h]

theorem first?_otherThan_self (name : String) (all : List Node) :
    first? name (otherThan name all) = none := by
  simp [first?, otherThan]

theorem otherThan_comm (name other : String) (all : List Node) :
    otherThan name (otherThan other all) = otherThan other (otherThan name all) := by
  rw [otherThan, otherThan, otherThan, otherThan, List.filter_filter, List.filter_filter]
  congr 1
  funext n
  exact Bool.and_comm _ _

theorem Mentions.of_otherThan {other : String} (h : Mentions names (otherThan other all) name asked) :
    Mentions names all name asked := by
  obtain ⟨t, ht, hasked⟩ := h
  by_cases hname : name = other
  · rw [hname, first?_otherThan_self] at ht
    cases ht
  · exact ⟨t, by rwa [first?_otherThan other hname] at ht, hasked⟩

/-- A name that does not lead to another one means the same without that. -/
theorem meaning_otherThan {other : String} (h : ¬ ReflTransGen (Mentions names all) name other) :
    meaning names (otherThan other all) name = meaning names all name := by
  have hname : name ≠ other := by
    rintro rfl
    exact h .refl
  fun_induction meaning names all name with
  | case1 all name hnone =>
    exact meaning_none (by rwa [first?_otherThan other hname])
  | case2 all name t ht ih =>
    rw [meaning_some (by rwa [first?_otherThan other hname]), otherThan_comm]
    refine typedefWith_congr fun asked hasked => ?_
    have hbehind : ¬ ReflTransGen (Mentions names all) asked other :=
      fun hleads => h (.head ⟨t, ht, hasked⟩ hleads)
    refine ih asked (fun hleads => hbehind ?_) ?_
    · exact ReflTransGen.mono (fun _ _ => Mentions.of_otherThan) _ _ hleads
    · rintro rfl
      exact hbehind .refl

/-- If no typedef leads back to itself, the typedef of a name is built of those that it asks for. -/
theorem meaning_eq (hacyclic : Acyclic names all) (h : first? name all = some t) :
    meaning names all name = t.typedefWith names (meaning names all) := by
  rw [meaning_some h]
  refine typedefWith_congr fun asked hasked => meaning_otherThan fun hback => ?_
  exact hacyclic name (.head' ⟨t, h, hasked⟩ hback)

end Node

end Bindery
