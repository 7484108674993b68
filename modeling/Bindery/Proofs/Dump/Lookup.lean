import Bindery.Proofs.Dump.Resolved
import Bindery.Proofs.Dump.Unit

/-! Typedefs that are looked up while declarations are built. The order makes no difference. -/

namespace Bindery

open Relation

variable {names : DumpNames} {all : List Node} {s : Loading} {C : Prop}

namespace Loading

theorem Ready.sources (hs : s.Ready names all) : names.origin.Holds s.sources := by
  obtain ⟨entered, hsound, -⟩ := hs.checked
  exact hsound.sources

theorem Ready.withSources (hs : s.Ready names all) {sources : SourceMap}
    (hsources : names.origin.Holds sources) : Ready names all { s with sources } := by
  obtain ⟨entered, hsound, hclosed⟩ := hs.checked
  have hsound' : Sound names.origin all entered [] { s with sources } :=
    ⟨hsources, hsound.fresh, hsound.ahead, hsound.typedefs, hsound.covered⟩
  exact ⟨⟨entered, hsound', hclosed⟩, ⟨hs.once.nodup, hs.once.fresh⟩, hs.meant⟩

/-- A state after names were looked up. -/
structure LookedUp (names : DumpNames) (all : List Node) (wanted : List String) (s s' : Loading) :
    Prop where
  ready : s'.Ready names all
  grown : s.typedefs <:+ s'.typedefs
  buildable : ∀ name ∈ wanted, Node.Buildable names all name
  built : ∀ name ∈ wanted, ∀ t, Node.first? name all = some t → ∃ d, (name, d) ∈ s'.typedefs

theorem Ready.typedef?_eq (hs : s.Ready names all) (hacyclic : Node.Acyclic names all) {name : String}
    (hbuilt : ∀ t, Node.first? name all = some t → ∃ d, (name, d) ∈ s.typedefs) :
    s.typedef? name = Node.meaning names all name := by
  obtain ⟨entered, hsound, -⟩ := hs.checked
  exact typedef?_eq_meaning hsound hs.meant hacyclic hbuilt

theorem LookedUp.typedef?_eq {s' : Loading} {wanted : List String}
    (h : LookedUp names all wanted s s') (hacyclic : Node.Acyclic names all) :
    ∀ name ∈ wanted, s'.typedef? name = Node.meaning names all name :=
  fun name hname => h.ready.typedef?_eq hacyclic (h.built name hname)

/-- A name is in the table afterwards if a typedef has it. -/
theorem LookedUp.mem_iff {s' : Loading} {wanted : List String} {name : String}
    (h : LookedUp names all wanted s s') (hname : name ∈ wanted) :
    name ∈ s'.typedefs.map (·.1) ↔ ∃ t ∈ all, t.name = name := by
  constructor
  · intro hmem
    obtain ⟨entry, hentry, rfl⟩ := List.mem_map.mp hmem
    obtain ⟨entered, hsound, -⟩ := h.ready.checked
    obtain ⟨t, ht, -⟩ := hsound.typedefs entry.1 entry.2 hentry
    exact ⟨t, List.mem_of_find?_eq_some ht, by simpa using List.find?_some ht⟩
  · rintro ⟨t, ht, hsame⟩
    obtain ⟨first, hfirst⟩ : ∃ first, Node.first? name all = some first :=
      Option.isSome_iff_exists.mp (List.find?_isSome.mpr ⟨t, ht, by simpa using hsame⟩)
    obtain ⟨d, hd⟩ := h.built name hname first hfirst
    exact List.mem_map_of_mem hd

end Loading

namespace LoadM

theorem settle_of_enter {wanted : List String} {u : Unit} {s' : Loading}
    (h : (enter names wanted).run s = .ok (u, s')) : s.settle names (wanted.map .enter) = .ok s' := by
  rw [enter_run] at h
  obtain ⟨t, ht, hsame⟩ := except_map_ok h
  cases hsame
  exact ht

/-- Names that are looked up are built, and the table keeps what it had. -/
theorem enter_lookedUp (wanted : List String) (hs : s.Ready names all) :
    (∀ u s', (enter names wanted).run s = .ok (u, s') → Loading.LookedUp names all wanted s s') ∧
      ∀ e, (enter names wanted).run s = .error e → ∃ name ∈ wanted, ¬ Node.Buildable names all name := by
  obtain ⟨hok, herr⟩ := enter_sound wanted hs.checked
  refine ⟨fun u s' hrun => ?_, herr⟩
  obtain ⟨entered, hentered, hsound, hclosed⟩ := hok u s' hrun
  obtain ⟨before, hordered⟩ := hs.ordered wanted
  obtain ⟨hgrown, honce, hmeant⟩ := Loading.settle_ordered hordered (settle_of_enter hrun)
  refine ⟨⟨⟨entered, hsound, hclosed⟩, honce, hmeant⟩, hgrown,
    fun name hname => hclosed.buildable (hentered name hname), fun name hname t ht => ?_⟩
  obtain rfl : t.name = name := by simpa using List.find?_some ht
  exact (hsound.covered t (List.mem_of_find?_eq_some ht) (hentered _ hname)).resolve_right nofun

/-- What the names that are looked up stand for afterwards does not depend on the state before. -/
theorem enter_steady {α : Type} (wanted : List String) (f : Loading → α) (a : α)
    (hf : ∀ s : Loading, (∀ name ∈ wanted, s.typedef? name = Node.meaning names all name) → f s = a) :
    Steady (Loading.Ready names all) (Node.Acyclic names all)
      (do enter names wanted; pure (f (← get))) := by
  by_cases hall : ∀ name ∈ wanted, Node.Buildable names all name
  · refine ⟨some a, fun s hs => ?_⟩
    obtain ⟨hok, herr⟩ := enter_lookedUp wanted hs
    rw [StateT.run_bind]
    cases hrun : (enter names wanted).run s with
    | error e =>
      obtain ⟨name, hname, hnot⟩ := herr e hrun
      exact absurd (hall name hname) hnot
    | ok r =>
      refine ⟨fun b s' hb => ?_, nofun⟩
      cases hb
      have hlooked := hok r.1 r.2 hrun
      exact ⟨fun hacyclic => congrArg some (hf r.2 (hlooked.typedef?_eq hacyclic)).symm, hlooked.ready⟩
  · refine ⟨none, fun s hs => ?_⟩
    obtain ⟨hok, -⟩ := enter_lookedUp wanted hs
    rw [StateT.run_bind]
    cases hrun : (enter names wanted).run s with
    | error e => exact ⟨nofun, fun _ _ _ => rfl⟩
    | ok r => exact absurd (hok r.1 r.2 hrun).buildable hall

theorem ofSource_steady {α : Type} {x : SourceM α} (hx : Steady names.origin.Holds C x) :
    Steady (Loading.Ready names all) C (ofSource x) := by
  obtain ⟨r, hr⟩ := hx
  refine ⟨r, Gives.get_bind fun s hs => ?_⟩
  obtain ⟨hok, herr⟩ := hr s.sources hs.sources
  refine .bind (.lift herr) fun p hp => ?_
  obtain ⟨ha, hsources⟩ := hok p.1 p.2 hp
  rintro s' -
  refine ⟨fun a s'' h => ?_, nofun⟩
  cases h
  exact ⟨ha, hs.withSources hsources⟩

theorem typeOf_steady (n : Node) :
    Steady (Loading.Ready names all) (Node.Acyclic names all) (typeOf names n) := by
  refine enter_steady (n.typeNames names) (fun s => n.type names s.lookup)
    (n.type names (.ofDecls (Node.meaning names all))) fun s hs => ?_
  refine Node.type_congr fun asked hasked => ?_
  rw [Loading.lookup, TypedefLookup.ofDecls, hs asked hasked]

theorem typed_steady (kind : DeclKind) (n : Node) :
    Steady (Loading.Ready names all) (Node.Acyclic names all) (typed names kind n) :=
  .bind (typeOf_steady n) fun t => ofSource_steady (n.typed_steady kind t)

theorem params_steady (ns : List Node) :
    Steady (Loading.Ready names all) (Node.Acyclic names all) (params names ns) := by
  induction ns with
  | nil => exact .pure _
  | cons n ns ih => exact .bind (typed_steady .parameter n) fun _ => .bind ih fun _ => .pure _

theorem function_steady (n : Node) :
    Steady (Loading.Ready names all) (Node.Acyclic names all) (function names n) :=
  .bind (typeOf_steady n) fun _ => .bind (ofSource_steady (n.declared_steady .function)) fun _ =>
    .bind (params_steady _) fun _ => .pure _

mutual

theorem record_steady : ∀ n : Node,
    Steady (Loading.Ready names all) (Node.Acyclic names all) (record names n)
  | ⟨_, _, _, _, _, _, _, isComplete, _, _, _, children⟩ => by
    have hmembers := members_steady children []
    rw [record]
    refine .bind (ofSource_steady (Node.declared_steady _ _)) fun d => ?_
    cases isComplete with
    | true => exact .bind hmembers fun _ => .pure _
    | false => exact .pure _

theorem members_steady : ∀ (ns : List Node) (seen : List Decl),
    Steady (Loading.Ready names all) (Node.Acyclic names all) (members names seen ns)
  | [], _ => .pure _
  | n :: ns, seen => by
    rw [members]
    split
    · split
      · exact members_steady ns seen
      · split
        · exact members_steady ns seen.tail
        · exact .bind (typed_steady .field n) fun d => members_steady ns (d :: seen)
    · split
      · exact .bind (record_steady n) fun d => members_steady ns (d :: seen)
      · exact members_steady ns seen

end

theorem declaration_steady (n : Node) :
    Steady (Loading.Ready names all) (Node.Acyclic names all) (declaration names n) := by
  unfold declaration
  split
  · exact .map _ (function_steady n)
  · exact .map _ (record_steady n)
  · exact .map _ (ofSource_steady n.enumeration_steady)
  · exact .map _ (typed_steady .variable n)
  · exact enter_steady [n.name] (fun s => s.typedef? n.name) (Node.meaning names all n.name)
      fun s hs => hs n.name (.head _)
  · exact .pure _

end LoadM

namespace HeaderUnit

theorem keepDecls_steady (k : Kept) (ns : List Node) :
    Steady (Loading.Ready names all) (Node.Acyclic names all) (keepDecls names k ns) := by
  induction ns generalizing k with
  | nil => exact .pure _
  | cons n ns ih =>
    rw [keepDecls]
    split
    · exact ih k
    · refine .bind (LoadM.ofSource_steady SourceM.read_steady) fun _ => ?_
      refine .bind (LoadM.declaration_steady n) fun r => ?_
      cases r with
      | some d => exact ih (k.add d)
      | none => exact ih k

/-- Names are looked up between the declarations, and no typedef is built twice. That succeeds exactly if
all that the names lead to can be built. If no typedef leads back to itself, a name then stands for what
it means on its own, and the declaration of a node is the one that would be built of it first of all. -/
theorem typedefs_resolved {k k' : Kept} {ns : List Node}
    (h : (keepDecls names k ns).run { fresh := all } = .ok (k', s)) :
    (∀ wanted, (s.builds names (wanted.map .enter) ++ s.typedefs.map (·.1)).Nodup ∧
      ((∃ s', (LoadM.enter names wanted).run s = .ok ((), s')) ↔
        ∀ name ∈ wanted, Node.Buildable names all name) ∧
      ∀ s', (LoadM.enter names wanted).run s = .ok ((), s') →
        s.typedefs <:+ s'.typedefs ∧
        s'.typedefs.map (·.1) = (s.builds names (wanted.map .enter)).reverse ++ s.typedefs.map (·.1) ∧
        ∀ name ∈ wanted, (name ∈ s'.typedefs.map (·.1) ↔ ∃ t ∈ all, t.name = name) ∧
          (Node.Acyclic names all →
            s'.lookup name = TypedefLookup.ofDecls (Node.meaning names all) name)) ∧
    (Node.Acyclic names all → ∀ n, ((LoadM.declaration names n).run s).toOption.map (·.1) =
      ((LoadM.declaration names n).run { fresh := all }).toOption.map (·.1)) := by
  have hs : s.Ready names all :=
    (((keepDecls_steady k ns).keeps { fresh := all } Loading.ready_start).1 k' s h).2
  refine ⟨fun wanted => ⟨?_, ?_, fun s' hs' => ?_⟩, fun hacyclic n => ?_⟩
  · obtain ⟨entered, hordered⟩ := hs.ordered wanted
    exact hordered.once.builds_nodup
  · obtain ⟨hok, herr⟩ := LoadM.enter_lookedUp wanted hs
    refine ⟨fun ⟨s', hs'⟩ => (hok () s' hs').buildable, fun hall => ?_⟩
    cases hrun : (LoadM.enter names wanted).run s with
    | error e =>
      obtain ⟨name, hname, hnot⟩ := herr e hrun
      exact absurd (hall name hname) hnot
    | ok r => exact ⟨r.2, rfl⟩
  · have hlooked := (LoadM.enter_lookedUp wanted hs).1 () s' hs'
    refine ⟨hlooked.grown, Loading.settle_builds (LoadM.settle_of_enter hs'), fun name hname => ?_⟩
    refine ⟨hlooked.mem_iff hname, fun hacyclic => ?_⟩
    rw [Loading.lookup, TypedefLookup.ofDecls, hlooked.typedef?_eq hacyclic name hname]
  · exact (LoadM.declaration_steady n).run_eq hacyclic hs Loading.ready_start

/-- A header with a typedef and another one that mentions it. -/
def weightsNames : DumpNames :=
  ⟨⟨"/src/demo.h", "typedef int Weight;\ntypedef Weight *Weights;\n", fun _ => none⟩, []⟩

def typedefAt (name type : String) (p : Point) : Node :=
  ⟨"TypedefDecl", name, ⟨some p, some p⟩, {}, {}, some type, false, false, none, none, none, []⟩

def weightNode : Node :=
  typedefAt "Weight" "int" ⟨"/src/demo.h", 1, 13, 12, 6⟩

def weightsNode : Node :=
  typedefAt "Weights" "Weight *" ⟨"/src/demo.h", 2, 17, 36, 7⟩

theorem read_weight (anonymous : String → Option String) : QualType.read anonymous "int" =
    .ok (RawType.ofKind (.builtin .int) "int", []) := by
  have htokens : QualType.tokenize "int".toList = .ok [.word "int"] := by decide +kernel
  exact QualType.read_pointers htokens rfl rfl (QualType.pointers_end _ nofun)

theorem read_weights (anonymous : String → Option String) : QualType.read anonymous "Weight *" =
    .ok ({ RawType.pointer (.ofKind (.unexposed "Weight") "Weight") with spelling := "Weight *" },
      ["Weight"]) := by
  have htokens : QualType.tokenize "Weight *".toList = .ok [.word "Weight", .star] := by decide +kernel
  have hpointers : ∀ t, QualType.pointers t [.star] = (.pointer t, ⟨[], Nat.zero_le _⟩) := by
    simp [QualType.pointers, QualType.pointerQualifiers]
  exact QualType.read_pointers htokens rfl rfl (hpointers _)

theorem weights_mentions {name asked : String}
    (h : Node.Mentions weightsNames [weightNode, weightsNode] name asked) :
    name = "Weights" ∧ asked = "Weight" := by
  obtain ⟨t, ht, hasked⟩ := h
  have hmem := List.mem_of_find?_eq_some ht
  have hname : t.name = name := by simpa using List.find?_some ht
  simp only [List.mem_cons, List.not_mem_nil, or_false] at hmem
  rcases hmem with rfl | rfl
  · simp [Node.typeNames, weightNode, typedefAt, read_weight] at hasked
  · exact ⟨hname.symm, by simpa [Node.typeNames, weightsNode, typedefAt, read_weights] using hasked⟩

theorem weights_acyclic : Node.Acyclic weightsNames [weightNode, weightsNode] := by
  have hleads : ∀ name asked, TransGen (Node.Mentions weightsNames [weightNode, weightsNode]) name asked →
      name = "Weights" ∧ asked = "Weight" := by
    intro name asked h
    induction h with
    | single h => exact weights_mentions h
    | tail _ h ih => exact ⟨ih.1, (weights_mentions h).2⟩
  intro name h
  obtain ⟨hfrom, hto⟩ := hleads name name h
  exact absurd (hfrom.symm.trans hto) (by decide)

theorem weights_readable : ∀ n ∈ [weightNode, weightsNode], n.Readable weightsNames.origin :=
  List.forall_mem_cons.mpr ⟨.of_written rfl (by decide) (by decide) nofun nofun,
    List.forall_mem_singleton.mpr (.of_written rfl (by decide) (by decide) nofun nofun)⟩

theorem weights_buildable (name : String) :
    Node.Buildable weightsNames [weightNode, weightsNode] name :=
  fun t ht => (weights_readable t ht.mem).loadable .typedef

theorem weights_resolved : ∃ k s s',
    (keepDecls weightsNames {} [weightNode]).run { fresh := [weightNode, weightsNode] } = .ok (k, s) ∧
    (s.builds weightsNames [.enter "Weights"] ++ s.typedefs.map (·.1)).Nodup ∧
    (LoadM.enter weightsNames ["Weights"]).run s = .ok ((), s') ∧ "Weights" ∈ s'.typedefs.map (·.1) ∧
    s'.lookup "Weights" =
      TypedefLookup.ofDecls (Node.meaning weightsNames [weightNode, weightsNode]) "Weights" := by
  have hdeclarable : ∀ n ∈ [weightNode], (mainFile? weightsNames.origin n).isSome →
      n.Declarable weightsNames [weightNode, weightsNode] := by
    intro n hn _
    obtain rfl := List.mem_singleton.mp hn
    exact ⟨fun name _ => weights_buildable name, (weights_readable _ (.head _)).parts⟩
  have hknown : ∀ n ∈ [weightNode], n.kind = "TypedefDecl" → n ∈ [weightNode, weightsNode] := by simp
  obtain ⟨-, hfails⟩ :=
    keepDecls_needs hknown {} { fresh := [weightNode, weightsNode] } Loading.checked_start
  cases hrun : (keepDecls weightsNames {} [weightNode]).run { fresh := [weightNode, weightsNode] } with
  | error e => exact absurd hdeclarable (hfails e hrun)
  | ok r =>
    obtain ⟨hlookups, -⟩ := typedefs_resolved hrun
    obtain ⟨hnodup, hbuilt, htable⟩ := hlookups ["Weights"]
    obtain ⟨s', hs'⟩ := hbuilt.mpr fun name _ => weights_buildable name
    obtain ⟨-, -, hnames⟩ := htable s' hs'
    obtain ⟨hmem, hmeaning⟩ := hnames "Weights" (.head _)
    exact ⟨r.1, r.2, s', rfl, hnodup, hs', hmem.mpr ⟨weightsNode, by simp, rfl⟩, hmeaning weights_acyclic⟩

end HeaderUnit

end Bindery
