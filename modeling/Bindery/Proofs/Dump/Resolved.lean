import Bindery.Proofs.Dump.Meaning

/-! The table of the typedefs that are built. Each is built once and is the one that its name means. -/

namespace Bindery

open Relation

/-- The name that a step enters or whose typedef it builds. -/
def LoadStep.name : LoadStep → String
  | .enter name => name
  | .define n => n.name

/-- The name of the typedef that a step builds. -/
def LoadStep.defined? : LoadStep → Option String
  | .enter _ => none
  | .define n => some n.name

variable {names : DumpNames} {all : List Node} {entered : List String} {todo : List LoadStep}
  {s : Loading} {n : Node} {name : String}

namespace Loading

/-- The names of the typedefs that are built or under way. -/
def begun (todo : List LoadStep) (s : Loading) : List String :=
  todo.filterMap LoadStep.defined? ++ s.typedefs.map (·.1)

theorem begun_enters (s : Loading) (asked : List String) (todo : List LoadStep) :
    s.begun (asked.map .enter ++ todo) = s.begun todo := by
  induction asked with
  | nil => rfl
  | cons name asked ih => exact ih

/-- No typedef is begun twice, and none that is begun is still fresh. -/
structure Once (todo : List LoadStep) (s : Loading) : Prop where
  nodup : (s.begun todo).Nodup
  fresh : ∀ m ∈ s.fresh, m.name ∉ s.begun todo

theorem Once.enter_new (hs : s.Once (.enter name :: todo))
    (hf : s.fresh.find? (·.name == name) = some n) (asked : List String) :
    Once (asked.map .enter ++ .define n :: todo)
      { s with fresh := Node.otherThan name s.fresh } := by
  have hname : n.name = name := by simpa using List.find?_some hf
  have hbegun : begun (asked.map .enter ++ .define n :: todo)
      { s with fresh := Node.otherThan name s.fresh } = name :: s.begun todo := by
    rw [begun_enters, ← hname]
    rfl
  constructor
  · rw [hbegun]
    have hnew := hs.fresh n (List.mem_of_find?_eq_some hf)
    exact List.nodup_cons.mpr ⟨hname ▸ hnew, hs.nodup⟩
  · intro m hm
    obtain ⟨hm, hother⟩ := List.mem_filter.mp hm
    rw [hbegun, List.mem_cons, not_or]
    exact ⟨by simpa using hother, hs.fresh m hm⟩

theorem Once.define (hs : s.Once (.define n :: todo)) (d : Decl) (sources : SourceMap) :
    Once todo ⟨s.fresh, (n.name, d) :: s.typedefs, sources⟩ := by
  have hperm : (s.begun (.define n :: todo)).Perm
      (begun todo ⟨s.fresh, (n.name, d) :: s.typedefs, sources⟩) :=
    List.perm_middle.symm
  exact ⟨hperm.nodup_iff.mp hs.nodup, fun m hm hbegun => hs.fresh m hm (hperm.mem_iff.mpr hbegun)⟩

/-- The names of the typedefs that are built while steps are carried out, in order, up to a failure. -/
def builds (names : DumpNames) (s : Loading) (todo : List LoadStep) : List String :=
  match todo with
  | [] => []
  | .enter name :: todo =>
    match _h : s.fresh.find? (·.name == name) with
    | none => s.builds names todo
    | some n =>
      builds names { s with fresh := Node.otherThan name s.fresh }
        ((n.typeNames names).map LoadStep.enter ++ LoadStep.define n :: todo)
  | .define n :: todo =>
    match (n.typed names.origin .typedef (n.type names s.lookup)).run s.sources with
    | .error _ => [n.name]
    | .ok (d, sources) => n.name :: builds names ⟨s.fresh, (n.name, d) :: s.typedefs, sources⟩ todo
termination_by (s.fresh.length, todo.length)
decreasing_by
  · exact Prod.Lex.right _ (by simp)
  · exact Prod.Lex.left _ _ (Node.length_otherThan_lt _h)
  · exact Prod.Lex.right _ (by simp)

/-- None is built twice, and none again that is in the table. -/
theorem Once.builds_nodup (hs : s.Once todo) :
    (s.builds names todo ++ s.typedefs.map (·.1)).Nodup := by
  fun_induction builds names s todo with
  | case1 s => exact hs.nodup
  | case2 s name todo hf ih => exact ih ⟨hs.nodup, hs.fresh⟩
  | case3 s name todo n hf ih => exact ih (hs.enter_new hf _)
  | case4 s n todo e he =>
    have hsub : (n.name :: s.typedefs.map (·.1)).Sublist (s.begun (.define n :: todo)) :=
      (List.sublist_append_right _ _).cons_cons _
    exact hs.nodup.sublist hsub
  | case5 s n todo d sources hd ih =>
    exact List.perm_middle.nodup_iff.mp (ih (hs.define d sources))

/-- The table holds what was built, the last first. -/
theorem settle_builds {s' : Loading} (h : s.settle names todo = .ok s') :
    s'.typedefs.map (·.1) = (s.builds names todo).reverse ++ s.typedefs.map (·.1) := by
  fun_induction builds names s todo with
  | case1 s =>
    rw [settle] at h
    cases h
    rfl
  | case2 s name todo hf ih =>
    rw [settle] at h
    split at h
    · exact ih h
    · next hn => cases hf.symm.trans hn
  | case3 s name todo n hf ih =>
    rw [settle] at h
    split at h
    · next hn => cases hf.symm.trans hn
    · next m hm =>
      obtain rfl : n = m := Option.some.inj (hf.symm.trans hm)
      exact ih h
  | case4 s n todo e he =>
    rw [settle, he] at h
    cases h
  | case5 s n todo d sources hd ih =>
    rw [settle, hd] at h
    rw [ih h, List.reverse_cons, List.append_assoc]
    rfl

/-- Whatever the type of a typedef asks for has been entered by the time that the typedef is built. -/
def Prepared (names : DumpNames) : List String → List LoadStep → Prop
  | _, [] => True
  | entered, .enter name :: todo => Prepared names (name :: entered) todo
  | entered, .define n :: todo =>
    (∀ asked ∈ n.typeNames names, asked ∈ entered) ∧ Prepared names entered todo

theorem Prepared.mono {entered' : List String} (h : Prepared names entered todo)
    (hsub : entered ⊆ entered') : Prepared names entered' todo := by
  induction todo generalizing entered entered' with
  | nil => trivial
  | cons step todo ih =>
    cases step with
    | enter name => exact ih h (List.cons_subset_cons name hsub)
    | define n => exact ⟨fun asked hasked => hsub (h.1 asked hasked), ih h.2 hsub⟩

theorem Prepared.enters {asked : List String}
    (h : ∀ entered', entered ⊆ entered' → asked ⊆ entered' → Prepared names entered' todo) :
    Prepared names entered (asked.map .enter ++ todo) := by
  induction asked generalizing entered with
  | nil => exact h entered (List.Subset.refl _) (List.nil_subset _)
  | cons name asked ih =>
    refine ih fun entered' hsub hasked => h entered' ?_ ?_
    · exact List.Subset.trans (List.subset_cons_self _ _) hsub
    · exact List.cons_subset.mpr ⟨hsub (.head _), hasked⟩

/-- The typedefs that are under way below a step lead to its name. -/
def Stacked (names : DumpNames) (all : List Node) (todo : List LoadStep) : Prop :=
  todo.Pairwise fun step below => ∀ m, below = .define m →
    TransGen (Node.Mentions names all) m.name step.name

theorem stacked_enters (names : DumpNames) (all : List Node) (asked : List String) :
    Stacked names all (asked.map .enter) := by
  refine List.pairwise_map.mpr (List.pairwise_of_forall fun _ _ m hm => ?_)
  cases hm

theorem Stacked.enter_new (h : Stacked names all (.enter name :: todo))
    (hn : Node.first? name all = some n) :
    Stacked names all ((n.typeNames names).map .enter ++ .define n :: todo) := by
  have hname : n.name = name := by simpa using List.find?_some hn
  obtain ⟨hbelow, htodo⟩ := List.pairwise_cons.mp h
  refine List.pairwise_append.mpr ⟨stacked_enters names all _, List.pairwise_cons.mpr ⟨?_, htodo⟩, ?_⟩
  · intro step hstep m hm
    rw [LoadStep.name, hname]
    exact hbelow step hstep m hm
  · intro step hstep below hmem m hm
    obtain ⟨asked, hasked, rfl⟩ := List.mem_map.mp hstep
    have hmentions : Node.Mentions names all name asked := ⟨n, hn, hasked⟩
    rcases List.mem_cons.mp hmem with rfl | hmem
    · cases hm
      exact .single (hname ▸ hmentions)
    · exact (hbelow below hmem m hm).tail hmentions

/-- The typedefs in the table are those that their names mean. -/
def Meant (names : DumpNames) (all : List Node) (s : Loading) : Prop :=
  Node.Acyclic names all → ∀ name d, (name, d) ∈ s.typedefs → Node.meaning names all name = some d

/-- A name means what the table says if its typedef is in the table or there is none. -/
theorem typedef?_eq_meaning (hs : s.Sound names.origin all entered todo) (hm : s.Meant names all)
    (hacyclic : Node.Acyclic names all)
    (hbuilt : ∀ t, Node.first? name all = some t → ∃ d, (name, d) ∈ s.typedefs) :
    s.typedef? name = Node.meaning names all name := by
  cases hfirst : Node.first? name all with
  | none =>
    have hnone : s.typedefs.find? (·.1 == name) = none := by
      refine List.find?_eq_none.mpr fun entry hentry hname => ?_
      obtain rfl : entry.1 = name := by simpa using hname
      obtain ⟨t, ht, -⟩ := hs.typedefs entry.1 entry.2 hentry
      cases hfirst.symm.trans ht
    rw [typedef?, hnone, Node.meaning_none hfirst]
    rfl
  | some t =>
    obtain ⟨d, hd⟩ := hbuilt t hfirst
    obtain ⟨found, hfound, hmem⟩ := typedef?_of_mem hd
    rw [hfound, hm hacyclic name found hmem]

/-- What is known of the table while steps are ahead. -/
structure Ordered (names : DumpNames) (all : List Node) (entered : List String)
    (todo : List LoadStep) (s : Loading) : Prop where
  sound : s.Sound names.origin all entered todo
  once : s.Once todo
  prepared : Prepared names entered todo
  stacked : Stacked names all todo
  meant : s.Meant names all

namespace Ordered

theorem enter_known (hs : s.Ordered names all entered (.enter name :: todo))
    (hf : s.fresh.find? (·.name == name) = none) : s.Ordered names all (name :: entered) todo :=
  ⟨hs.sound.enter_known hf, ⟨hs.once.nodup, hs.once.fresh⟩, hs.prepared,
    (List.pairwise_cons.mp hs.stacked).2, hs.meant⟩

theorem enter_new (hs : s.Ordered names all entered (.enter name :: todo))
    (hf : s.fresh.find? (·.name == name) = some n) :
    Ordered names all (name :: entered) ((n.typeNames names).map .enter ++ .define n :: todo)
      { s with fresh := Node.otherThan name s.fresh } := by
  refine ⟨hs.sound.enter_new hf _, hs.once.enter_new hf _, .enters fun entered' hsub hasked => ?_,
    hs.stacked.enter_new (hs.sound.first?_of_fresh hf), hs.meant⟩
  have htodo : Prepared names (name :: entered) todo := hs.prepared
  exact ⟨hasked, htodo.mono hsub⟩

/-- Nothing that the type of a typedef asks for is under way when the typedef is built. -/
theorem typedef?_eq (hs : s.Ordered names all entered (.define n :: todo))
    (hacyclic : Node.Acyclic names all) {asked : String} (hasked : asked ∈ n.typeNames names) :
    s.typedef? asked = Node.meaning names all asked := by
  refine typedef?_eq_meaning hs.sound hs.meant hacyclic fun t ht => ?_
  obtain rfl : t.name = asked := by simpa using List.find?_some ht
  have hmentions : Node.Mentions names all n.name t.name := ⟨n, hs.sound.ahead n (.head _), hasked⟩
  rcases hs.sound.covered t (List.mem_of_find?_eq_some ht) (hs.prepared.1 _ hasked) with
    hbuilt | ⟨m, hm, hname⟩
  · exact hbuilt
  · -- a typedef under way leads to the one that is built, and that one would mention it
    rcases List.mem_cons.mp hm with hsame | hm
    · cases hsame
      exact absurd (.single (hname ▸ hmentions)) (hacyclic n.name)
    · have hleads := (List.pairwise_cons.mp hs.stacked).1 _ hm m rfl
      exact absurd (hleads.tail (hname ▸ hmentions)) (hacyclic m.name)

theorem define (hs : s.Ordered names all entered (.define n :: todo)) {d : Decl} {sources : SourceMap}
    (hd : (n.typed names.origin .typedef (n.type names s.lookup)).run s.sources = .ok (d, sources)) :
    Ordered names all entered todo ⟨s.fresh, (n.name, d) :: s.typedefs, sources⟩ := by
  obtain ⟨⟨-, hheads⟩, hsources⟩ := (n.typed_needs _ _ s.sources hs.sound.sources).1 d sources hd
  refine ⟨hs.sound.define hheads hsources, hs.once.define d sources, hs.prepared.2,
    (List.pairwise_cons.mp hs.stacked).2, fun hacyclic name d' hd' => ?_⟩
  rcases List.mem_cons.mp hd' with hnew | hold
  · cases hnew
    have hsteady : Steady names.origin.Holds True
        (n.typed names.origin .typedef (n.type names s.lookup)) := n.typed_steady _ _
    have hsame := hsteady.run_eq trivial hs.sound.sources names.origin.holds_empty
    rw [hd] at hsame
    have hbuilt : n.typedefWith names s.typedef? = some d := hsame.symm
    rw [Node.meaning_eq hacyclic (hs.sound.ahead n (.head _)), ← hbuilt]
    exact Node.typedefWith_congr fun asked hasked => (hs.typedef?_eq hacyclic hasked).symm
  · exact hs.meant hacyclic name d' hold

end Ordered

/-- Steps that are carried out keep what is in the table, and add what the names mean. -/
theorem settle_ordered {s' : Loading} (hs : s.Ordered names all entered todo)
    (h : s.settle names todo = .ok s') :
    s.typedefs <:+ s'.typedefs ∧ s'.Once [] ∧ s'.Meant names all := by
  fun_induction settle names s todo generalizing entered with
  | case1 s =>
    cases h
    exact ⟨List.suffix_refl _, hs.once, hs.meant⟩
  | case2 s name todo hf ih => exact ih (hs.enter_known hf) h
  | case3 s name todo n hf ih => exact ih (hs.enter_new hf) h
  | case4 => cases h
  | case5 s n todo d sources hd ih =>
    obtain ⟨hgrown, hrest⟩ := ih (hs.define hd) h
    exact ⟨(List.suffix_cons _ _).trans hgrown, hrest⟩

/-- The states between the declarations, with the table as it must be. -/
structure Ready (names : DumpNames) (all : List Node) (s : Loading) : Prop where
  checked : s.Checked names all
  once : s.Once []
  meant : s.Meant names all

theorem ready_start : Ready names all { fresh := all } :=
  ⟨checked_start, ⟨.nil, fun _ _ => List.not_mem_nil⟩, fun _ _ _ hd => absurd hd List.not_mem_nil⟩

theorem Ready.ordered (hs : s.Ready names all) (wanted : List String) :
    ∃ entered, s.Ordered names all entered (wanted.map .enter) := by
  obtain ⟨⟨entered, hsound, -⟩, honce, hmeant⟩ := hs
  refine ⟨entered, ⟨⟨hsound.sources, hsound.fresh, by simp, hsound.typedefs, fun n hn he => ?_⟩, ?_, ?_,
    stacked_enters names all wanted, hmeant⟩⟩
  · exact .inl ((hsound.covered n hn he).resolve_right nofun)
  · have hbegun : s.begun (wanted.map .enter) = s.begun [] := by
      simpa using s.begun_enters wanted []
    exact ⟨hbegun ▸ honce.nodup, fun m hm => hbegun ▸ honce.fresh m hm⟩
  · rw [← List.append_nil (wanted.map _)]
    exact .enters fun _ _ _ => trivial

end Loading

end Bindery
