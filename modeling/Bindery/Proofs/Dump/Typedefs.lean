import Bindery.Dump.Typedefs
import Bindery.Proofs.Dump.Declaration

/-! Every typedef of a dump is built from the first node of its name, when its name is asked for. -/

namespace Bindery

variable {names : DumpNames} {all : List Node} {entered : List String} {todo : List LoadStep}
  {s : Loading} {n : Node} {kind : DeclKind} {F : Prop}

namespace RawType

/-- What the names in a type stand for does not make a function of it. -/
theorem isFunctional_resolved (typedefs : TypedefLookup) :
    ∀ t : RawType, (t.resolved typedefs).isFunctional = t.isFunctional
  | ⟨.pointer pointee, _, _⟩ => isFunctional_resolved typedefs pointee
  | ⟨.constantArray element _, _, _⟩ => isFunctional_resolved typedefs element
  | ⟨.incompleteArray element, _, _⟩ => isFunctional_resolved typedefs element
  | ⟨.unexposed text, _, _⟩ => by
    rw [resolved, RawKind.resolved]
    cases typedefs text <;> rfl
  | ⟨.function _ _ _, _, _⟩ => rfl
  | ⟨.elaborated _, _, _⟩ => rfl
  | ⟨.builtin _, _, _⟩ => rfl
  | ⟨.typedef _ _ _, _, _⟩ => rfl
  | ⟨.record _ _, _, _⟩ => rfl
  | ⟨.enum _, _, _⟩ => rfl

end RawType

/-- Declarations that have a type of their own. -/
def DeclKind.hasType : DeclKind → Bool
  | .function => true
  | .parameter => true
  | .field => true
  | .variable => true
  | .typedef => true
  | _ => false

/-- Declarations behind whose names parameters are looked for if they are functional. Those of a function
itself are declared. -/
def DeclKind.isSearched (kind : DeclKind) : Bool :=
  kind.hasType && kind != .function

namespace Node

/-- The first node of a name. -/
def first? (name : String) (nodes : List Node) : Option Node :=
  nodes.find? (·.name == name)

/-- Whether the type of a node is a function, points to one or is an array of them. -/
def isFunctional (names : DumpNames) (n : Node) : Bool :=
  (n.type names fun _ => none).isFunctional

/-- What typedefs stand for does not matter for that. -/
theorem type_isFunctional (names : DumpNames) (typedefs : TypedefLookup) (n : Node) :
    (n.type names typedefs).isFunctional = n.isFunctional names := by
  unfold isFunctional type
  split
  · rfl
  · next text _ =>
    unfold QualType.parse QualType.tryParse
    cases QualType.read names.adopted.name? text with
    | error r => rfl
    | ok r => exact (RawType.isFunctional_resolved _ _).trans (RawType.isFunctional_resolved _ _).symm

/-- All that a declaration of a kind takes from a node is there: its place and its attributes, the text
behind its name if that may hold parameters, and the constants of an enumeration. -/
structure Loadable (names : DumpNames) (kind : DeclKind) (n : Node) : Prop where
  placeable : n.Placeable names.origin kind
  legible : kind.isSearched → n.isFunctional names → n.Legible names.origin
  constants : kind = .enum → ConstantsFit names.origin none n.constantNodes

theorem loadable_typed_iff (hkind : kind.isSearched) :
    n.Loadable names kind ↔
      n.Placeable names.origin kind ∧ (n.isFunctional names → n.Legible names.origin) := by
  refine ⟨fun h => ⟨h.placeable, h.legible hkind⟩, fun ⟨hplace, hlegible⟩ => ⟨hplace, fun _ => hlegible, ?_⟩⟩
  rintro rfl
  cases hkind

theorem loadable_plain_iff (hkind : kind.isSearched = false) (hother : kind ≠ .enum) :
    n.Loadable names kind ↔ n.Placeable names.origin kind :=
  ⟨Loadable.placeable, fun h => ⟨h, by simp [hkind], fun henum => absurd henum hother⟩⟩

theorem loadable_enum_iff : n.Loadable names .enum ↔
    n.Placeable names.origin .enum ∧ ConstantsFit names.origin none n.constantNodes :=
  ⟨fun h => ⟨h.placeable, h.constants rfl⟩, fun ⟨hplace, hfit⟩ => ⟨hplace, nofun, fun _ => hfit⟩⟩

/-- The typedef is the first of the name, or what the type of that one asks for leads to it. -/
inductive Reached (names : DumpNames) (all : List Node) : String → Node → Prop where
  | first {name : String} {t : Node} (h : first? name all = some t) : Reached names all name t
  | through {name asked : String} {t u : Node} (h : first? name all = some t)
      (hasked : asked ∈ t.typeNames names) (hu : Reached names all asked u) : Reached names all name u

theorem Reached.mem {names : DumpNames} {all : List Node} {name : String} {t : Node}
    (h : Reached names all name t) : t ∈ all := by
  induction h with
  | first h => exact List.mem_of_find?_eq_some h
  | through _ _ _ ih => exact ih

/-- Everything that a name leads to can be built. -/
def Buildable (names : DumpNames) (all : List Node) (name : String) : Prop :=
  ∀ t, Reached names all name t → t.Loadable names .typedef

end Node

namespace Loading

/-- A name that is in the table is looked up there. -/
theorem typedef?_of_mem {name : String} {d : Decl} (h : (name, d) ∈ s.typedefs) :
    ∃ found, s.typedef? name = some found ∧ (name, found) ∈ s.typedefs := by
  obtain ⟨⟨name', found⟩, hfound⟩ : ∃ p, s.typedefs.find? (·.1 == name) = some p :=
    Option.isSome_iff_exists.mp (List.find?_isSome.mpr ⟨_, h, beq_self_eq_true _⟩)
  obtain rfl : name' = name := by simpa using List.find?_some hfound
  exact ⟨found, by simp [typedef?, hfound], List.mem_of_find?_eq_some hfound⟩

/-- A state with the steps `todo` ahead, when the names `entered` were asked for among those of the
typedefs `all`. -/
structure Sound (o : Origin) (all : List Node) (entered : List String) (todo : List LoadStep)
    (s : Loading) : Prop where
  sources : o.Holds s.sources
  fresh : s.fresh = all.filter (!entered.contains ·.name)
  ahead : ∀ n, .define n ∈ todo → Node.first? n.name all = some n
  typedefs : ∀ name d, (name, d) ∈ s.typedefs →
    ∃ n, Node.first? name all = some n ∧ d.Heads .typedef n
  covered : ∀ n ∈ all, n.name ∈ entered →
    (∃ d, (n.name, d) ∈ s.typedefs) ∨ ∃ m, .define m ∈ todo ∧ m.name = n.name

/-- The states between the declarations, when no step is ahead. -/
def Settled (o : Origin) (all : List Node) (s : Loading) : Prop :=
  ∃ entered, s.Sound o all entered []

namespace Sound

variable {o : Origin}

theorem otherThan_fresh (hs : s.Sound o all entered todo) (name : String) :
    Node.otherThan name s.fresh = all.filter (!(name :: entered).contains ·.name) := by
  rw [hs.fresh, Node.otherThan, List.filter_filter]
  congr 1
  funext n
  rw [List.contains_cons, Bool.not_or, bne]

theorem enter_known {name : String} (hs : s.Sound o all entered (.enter name :: todo))
    (hf : s.fresh.find? (·.name == name) = none) : s.Sound o all (name :: entered) todo := by
  have hother : ∀ n ∈ s.fresh, n.name ≠ name := by simpa using hf
  refine ⟨hs.sources, ?_, fun n hn => hs.ahead n (.tail _ hn), hs.typedefs, fun n hn he => ?_⟩
  · rw [← hs.otherThan_fresh, Node.otherThan, List.filter_eq_self.mpr]
    simpa using hother
  · have hentered : n.name ∈ entered := by
      refine (List.mem_cons.mp he).elim (fun hname => ?_) id
      by_cases hnew : n.name ∈ entered
      · exact hnew
      · exact absurd hname (hother n (by simp [hs.fresh, hn, hnew]))
    exact (hs.covered n hn hentered).imp_right fun ⟨m, hm, hname⟩ => ⟨m, by simpa using hm, hname⟩

/-- A name that is not entered yet has all its nodes before it, so the one found is the first. -/
theorem first?_of_fresh {name : String} (hs : s.Sound o all entered todo)
    (hf : s.fresh.find? (·.name == name) = some n) : Node.first? name all = some n := by
  have hname : n.name = name := by simpa using List.find?_some hf
  have hnew : n.name ∉ entered := by
    have hm := List.mem_of_find?_eq_some hf
    rw [hs.fresh] at hm
    simpa using (List.mem_filter.mp hm).2
  rw [hs.fresh, List.find?_filter] at hf
  rw [Node.first?, ← hf]
  congr 1
  funext m
  by_cases hm : m.name = name
  · simp [hm, ← hname, hnew]
  · simp [hm]

/-- A name without a node before it is entered if a typedef has it. -/
theorem known_of_fresh {name : String} (hs : s.Sound o all entered todo)
    (hf : s.fresh.find? (·.name == name) = none) (t : Node) (ht : Node.first? name all = some t) :
    name ∈ entered := by
  have hname : t.name = name := by simpa using List.find?_some ht
  by_contra hnew
  have hfresh : t ∈ s.fresh := by
    rw [hs.fresh]
    exact List.mem_filter.mpr ⟨List.mem_of_find?_eq_some ht, by simpa [hname] using hnew⟩
  have hother : t.name ≠ name := by simpa using List.find?_eq_none.mp hf t hfresh
  exact hother hname

theorem enter_new {name : String} (hs : s.Sound o all entered (.enter name :: todo))
    (hf : s.fresh.find? (·.name == name) = some n) (asked : List String) :
    Sound o all (name :: entered) (asked.map .enter ++ .define n :: todo)
      { s with fresh := Node.otherThan name s.fresh } := by
  have hname : n.name = name := by simpa using List.find?_some hf
  refine ⟨hs.sources, hs.otherThan_fresh name, fun m hm => ?_, hs.typedefs, fun m hm he => ?_⟩
  · simp only [List.mem_append, List.mem_map, reduceCtorEq, and_false, exists_false, false_or,
      List.mem_cons, LoadStep.define.injEq] at hm
    rcases hm with rfl | hm
    · rw [hname]
      exact hs.first?_of_fresh hf
    · exact hs.ahead m (.tail _ hm)
  · rcases List.mem_cons.mp he with he | he
    · exact .inr ⟨n, by simp, hname.trans he.symm⟩
    · refine (hs.covered m hm he).imp_right fun ⟨k, hk, hsame⟩ => ⟨k, ?_, hsame⟩
      have hlater : LoadStep.define k ∈ todo := by simpa using hk
      simp [hlater]

theorem define {d : Decl} {sources : SourceMap} (hs : s.Sound o all entered (.define n :: todo))
    (hd : d.Heads .typedef n) (hsources : o.Holds sources) :
    Sound o all entered todo ⟨s.fresh, (n.name, d) :: s.typedefs, sources⟩ := by
  refine ⟨hsources, hs.fresh, fun m hm => hs.ahead m (.tail _ hm), ?_, fun m hm he => ?_⟩
  · intro name d' hd'
    rcases List.mem_cons.mp hd' with hsame | hold
    · cases hsame
      exact ⟨n, hs.ahead n (.head _), hd⟩
    · exact hs.typedefs name d' hold
  · rcases hs.covered m hm he with ⟨d', hd'⟩ | ⟨k, hk, hname⟩
    · exact .inl ⟨d', .tail _ hd'⟩
    · rcases List.mem_cons.mp hk with hdone | hk
      · cases hdone
        exact .inl ⟨d, by rw [hname]; exact .head _⟩
      · exact .inr ⟨k, hk, hname⟩

end Sound

/-- What a name that was entered asks for is entered too or ahead, and its typedef is ahead or was
found loadable. -/
structure Closed (names : DumpNames) (all : List Node) (entered : List String)
    (todo : List LoadStep) : Prop where
  asked : ∀ name ∈ entered, ∀ t, Node.first? name all = some t → ∀ b ∈ t.typeNames names,
    b ∈ entered ∨ .enter b ∈ todo
  loadable : ∀ name ∈ entered, ∀ t, Node.first? name all = some t →
    t.Loadable names .typedef ∨ .define t ∈ todo

namespace Closed

variable {name : String}

theorem enter_known (h : Closed names all entered (.enter name :: todo))
    (hknown : ∀ t, Node.first? name all = some t → name ∈ entered) :
    Closed names all (name :: entered) todo := by
  have hold : ∀ a ∈ name :: entered, ∀ t, Node.first? a all = some t → a ∈ entered := by
    intro a ha t ht
    rcases List.mem_cons.mp ha with rfl | ha
    · exact hknown t ht
    · exact ha
  refine ⟨fun a ha t ht b hb => ?_, fun a ha t ht => ?_⟩
  · rcases h.asked a (hold a ha t ht) t ht b hb with hb | hb
    · exact .inl (.tail _ hb)
    · rcases List.mem_cons.mp hb with hsame | hb
      · cases hsame
        exact .inl (.head _)
      · exact .inr hb
  · exact (h.loadable a (hold a ha t ht) t ht).imp_right fun ht => by simpa using ht

theorem enter_new (h : Closed names all entered (.enter name :: todo))
    (hn : Node.first? name all = some n) :
    Closed names all (name :: entered)
      ((n.typeNames names).map .enter ++ .define n :: todo) := by
  refine ⟨fun a ha t ht b hb => ?_, fun a ha t ht => ?_⟩
  · rcases List.mem_cons.mp ha with rfl | ha
    · obtain rfl : n = t := Option.some.inj (hn.symm.trans ht)
      exact .inr (by simp [hb])
    · rcases h.asked a ha t ht b hb with hb | hb
      · exact .inl (.tail _ hb)
      · rcases List.mem_cons.mp hb with hsame | hb
        · cases hsame
          exact .inl (.head _)
        · exact .inr (by simp [hb])
  · rcases List.mem_cons.mp ha with rfl | ha
    · obtain rfl : n = t := Option.some.inj (hn.symm.trans ht)
      exact .inr (by simp)
    · refine (h.loadable a ha t ht).imp_right fun hlater => ?_
      have hlater : LoadStep.define t ∈ todo := by simpa using hlater
      simp [hlater]

theorem define (h : Closed names all entered (.define n :: todo)) (hn : n.Loadable names .typedef) :
    Closed names all entered todo := by
  refine ⟨fun a ha t ht b hb => ?_, fun a ha t ht => ?_⟩
  · exact (h.asked a ha t ht b hb).imp_right fun hb => by simpa using hb
  · rcases h.loadable a ha t ht with ht | ht
    · exact .inl ht
    · rcases List.mem_cons.mp ht with hsame | ht
      · cases hsame
        exact .inl hn
      · exact .inr ht

/-- With no step ahead, everything that the names entered lead to was found loadable. -/
theorem buildable (h : Closed names all entered []) (hname : name ∈ entered) :
    Node.Buildable names all name := by
  intro t ht
  induction ht with
  | first ht => exact (h.loadable _ hname _ ht).resolve_right nofun
  | through ht hasked _ ih => exact ih ((h.asked _ hname _ ht _ hasked).resolve_right nofun)

end Closed

/-- The states between the declarations, in which all that was built could be built. -/
def Checked (names : DumpNames) (all : List Node) (s : Loading) : Prop :=
  ∃ entered, s.Sound names.origin all entered [] ∧ Closed names all entered []

theorem checked_start : Checked names all { fresh := all } := by
  have hfresh : all = all.filter (!([] : List String).contains ·.name) :=
    (List.filter_eq_self.mpr (by simp)).symm
  exact ⟨[], ⟨names.origin.holds_empty, hfresh, nofun, nofun, nofun⟩, nofun, nofun⟩

theorem Checked.settled (h : s.Checked names all) : s.Settled names.origin all := by
  obtain ⟨entered, hs, -⟩ := h
  exact ⟨entered, hs⟩

/-- A step that leads to a typedef: it builds the typedef or enters a name from which it is reached. -/
inductive Leads (names : DumpNames) (all : List Node) (t : Node) : LoadStep → Prop where
  | enter {name : String} (h : Node.Reached names all name t) : Leads names all t (.enter name)
  | define : Leads names all t (.define t)

/-- What comes of steps: a settled state in which every name asked for was entered, or a failure to which
one of the steps leads. -/
structure Settles (names : DumpNames) (all : List Node) (entered : List String)
    (todo : List LoadStep) (r : Except LoadFault Loading) : Prop where
  ok : ∀ s', r = .ok s' → ∃ entered', entered ⊆ entered' ∧
    (∀ name, .enter name ∈ todo → name ∈ entered') ∧ s'.Sound names.origin all entered' [] ∧
    Closed names all entered' []
  error : ∀ e, r = .error e →
    ∃ t, (∃ step ∈ todo, Leads names all t step) ∧ ¬ t.Loadable names DeclKind.typedef

/-- The steps may be followed by others that lead to no more, after some names were entered. -/
theorem Settles.of_steps {entered₁ : List String} {todo₁ : List LoadStep}
    {r : Except LoadFault Loading} (h : Settles names all entered₁ todo₁ r)
    (hentered : entered ⊆ entered₁)
    (hasked : ∀ name, .enter name ∈ todo → name ∈ entered₁ ∨ .enter name ∈ todo₁)
    (hleads : ∀ t, ∀ step ∈ todo₁, Leads names all t step → ∃ step ∈ todo, Leads names all t step) :
    Settles names all entered todo r := by
  refine ⟨fun s' hs' => ?_, fun e he => ?_⟩
  · obtain ⟨entered', hsub, hlater, hsettled⟩ := h.ok s' hs'
    refine ⟨entered', fun x hx => hsub (hentered hx), fun name hname => ?_, hsettled⟩
    rcases hasked name hname with hname | hname
    · exact hsub hname
    · exact hlater name hname
  · obtain ⟨t, ⟨step, hstep, ht⟩, hnot⟩ := h.error e he
    exact ⟨t, hleads t step hstep ht, hnot⟩

/-- Steps that are carried out leave a settled state, and they fail only at a typedef to which they
lead. -/
theorem settle_needs (hs : s.Sound names.origin all entered todo)
    (hc : Closed names all entered todo) :
    Settles names all entered todo (s.settle names todo) := by
  -- the induction follows the steps; the names entered grow with each name that is asked for
  fun_induction settle names s todo generalizing entered with
  | case1 s =>
    refine ⟨fun s' hs' => ?_, nofun⟩
    cases hs'
    exact ⟨entered, List.Subset.refl _, nofun, hs, hc⟩
  | case2 s name todo hf ih =>
    have hrest := ih (hs.enter_known hf) (hc.enter_known (hs.known_of_fresh hf))
    refine hrest.of_steps (List.subset_cons_self _ _) (fun other ho => ?_) fun t step hstep ht => ?_
    · rcases List.mem_cons.mp ho with hname | ho
      · cases hname
        exact .inl (.head _)
      · exact .inr ho
    · exact ⟨step, .tail _ hstep, ht⟩
  | case3 s name todo n hf ih =>
    have hfirst := hs.first?_of_fresh hf
    have hrest := ih (hs.enter_new hf _) (hc.enter_new hfirst)
    refine hrest.of_steps (List.subset_cons_self _ _) (fun other ho => ?_) fun t step hstep ht => ?_
    · rcases List.mem_cons.mp ho with hname | ho
      · cases hname
        exact .inl (.head _)
      · exact .inr (by simp [ho])
    · -- what the typedef asks for is reached through its name
      rcases List.mem_append.mp hstep with hstep | hstep
      · obtain ⟨asked, hasked, rfl⟩ := List.mem_map.mp hstep
        cases ht with
        | enter hreached => exact ⟨_, .head _, .enter (.through hfirst hasked hreached)⟩
      · rcases List.mem_cons.mp hstep with rfl | hstep
        · cases ht
          exact ⟨_, .head _, .enter (.first hfirst)⟩
        · exact ⟨step, .tail _ hstep, ht⟩
  | case4 s n todo e he =>
    refine ⟨nofun, fun _ _ => ⟨n, ⟨_, .head _, .define⟩, ?_⟩⟩
    have hlost := (n.typed_needs _ _ s.sources hs.sources).2 e he
    rwa [n.type_isFunctional, ← Node.loadable_typed_iff rfl] at hlost
  | case5 s n todo d sources hd ih =>
    obtain ⟨⟨hn, hheads⟩, hsources⟩ := (n.typed_needs _ _ s.sources hs.sources).1 d sources hd
    rw [n.type_isFunctional, ← Node.loadable_typed_iff rfl] at hn
    have hrest := ih (hs.define hheads hsources) (hc.define hn)
    refine hrest.of_steps (List.Subset.refl _) (fun other ho => ?_) fun t step hstep ht => ?_
    · exact .inr (by simpa using ho)
    · exact ⟨step, .tail _ hstep, ht⟩

end Loading

end Bindery
