import Bindery.Proofs.Dump.Typedefs

/-! The declaration of a node at the top: its kind, its name and its place, and the members of records
and enumerations. -/

namespace Bindery

variable {names : DumpNames} {all : List Node} {n : Node} {kind : DeclKind} {P : Prop}

namespace Node

/-- A node and all that is inside can be loaded, whatever it declares. -/
inductive Readable (o : Origin) : Node → Prop where
  | intro {n : Node} (placeable : ∀ kind, n.Placeable o kind) (legible : n.Legible o)
      (constants : ConstantsFit o none n.constantNodes) (inside : ∀ c ∈ n.children, c.Readable o) :
      Readable o n

theorem Readable.loadable (h : n.Readable names.origin) (kind : DeclKind) : n.Loadable names kind := by
  cases h with
  | intro placeable legible constants _ => exact ⟨placeable kind, fun _ _ => legible, fun _ => constants⟩

theorem Readable.child {o : Origin} {c : Node} (h : n.Readable o) (hc : c ∈ n.children) :
    c.Readable o := by
  cases h with
  | intro _ _ _ inside => exact inside c hc

def recordKind (n : Node) : DeclKind :=
  if n.tag == some "union" then .union else .struct

/-- What a node at the top declares, if it declares something. -/
def declKind? (n : Node) : Option DeclKind :=
  match n.kind with
  | "FunctionDecl" => some .function
  | "RecordDecl" => some n.recordKind
  | "EnumDecl" => some .enum
  | "VarDecl" => some .variable
  | "TypedefDecl" => some .typedef
  | _ => none

def key? (n : Node) : Option (DeclKind × String) :=
  n.declKind?.map fun kind => (kind, n.name)

theorem key?_of_declKind? (h : n.declKind? = some kind) : n.key? = some (kind, n.name) := by
  rw [key?, h, Option.map_some]

/-- The kinds and names of the members of a record, behind those in `seen`, which are in reverse. -/
def memberKeys (seen : List (DeclKind × String)) : List Node → List (DeclKind × String)
  | [] => seen.reverse
  | n :: ns =>
    if n.kind == "FieldDecl" then
      if n.isImplicit || n.name.isEmpty then memberKeys seen ns
      else if LoadM.hasUnnamedType n && seen.head?.any fun k => k.1.isRecord && k.2.isEmpty then
        memberKeys seen.tail ns
      else memberKeys ((.field, n.name) :: seen) ns
    else if n.kind == "RecordDecl" then memberKeys ((n.recordKind, n.name) :: seen) ns
    else memberKeys seen ns

end Node

/-- A node that is built as a declaration of a kind. -/
structure Part where
  kind : DeclKind
  node : Node

namespace Part

def Loadable (names : DumpNames) (p : Part) : Prop :=
  p.node.Loadable names p.kind

/-- The names that the type of a declaration asks for, if it has a type of its own. -/
def typeNames (names : DumpNames) (p : Part) : List String :=
  if p.kind.hasType then p.node.typeNames names else []

/-- The type of a declaration can be read, and the declaration can be loaded. -/
def Typable (names : DumpNames) (all : List Node) (p : Part) : Prop :=
  (∀ name ∈ p.typeNames names, Node.Buildable names all name) ∧ p.Loadable names

theorem typeNames_eq (h : kind.hasType) : typeNames names ⟨kind, n⟩ = n.typeNames names :=
  if_pos h

theorem forall_typable {ps : List Part} : (∀ p ∈ ps, p.Typable names all) ↔
    (∀ name ∈ ps.flatMap (typeNames names), Node.Buildable names all name) ∧
      ∀ p ∈ ps, p.Loadable names := by
  simp only [Typable, List.mem_flatMap, forall_exists_index, and_imp]
  exact ⟨fun h => ⟨fun name p hp hname => (h p hp).1 name hname, fun p hp => (h p hp).2⟩,
    fun h p hp => ⟨fun name hname => h.1 name p hp hname, h.2 p hp⟩⟩

theorem typable_typed_iff (hkind : kind.isSearched) : Typable names all ⟨kind, n⟩ ↔
    (∀ name ∈ n.typeNames names, Node.Buildable names all name) ∧
      n.Placeable names.origin kind ∧ (n.isFunctional names → n.Legible names.origin) := by
  have htype : kind.hasType := (Bool.and_eq_true_iff.mp hkind).1
  rw [Typable, typeNames_eq htype, Loadable, Node.loadable_typed_iff hkind]

theorem typable_function_iff : Typable names all ⟨.function, n⟩ ↔
    (∀ name ∈ n.typeNames names, Node.Buildable names all name) ∧ n.Placeable names.origin .function := by
  rw [Typable, typeNames_eq rfl]
  exact and_congr_right fun _ => Node.loadable_plain_iff rfl (by simp)

theorem typable_record_iff (hkind : kind.isRecord) :
    Typable names all ⟨kind, n⟩ ↔ n.Placeable names.origin kind := by
  have hplain : kind.hasType = false ∧ kind ≠ .enum := by
    cases kind <;> simp_all [DeclKind.isRecord, DeclKind.hasType]
  have hsearch : kind.isSearched = false := by rw [DeclKind.isSearched, hplain.1, Bool.false_and]
  simp [Typable, typeNames, hplain.1, Loadable, Node.loadable_plain_iff hsearch hplain.2]

theorem typable_enum_iff : Typable names all ⟨.enum, n⟩ ↔
    n.Placeable names.origin .enum ∧ ConstantsFit names.origin none n.constantNodes := by
  simp [Typable, typeNames, DeclKind.hasType, Loadable, Node.loadable_enum_iff]

end Part

namespace Node

mutual

/-- The declarations that a record is built of, also those that are left out afterwards: itself, its
fields and the records inside with theirs. -/
def recordParts : Node → List Part
  | n@⟨_, _, _, _, _, _, _, isComplete, _, _, _, children⟩ =>
    ⟨n.recordKind, n⟩ :: if isComplete then memberParts [] children else []

def memberParts (seen : List (DeclKind × String)) : List Node → List Part
  | [] => []
  | n :: ns =>
    if n.kind == "FieldDecl" then
      if n.isImplicit || n.name.isEmpty then memberParts seen ns
      else if LoadM.hasUnnamedType n && seen.head?.any fun k => k.1.isRecord && k.2.isEmpty then
        memberParts seen.tail ns
      else ⟨.field, n⟩ :: memberParts ((.field, n.name) :: seen) ns
    else if n.kind == "RecordDecl" then
      n.recordParts ++ memberParts ((n.recordKind, n.name) :: seen) ns
    else memberParts seen ns

end

mutual

theorem Readable.recordParts : ∀ n : Node, n.Readable names.origin →
    ∀ p ∈ n.recordParts, p.Loadable names
  | ⟨_, _, _, _, _, _, _, isComplete, _, _, _, children⟩, h => by
    have hinside := Readable.memberParts children [] fun c hc => h.child hc
    refine List.forall_mem_cons.mpr ⟨h.loadable _, ?_⟩
    cases isComplete with
    | true => exact hinside
    | false => exact nofun

theorem Readable.memberParts : ∀ (ns : List Node) (seen : List (DeclKind × String)),
    (∀ n ∈ ns, n.Readable names.origin) → ∀ p ∈ Node.memberParts seen ns, p.Loadable names
  | [], _, _ => nofun
  | n :: ns, seen, h => by
    obtain ⟨hn, hns⟩ := List.forall_mem_cons.mp h
    rw [Node.memberParts]
    split
    · split
      · exact Readable.memberParts ns _ hns
      · split
        · exact Readable.memberParts ns _ hns
        · exact List.forall_mem_cons.mpr ⟨hn.loadable _, Readable.memberParts ns _ hns⟩
    · split
      · exact List.forall_mem_append.mpr
          ⟨Readable.recordParts n hn, Readable.memberParts ns _ hns⟩
      · exact Readable.memberParts ns _ hns

end

/-- The declarations that a node at the top is built of: itself, and its parameters or its members. A
typedef is built when its name is asked for. -/
def parts (n : Node) : List Part :=
  match n.kind with
  | "FunctionDecl" =>
    ⟨.function, n⟩ :: (n.children.filter (·.kind == "ParmVarDecl")).map (⟨.parameter, ·⟩)
  | "RecordDecl" => n.recordParts
  | "EnumDecl" => [⟨.enum, n⟩]
  | "VarDecl" => [⟨.variable, n⟩]
  | _ => []

theorem Readable.parts (h : n.Readable names.origin) : ∀ p ∈ n.parts, p.Loadable names := by
  unfold Node.parts
  split
  · refine List.forall_mem_cons.mpr ⟨h.loadable _, List.forall_mem_map.mpr fun c hc => ?_⟩
    exact (h.child (List.mem_filter.mp hc).1).loadable _
  · exact Readable.recordParts n h
  · exact List.forall_mem_singleton.mpr (h.loadable _)
  · exact List.forall_mem_singleton.mpr (h.loadable _)
  · exact nofun

/-- The names that are asked for while a node at the top is built. -/
def asked (names : DumpNames) (n : Node) : List String :=
  match n.kind with
  | "TypedefDecl" => [n.name]
  | _ => n.parts.flatMap (Part.typeNames names)

/-- Everything that a node at the top is built of can be built. -/
def Declarable (names : DumpNames) (all : List Node) (n : Node) : Prop :=
  (∀ name ∈ n.asked names, Buildable names all name) ∧ ∀ p ∈ n.parts, p.Loadable names

theorem declarable_iff (hkind : n.kind ≠ "TypedefDecl") :
    n.Declarable names all ↔ ∀ p ∈ n.parts, p.Typable names all := by
  rw [Part.forall_typable, Declarable, asked]
  split
  · next htypedef => exact absurd htypedef hkind
  · rfl

/-- The kinds and names of the members of a record with a body, or of the constants of an
enumeration. -/
def outline (n : Node) : List (DeclKind × String) :=
  if n.kind == "EnumDecl" then n.constantKeys
  else if n.kind == "RecordDecl" && n.isComplete then memberKeys [] n.children
  else []

/-- The node that a declaration is built from. -/
def source (all : List Node) (n : Node) : Node :=
  if n.kind == "TypedefDecl" then (first? n.name all).getD n else n

theorem source_name (all : List Node) (n : Node) : (n.source all).name = n.name := by
  unfold source
  split
  · cases hf : first? n.name all with
    | none => rfl
    | some t => simpa using List.find?_some hf
  · rfl

/-- The place of a declaration whose name is written somewhere is that of the name. -/
theorem location?_of_written {p : Point} (hp : n.place.written = some p)
    (hk : kind ≠ .parameter ∨ n.name.isEmpty = false) : n.location? kind = some p.location := by
  have hnamed : ¬ (kind == .parameter && n.name.isEmpty) := by
    rcases hk with hk | hk <;> simp [hk]
  simp [location?, hp, hnamed]

theorem legible_of_written {o : Origin} {p : Point} (hp : n.place.written = some p)
    (hends : p.location.Carries o n.name) : n.Legible o := by
  intro kind l hnamed hl
  rw [n.location?_of_written hp (.inr hnamed)] at hl
  exact Option.some.inj hl ▸ hends

/-- A node with a name that is written somewhere, without attributes and constants. -/
theorem Readable.of_written {o : Origin} {p : Point} (hp : n.place.written = some p)
    (hnamed : n.name.isEmpty = false)
    (hends : (p.location.behind? n.name).any fun stop =>
      (o.text? p.file).all fun text => (dropBytes? stop text.toList).isSome)
    (hplain : ∀ c ∈ n.children, c.kind ≠ "AnnotateAttr" ∧ c.kind ≠ "EnumConstantDecl")
    (hinside : ∀ c ∈ n.children, c.Readable o) : n.Readable o := by
  have hplace : ∀ kind, n.Placeable o kind := by
    refine fun kind => ⟨?_, fun a ha hkind => absurd hkind (hplain a ha).1⟩
    rw [n.location?_of_written hp (.inr hnamed)]
    rfl
  have hnone : n.constantNodes = [] := by
    refine List.filter_eq_nil_iff.mpr fun c hc hkind => (hplain c hc).2 (eq_of_beq hkind)
  refine .intro hplace (legible_of_written hp (Location.carries_iff.mpr hends)) ?_ hinside
  rw [hnone]
  trivial

end Node

namespace LoadM

theorem ofSource_needs {α : Type} {x : SourceM α} {Q : α → Prop}
    (h : Needs names.origin.Holds P x Q) : Needs (Loading.Checked names all) P (ofSource x) Q := by
  refine Gives.get_bind fun s ⟨entered, hs, hclosed⟩ => ?_
  obtain ⟨hok, herr⟩ := h s.sources hs.sources
  refine .bind (.lift herr) fun r hr => ?_
  obtain ⟨hq, hsources⟩ := hok r.1 r.2 hr
  rintro s' -
  refine ⟨fun a s'' ha => ?_, nofun⟩
  cases ha
  exact ⟨hq, entered, ⟨hsources, hs.fresh, hs.ahead, hs.typedefs, hs.covered⟩, hclosed⟩

theorem ofSource_gives {α : Type} {x : SourceM α} {Q : α → Prop}
    (h : Gives names.origin.Holds False x Q) :
    Gives (Loading.Checked names all) False (ofSource x) Q := by
  have hneeds : Needs (Loading.Checked names all) True (ofSource x) Q :=
    ofSource_needs (.of_true trivial h)
  exact (Gives.fails hneeds (· trivial)).imp fun _ ha => ha.2

theorem enter_run (names : DumpNames) (wanted : List String) (s : Loading) :
    (enter names wanted).run s = (s.settle names (wanted.map .enter)).map fun s' => ((), s') := by
  cases hsettle : s.settle names (wanted.map .enter) <;> simp [enter, hsettle] <;> rfl

/-- After names were asked for, each of them was entered. -/
theorem enter_sound (wanted : List String) {s : Loading} (hs : s.Checked names all) :
    (∀ u s', (enter names wanted).run s = .ok (u, s') →
      ∃ entered, (∀ name ∈ wanted, name ∈ entered) ∧ s'.Sound names.origin all entered [] ∧
        Loading.Closed names all entered []) ∧
    ∀ e, (enter names wanted).run s = .error e →
      ∃ name ∈ wanted, ¬ Node.Buildable names all name := by
  obtain ⟨entered, hs, hclosed⟩ := hs
  have hsound : s.Sound names.origin all entered (wanted.map .enter) :=
    ⟨hs.sources, hs.fresh, by simp, hs.typedefs, fun n hn he => .inl <|
      (hs.covered n hn he).resolve_right nofun⟩
  have hahead : Loading.Closed names all entered (wanted.map .enter) :=
    ⟨fun a ha t ht b hb => .inl ((hclosed.asked a ha t ht b hb).resolve_right nofun),
      fun a ha t ht => .inl ((hclosed.loadable a ha t ht).resolve_right nofun)⟩
  obtain ⟨hok, herr⟩ := Loading.settle_needs hsound hahead
  rw [enter_run]
  cases hsettle : s.settle names (wanted.map .enter) with
  | error e =>
    refine ⟨nofun, fun _ _ => ?_⟩
    obtain ⟨t, ⟨step, hstep, hleads⟩, ht⟩ := herr e hsettle
    obtain ⟨name, hname, rfl⟩ := List.mem_map.mp hstep
    cases hleads with
    | enter hreached => exact ⟨name, hname, fun hall => ht (hall t hreached)⟩
  | ok s' =>
    obtain ⟨entered', -, hasked, hs'⟩ := hok s' hsettle
    refine ⟨fun u t ht => ?_, nofun⟩
    cases ht
    exact ⟨entered', fun name hn => hasked name (List.mem_map_of_mem hn), hs'⟩

theorem enter_needs (wanted : List String) :
    Needs (Loading.Checked names all) (∀ name ∈ wanted, Node.Buildable names all name)
      (enter names wanted) fun _ => True := by
  intro s hs
  obtain ⟨hok, herr⟩ := enter_sound wanted hs
  refine ⟨fun u s' hu => ?_, fun e he hall => ?_⟩
  · obtain ⟨entered, hasked, hs', hclosed⟩ := hok u s' hu
    exact ⟨⟨fun name hn => hclosed.buildable (hasked name hn), trivial⟩, entered, hs', hclosed⟩
  · obtain ⟨name, hname, hnot⟩ := herr e he
    exact hnot (hall name hname)

/-- A typedef that is asked for is built, from the first node of its name. -/
theorem typedef_needs (hn : n ∈ all) :
    Needs (Loading.Checked names all) (Node.Buildable names all n.name)
      (do enter names [n.name]; pure ((← get).typedef? n.name))
      fun r => ∃ d t, r = some d ∧ Node.first? n.name all = some t ∧ d.Heads .typedef t := by
  intro s hs
  obtain ⟨hok, herr⟩ := enter_sound [n.name] hs
  simp only [StateT.run_bind]
  cases hrun : (enter names [n.name]).run s with
  | error e =>
    refine ⟨nofun, fun _ _ hall => ?_⟩
    obtain ⟨name, hname, hnot⟩ := herr e hrun
    exact hnot (List.mem_singleton.mp hname ▸ hall)
  | ok r =>
    obtain ⟨entered, hasked, hs', hclosed⟩ := hok r.1 r.2 hrun
    have hentered : n.name ∈ entered := hasked n.name (.head _)
    obtain ⟨d, hd⟩ := (hs'.covered n hn hentered).resolve_right nofun
    obtain ⟨found, hfound, hmem⟩ := Loading.typedef?_of_mem hd
    obtain ⟨t, ht, hheads⟩ := hs'.typedefs _ _ hmem
    refine ⟨fun a s'' ha => ?_, nofun⟩
    cases ha
    exact ⟨⟨hclosed.buildable hentered, found, t, hfound, ht, hheads⟩, entered, hs', hclosed⟩

/-- The type read is that of the node for some meaning of the typedef names. -/
theorem typeOf_needs (n : Node) :
    Needs (Loading.Checked names all) (∀ name ∈ n.typeNames names, Node.Buildable names all name)
      (typeOf names n) fun t => t.isFunctional = n.isFunctional names :=
  .before (enter_needs _) fun _ _ =>
    .get_bind fun s _ => .pure (n.type_isFunctional names s.lookup)

theorem typed_needs (n : Node) {kind : DeclKind} (hkind : kind.isSearched) :
    Needs (Loading.Checked names all) (Part.Typable names all ⟨kind, n⟩) (typed names kind n)
      fun d => d.Heads kind n := by
  rw [Part.typable_typed_iff hkind]
  refine .bind (typeOf_needs n) fun t ht => ofSource_needs ?_
  exact (n.typed_needs kind t).congr (by rw [ht])

theorem params_needs (ns : List Node) :
    Needs (Loading.Checked names all) (∀ p ∈ ns.map (Part.mk .parameter), p.Typable names all)
      (params names ns) fun _ => True := by
  induction ns with
  | nil => exact .of_true nofun (.pure trivial)
  | cons n ns ih =>
    have hrest : ∀ d, Needs (Loading.Checked names all)
        (∀ p ∈ ns.map (Part.mk .parameter), p.Typable names all)
        (do pure (d :: (← params names ns))) fun _ => True :=
      fun d => .before ih fun _ _ => .pure trivial
    exact (Needs.bind (typed_needs n rfl) fun d _ => hrest d).congr List.forall_mem_cons.symm

theorem function_needs (n : Node) :
    Needs (Loading.Checked names all)
      (∀ p ∈ ⟨.function, n⟩ :: (n.children.filter (·.kind == "ParmVarDecl")).map (Part.mk .parameter),
        p.Typable names all)
      (function names n) fun d => d.Heads .function n := by
  rw [List.forall_mem_cons, Part.typable_function_iff, and_assoc]
  refine .bind (typeOf_needs n) fun t _ => .bind (ofSource_needs (n.declared_needs .function)) fun d hd => ?_
  exact .before (params_needs _) fun _ _ => .pure ⟨hd.1.kind_eq, hd.1.name_eq, hd.1.location_eq⟩

theorem endsUnnamed_eq (seen : List Decl) :
    endsUnnamed seen = (seen.map Decl.key).head?.any fun k => k.1.isRecord && k.2.isEmpty := by
  cases seen <;> rfl

theorem recordKind_isRecord (n : Node) : n.recordKind.isRecord := by
  unfold Node.recordKind
  split <;> rfl

mutual

theorem record_needs : ∀ n : Node,
    Needs (Loading.Checked names all) (∀ p ∈ n.recordParts, p.Typable names all) (record names n)
      fun d => d.Heads n.recordKind n ∧
        d.children.map Decl.key = if n.isComplete then Node.memberKeys [] n.children else []
  | n@⟨_, _, _, _, _, _, _, isComplete, _, _, _, children⟩ => by
    have hmembers := members_needs children []
    rw [record, Node.recordParts, List.forall_mem_cons, Part.typable_record_iff (recordKind_isRecord _)]
    refine .bind (ofSource_needs (Node.declared_needs _ _)) fun d hd => ?_
    cases isComplete with
    | true =>
      refine .before hmembers fun ds hds => .pure ?_
      exact ⟨⟨hd.1.kind_eq, hd.1.name_eq, hd.1.location_eq⟩, hds⟩
    | false => exact .of_true nofun (.pure ⟨hd.1, by simp [hd.2]⟩)

theorem members_needs : ∀ (ns : List Node) (seen : List Decl),
    Needs (Loading.Checked names all)
      (∀ p ∈ Node.memberParts (seen.map Decl.key) ns, p.Typable names all) (members names seen ns)
      fun ds => ds.map Decl.key = Node.memberKeys (seen.map Decl.key) ns
  | [], seen => .of_true nofun (.pure (by simp [Node.memberKeys]))
  | n :: ns, seen => by
    rw [members, Node.memberKeys, Node.memberParts, endsUnnamed_eq]
    split
    · split
      · exact members_needs ns seen
      · split
        · simpa using members_needs ns seen.tail
        · refine (Needs.bind (typed_needs n rfl) fun d hd => ?_).congr List.forall_mem_cons.symm
          simpa [hd.key_eq] using members_needs ns (d :: seen)
    · split
      · refine (Needs.bind (record_needs n) fun d hd => ?_).congr List.forall_mem_append.symm
        simpa [hd.1.key_eq] using members_needs ns (d :: seen)
      · exact members_needs ns seen

end

end LoadM

def DeclKind.isTag (kind : DeclKind) : Bool :=
  kind.isRecord || kind == .enum

/-- What the declaration built of a node at the top says of it. -/
structure Node.Yields (all : List Node) (n : Node) (d : Decl) : Prop where
  kind_eq : n.declKind? = some d.kind
  heads : d.Heads d.kind (n.source all)
  members : d.kind.isTag → d.children.map Decl.key = n.outline

theorem Node.Yields.key_eq {d : Decl} (h : n.Yields all d) : n.key? = some d.key := by
  rw [key?, h.kind_eq, Option.map_some, Decl.key, h.heads.name_eq, n.source_name]

theorem Node.Yields.kind_name {d : Decl} {name : String} (h : n.Yields all d)
    (hkey : n.key? = some (kind, name)) : d.kind = kind ∧ d.name = name :=
  Prod.mk.inj (Option.some.inj (h.key_eq.symm.trans hkey))

/-- A declaration that is no typedef is built from the node itself. -/
theorem Node.yields_of_heads {d : Decl} (hkind : n.declKind? = some kind) (hd : d.Heads kind n)
    (hother : n.kind ≠ "TypedefDecl") (hm : kind.isTag → d.children.map Decl.key = n.outline) :
    n.Yields all d := by
  obtain rfl : d.kind = kind := hd.kind_eq
  exact ⟨hkind, by simpa [source, hother] using hd, hm⟩

namespace LoadM

theorem some_needs {x : LoadM Decl} (kind : DeclKind) (hkind : n.declKind? = some kind)
    (hother : n.kind ≠ "TypedefDecl")
    (hx : Needs (Loading.Checked names all) P x fun d =>
      d.Heads kind n ∧ (kind.isTag → d.children.map Decl.key = n.outline)) :
    Needs (Loading.Checked names all) P (some <$> x) fun r =>
      (∀ d, r = some d → n.Yields all d) ∧ (r = none → n.declKind? = none) := by
  refine .map (hx.imp fun d hd => ⟨fun d' hd' => ?_, nofun⟩)
  cases hd'
  exact Node.yields_of_heads hkind hd.1 hother hd.2

/-- What a node at the top is built of decides whether it is built. -/
theorem declaration_needs (htypedef : n.kind = "TypedefDecl" → n ∈ all) :
    Needs (Loading.Checked names all) (n.Declarable names all) (declaration names n) fun r =>
      (∀ d, r = some d → n.Yields all d) ∧ (r = none → n.declKind? = none) := by
  have hother : ∀ {kind : String}, n.kind = kind → kind ≠ "TypedefDecl" →
      (n.Declarable names all ↔ ∀ p ∈ n.parts, p.Typable names all) :=
    fun hkind hne => n.declarable_iff (hkind ▸ hne)
  unfold declaration
  split
  · next hkind =>
    have hparts : n.parts = ⟨.function, n⟩ ::
        (n.children.filter (·.kind == "ParmVarDecl")).map (Part.mk .parameter) := by
      simp [Node.parts, hkind]
    rw [hother hkind (by decide), hparts]
    refine some_needs .function (by simp [Node.declKind?, hkind]) (by simp [hkind]) ?_
    exact (function_needs n).imp fun d hd => ⟨hd, by simp [DeclKind.isTag, DeclKind.isRecord]⟩
  · next hkind =>
    have hparts : n.parts = n.recordParts := by simp [Node.parts, hkind]
    rw [hother hkind (by decide), hparts]
    refine some_needs n.recordKind (by simp [Node.declKind?, hkind]) (by simp [hkind]) ?_
    exact (record_needs n).imp fun d hd => ⟨hd.1, fun _ => by simp [hd.2, Node.outline, hkind]⟩
  · next hkind =>
    have hparts : n.parts = [⟨.enum, n⟩] := by simp [Node.parts, hkind]
    rw [hother hkind (by decide), hparts, List.forall_mem_singleton, Part.typable_enum_iff]
    refine some_needs .enum (by simp [Node.declKind?, hkind]) (by simp [hkind]) ?_
    refine (ofSource_needs n.enumeration_needs).imp fun d hd => ⟨hd.1, fun _ => ?_⟩
    simp [hd.2.keys, Node.outline, hkind, Node.constantKeys]
  · next hkind =>
    have hparts : n.parts = [⟨.variable, n⟩] := by simp [Node.parts, hkind]
    rw [hother hkind (by decide), hparts, List.forall_mem_singleton]
    refine some_needs .variable (by simp [Node.declKind?, hkind]) (by simp [hkind]) ?_
    exact (typed_needs n rfl).imp fun d hd => ⟨hd, by simp [DeclKind.isTag, DeclKind.isRecord]⟩
  · next hkind =>
    have hparts : Node.Buildable names all n.name ↔ n.Declarable names all := by
      simp [Node.Declarable, Node.asked, Node.parts, hkind]
    refine ((typedef_needs (htypedef hkind)).imp ?_).congr hparts
    rintro _ ⟨d, t, rfl, ht, hd⟩
    refine ⟨fun d' hd' => ?_, by simp⟩
    cases hd'
    have hdkind : d.kind = .typedef := hd.kind_eq
    refine ⟨by simp [Node.declKind?, hkind, hdkind], ?_, fun htag => ?_⟩
    · simpa [Node.source, hkind, ht, hdkind] using hd
    · rw [hdkind] at htag
      cases htag
  · have hnone : n.declKind? = none := by unfold Node.declKind?; split <;> simp_all
    have hparts : n.Declarable names all := by simp [Node.Declarable, Node.asked, Node.parts]
    exact .of_true hparts (.pure ⟨by simp, fun _ => hnone⟩)

end LoadM

end Bindery
