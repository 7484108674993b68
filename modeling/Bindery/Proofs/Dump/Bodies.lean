import Mathlib
import Bindery.Proofs.Dump.Unit
import Bindery.Proofs.Merge

/-! Which declaration of a record or an enumeration a header gives out when a dump has several of
one name. -/

namespace Bindery

variable {names : DumpNames} {nodes : List Node} {built defines decls : List Decl} {o : Origin}
  {n : Node} {d e : Decl} {kind : DeclKind} {before after : List Node}

/-- Two nodes that are not both the definition of one record. -/
def Node.Mergeable (n m : Node) : Prop :=
  ∀ key, n.key? = some key → m.key? = some key → key.1.isRecord → key.2 ≠ "" →
    n.outline = [] ∨ m.outline = []

namespace HeaderUnit

theorem Builds.children_eq_nil (hb : Builds names nodes n d) (htag : d.kind.isTag) :
    d.children = [] ↔ n.outline = [] := by
  rw [← hb.yields.members htag, List.map_eq_nil_iff]

/-- Only records with a name may be repeated and are merged. -/
theorem Builds.mergeable_iff {m : Node} (hd : Builds names nodes n d) (he : Builds names nodes m e) :
    n.Mergeable m ↔ (d.mayRepeat → e.mayRepeat → d.Compatible e) := by
  have hdkey := hd.yields.key_eq
  have hekey := he.yields.key_eq
  have hbodies : d.key = e.key → d.kind.isRecord →
      (n.outline = [] ∨ m.outline = [] ↔ d.children = [] ∨ e.children = []) := by
    intro hkey hrecord
    have htag : d.kind.isTag := by simp [DeclKind.isTag, hrecord]
    have hkind : d.kind = e.kind := congrArg Prod.fst hkey
    rw [hd.children_eq_nil htag, he.children_eq_nil (hkind ▸ htag)]
  constructor
  · intro hmerge hrepeat _ hdnamed henamed hkey
    have hrecord : d.kind.isRecord := by simpa [Decl.mayRepeat, hdnamed] using hrepeat
    have hkind : d.kind = e.kind := congrArg Prod.fst hkey
    have hname : d.name ≠ "" := by simpa [Decl.isAnonymous] using hdnamed
    exact ⟨hkind ▸ hrecord, (hbodies hkey hrecord).mp
      (hmerge d.key hdkey (hkey ▸ hekey) hrecord hname)⟩
  · intro hcompatible key hn hm hrecord hname
    obtain rfl : d.key = key := Option.some.inj (hdkey.symm.trans hn)
    have hkey : d.key = e.key := Option.some.inj (hm.symm.trans hekey)
    have hsame : d.isAnonymous = e.isAnonymous := congrArg (fun k => k.2.isEmpty) hkey
    have hname : d.name ≠ "" := hname
    have hdnamed : d.isAnonymous = false := by simpa [Decl.isAnonymous] using hname
    have hrepeat : d.mayRepeat := Bool.or_eq_true_iff.mpr (.inl hrecord)
    exact (hbodies hkey hrecord).mpr
      (hcompatible hrepeat (Decl.mayRepeat_eq hkey ▸ hrepeat) hdnamed (hsame ▸ hdnamed) hkey).2

theorem pairwise_iff_of_forall₂ {α β : Type} {R : α → β → Prop} {S : α → α → Prop}
    {T : β → β → Prop} {as : List α} {bs : List β} (h : List.Forall₂ R as bs)
    (hiff : ∀ a a' b b', R a b → R a' b' → (S a a' ↔ T b b')) : as.Pairwise S ↔ bs.Pairwise T := by
  induction h with
  | nil => simp
  | @cons a b as bs hr hrest ih =>
    rw [List.pairwise_cons, List.pairwise_cons, ih]
    refine and_congr_left fun _ => ⟨fun hall b' hb' => ?_, fun hall a' ha' => ?_⟩
    · obtain ⟨a', ha', hr'⟩ := exists_of_forall₂ (R := flip R) hrest.flip hb'
      exact (hiff a a' b b' hr hr').mp (hall a' ha')
    · obtain ⟨b', hb', hr'⟩ := exists_of_forall₂ hrest ha'
      exact (hiff a a' b b' hr hr').mpr (hall b' hb')

namespace Loads

/-- The declarations make a header exactly if no record is defined twice in it. -/
theorem compatible_iff (h : Loads names nodes built defines decls) :
    decls.Pairwise Decl.Compatible ↔
      (nodes.filter (declares names.origin)).Pairwise Node.Mergeable := by
  obtain ⟨k, hk, hperm⟩ := h.kept
  have hreversed : decls.Perm k.decls.reverse := hperm.trans (List.reverse_perm _).symm
  have hrepeated : k.decls.reverse.Pairwise Decl.Compatible ↔
      k.decls.reverse.Pairwise fun a b => a.mayRepeat → b.mayRepeat → a.Compatible b := by
    refine ⟨fun hp => hp.imp fun hc _ _ => hc, fun hp => ?_⟩
    have hdistinct : k.decls.reverse.Pairwise fun a b => a.key = b.key → a.mayRepeat :=
      List.pairwise_reverse.mpr <| hk.distinct.imp fun hab hkey =>
        Decl.mayRepeat_eq hkey ▸ hab hkey.symm
    refine (hp.and hdistinct).imp fun ⟨hc, hrepeat⟩ hanamed hbnamed hkey => ?_
    have ha := hrepeat hkey
    exact hc ha (Decl.mayRepeat_eq hkey ▸ ha) hanamed hbnamed hkey
  -- a constant may be repeated only without a name
  have hdefine : ∀ a b : Decl, b ∈ defines → b.mayRepeat → a.Compatible b := by
    intro a b hb hrepeat _ hnamed _
    have hkind := (h.defined b hb).1
    simp [Decl.mayRepeat, hkind, DeclKind.isRecord, hnamed] at hrepeat
  calc decls.Pairwise Decl.Compatible
      ↔ k.decls.reverse.Pairwise Decl.Compatible :=
        hreversed.pairwise_iff fun hab => hab.symm
    _ ↔ (k.decls.reverse.filter Decl.mayRepeat).Pairwise Decl.Compatible := by
        rw [List.pairwise_filter]
        exact hrepeated
    _ ↔ ((built ++ defines).filter Decl.mayRepeat).Pairwise Decl.Compatible := by rw [hk.repeated]
    _ ↔ built.Pairwise fun a b => a.mayRepeat → b.mayRepeat → a.Compatible b := by
        rw [List.pairwise_filter, List.pairwise_append]
        refine ⟨And.left, fun hp => ⟨hp, ?_, fun a _ b hb _ hrepeat => hdefine a b hb hrepeat⟩⟩
        exact List.pairwise_of_forall_mem_list fun a _ b hb _ hrepeat => hdefine a b hb hrepeat
    _ ↔ (nodes.filter (declares names.origin)).Pairwise Node.Mergeable :=
        (pairwise_iff_of_forall₂ h.builds fun _ _ _ _ hd he => hd.mergeable_iff he).symm

theorem unique (h : Loads names nodes built defines decls) (hd : d ∈ decls) (he : e ∈ decls)
    (hkey : d.key = e.key) (hrepeat : d.mayRepeat = false) : d = e := by
  by_contra hne
  have hsymm : Std.Symm fun a b : Decl => a.key = b.key → a.mayRepeat :=
    ⟨fun a b hab hkey => Decl.mayRepeat_eq hkey ▸ hab hkey.symm⟩
  exact absurd (hrepeat.symm.trans (h.distinct.forall hd he hne hkey)) (by simp)

theorem mem_of_repeated (h : Loads names nodes built defines decls) (hd : d ∈ built)
    (hrepeat : d.mayRepeat) : d ∈ decls := by
  obtain ⟨k, hk, hperm⟩ := h.kept
  have hmem : d ∈ (built ++ defines).filter Decl.mayRepeat :=
    List.mem_filter.mpr ⟨List.mem_append_left _ hd, hrepeat⟩
  rw [← hk.repeated] at hmem
  exact hperm.mem_iff.mpr (List.mem_reverse.mp (List.mem_filter.mp hmem).1)

/-- What is built of a record is kept; of the enumerations of one name, what is built of the first. -/
theorem exists_built (h : Loads names nodes built defines decls)
    (hnodes : nodes.filter (declares names.origin) = before ++ n :: after)
    (hkind : n.declKind? = some kind) (htag : kind.isTag) :
    ∃ d, Builds names (typedefs nodes) n d ∧
      ((kind = .enum → ∀ m ∈ before, m.key? ≠ n.key?) → d ∈ decls) := by
  have hn : n ∈ nodes.filter (declares names.origin) := by simp [hnodes]
  obtain ⟨d, hd, hb⟩ := exists_of_forall₂ h.builds hn
  by_cases hrecord : kind.isRecord
  · have hdkind : d.kind = kind := Option.some.inj (hb.yields.kind_eq.symm.trans hkind)
    exact ⟨d, hb, fun _ => h.mem_of_repeated hd (by simp [Decl.mayRepeat, hdkind, hrecord])⟩
  · have henum : kind = .enum := by simpa [DeclKind.isTag, hrecord] using htag
    by_cases hfirst : ∀ m ∈ before, m.key? ≠ n.key?
    · have hkey := Node.key?_of_declKind? hkind
      have hfind : (nodes.filter (declares names.origin)).find?
          (·.key? == some (kind, n.name)) = some n := by
        rw [hnodes, List.find?_append, List.find?_eq_none.mpr, Option.none_or]
        · simp [hkey]
        · intro m hm
          simpa [hkey] using hfirst m hm
      obtain ⟨d, hd, hb⟩ := h.exists_first hfind
      exact ⟨d, hb, fun _ => hd⟩
    · exact ⟨d, hb, fun hall => absurd (hall henum) hfirst⟩

variable {header : Header} {source : SourceMap} {headerName : String}

/-- What a header gives out in the place of `d` is built of a node of the same kind and name, and it is
`d` if `d` has members. -/
theorem given_of_mem (h : Loads names nodes built defines decls)
    (hheader : Header.ofDecls headerName source decls = .ok header) (hd : d ∈ decls)
    (htag : d.kind.isTag) (hnamed : d.isAnonymous = false) :
    ∃ e ∈ decls, header.get? d.kind d.name = some e ∧ e.key = d.key ∧ (d.children = [] ∨ e = d) ∧
      ∃ m ∈ nodes.filter (declares names.origin), Builds names (typedefs nodes) m e := by
  obtain ⟨e, he, hget, hkey, hbody⟩ := Header.ofDecls_get? hheader hd hnamed
  refine ⟨e, he, hget, hkey, hbody, ?_⟩
  rcases h.of_mem he with hdefined | ⟨m, hm, hdeclares, hb⟩
  · have hdefine : d.kind = .define := (congrArg Prod.fst hkey).symm.trans hdefined.1
    simp [hdefine, DeclKind.isTag, DeclKind.isRecord] at htag
  · exact ⟨m, List.mem_filter.mpr ⟨hm, hdeclares⟩, hb⟩

/-- The enumeration that a header gives out is built of the first node of its name. -/
theorem given_enum (h : Loads names nodes built defines decls)
    (hheader : Header.ofDecls headerName source decls = .ok header) {name : String} (hname : name ≠ "")
    (hn : (nodes.filter (declares names.origin)).find? (·.key? == some (.enum, name)) = some n)
    (hget : header.get? .enum name = some e) : Builds names (typedefs nodes) n e := by
  obtain ⟨d, hd, hb⟩ := h.exists_first hn
  obtain ⟨hkind, hdname⟩ := hb.yields.kind_name (by simpa using List.find?_some hn)
  have hnamed : d.isAnonymous = false := by simpa [Decl.isAnonymous, hdname] using hname
  obtain ⟨e', he', hget', hkey, -⟩ := h.given_of_mem hheader hd (by simp [hkind, DeclKind.isTag]) hnamed
  rw [hkind, hdname, hget] at hget'
  obtain rfl := Option.some.inj hget'
  have hsame : d = e := h.unique hd he' hkey.symm <| by
    simp [Decl.mayRepeat, hkind, hnamed, DeclKind.isRecord]
  exact hsame ▸ hb

/-- Where an enumeration is declared before its definition, none of its constants is given out. -/
theorem given_enum_empty (h : Loads names nodes built defines decls)
    (hheader : Header.ofDecls headerName source decls = .ok header)
    (hnodes : nodes.filter (declares names.origin) = before ++ n :: after)
    (hnkey : n.key? = some (.enum, n.name)) (hname : n.name ≠ "")
    (hforward : ∀ m ∈ before, m.key? = n.key? → m.outline = [])
    (hbefore : ∃ m ∈ before, m.key? = n.key?) (hget : header.get? .enum n.name = some e) :
    e.children = [] := by
  obtain ⟨m, hm, hkey⟩ := hbefore
  obtain ⟨first, hfirst⟩ : ∃ first, before.find? (·.key? == some (.enum, n.name)) = some first :=
    Option.isSome_iff_exists.mp (List.find?_isSome.mpr ⟨m, hm, by simp [hkey, hnkey]⟩)
  have hfind : (nodes.filter (declares names.origin)).find? (·.key? == some (.enum, n.name)) =
      some first := by
    rw [hnodes, List.find?_append, hfirst, Option.some_or]
  have hfirstkey : first.key? = some (.enum, n.name) := by simpa using List.find?_some hfirst
  have hb := h.given_enum hheader hname hfind hget
  have hkind : e.kind = .enum := (hb.yields.kind_name hfirstkey).1
  refine (hb.children_eq_nil (by rw [hkind]; rfl)).mpr (hforward first ?_ (hfirstkey.trans hnkey.symm))
  exact List.mem_of_find?_eq_some hfirst

/-- A header that holds what is built of the only definition of a tag gives out its members. -/
theorem given_members (h : Loads names nodes built defines decls)
    (hheader : Header.ofDecls headerName source decls = .ok header) (hd : d ∈ decls)
    (hb : Builds names (typedefs nodes) n d) (htag : d.kind.isTag) (hnamed : d.isAnonymous = false)
    (hforward : ∀ m ∈ nodes.filter (declares names.origin), m.key? = n.key? →
      m = n ∨ m.outline = []) :
    ∃ e, header.get? d.kind d.name = some e ∧ e.children = d.children := by
  obtain ⟨e, -, hget, hkey, hbody, m, hm, he⟩ := h.given_of_mem hheader hd htag hnamed
  refine ⟨e, hget, ?_⟩
  rcases hbody with hempty | rfl
  · have hkind : e.kind = d.kind := congrArg Prod.fst hkey
    have hmkey : m.key? = n.key? := by rw [he.yields.key_eq, hkey, hb.yields.key_eq]
    rw [hempty, he.children_eq_nil (hkind ▸ htag)]
    rcases hforward m hm hmkey with rfl | houtline
    · exact (hb.children_eq_nil htag).mp hempty
    · exact houtline
  · rfl

end Loads

/-- A dump with several declarations of a struct, a union or an enumeration, one of them with members,
loads exactly if all that is built can be loaded. The header then gives out the members exactly if no
record is defined twice in it (a record without a name has that of its typedef) and, for an enumeration,
no declaration stands before the definition. -/
theorem definition_given_iff {dump : Json} {kind : DeclKind}
    (hnodes : (topNodes dump).filter (declares o) = before ++ n :: after)
    (hkind : n.declKind? = some kind) (htag : kind.isTag) (hname : n.name ≠ "")
    (hconstants : kind = .enum → n.outline ≠ [])
    (hforward : ∀ m ∈ before ++ after, m.key? = n.key? → m.outline = []) :
    ((root dump).kind = "TranslationUnitDecl" → ((∃ u, ofDump o dump = .ok u) ↔
      ∀ p, Needed (dumpNames o dump) (topNodes dump) p → p.Loadable (dumpNames o dump))) ∧
    ∀ u, ofDump o dump = .ok u →
      ∃ d, Builds (dumpNames o dump) (typedefs (topNodes dump)) n d ∧
        ((∃ h e, u.toHeader = .ok h ∧ h.get? kind n.name = some e ∧ e.children = d.children) ↔
          ((topNodes dump).filter (declares o)).Pairwise Node.Mergeable ∧
          (kind = .enum → ∀ m ∈ before, m.key? ≠ n.key?)) := by
  refine ⟨ofDump_ok_iff, fun u hu => ?_⟩
  obtain ⟨built, defines, h⟩ := ofDump_loads hu
  obtain ⟨d, hb, hkept⟩ := h.exists_built hnodes hkind htag
  obtain ⟨hdkind, hdname⟩ := hb.yields.kind_name (Node.key?_of_declKind? hkind)
  have hdnamed : d.isAnonymous = false := by simpa [Decl.isAnonymous, hdname] using hname
  have hdtag : d.kind.isTag := hdkind ▸ htag
  refine ⟨d, hb, ?_, ?_⟩
  · rintro ⟨header, e, hheader, hget, hchildren⟩
    refine ⟨h.compatible_iff.mp (Header.ofDecls_ok_iff.mp ⟨header, hheader⟩), ?_⟩
    rintro rfl m hm hkey
    have hempty : e.children = [] :=
      h.given_enum_empty hheader hnodes (Node.key?_of_declKind? hkind) hname
        (fun m hm => hforward m (List.mem_append_left _ hm)) ⟨m, hm, hkey⟩ hget
    exact hconstants rfl ((hb.children_eq_nil hdtag).mp (hchildren ▸ hempty))
  · rintro ⟨hmerge, hfirst⟩
    obtain ⟨header, hheader⟩ : ∃ header, u.toHeader = .ok header :=
      Header.ofDecls_ok_iff.mpr (h.compatible_iff.mpr hmerge)
    obtain ⟨e, hget, hchildren⟩ := h.given_members hheader (hkept hfirst) hb hdtag hdnamed <| by
      intro m hm hkey
      have hm : m ∈ before ++ n :: after := hnodes ▸ hm
      rcases List.mem_append.mp hm with hm | hm
      · exact .inr (hforward m (List.mem_append_left _ hm) hkey)
      · exact (List.mem_cons.mp hm).imp_right fun hm => hforward m (List.mem_append_right _ hm) hkey
    rw [hdkind, hdname] at hget
    exact ⟨header, e, hheader, hget, hchildren⟩

/-- A header with declarations of a struct before and behind its definition. -/
def listOrigin : Origin :=
  ⟨"/src/demo.h", "struct list;\nstruct list \x7b int n; \x7d;\nstruct list;\n", fun _ => none⟩

def listDump : Json :=
  let tag : List (String × Json) := [("tagUsed", .str "struct")]
  let field := dumped "FieldDecl" "n" ⟨"/src/demo.h", 2, 19, 31, 1⟩
    [("type", .obj [("qualType", .str "int")])]
  dumpedUnit [dumped "RecordDecl" "list" ⟨"/src/demo.h", 1, 8, 7, 4⟩ tag,
    dumped "RecordDecl" "list" ⟨"/src/demo.h", 2, 8, 20, 4⟩
      (tag ++ [("completeDefinition", .bool true), ("inner", .arr [field])]),
    dumped "RecordDecl" "list" ⟨"/src/demo.h", 3, 8, 44, 4⟩ tag]

def listNode (p : Point) (isComplete : Bool) (children : List Node) : Node :=
  ⟨"RecordDecl", "list", ⟨some p, some p⟩, {}, {}, none, false, isComplete, some "struct", none, none,
    children⟩

def fieldNode : Node :=
  let p : Point := ⟨"/src/demo.h", 2, 19, 31, 1⟩
  ⟨"FieldDecl", "n", ⟨some p, some p⟩, {}, {}, some "int", false, false, none, none, none, []⟩

def listDefinition : Node :=
  listNode ⟨"/src/demo.h", 2, 8, 20, 4⟩ true [fieldNode]

theorem listDump_nodes : topNodes listDump = [listNode ⟨"/src/demo.h", 1, 8, 7, 4⟩ false [],
    listDefinition, listNode ⟨"/src/demo.h", 3, 8, 44, 4⟩ false []] := by
  cbv

theorem listDump_root : (root listDump).kind = "TranslationUnitDecl" := by
  cbv

theorem fieldNode_readable : fieldNode.Readable listOrigin :=
  .of_written rfl (by decide) (by decide) nofun nofun

theorem list_given : ∃ u h e, ofDump listOrigin listDump = .ok u ∧ u.toHeader = .ok h ∧
    h.get? .struct "list" = some e ∧ e.children.map Decl.key = [(.field, "n")] := by
  have hheader : (topNodes listDump).filter (declares listOrigin) =
      [listNode ⟨"/src/demo.h", 1, 8, 7, 4⟩ false []] ++ listDefinition ::
        [listNode ⟨"/src/demo.h", 3, 8, 44, 4⟩ false []] := by
    rw [listDump_nodes]
    refine List.filter_eq_self.mpr ?_
    simp only [List.mem_cons, List.not_mem_nil, or_false, forall_eq_or_imp, forall_eq]
    decide
  have hread : ∀ n ∈ topNodes listDump, n.Readable listOrigin := by
    rw [listDump_nodes]
    simp only [List.mem_cons, List.not_mem_nil, or_false, forall_eq_or_imp, forall_eq]
    exact ⟨.of_written rfl (by decide) (by decide) nofun nofun,
      .of_written rfl (by decide) (by decide) (List.forall_mem_singleton.mpr (by decide))
        (List.forall_mem_singleton.mpr fieldNode_readable),
      .of_written rfl (by decide) (by decide) nofun nofun⟩
  have hkind : listDefinition.declKind? = some .struct := rfl
  obtain ⟨hloads, hgiven⟩ := definition_given_iff hheader hkind rfl (by decide) (by decide)
    (by simp [listNode, Node.outline])
  obtain ⟨u, hu⟩ := (hloads listDump_root).mpr fun _ => loadable_of_readable hread
  obtain ⟨d, hb, hiff⟩ := hgiven u hu
  have hmerge : ((topNodes listDump).filter (declares listOrigin)).Pairwise Node.Mergeable := by
    have hforward : ∀ p, (listNode p false []).outline = [] := fun _ => rfl
    rw [hheader]
    simp [Node.Mergeable, hforward]
  obtain ⟨h, e, hh, hget, hchildren⟩ := hiff.mpr ⟨hmerge, by decide⟩
  obtain ⟨hdkind, -⟩ := hb.yields.kind_name (Node.key?_of_declKind? hkind)
  have hmembers : d.children.map Decl.key = listDefinition.outline :=
    hb.yields.members (by rw [hdkind]; rfl)
  exact ⟨u, h, e, hu, hh, hget, by rw [hchildren, hmembers]; decide⟩

/-- A header with an enumeration that is declared before it is defined. -/
def modeOrigin : Origin :=
  ⟨"/src/demo.h", "enum mode;\nenum mode \x7b MODE_READ = 1 \x7d;\n", fun _ => none⟩

def modeDump : Json :=
  let value := Json.obj [("kind", .str "ConstantExpr"), ("value", .str "1")]
  let constant := dumped "EnumConstantDecl" "MODE_READ" ⟨"/src/demo.h", 2, 13, 23, 9⟩
    [("inner", .arr [value])]
  dumpedUnit [dumped "EnumDecl" "mode" ⟨"/src/demo.h", 1, 6, 5, 4⟩ [],
    dumped "EnumDecl" "mode" ⟨"/src/demo.h", 2, 6, 16, 4⟩ [("inner", .arr [constant])]]

def modeNode (p : Point) (children : List Node) : Node :=
  ⟨"EnumDecl", "mode", ⟨some p, some p⟩, {}, {}, none, false, false, none, none, none, children⟩

def modeConstant : Node :=
  let p : Point := ⟨"/src/demo.h", 2, 13, 23, 9⟩
  let value : Node := ⟨"ConstantExpr", "", {}, {}, {}, none, false, false, none, some "1", none, []⟩
  ⟨"EnumConstantDecl", "MODE_READ", ⟨some p, some p⟩, {}, {}, none, false, false, none, none, none,
    [value]⟩

def modeForward : Node :=
  modeNode ⟨"/src/demo.h", 1, 6, 5, 4⟩ []

def modeDefinition : Node :=
  modeNode ⟨"/src/demo.h", 2, 6, 16, 4⟩ [modeConstant]

theorem modeDump_nodes : topNodes modeDump = [modeForward, modeDefinition] := by
  cbv

theorem modeDump_root : (root modeDump).kind = "TranslationUnitDecl" := by
  cbv

theorem modeConstant_readable : modeConstant.Readable modeOrigin := by
  refine .of_written rfl (by decide) (by decide) (List.forall_mem_singleton.mpr (by decide))
    (List.forall_mem_singleton.mpr (.intro (fun _ => ⟨rfl, nofun⟩) ?_ trivial nofun))
  exact fun _ _ hnamed => absurd hnamed (by decide)

theorem modeDefinition_readable : modeDefinition.Readable modeOrigin := by
  have hplain : ∀ kind, modeConstant.Placeable modeOrigin kind := by
    cases modeConstant_readable with
    | intro placeable _ _ _ => exact placeable
  have hfit : ConstantsFit modeOrigin none [modeConstant] :=
    ⟨⟨nofun, rfl⟩, fun value _ => ⟨hplain .enumConstant, trivial⟩⟩
  refine .intro (fun kind => ⟨?_, List.forall_mem_singleton.mpr fun h => absurd h (by decide)⟩) ?_ hfit
    (List.forall_mem_singleton.mpr modeConstant_readable)
  · rw [Node.location?_of_written rfl (.inr (by decide))]
    rfl
  · exact Node.legible_of_written rfl (Location.carries_iff.mpr (by decide))

/-- The constants of an enumeration are lost if it is declared before its definition. -/
theorem declared_enum_given_empty : ∃ u h e, ofDump modeOrigin modeDump = .ok u ∧
    u.toHeader = .ok h ∧ h.get? .enum "mode" = some e ∧ e.children = [] ∧
    (topNodes modeDump).filter (declares modeOrigin) = [modeForward, modeDefinition] ∧
    modeDefinition.outline = [(.enumConstant, "MODE_READ")] := by
  have hheader : (topNodes modeDump).filter (declares modeOrigin) = [modeForward, modeDefinition] := by
    rw [modeDump_nodes]
    refine List.filter_eq_self.mpr ?_
    simp only [List.mem_cons, List.not_mem_nil, or_false, forall_eq_or_imp, forall_eq]
    decide
  have hread : ∀ n ∈ topNodes modeDump, n.Readable modeOrigin := by
    rw [modeDump_nodes]
    simp only [List.mem_cons, List.not_mem_nil, or_false, forall_eq_or_imp, forall_eq]
    exact ⟨.of_written rfl (by decide) (by decide) nofun nofun, modeDefinition_readable⟩
  obtain ⟨u, hu⟩ := ofDump_ok modeDump_root hread
  obtain ⟨built, defines, h⟩ := ofDump_loads hu
  have hmerge : ((topNodes modeDump).filter (declares modeOrigin)).Pairwise Node.Mergeable := by
    have hempty : modeForward.outline = [] := rfl
    rw [hheader]
    simp [Node.Mergeable, hempty]
  obtain ⟨header, hh⟩ : ∃ header, u.toHeader = .ok header :=
    Header.ofDecls_ok_iff.mpr (h.compatible_iff.mpr hmerge)
  have hforward : modeForward ∈ (topNodes modeDump).filter (declares modeOrigin) := by simp [hheader]
  obtain ⟨hmem, hdeclares⟩ := List.mem_filter.mp hforward
  obtain ⟨d, hd, hkey⟩ := h.exists_key hmem hdeclares
  obtain ⟨hkind, hname⟩ : d.kind = .enum ∧ d.name = "mode" :=
    Prod.mk.inj (Option.some.inj hkey.symm)
  obtain ⟨e, -, hget, -⟩ := h.given_of_mem hh hd (by rw [hkind]; rfl)
    (by rw [Decl.isAnonymous, hname]; rfl)
  rw [hkind, hname] at hget
  have hsplit : (topNodes modeDump).filter (declares modeOrigin) = [modeForward] ++ modeDefinition :: [] :=
    hheader
  have hempty : e.children = [] := h.given_enum_empty hh hsplit rfl (by decide)
    (fun m hm _ => by rw [List.mem_singleton.mp hm]; rfl) ⟨modeForward, .head _, rfl⟩ hget
  exact ⟨u, header, e, hu, hh, hget, hempty, hheader, by decide⟩

end HeaderUnit

end Bindery
