import Mathlib
import Bindery.Proofs.Dump.Loaded

/-! Which texts are at hand when comments on types are looked for: those of files that were read
before. -/

namespace Bindery

variable {o : Origin} {m : SourceMap} {d e : Decl} {l start : Location}

theorem SourceMap.textBetween?_eq (hm : o.Holds m) {text : String} {cs : List Char}
    (hfile : start.file = l.file) (htext : o.text? start.file = some text)
    (hslice : slice? start.offset l.offset text.toList = some cs) :
    m.textBetween? start l = if m.contains start.file then some (String.ofList cs) else none := by
  have hsame : (start.file == l.file) = true := beq_iff_eq.mpr hfile
  rw [textBetween?, hsame, if_pos rfl]
  cases hread : m.text? start.file with
  | none =>
    have hmissing : ¬ m.contains start.file := by simp [contains_iff, hread]
    rw [if_neg hmissing]
    rfl
  | some found =>
    obtain rfl : found = text := Option.some.inj ((hm _ _ hread).symm.trans htext)
    have hcontains : m.contains start.file := contains_iff.mpr (by simp [hread])
    rw [if_pos hcontains, Option.bind_some, hslice, Option.map_some]

namespace HeaderUnit

/-- Why the text before the name of `e` is read when the declaration `d` of a header is loaded: a node
of the header stands in the same file, parameters were looked for behind the name, or `e` is one of those
found. -/
inductive ReadFor (o : Origin) (nodes : List Node) (d e : Decl) : Prop where
  | header {n : Node} (hn : n ∈ nodes) (hfile : mainFile? o n = some e.location.file)
  | sought (he : e.SeeksParameters)
  | found {f : Decl} (hf : d.Site f) (hkind : f.kind ≠ .function) (he : e ∈ f.children)
    (hparameter : e.kind = .parameter)

/-- Everything that is loaded from a dump is placed, and the files of the header are read. -/
theorem ofDump_placed {dump : Json} {u : HeaderUnit} (hin : ∀ n ∈ topNodes dump, n.InText o)
    (hu : ofDump o dump = .ok u) :
    (∀ d ∈ u.decls, d.Throughout (Decl.Placed o u.source)) ∧
      ∀ n ∈ topNodes dump, ∀ file, mainFile? o n = some file → u.source.contains file := by
  have hstart : Loading.Placed (dumpNames o dump).origin { fresh := typedefs (topNodes dump) } :=
    ⟨o.holds_empty, fun n hn => hin n (List.mem_filter.mp hn).1, nofun⟩
  rw [ofDump_eq] at hu
  split at hu
  · split at hu
    · next decls s hrun =>
      cases hu
      exact build_leaves hstart hin _ _ hrun
    · cases hu
  · cases hu

/-- Let the places in a dump stand between characters of texts that can be read. At every declaration at
which a comment is looked for, the text starts in the file of the name and not behind it. That text can
be looked at exactly if the file was read while the header was loaded, and only then is a comment in it
found. The file was read if it is one of the header, if parameters were looked for behind the name, and
if the declaration is a parameter that was found so. -/
theorem text_before_site_eq {dump : Json} {u : HeaderUnit} (hin : ∀ n ∈ topNodes dump, n.InText o)
    (hu : ofDump o dump = .ok u) (hd : d ∈ u.decls) (he : d.Site e)
    (hstart : e.typeStart = some start) :
    start.file = e.location.file ∧ start.offset ≤ e.location.offset ∧
    (∃ text cs, o.text? start.file = some text ∧
      slice? start.offset e.location.offset text.toList = some cs ∧
      u.source.textBetween? start e.location =
        (if u.source.contains start.file then some (String.ofList cs) else none) ∧
      e.annotationToken u.source = if u.source.contains start.file then
        (annotationIn cs e.location).map (·.map String.ofList) else .ok none) ∧
    (ReadFor o (topNodes dump) d e → u.source.contains start.file) := by
  obtain ⟨hplaced, hfiles⟩ := ofDump_placed hin hu
  have hsite : e.Placed o u.source := hplaced d hd e he
  obtain ⟨hfile, hle, text, cs, htext, hslice⟩ := hsite.follows start hstart
  have hbetween := SourceMap.textBetween?_eq (ofDump_holds hu) hfile htext hslice
  refine ⟨hfile, hle, ⟨text, cs, htext, hslice, hbetween, ?_⟩, fun hread => ?_⟩
  · rw [Decl.annotationToken, hstart, Option.bind_some, hbetween]
    by_cases hread : u.source.contains start.file <;> simp [hread]
  · rw [hfile]
    cases hread with
    | header hn hmain => exact hfiles _ hn _ hmain
    | sought hseeks => exact hsite.sought hseeks (by simp [← hfile, htext])
    | found hf hkind hchild hparameter =>
      exact (hplaced d hd _ hf).found hkind e hchild hparameter (by simp [hstart])

/-- The text of a file that a header includes. The comment in it says what the list holds. -/
def intsText : String :=
  "typedef struct list /*<int>*/ *IntList;\n"

/-- A header with a record that has such a list for a member. -/
def boxOrigin : Origin :=
  ⟨"a.h", "#include \"ints.h\"\nstruct box \x7b IntList items; \x7d;\n",
    fun file => if file = "ints.h" then some intsText else none⟩

def intListStart : Point := ⟨"ints.h", 1, 1, 0, 7⟩

def intListPoint : Point := ⟨"ints.h", 1, 32, 31, 7⟩

def boxStart : Point := ⟨"a.h", 2, 1, 18, 6⟩

def boxPoint : Point := ⟨"a.h", 2, 8, 25, 3⟩

def itemsStart : Point := ⟨"a.h", 2, 14, 31, 7⟩

def itemsPoint : Point := ⟨"a.h", 2, 22, 39, 5⟩

/-- A node as a dump gives it, whose text starts at a place and ends with its name. -/
def dumpedFrom (kind name : String) (start p : Point) (more : List (String × Json)) : Json :=
  let place (p : Point) : Json := .obj [("offset", .int p.offset), ("file", .str p.file),
    ("line", .int p.line), ("col", .int p.column), ("tokLen", .int p.length)]
  dumped kind name p (("range", .obj [("begin", place start), ("end", place p)]) :: more)

def boxDump : Json :=
  let typed (text : String) : List (String × Json) := [("type", .obj [("qualType", .str text)])]
  let items := dumpedFrom "FieldDecl" "items" itemsStart itemsPoint (typed "IntList")
  dumpedUnit [dumpedFrom "TypedefDecl" "IntList" intListStart intListPoint (typed "struct list *"),
    dumpedFrom "RecordDecl" "box" boxStart boxPoint
      [("tagUsed", .str "struct"), ("completeDefinition", .bool true), ("inner", .arr [items])]]

/-- What is read of such a node. -/
def nodeFrom (kind name : String) (start p : Point) (type : Option String) : Node :=
  ⟨kind, name, ⟨some p, some p⟩, ⟨some start, some start⟩, ⟨some p, some p⟩, type, false, false, none,
    none, none, []⟩

def intListNode : Node :=
  nodeFrom "TypedefDecl" "IntList" intListStart intListPoint (some "struct list *")

def itemsNode : Node :=
  nodeFrom "FieldDecl" "items" itemsStart itemsPoint (some "IntList")

def boxNode : Node :=
  { nodeFrom "RecordDecl" "box" boxStart boxPoint none with
    isComplete := true, tag := some "struct", children := [itemsNode] }

/-- What is built of such a node. -/
def declFrom (kind : DeclKind) (name : String) (start p : Point) (type : Option RawType)
    (children : List Decl) : Decl :=
  { Decl.bare kind name p.location with typeStart := some start.location, type, children }

def intListType : RawType :=
  { RawType.pointer (.struct "list") with spelling := "struct list *" }

def intListName : String :=
  "IntList"

def intListDecl : Decl :=
  declFrom .typedef intListName intListStart intListPoint (some intListType) []

def itemsType : RawType :=
  .typedef intListName intListType (some intListDecl)

def itemsDecl : Decl :=
  declFrom .field "items" itemsStart itemsPoint (some itemsType) []

def boxDecl : Decl :=
  declFrom .struct "box" boxStart boxPoint none [itemsDecl]

/-- The texts that are read: the included file is not among them. -/
def boxSources : SourceMap :=
  ⟨[("a.h", boxOrigin.text)]⟩

section Loading

variable (a : Node.Adopted) (m : SourceMap)

theorem read_items (anonymous : String → Option String) : QualType.read anonymous "IntList" =
    .ok (⟨.unexposed "IntList", "IntList", false⟩, ["IntList"]) := by
  have htokens : QualType.tokenize "IntList".toList = .ok [.word "IntList"] := by cbv
  have hpointers : ∀ t, QualType.pointers t [] = (t, ⟨[], Nat.zero_le _⟩) := by
    simp [QualType.pointers]
  exact QualType.read_pointers htokens rfl rfl (hpointers _)

theorem read_list (anonymous : String → Option String) :
    QualType.read anonymous "struct list *" = .ok (intListType, []) := by
  have htokens : QualType.tokenize "struct list *".toList =
      .ok [.word "struct", .word "list", .star] := by cbv
  have hpointers : ∀ t, QualType.pointers t [.star] = (.pointer t, ⟨[], Nat.zero_le _⟩) := by
    simp [QualType.pointers, QualType.pointerQualifiers]
  exact QualType.read_pointers htokens rfl rfl (hpointers _)

theorem settle_list : Loading.settle ⟨boxOrigin, a⟩ ⟨[intListNode], [], m⟩ [.enter "IntList"] =
    .ok ⟨[], [("IntList", intListDecl)], m⟩ := by
  have hasked : intListNode.typeNames ⟨boxOrigin, a⟩ = [] := by
    simp only [Node.typeNames, intListNode, nodeFrom, read_list]
  have htype : ∀ typedefs, intListNode.type ⟨boxOrigin, a⟩ typedefs = intListType := by
    intro typedefs
    simp only [Node.type, intListNode, nodeFrom, QualType.parse, QualType.tryParse, read_list]
    rfl
  have hbuilt : (intListNode.typed boxOrigin .typedef intListType).run m = .ok (intListDecl, m) := rfl
  have hfresh : [intListNode].find? (·.name == "IntList") = some intListNode := rfl
  rw [Loading.settle]
  split
  · next hnone => cases hfresh.symm.trans hnone
  · next n hn =>
    obtain rfl : intListNode = n := Option.some.inj (hfresh.symm.trans hn)
    rw [hasked, List.map_nil, List.nil_append, Loading.settle, htype, hbuilt]
    exact Loading.settle.eq_1 _ _

theorem typeOf_items : (LoadM.typeOf ⟨boxOrigin, a⟩ itemsNode).run ⟨[intListNode], [], m⟩ =
    .ok (itemsType, ⟨[], [("IntList", intListDecl)], m⟩) := by
  have hasked : itemsNode.typeNames ⟨boxOrigin, a⟩ = ["IntList"] := by
    simp only [Node.typeNames, itemsNode, nodeFrom, read_items]
  have htype : itemsNode.type ⟨boxOrigin, a⟩ (Loading.lookup ⟨[], [("IntList", intListDecl)], m⟩) =
      itemsType := by
    simp only [Node.type, itemsNode, nodeFrom, QualType.parse, QualType.tryParse, read_items]
    rfl
  have henter : (LoadM.enter ⟨boxOrigin, a⟩ ["IntList"]).run ⟨[intListNode], [], m⟩ =
      .ok ((), ⟨[], [("IntList", intListDecl)], m⟩) := by
    simp [LoadM.enter, settle_list]
  rw [LoadM.typeOf, hasked, StateT.run_bind, henter]
  exact congrArg (fun t => Except.ok (t, _)) htype

theorem record_box : (LoadM.record ⟨boxOrigin, a⟩ boxNode).run ⟨[intListNode], [], m⟩ =
    .ok (boxDecl, ⟨[], [("IntList", intListDecl)], m⟩) := by
  have hitems : (LoadM.typed ⟨boxOrigin, a⟩ .field itemsNode).run ⟨[intListNode], [], m⟩ =
      .ok (itemsDecl, ⟨[], [("IntList", intListDecl)], m⟩) := by
    rw [LoadM.typed, StateT.run_bind, typeOf_items]
    rfl
  have hmembers : LoadM.members ⟨boxOrigin, a⟩ [] [itemsNode] = (do
      LoadM.members ⟨boxOrigin, a⟩ [← LoadM.typed ⟨boxOrigin, a⟩ .field itemsNode] []) := rfl
  have hrecord : (LoadM.record ⟨boxOrigin, a⟩ boxNode).run ⟨[intListNode], [], m⟩ =
      ((LoadM.members ⟨boxOrigin, a⟩ [] [itemsNode]).run ⟨[intListNode], [], m⟩).bind
        fun r => .ok ({ boxDecl with children := r.1 }, r.2) := rfl
  rw [hrecord, hmembers, StateT.run_bind, hitems]
  rfl

theorem build_box : (build ⟨boxOrigin, a⟩ [intListNode, boxNode]).run { fresh := [intListNode] } =
    .ok ([boxDecl], ⟨[], [("IntList", intListDecl)], boxSources⟩) := by
  have hother : mainFile? boxOrigin intListNode = none := by cbv
  have hmain : mainFile? boxOrigin boxNode = some "a.h" := by decide
  have hkept : (keepDecls ⟨boxOrigin, a⟩ {} [intListNode, boxNode]).run { fresh := [intListNode] } =
      .ok (({} : Kept).add boxDecl, ⟨[], [("IntList", intListDecl)], boxSources⟩) := by
    have hread : (LoadM.ofSource (SourceM.read boxOrigin "a.h")).run { fresh := [intListNode] } =
        .ok (some boxOrigin.text, ⟨[intListNode], [], boxSources⟩) := rfl
    have hrecord : LoadM.declaration ⟨boxOrigin, a⟩ boxNode =
        some <$> LoadM.record ⟨boxOrigin, a⟩ boxNode := rfl
    simp only [keepDecls, hother, hmain, StateT.run_bind, hread, hrecord, StateT.run_map]
    simp only [bind, Except.bind, record_box]
    rfl
  have hfile : ([intListNode, boxNode].findSome? (mainFile? boxOrigin)).getD boxOrigin.path =
      "a.h" := by
    simp [hother, hmain]
  have hscan : Definition.scan boxOrigin.text = [] := by decide
  rw [build, StateT.run_bind, hkept]
  dsimp only
  rw [hfile, hscan]
  exact congrArg (fun ds => Except.ok (ds, _)) (List.mergeSort_singleton boxDecl)

end Loading

theorem boxDump_nodes : topNodes boxDump = [intListNode, boxNode] := by
  cbv

theorem ofDump_box : ofDump boxOrigin boxDump = .ok ⟨boxOrigin.name, [boxDecl], boxSources⟩ := by
  have hroot : (root boxDump).kind = "TranslationUnitDecl" := by cbv
  have hbuild : (build (dumpNames boxOrigin boxDump) (topNodes boxDump)).run
      { fresh := typedefs (topNodes boxDump) } =
        .ok ([boxDecl], ⟨[], [("IntList", intListDecl)], boxSources⟩) := by
    rw [boxDump_nodes]
    exact build_box _
  rw [ofDump_eq, if_pos hroot, hbuild]

theorem nodeFrom_inText {kind name : String} {start p : Point} {type tag : Option String}
    {isComplete : Bool} {children : List Node}
    (hpoints : ([start.location, p.location] ++ p.after?.toList).all fun l =>
      (boxOrigin.text? l.file).any fun text => (dropBytes? l.offset text.toList).isSome)
    (hchildren : ∀ c ∈ children, c.InText boxOrigin) :
    Node.InText boxOrigin { nodeFrom kind name start p type with isComplete, tag, children } := by
  have hin : ∀ l ∈ [start.location, p.location] ++ p.after?.toList, l.InText boxOrigin :=
    fun l hl => Location.inText_iff.mpr (List.all_eq_true.mp hpoints l hl)
  refine .intro (fun q hq => ?_) (fun q hq => ?_) (fun q l hq hl => ?_) hchildren
  · cases hq
    exact hin _ (by simp)
  · cases hq
    exact hin _ (by simp)
  · cases hq
    exact hin l (by simp [hl])

theorem boxDump_inText : ∀ n ∈ topNodes boxDump, n.InText boxOrigin := by
  have hlist : intListNode.InText boxOrigin := nodeFrom_inText (by cbv) nofun
  have hitems : itemsNode.InText boxOrigin := nodeFrom_inText (by decide) nofun
  have hbox : boxNode.InText boxOrigin :=
    nodeFrom_inText (by decide) (List.forall_mem_singleton.mpr hitems)
  rw [boxDump_nodes]
  exact List.forall_mem_cons.mpr ⟨hlist, List.forall_mem_singleton.mpr hbox⟩

/-- The text before the name of a member of the header's own record can be looked at. -/
theorem member_text_read : ∃ u, ofDump boxOrigin boxDump = .ok u ∧ boxDecl ∈ u.decls ∧
    boxDecl.Site itemsDecl ∧ itemsDecl.typeStart = some itemsStart.location ∧
    u.source.textBetween? itemsStart.location itemsDecl.location = some "IntList " := by
  have hbox : boxNode ∈ topNodes boxDump := by simp [boxDump_nodes]
  have hmain : mainFile? boxOrigin boxNode = some "a.h" := by decide
  have hsite : boxDecl.Site itemsDecl := .member (.head _) (.self _)
  obtain ⟨-, -, ⟨text, cs, htext, hslice, hbetween, -⟩, hread⟩ :=
    text_before_site_eq boxDump_inText ofDump_box (.head _) hsite rfl
  have hcs : slice? 31 39 boxOrigin.text.toList = some "IntList ".toList := by decide
  obtain rfl : boxOrigin.text = text := Option.some.inj htext
  obtain rfl : "IntList ".toList = cs := Option.some.inj (hcs.symm.trans hslice)
  rw [if_pos (hread (.header hbox hmain))] at hbetween
  exact ⟨_, ofDump_box, .head _, hsite, rfl, hbetween⟩

/-- The comment on the typedef of an included file is in the text before its name, and is not found. -/
theorem included_comment_unread : ∃ u, (∀ n ∈ topNodes boxDump, n.InText boxOrigin) ∧
    ofDump boxOrigin boxDump = .ok u ∧ boxDecl ∈ u.decls ∧ boxDecl.Site intListDecl ∧
    intListDecl.typeStart = some intListStart.location ∧
    (boxOrigin.text? "ints.h").bind (fun text => slice? 0 31 text.toList) =
      some "typedef struct list /*<int>*/ *".toList ∧
    annotationIn "typedef struct list /*<int>*/ *".toList intListDecl.location =
      .ok (some "int".toList) ∧
    u.source.textBetween? intListStart.location intListDecl.location = none ∧
    intListDecl.annotationToken u.source = .ok none := by
  have hsite : boxDecl.Site intListDecl :=
    .member (.head _) (.typed rfl (.declared rfl (.self _)))
  exact ⟨_, boxDump_inText, ofDump_box, .head _, hsite, rfl, by cbv, by rfl,
    by decide, rfl⟩

end HeaderUnit

end Bindery
