import Mathlib.Data.List.Forall2
import Bindery.Dump.Unit
import Bindery.Proofs.Dump.Built
import Bindery.Proofs.Dump.Explicit
import Bindery.Proofs.Source.Definitions

/-! What the declarations loaded from a dump are, and in which order they stand. -/

namespace Bindery

/-- Of a record, and of a declaration without a name, every repetition is kept. -/
def Decl.mayRepeat (d : Decl) : Bool :=
  d.kind.isRecord || d.isAnonymous

theorem Decl.mayRepeat_eq {d d' : Decl} (h : d.key = d'.key) : d.mayRepeat = d'.mayRepeat := by
  have hkind : d.kind = d'.kind := congrArg Prod.fst h
  have hname : d.name = d'.name := congrArg Prod.snd h
  simp [mayRepeat, isAnonymous, hkind, hname]

namespace Kept

variable {k : Kept} {ds : List Decl} {d : Decl}

/-- What is kept of the declarations `ds`. -/
structure Keeps (k : Kept) (ds : List Decl) : Prop where
  sublist : k.decls.reverse.Sublist ds
  repeated : k.decls.reverse.filter Decl.mayRepeat = ds.filter Decl.mayRepeat
  first : ∀ key d, ds.find? (·.key == key) = some d → d ∈ k.decls
  distinct : k.decls.Pairwise fun a b => a.key = b.key → a.mayRepeat
  taken : ∀ key, key ∈ k.taken ↔ ∃ d ∈ k.decls, d.key = key ∧ d.mayRepeat = false

theorem Keeps.start : Keeps {} [] :=
  ⟨.slnil, rfl, nofun, .nil, by simp⟩

theorem Keeps.mem (hk : k.Keeps ds) (hd : d ∈ k.decls) : d ∈ ds :=
  hk.sublist.subset (List.mem_reverse.mpr hd)

/-- A declaration that is kept is the first of its kind and name, or it may be repeated. -/
theorem Keeps.add_new (hk : k.Keeps ds) (htaken : d.mayRepeat = false → d.key ∉ k.taken)
    {taken : List (DeclKind × String)}
    (hnew : ∀ key, key ∈ taken ↔ key ∈ k.taken ∨ d.key = key ∧ d.mayRepeat = false) :
    Keeps ⟨d :: k.decls, taken⟩ (ds ++ [d]) := by
  refine ⟨?_, ?_, fun key e he => ?_, List.pairwise_cons.mpr ⟨fun e he hkey => ?_, hk.distinct⟩,
    fun key => ?_⟩
  · simpa using hk.sublist.append (.refl [d])
  · simp [hk.repeated]
  · rw [List.find?_append] at he
    cases hf : ds.find? (·.key == key) with
    | some first =>
      obtain rfl : first = e := by simpa [hf] using he
      exact .tail _ (hk.first key first hf)
    | none =>
      have hlast : [d].find? (·.key == key) = some e := by simpa [hf] using he
      obtain rfl := List.mem_singleton.mp (List.mem_of_find?_eq_some hlast)
      exact .head _
  · by_contra hrepeat
    have hfalse : d.mayRepeat = false := by simpa using hrepeat
    refine htaken hfalse ((hk.taken d.key).mpr ⟨e, he, hkey.symm, ?_⟩)
    rw [← Decl.mayRepeat_eq hkey, hfalse]
  · rw [hnew, hk.taken]
    simp [or_comm]

theorem Keeps.skip (hk : k.Keeps ds) (hrepeat : d.mayRepeat = false) (htaken : d.key ∈ k.taken) :
    k.Keeps (ds ++ [d]) := by
  obtain ⟨e, he, hkey, -⟩ := (hk.taken d.key).mp htaken
  refine ⟨hk.sublist.trans (List.sublist_append_left _ _), ?_, fun key f hf => ?_, hk.distinct,
    hk.taken⟩
  · simp [hk.repeated, hrepeat]
  · rw [List.find?_append] at hf
    cases hfirst : ds.find? (·.key == key) with
    | some first =>
      obtain rfl : first = f := by simpa [hfirst] using hf
      exact hk.first key first hfirst
    | none =>
      have hlast : [d].find? (·.key == key) = some f := by simpa [hfirst] using hf
      have hkey' : d.key = key := by
        have h := List.find?_some hlast
        obtain rfl := List.mem_singleton.mp (List.mem_of_find?_eq_some hlast)
        simpa using h
      have habsent := List.find?_eq_none.mp hfirst e (hk.mem he)
      exact absurd (hkey.trans hkey') (by simpa using habsent)

theorem Keeps.add (hk : k.Keeps ds) (d : Decl) : (k.add d).Keeps (ds ++ [d]) := by
  unfold Kept.add
  split
  · next hrepeat =>
    have hrepeat : d.mayRepeat = true := hrepeat
    exact hk.add_new (by simp [hrepeat]) (by simp [hrepeat])
  · next hrepeat =>
    have hrepeat : d.mayRepeat = false := by simpa [Decl.mayRepeat] using hrepeat
    split
    · next htaken => exact hk.skip hrepeat (List.contains_iff_mem.mp htaken)
    · next htaken =>
      refine hk.add_new (fun _ hmem => htaken (List.contains_iff_mem.mpr hmem)) fun key => ?_
      simp [hrepeat, or_comm, eq_comm, Decl.key]

theorem Keeps.addAll (hk : k.Keeps ds) (more : List Decl) :
    (more.foldl Kept.add k).Keeps (ds ++ more) := by
  induction more generalizing k ds with
  | nil => simpa using hk
  | cons d more ih => simpa using ih (hk.add d)

end Kept

/-- The place of a byte of the header in the file of a name. -/
def Origin.place? (o : Origin) (file : String) (offset : Nat) : Option Location :=
  (({} : SourceMap).insert file o.text).location? file offset

theorem SourceMap.location?_eq_place? {m : SourceMap} {o : Origin} {file : String} {offset : Nat}
    {l : Location} (hm : o.Holds m) (hfile : o.isMain file) (hl : m.location? file offset = some l) :
    l.file = file ∧ o.place? file offset = some l := by
  unfold location? at hl
  split at hl
  · cases hl
  · next text htext =>
    have hmain : o.text = text := by simpa [Origin.text?, hfile] using hm file text htext
    split at hl
    · next hle =>
      cases hl
      simp [Origin.place?, location?, text?_insert, hmain, hle]
    · cases hl

/-- The text of the header defines the constant at the place of its declaration. -/
def Decl.Defined (o : Origin) (d : Decl) : Prop :=
  d.kind = .define ∧ o.isMain d.location.file ∧ ∃ m : Definition, m.WrittenIn o.text.toList ∧
    m.name = d.name ∧ o.place? d.location.file m.nameOffset = some d.location

namespace HeaderUnit

variable {names : DumpNames} {all nodes : List Node} {o : Origin} {n : Node} {d : Decl}
  {file : String}

theorem mainFile?_some (h : mainFile? o n = some file) :
    o.isMain file ∧ ∃ p, n.place.written = some p ∧ p.file = file := by
  unfold mainFile? at h
  split at h
  · cases h
  · obtain ⟨hp, hmain⟩ := Option.filter_eq_some_iff.mp h
    exact ⟨hmain, Option.map_eq_some_iff.mp hp⟩

/-- The file in which the constants of the text are placed is one of the header. -/
theorem isMain_fileOf (nodes : List Node) :
    o.isMain ((nodes.findSome? (mainFile? o)).getD o.path) := by
  cases hfound : nodes.findSome? (mainFile? o) with
  | none => simp [Origin.isMain]
  | some file =>
    obtain ⟨n, -, hn⟩ := List.exists_of_findSome?_eq_some hfound
    exact (mainFile?_some hn).1

/-- Whether a node is written in the header and declares something. -/
def declares (o : Origin) (n : Node) : Bool :=
  (mainFile? o n).isSome && n.declKind?.isSome

/-- The declaration is what is built of the node while the typedefs `all` are at hand. -/
structure Builds (names : DumpNames) (all : List Node) (n : Node) (d : Decl) : Prop where
  yields : n.Yields all d
  built : ∃ s s', Loading.Settled names.origin all s ∧
    (LoadM.declaration names n).run s = .ok (some d, s')

/-- Of the nodes of the header everything is built, or nothing is loaded. -/
theorem keepDecls_needs (htypedefs : ∀ n ∈ nodes, n.kind = "TypedefDecl" → n ∈ all) (k : Kept) :
    Needs (Loading.Checked names all)
      (∀ n ∈ nodes, (mainFile? names.origin n).isSome → n.Declarable names all)
      (keepDecls names k nodes) fun k' =>
        ∃ ds, List.Forall₂ (Builds names all) (nodes.filter (declares names.origin)) ds ∧
          k' = ds.foldl Kept.add k := by
  induction nodes generalizing k with
  | nil => exact .of_true nofun (.pure ⟨[], .nil, rfl⟩)
  | cons n ns ih =>
    have hrest := ih fun m hm => htypedefs m (.tail _ hm)
    rw [keepDecls]
    cases hfile : mainFile? names.origin n with
    | none => simpa [declares, hfile] using hrest k
    | some file =>
      have hneeds : (n.Declarable names all ∧
          ∀ m ∈ ns, (mainFile? names.origin m).isSome → m.Declarable names all) ↔
          ∀ m ∈ n :: ns, (mainFile? names.origin m).isSome → m.Declarable names all := by
        simp [hfile]
      refine .congr (.after (LoadM.ofSource_gives SourceM.read_gives) fun _ _ => ?_) hneeds
      refine .bind (LoadM.declaration_needs (htypedefs n (.head _))).run
        fun r ⟨⟨hyields, hnone⟩, s, s', hs, hrun⟩ => ?_
      cases r with
      | none => simpa [declares, hnone rfl] using hrest k
      | some d =>
        have hd : Builds names all n d := ⟨hyields d rfl, s, s', hs.settled, hrun⟩
        have hdeclares : declares names.origin n := by
          simp [declares, hfile, hd.yields.kind_eq]
        refine (hrest (k.add d)).imp ?_
        rintro _ ⟨ds, hds, rfl⟩
        rw [List.filter_cons_of_pos hdeclares]
        exact ⟨d :: ds, .cons hd hds, rfl⟩

theorem defineDecl?_defined {m : SourceMap} {c : Definition} (hm : o.Holds m) (hfile : o.isMain file)
    (hc : c ∈ Definition.scan o.text) (hd : defineDecl? m file c = some d) : d.Defined o := by
  simp only [defineDecl?, Option.bind_eq_bind, Option.bind_eq_some_iff] at hd
  obtain ⟨place, hplace, start, -, hd⟩ := hd
  cases hd
  obtain ⟨hname, hplace⟩ := SourceMap.location?_eq_place? hm hfile hplace
  refine ⟨rfl, ?_, c, Definition.scan_written hc, rfl, ?_⟩
  · simpa [Decl.bare, hname] using hfile
  · simpa [Decl.bare, hname] using hplace

def typedefs (nodes : List Node) : List Node :=
  nodes.filter (·.kind == "TypedefDecl")

/-- How the declarations of a header come from the nodes at the top: `built` of those written in the
header, `defines` from its text. -/
structure Loads (names : DumpNames) (nodes : List Node) (built defines decls : List Decl) :
    Prop where
  builds : List.Forall₂ (Builds names (typedefs nodes)) (nodes.filter (declares names.origin)) built
  defined : ∀ d ∈ defines, d.Defined names.origin
  kept : ∃ k : Kept, k.Keeps (built ++ defines) ∧ decls.Perm k.decls
  sorted : decls.Pairwise fun a b => a.location.offset ≤ b.location.offset

theorem exists_of_forall₂ {α β : Type} {R : α → β → Prop} {as : List α} {bs : List β}
    (h : List.Forall₂ R as bs) {a : α} (ha : a ∈ as) : ∃ b ∈ bs, R a b := by
  induction h with
  | nil => cases ha
  | cons hr _ ih =>
    rcases List.mem_cons.mp ha with rfl | ha
    · exact ⟨_, .head _, hr⟩
    · obtain ⟨b, hb, hr⟩ := ih ha
      exact ⟨b, .tail _ hb, hr⟩

theorem Builds.find? {ns : List Node} {ds : List Decl}
    (h : List.Forall₂ (Builds names all) ns ds) {key : DeclKind × String}
    (hn : ns.find? (·.key? == some key) = some n) :
    ∃ d, ds.find? (·.key == key) = some d ∧ Builds names all n d := by
  induction h with
  | nil => cases hn
  | @cons m d _ _ hb _ ih =>
    have hkey : (m.key? == some key) = (d.key == key) := by rw [hb.yields.key_eq]; rfl
    rw [List.find?_cons] at hn ⊢
    rw [hkey] at hn
    cases hd : d.key == key with
    | true =>
      simp only [hd, Option.some.injEq] at hn
      exact ⟨d, rfl, hn ▸ hb⟩
    | false =>
      simp only [hd] at hn
      exact ih hn

namespace Loads

variable {built defines decls : List Decl}

theorem of_mem (h : Loads names nodes built defines decls) (hd : d ∈ decls) :
    d.Defined names.origin ∨
      ∃ n ∈ nodes, declares names.origin n ∧ Builds names (typedefs nodes) n d := by
  obtain ⟨k, hk, hperm⟩ := h.kept
  rcases List.mem_append.mp (hk.mem (hperm.mem_iff.mp hd)) with hd | hd
  · obtain ⟨n, hn, hb⟩ := exists_of_forall₂ (R := flip _) h.builds.flip hd
    obtain ⟨hn, hdeclares⟩ := List.mem_filter.mp hn
    exact .inr ⟨n, hn, hdeclares, hb⟩
  · exact .inl (h.defined d hd)

theorem distinct (h : Loads names nodes built defines decls) :
    decls.Pairwise fun a b => a.key = b.key → a.mayRepeat := by
  obtain ⟨k, hk, hperm⟩ := h.kept
  refine (hperm.pairwise_iff fun hab hkey => ?_).mpr hk.distinct
  exact Decl.mayRepeat_eq hkey ▸ hab hkey.symm

/-- Of the nodes of a kind and name in the header, what is built of the first is kept. -/
theorem exists_first (h : Loads names nodes built defines decls) {key : DeclKind × String}
    (hn : (nodes.filter (declares names.origin)).find? (·.key? == some key) = some n) :
    ∃ d ∈ decls, Builds names (typedefs nodes) n d := by
  obtain ⟨k, hk, hperm⟩ := h.kept
  obtain ⟨d, hd, hb⟩ := Builds.find? h.builds hn
  have hfirst : (built ++ defines).find? (·.key == key) = some d := by
    rw [List.find?_append, hd, Option.some_or]
  exact ⟨d, hperm.mem_iff.mpr (hk.first key d hfirst), hb⟩

theorem exists_key (h : Loads names nodes built defines decls) (hn : n ∈ nodes)
    (hdeclares : declares names.origin n) : ∃ d ∈ decls, n.key? = some d.key := by
  obtain ⟨kind, hkind⟩ := Option.isSome_iff_exists.mp (Bool.and_eq_true_iff.mp hdeclares).2
  have hkey : n.key? = some (kind, n.name) := by simp [Node.key?, hkind]
  obtain ⟨m, hm⟩ : ∃ m, (nodes.filter (declares names.origin)).find?
      (·.key? == some (kind, n.name)) = some m :=
    Option.isSome_iff_exists.mp <| List.find?_isSome.mpr
      ⟨n, List.mem_filter.mpr ⟨hn, hdeclares⟩, by simp [hkey]⟩
  obtain ⟨d, hd, hb⟩ := h.exists_first hm
  have hsame : m.key? = some (kind, n.name) := by simpa using List.find?_some hm
  exact ⟨d, hd, by rw [hkey, ← hsame, hb.yields.key_eq]⟩

end Loads

theorem mergeSort_offsets (ds : List Decl) :
    (ds.mergeSort fun a b => a.location.offset ≤ b.location.offset).Pairwise
      fun a b => a.location.offset ≤ b.location.offset := by
  have htrans : ∀ a b c : Decl, decide (a.location.offset ≤ b.location.offset) = true →
      decide (b.location.offset ≤ c.location.offset) = true →
      decide (a.location.offset ≤ c.location.offset) = true := by
    intro a b c hab hbc
    exact decide_eq_true (Nat.le_trans (of_decide_eq_true hab) (of_decide_eq_true hbc))
  have htotal : ∀ a b : Decl, (decide (a.location.offset ≤ b.location.offset) ||
      decide (b.location.offset ≤ a.location.offset)) = true := by
    intro a b
    simpa using Nat.le_total a.location.offset b.location.offset
  exact (List.pairwise_mergeSort htrans htotal ds).imp of_decide_eq_true

/-- The declarations that are built when a header is loaded: the parts of those that stand in the header,
and the typedefs that they lead to. -/
inductive Needed (names : DumpNames) (nodes : List Node) : Part → Prop where
  | part {n : Node} {p : Part} (hn : n ∈ nodes) (hmain : (mainFile? names.origin n).isSome)
      (hp : p ∈ n.parts) : Needed names nodes p
  | typedef {n t : Node} {name : String} (hn : n ∈ nodes) (hmain : (mainFile? names.origin n).isSome)
      (hname : name ∈ n.asked names) (ht : Node.Reached names (typedefs nodes) name t) :
      Needed names nodes ⟨.typedef, t⟩

theorem forall_needed_iff : (∀ p, Needed names nodes p → p.Loadable names) ↔
    ∀ n ∈ nodes, (mainFile? names.origin n).isSome → n.Declarable names (typedefs nodes) := by
  refine ⟨fun h n hn hmain => ⟨fun name hname t ht => ?_, fun p hp => ?_⟩, fun h p hp => ?_⟩
  · exact h _ (.typedef hn hmain hname ht)
  · exact h p (.part hn hmain hp)
  · cases hp with
    | part hn hmain hp => exact (h _ hn hmain).2 _ hp
    | typedef hn hmain hname ht => exact (h _ hn hmain).1 _ hname _ ht

/-- The declarations are built exactly if each of them can be loaded. -/
theorem build_needs :
    Needs (Loading.Checked names (typedefs nodes)) (∀ p, Needed names nodes p → p.Loadable names)
      (build names nodes) fun ds => ∃ built defines, Loads names nodes built defines ds := by
  have htypedefs : ∀ n ∈ nodes, n.kind = "TypedefDecl" → n ∈ typedefs nodes :=
    fun n hn hkind => List.mem_filter.mpr ⟨hn, by simp [hkind]⟩
  refine .before ((keepDecls_needs htypedefs {}).congr forall_needed_iff.symm) ?_
  rintro _ ⟨built, hbuilt, rfl⟩
  refine .bind (LoadM.ofSource_gives SourceM.read_gives) fun _ _ => ?_
  refine .get_bind fun s ⟨_, hs, _⟩ => .pure ?_
  let file := (nodes.findSome? (mainFile? names.origin)).getD names.origin.path
  let defines := (Definition.scan names.origin.text).filterMap (defineDecl? s.sources file)
  have hdefined : ∀ d ∈ defines, d.Defined names.origin := by
    intro d hd
    obtain ⟨c, hc, hd⟩ := List.mem_filterMap.mp hd
    exact defineDecl?_defined hs.sources (isMain_fileOf nodes) hc hd
  have hkept : (defines.foldl Kept.add (built.foldl Kept.add {})).Keeps (built ++ defines) := by
    simpa using (Kept.Keeps.start.addAll built).addAll defines
  refine ⟨built, defines, hbuilt, hdefined, ⟨_, hkept, ?_⟩, ?_⟩
  · exact (List.mergeSort_perm _ _).trans (List.reverse_perm _)
  · exact mergeSort_offsets _

/-- The node at the root of a dump, after records have taken names. -/
def root (dump : Json) : Node :=
  (Node.ofJson {} dump).1.adopt.1

def topNodes (dump : Json) : List Node :=
  (root dump).children

def dumpNames (o : Origin) (dump : Json) : DumpNames :=
  ⟨o, (Node.ofJson {} dump).1.adopt.2⟩

theorem ofDump_eq (o : Origin) (dump : Json) :
    ofDump o dump =
      if (root dump).kind = "TranslationUnitDecl" then
        match (build (dumpNames o dump) (topNodes dump)).run { fresh := typedefs (topNodes dump) } with
        | .ok (decls, s) => .ok ⟨o.name, decls, s.sources⟩
        | .error e => .error (.stopped e)
      else .error (.unexpectedRoot (root dump).kind) := by
  unfold ofDump ofNode
  by_cases h : (Node.ofJson {} dump).1.adopt.1.kind = "TranslationUnitDecl"
  · simp only [h, bne_self_eq_false, Bool.false_eq_true, if_false, root, if_true]
    rfl
  · simp [h, root]

theorem ofDump_loads {o : Origin} {dump : Json} {u : HeaderUnit} (hu : ofDump o dump = .ok u) :
    ∃ built defines, Loads (dumpNames o dump) (topNodes dump) built defines u.decls := by
  rw [ofDump_eq] at hu
  split at hu
  · split at hu
    · next decls s hrun =>
      cases hu
      exact (build_needs _ Loading.checked_start).1 _ _ hrun |>.1.2
    · cases hu
  · cases hu

/-- A text kept with the declarations is that of its file, or of the header if the file is taken for it. -/
theorem ofDump_holds {o : Origin} {dump : Json} {u : HeaderUnit} (hu : ofDump o dump = .ok u) :
    o.Holds u.source := by
  rw [ofDump_eq] at hu
  split at hu
  · split at hu
    · next decls s hrun =>
      cases hu
      obtain ⟨_, _, hs, _⟩ := (build_needs _ Loading.checked_start).1 _ _ hrun
      exact hs.sources
    · cases hu
  · cases hu

/-- A dump with the right root loads exactly if all that is built can be loaded. -/
theorem ofDump_ok_iff {o : Origin} {dump : Json} (hroot : (root dump).kind = "TranslationUnitDecl") :
    (∃ u, ofDump o dump = .ok u) ↔
      ∀ p, Needed (dumpNames o dump) (topNodes dump) p → p.Loadable (dumpNames o dump) := by
  have hbuild : Needs (Loading.Checked (dumpNames o dump) (typedefs (topNodes dump)))
      (∀ p, Needed (dumpNames o dump) (topNodes dump) p → p.Loadable (dumpNames o dump))
      (build (dumpNames o dump) (topNodes dump)) _ := build_needs
  obtain ⟨hok, herr⟩ := hbuild _ Loading.checked_start
  rw [ofDump_eq, if_pos hroot]
  split
  · next decls s hrun => exact ⟨fun _ => (hok _ _ hrun).1.1, fun _ => ⟨_, rfl⟩⟩
  · next e hrun => exact ⟨nofun, fun hall => absurd hall (herr e hrun)⟩

theorem loadable_of_readable (hread : ∀ n ∈ nodes, n.Readable names.origin) {p : Part}
    (hp : Needed names nodes p) : p.Loadable names := by
  cases hp with
  | part hn _ hp => exact (hread _ hn).parts _ hp
  | typedef _ _ _ ht => exact (hread _ (List.mem_filter.mp ht.mem).1).loadable _

/-- A dump with the right root loads if everything in it is readable. -/
theorem ofDump_ok {o : Origin} {dump : Json} (hroot : (root dump).kind = "TranslationUnitDecl")
    (hread : ∀ n ∈ topNodes dump, n.Readable o) : ∃ u, ofDump o dump = .ok u :=
  (ofDump_ok_iff hroot).mpr fun _ => loadable_of_readable hread

/-- A node as a dump gives it, with a name at a place and further fields. -/
def dumped (kind name : String) (p : Point) (more : List (String × Json)) : Json :=
  .obj ([("kind", .str kind), ("name", .str name), ("loc", p.inFull)] ++ more)

def dumpedUnit (nodes : List Json) : Json :=
  .obj [("kind", .str "TranslationUnitDecl"), ("inner", .arr nodes)]

end HeaderUnit

end Bindery
