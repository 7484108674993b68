import Mathlib
import Bindery.Proofs.Dump.Unit

/-! Where the declarations of a header are located. A typedef stands where the dump declares its
name first. -/

namespace Bindery

variable {o : Origin} {n : Node} {d : Decl} {kind : DeclKind}

/-- The node is written in the header, at the place `l`. -/
def Node.StandsAt (o : Origin) (n : Node) (l : Location) : Prop :=
  n.isImplicit = false ∧ o.isMain l.file ∧ n.place.written.map Point.location = some l

/-- The declaration is located in the header, where a node declares its kind and name or where the
text defines it. -/
def Decl.Located (o : Origin) (nodes : List Node) (d : Decl) : Prop :=
  o.isMain d.location.file ∧
    (d.Defined o ∨
      ∃ n ∈ nodes, n.declKind? = some d.kind ∧ n.name = d.name ∧ n.StandsAt o d.location)

theorem Node.declKind?_ne_parameter (h : n.declKind? = some kind) : kind ≠ .parameter := by
  rintro rfl
  unfold declKind? recordKind at h
  split at h <;> simp_all
  split at h <;> cases h

theorem Node.declKind?_typedef : n.declKind? = some .typedef ↔ n.kind = "TypedefDecl" := by
  refine ⟨fun h => ?_, fun h => by simp [declKind?, h]⟩
  unfold declKind? recordKind at h
  split at h <;> simp_all
  split at h <;> cases h

namespace HeaderUnit

theorem mainFile?_isSome_iff :
    (mainFile? o n).isSome ↔ ∃ l, n.StandsAt o l := by
  unfold mainFile? Node.StandsAt
  cases n.isImplicit <;> cases n.place.written <;> simp [Option.filter, Point.location]

/-- A node of the header that declares something stands where its declaration would be. -/
theorem standsAt_location {l : Location} (hmain : (mainFile? o n).isSome) (hk : kind ≠ .parameter)
    (hl : n.location? kind = some l) : n.StandsAt o l := by
  obtain ⟨l', himplicit, hfile, hwritten⟩ := mainFile?_isSome_iff.mp hmain
  obtain ⟨p, hp, rfl⟩ := Option.map_eq_some_iff.mp hwritten
  obtain rfl : p.location = l := Option.some.inj ((n.location?_of_written hp (.inl hk)).symm.trans hl)
  exact ⟨himplicit, hfile, hwritten⟩

namespace Loads

variable {names : DumpNames} {nodes : List Node} {built defines decls : List Decl}

theorem located_of_other (h : Loads names nodes built defines decls) (hd : d ∈ decls)
    (hother : d.kind ≠ .typedef) : d.Located names.origin nodes := by
  rcases h.of_mem hd with hdefined | ⟨n, hn, hdeclares, hb⟩
  · exact ⟨hdefined.2.1, .inl hdefined⟩
  · have hkind := hb.yields.kind_eq
    have hself : n.source (typedefs nodes) = n := by
      have : n.kind ≠ "TypedefDecl" := fun hk => hother <| by
        simpa [Node.declKind?_typedef.mpr hk, eq_comm] using hkind
      simp [Node.source, this]
    have hheads := hb.yields.heads
    rw [hself] at hheads
    have hstands : n.StandsAt names.origin d.location :=
      standsAt_location (Bool.and_eq_true_iff.mp hdeclares).1 (Node.declKind?_ne_parameter hkind)
        hheads.location_eq
    exact ⟨hstands.2.1, .inr ⟨n, hn, hkind, hheads.name_eq.symm, hstands⟩⟩

/-- A typedef is located where the first node of its name says. -/
theorem typedef_location (h : Loads names nodes built defines decls) (hd : d ∈ decls)
    (hkind : d.kind = .typedef) : ∃ n ∈ nodes, n.kind = "TypedefDecl" ∧ n.name = d.name ∧
      (mainFile? names.origin n).isSome ∧
      ∃ t, Node.first? d.name (typedefs nodes) = some t ∧ t.location? .typedef = some d.location := by
  rcases h.of_mem hd with hdefined | ⟨n, hn, hdeclares, hb⟩
  · exact absurd (hkind.symm.trans hdefined.1) (by simp)
  · have hnode : n.kind = "TypedefDecl" :=
      Node.declKind?_typedef.mp (hkind ▸ hb.yields.kind_eq)
    have hname : d.name = n.name := hb.yields.heads.name_eq.trans (n.source_name _)
    obtain ⟨t, ht⟩ : ∃ t, Node.first? n.name (typedefs nodes) = some t :=
      Option.isSome_iff_exists.mp <| List.find?_isSome.mpr
        ⟨n, List.mem_filter.mpr ⟨hn, by simp [hnode]⟩, beq_self_eq_true _⟩
    refine ⟨n, hn, hnode, hname.symm, (Bool.and_eq_true_iff.mp hdeclares).1, t, hname ▸ ht, ?_⟩
    simpa [Node.source, hnode, ht, hkind] using hb.yields.heads.location_eq

end Loads

/-- Loading a dump puts the declarations in the order of their offsets and locates all but the
typedefs where the header declares them. The typedefs are located there too exactly if, for each name
of which the header has a typedef, the first typedef of the whole dump stands at one of the header. -/
theorem decls_located_iff {dump : Json} {u : HeaderUnit} (hu : ofDump o dump = .ok u) :
    u.decls.Pairwise (fun a b => a.location.offset ≤ b.location.offset) ∧
    (∀ d ∈ u.decls, d.kind ≠ .typedef → d.Located o (topNodes dump)) ∧
    ((∀ d ∈ u.decls, d.Located o (topNodes dump)) ↔
      ∀ n ∈ topNodes dump, n.kind = "TypedefDecl" → (∃ l, n.StandsAt o l) →
        ∀ t, Node.first? n.name (typedefs (topNodes dump)) = some t →
          ∃ m ∈ topNodes dump, m.kind = "TypedefDecl" ∧ m.name = n.name ∧
            ∃ l, t.location? .typedef = some l ∧ m.StandsAt o l) := by
  obtain ⟨built, defines, h⟩ := ofDump_loads hu
  refine ⟨h.sorted, fun d hd hother => h.located_of_other hd hother, fun hall n hn hkind hmain t ht => ?_,
    fun hall d hd => ?_⟩
  · have hdeclares : declares o n := by
      simp [declares, mainFile?_isSome_iff.mpr hmain, Node.declKind?_typedef.mpr hkind]
    obtain ⟨d, hd, hkey⟩ := h.exists_key hn hdeclares
    obtain ⟨hdkind, hdname⟩ : d.kind = .typedef ∧ d.name = n.name := by
      simpa [Node.key?, Node.declKind?_typedef.mpr hkind, Decl.key, eq_comm] using hkey
    obtain ⟨_, _, _, _, _, t', ht', hlocation⟩ := h.typedef_location hd hdkind
    obtain rfl : t' = t := Option.some.inj (ht'.symm.trans (hdname ▸ ht))
    rcases (hall d hd).2 with hdefined | ⟨m, hm, hmkind, hmname, hstands⟩
    · exact absurd (hdkind.symm.trans hdefined.1) (by simp)
    · exact ⟨m, hm, Node.declKind?_typedef.mp (hdkind ▸ hmkind), hmname.trans hdname,
        d.location, hlocation, hstands⟩
  · by_cases hkind : d.kind = .typedef
    · obtain ⟨n, hn, hnkind, hname, hmain, t, ht, hlocation⟩ := h.typedef_location hd hkind
      obtain ⟨m, hm, hmkind, hmname, l, hl, hstands⟩ :=
        hall n hn hnkind (mainFile?_isSome_iff.mp hmain) t (hname ▸ ht)
      obtain rfl : l = d.location := Option.some.inj (hl.symm.trans hlocation)
      exact ⟨hstands.2.1, .inr ⟨m, hm, by rw [Node.declKind?_typedef.mpr hmkind, hkind],
        hmname.trans hname, hstands⟩⟩
    · exact h.located_of_other hd hkind

/-- A header with a typedef `Word` and a function. -/
def wordOrigin : Origin :=
  ⟨"/src/demo.h", "typedef int Word;\nint f(void);\n", fun _ => none⟩

def wordNode (p : Point) : Node :=
  ⟨"TypedefDecl", "Word", ⟨some p, some p⟩, {}, {}, some "int", false, false, none, none, none, []⟩

def functionNode : Node :=
  let p : Point := ⟨"/src/demo.h", 2, 5, 22, 1⟩
  ⟨"FunctionDecl", "f", ⟨some p, some p⟩, {}, {}, some "int (void)", false, false, none, none, none, []⟩

/-- The dump of the header, when the typedef is written at the places `ps`. -/
def wordDump (ps : List Point) : Json :=
  let typed (text : String) : List (String × Json) := [("type", .obj [("qualType", .str text)])]
  dumpedUnit (ps.map (fun p => dumped "TypedefDecl" "Word" p (typed "int")) ++
    [dumped "FunctionDecl" "f" ⟨"/src/demo.h", 2, 5, 22, 1⟩ (typed "int (void)")])

def wordHere : Point :=
  ⟨"/src/demo.h", 1, 13, 12, 4⟩

def wordElsewhere : Point :=
  ⟨"/src/other.h", 5, 13, 45, 4⟩

theorem wordNode_readable {p : Point} (h : (p.location.behind? "Word").any fun stop =>
    (wordOrigin.text? p.file).all fun text => (dropBytes? stop text.toList).isSome) :
    (wordNode p).Readable wordOrigin :=
  .of_written rfl rfl h nofun nofun

theorem functionNode_readable : functionNode.Readable wordOrigin :=
  .of_written rfl (by decide) (by decide) nofun nofun

theorem word_located : ∃ u, ofDump wordOrigin (wordDump [wordHere]) = .ok u ∧
    u.decls.Pairwise (fun a b => a.location.offset ≤ b.location.offset) ∧
    ∀ d ∈ u.decls, d.Located wordOrigin (topNodes (wordDump [wordHere])) := by
  have hnodes : topNodes (wordDump [wordHere]) = [wordNode wordHere, functionNode] := by cbv
  have hroot : (root (wordDump [wordHere])).kind = "TranslationUnitDecl" := by cbv
  have hstands : (wordNode wordHere).StandsAt wordOrigin wordHere.location :=
    ⟨rfl, by decide, rfl⟩
  obtain ⟨u, hu⟩ := ofDump_ok (o := wordOrigin) hroot <| by
    simp only [hnodes, List.mem_cons, List.not_mem_nil, or_false, forall_eq_or_imp, forall_eq]
    exact ⟨wordNode_readable (by decide), functionNode_readable⟩
  obtain ⟨hsorted, -, hiff⟩ := decls_located_iff hu
  refine ⟨u, hu, hsorted, hiff.mpr ?_⟩
  rw [hnodes]
  rintro n hn hkind -
  obtain rfl : n = wordNode wordHere := by
    rcases List.mem_cons.mp hn with h | h
    · exact h
    · obtain rfl := List.mem_singleton.mp h
      exact absurd hkind (by decide)
  rintro t ht
  cases ht
  exact ⟨_, .head _, rfl, rfl, _, rfl, hstands⟩

/-- A typedef that another file declares first is located there, though the header declares it too. -/
theorem repeated_typedef_misplaced :
    ∃ u, ofDump wordOrigin (wordDump [wordElsewhere, wordHere]) = .ok u ∧
      ∃ d ∈ u.decls, d.kind = .typedef ∧ d.name = "Word" ∧
        d.location = ⟨"/src/other.h", 5, 13, 45⟩ ∧
        ¬ d.Located wordOrigin (topNodes (wordDump [wordElsewhere, wordHere])) := by
  have hnodes : topNodes (wordDump [wordElsewhere, wordHere]) =
      [wordNode wordElsewhere, wordNode wordHere, functionNode] := by cbv
  have hroot : (root (wordDump [wordElsewhere, wordHere])).kind = "TranslationUnitDecl" := by cbv
  obtain ⟨u, hu⟩ := ofDump_ok (o := wordOrigin) hroot <| by
    simp only [hnodes, List.mem_cons, List.not_mem_nil, or_false, forall_eq_or_imp, forall_eq]
    exact ⟨wordNode_readable (by cbv), wordNode_readable (by decide),
      functionNode_readable⟩
  obtain ⟨built, defines, h⟩ := ofDump_loads hu
  have hmem : wordNode wordHere ∈ topNodes (wordDump [wordElsewhere, wordHere]) := by simp [hnodes]
  obtain ⟨d, hd, hkey⟩ := h.exists_key hmem (by decide)
  obtain ⟨hkind, hname⟩ : d.kind = .typedef ∧ d.name = "Word" := by
    simpa [Node.key?, Node.declKind?, wordNode, Decl.key, eq_comm] using hkey
  obtain ⟨_, _, _, _, _, t, ht, hlocation⟩ := h.typedef_location hd hkind
  obtain rfl : t = wordNode wordElsewhere := by
    rw [hname, hnodes] at ht
    exact (Option.some.inj ht).symm
  have hfile : wordOrigin.isMain "/src/other.h" = false := by cbv
  have hplace : d.location = ⟨"/src/other.h", 5, 13, 45⟩ := (Option.some.inj hlocation).symm
  refine ⟨u, hu, d, hd, hkind, hname, hplace, fun hlocated => ?_⟩
  have hmain := hlocated.1
  rw [hplace] at hmain
  exact absurd (hfile.symm.trans hmain) (by decide)

end HeaderUnit

end Bindery
