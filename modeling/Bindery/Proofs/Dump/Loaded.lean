import Bindery.Proofs.Dump.Placed
import Bindery.Proofs.Dump.Unit

/-! The declarations of a header are placed when they are loaded, and so are the typedefs that their
types name. -/

namespace Bindery

variable {o : Origin} {names : DumpNames} {s s' : Loading} {n : Node} {kind : DeclKind}

namespace Loading

/-- The typedefs built so far are placed, and what is not built yet is in its text. -/
structure Placed (o : Origin) (s : Loading) : Prop where
  sources : o.Holds s.sources
  fresh : ∀ n ∈ s.fresh, n.InText o
  typedefs : ∀ name d, (name, d) ∈ s.typedefs → d.Throughout (Decl.Placed o s.sources)

/-- The state after some steps. The texts that were read before are still there. -/
structure Grows (o : Origin) (s s' : Loading) : Prop where
  placed : s'.Placed o
  texts : o.Grows s.sources s'.sources

theorem Placed.grows (hs : s.Placed o) : s.Grows o s :=
  ⟨hs, hs.sources.grows⟩

theorem Grows.trans {s₁ s₂ : Loading} (h : s.Grows o s₁) (h' : s₁.Grows o s₂) : s.Grows o s₂ :=
  ⟨h'.placed, h.texts.trans h'.texts⟩

theorem Placed.lookup (hs : s.Placed o) :
    TypedefLookup.Throughout (Decl.Placed o s.sources) s.lookup := by
  intro name underlying decl h
  obtain ⟨d, hd, he⟩ := Option.map_eq_some_iff.mp h
  obtain ⟨found, hfound, rfl⟩ := Option.map_eq_some_iff.mp hd
  have hplaced := hs.typedefs found.1 found.2 (List.mem_of_find?_eq_some hfound)
  cases he
  refine ⟨?_, fun e he => Option.some.inj he ▸ hplaced⟩
  cases ht : found.2.type with
  | none => exact RawType.throughout_plain _ _ rfl rfl
  | some t => exact (Decl.throughout_iff.mp hplaced).2.2 t ht

theorem Placed.type (hs : s.Placed o) (n : Node) :
    (n.type names s.lookup).Throughout (Decl.Placed o s.sources) := by
  unfold Node.type
  split
  · exact RawType.throughout_plain _ _ rfl rfl
  · exact QualType.throughout_parse hs.lookup _

theorem Placed.withSources (hs : s.Placed o) {m : SourceMap} (h : o.Grows s.sources m) :
    s.Grows o { s with sources := m } :=
  ⟨⟨h.holds, hs.fresh, fun name d hd => (hs.typedefs name d hd).grows h⟩, h⟩

theorem settle_grows (hs : s.Placed names.origin) {todo : List LoadStep}
    (htodo : ∀ n, .define n ∈ todo → n.InText names.origin)
    (h : s.settle names todo = .ok s') : s.Grows names.origin s' := by
  -- a typedef is built in the state that its own names have left, so the whole state is carried along
  fun_induction settle names s todo with
  | case1 s =>
    cases h
    exact hs.grows
  | case2 s name todo _ ih => exact ih hs (fun n hn => htodo n (.tail _ hn)) h
  | case3 s name todo n hf ih =>
    have hn : n.InText names.origin := hs.fresh n (List.mem_of_find?_eq_some hf)
    have hother : Placed names.origin { s with fresh := Node.otherThan name s.fresh } :=
      ⟨hs.sources, fun m hm => hs.fresh m (List.mem_filter.mp hm).1, hs.typedefs⟩
    have hrest := ih hother (fun m hm => ?_) h
    · exact ⟨hrest.placed, hrest.texts⟩
    · simp only [List.mem_append, List.mem_map, reduceCtorEq, and_false, exists_false, false_or,
        List.mem_cons, LoadStep.define.injEq] at hm
      rcases hm with rfl | hm
      · exact hn
      · exact htodo m (.tail _ hm)
  | case4 => cases h
  | case5 s n todo d sources hd ih =>
    have hn : n.InText names.origin := htodo n (.head _)
    obtain ⟨htexts, hplaced, -⟩ := Node.typed_leaves hs.sources hn (hs.type n) d sources hd
    have hdefined : s.Grows names.origin ⟨s.fresh, (n.name, d) :: s.typedefs, sources⟩ := by
      refine ⟨⟨htexts.holds, hs.fresh, fun name e he => ?_⟩, htexts⟩
      rcases List.mem_cons.mp he with hsame | hold
      · cases hsame
        exact hplaced
      · exact (hs.typedefs name e hold).grows htexts
    exact hdefined.trans (ih hdefined.placed (fun m hm => htodo m (.tail _ hm)) h)

end Loading

namespace LoadM

theorem ofSource_leaves {α : Type} {x : SourceM α} {Q : α → SourceMap → Prop} (hs : s.Placed o)
    (hx : Leaves s.sources x fun a m => o.Grows s.sources m ∧ Q a m) :
    Leaves s (ofSource x) fun a s' => s.Grows o s' ∧ Q a s'.sources := by
  refine .get_bind (.bind .lift fun r _ ⟨hr, _⟩ => ?_)
  obtain ⟨hgrown, hq⟩ := hx r.1 r.2 hr
  exact .set_bind (.pure ⟨hs.withSources hgrown, hq⟩)

theorem declared_leaves (hs : s.Placed o) (hn : n.InText o) :
    Leaves s (ofSource (n.declared o kind)) fun d s' => s.Grows o s' ∧ d.Begun o kind :=
  ofSource_leaves hs (n.declared_leaves hs.sources hn)

theorem enter_leaves (hs : s.Placed names.origin) (wanted : List String) :
    Leaves s (enter names wanted) fun _ s' => s.Grows names.origin s' := by
  refine .get_bind (.bind .lift fun s₁ _ ⟨hsettle, _⟩ => ?_)
  have hgrown := Loading.settle_grows hs (by simp) hsettle
  exact fun _ s' hs' => by cases hs'; exact hgrown

theorem typeOf_leaves (hs : s.Placed names.origin) (n : Node) :
    Leaves s (typeOf names n) fun t s' =>
      s.Grows names.origin s' ∧ t.Throughout (Decl.Placed names.origin s'.sources) :=
  .bind (enter_leaves hs _) fun _ _ h => .get_bind (.pure ⟨h, h.placed.type n⟩)

theorem typed_leaves (hs : s.Placed names.origin) (hn : n.InText names.origin) :
    Leaves s (typed names kind n) fun d s' => s.Grows names.origin s' ∧
      d.Throughout (Decl.Placed names.origin s'.sources) ∧ d.kind = kind := by
  refine .bind (typeOf_leaves hs n) fun t s₁ ⟨h₁, ht⟩ => ?_
  exact (ofSource_leaves h₁.placed (Node.typed_leaves h₁.placed.sources hn ht)).imp
    fun _ _ h₂ => ⟨h₁.trans h₂.1, h₂.2⟩

theorem params_leaves (hs : s.Placed names.origin) {ns : List Node}
    (hns : ∀ n ∈ ns, n.InText names.origin) : Leaves s (params names ns) fun ds s' =>
      s.Grows names.origin s' ∧ ∀ d ∈ ds, d.Throughout (Decl.Placed names.origin s'.sources) := by
  induction ns generalizing s with
  | nil => exact .pure ⟨hs.grows, nofun⟩
  | cons n ns ih =>
    obtain ⟨hn, hns⟩ := List.forall_mem_cons.mp hns
    refine .bind (typed_leaves hs hn) fun d s₁ ⟨h₁, hd, _⟩ => ?_
    refine .bind (ih h₁.placed hns) fun ds s₂ ⟨h₂, hds⟩ => .pure ⟨h₁.trans h₂, ?_⟩
    exact List.forall_mem_cons.mpr ⟨hd.grows h₂.texts, hds⟩

/-- The parameters of a function are declared, so nothing is looked for behind its name. -/
theorem function_leaves (hs : s.Placed names.origin) (hn : n.InText names.origin) :
    Leaves s (function names n) fun d s' => s.Grows names.origin s' ∧
      d.Throughout (Decl.Placed names.origin s'.sources) := by
  refine .bind (typeOf_leaves hs n) fun t s₁ ⟨h₁, ht⟩ => ?_
  refine .bind (declared_leaves h₁.placed hn) fun d s₂ ⟨h₂, hd⟩ => ?_
  have hinside : ∀ c ∈ n.children.filter (·.kind == "ParmVarDecl"), c.InText names.origin :=
    fun c hc => hn.child (List.mem_filter.mp hc).1
  refine .bind (params_leaves h₂.placed hinside) fun children s₃ ⟨h₃, hchildren⟩ => .pure ?_
  refine ⟨(h₁.trans h₂).trans h₃, Decl.throughout_iff.mpr ⟨⟨hd.follows, fun hseeks => ?_,
    fun hkind => ?_⟩, hchildren, fun u hu => ?_⟩⟩
  · exact absurd hd.kind_eq hseeks.kind_ne
  · exact absurd hd.kind_eq hkind
  · cases hu
    exact ht.grows (h₂.trans h₃).texts

mutual

theorem record_leaves : ∀ (n : Node) {s : Loading}, s.Placed names.origin → n.InText names.origin →
    Leaves s (record names n) fun d s' => s.Grows names.origin s' ∧
      d.Throughout (Decl.Placed names.origin s'.sources) ∧ d.kind.isRecord
  | ⟨_, _, _, _, _, _, _, isComplete, _, _, _, children⟩, s, hs, hn => by
    rw [record]
    refine .bind (declared_leaves hs hn) fun d s₁ ⟨h₁, hd⟩ => ?_
    have hrecord : d.kind.isRecord := by
      rw [hd.kind_eq]
      split <;> rfl
    cases isComplete with
    | true =>
      have hinside : ∀ c ∈ children, c.InText names.origin := fun c hc => hn.child hc
      refine .bind (members_leaves children h₁.placed nofun hinside) fun ds s₂ ⟨h₂, hds⟩ => ?_
      refine .pure ⟨h₁.trans h₂, ?_, hrecord⟩
      exact hd.complete (fun c hc => (hds c hc).1) (fun c hc => (hds c hc).2) d.value
    | false => exact .pure ⟨h₁, hd.placed, hrecord⟩

theorem members_leaves : ∀ (ns : List Node) {s : Loading} {seen : List Decl},
    s.Placed names.origin →
    (∀ d ∈ seen, d.Throughout (Decl.Placed names.origin s.sources) ∧ d.kind ≠ .parameter) →
    (∀ n ∈ ns, n.InText names.origin) →
    Leaves s (members names seen ns) fun ds s' => s.Grows names.origin s' ∧
      ∀ d ∈ ds, d.Throughout (Decl.Placed names.origin s'.sources) ∧ d.kind ≠ .parameter
  | [], _, _, hs, hseen, _ => .pure ⟨hs.grows, fun d hd => hseen d (List.mem_reverse.mp hd)⟩
  | n :: ns, s, seen, hs, hseen, hns => by
    obtain ⟨hn, hns⟩ := List.forall_mem_cons.mp hns
    -- a member that is built stands before those seen so far, which stay placed
    have hnext : ∀ d s₁, s.Grows names.origin s₁ →
        d.Throughout (Decl.Placed names.origin s₁.sources) → d.kind ≠ .parameter →
        Leaves s₁ (members names (d :: seen) ns) fun ds s' => s.Grows names.origin s' ∧
          ∀ d ∈ ds, d.Throughout (Decl.Placed names.origin s'.sources) ∧ d.kind ≠ .parameter := by
      intro d s₁ h₁ hd hkind
      have hseen₁ : ∀ e ∈ seen, e.Throughout (Decl.Placed names.origin s₁.sources) ∧
          e.kind ≠ .parameter := fun e he => ⟨(hseen e he).1.grows h₁.texts, (hseen e he).2⟩
      have hall := List.forall_mem_cons.mpr ⟨⟨hd, hkind⟩, hseen₁⟩
      exact (members_leaves ns h₁.placed hall hns).imp fun _ _ h₂ => ⟨h₁.trans h₂.1, h₂.2⟩
    rw [members]
    split
    · split
      · exact members_leaves ns hs hseen hns
      · split
        · exact members_leaves ns hs (fun d hd => hseen d (List.mem_of_mem_tail hd)) hns
        · refine .bind (typed_leaves hs hn) fun d s₁ ⟨h₁, hd, hkind⟩ => hnext d s₁ h₁ hd ?_
          simp [hkind]
    · split
      · refine .bind (record_leaves n hs hn) fun d s₁ ⟨h₁, hd, hkind⟩ => hnext d s₁ h₁ hd ?_
        rintro hparameter
        simp [hparameter, DeclKind.isRecord] at hkind
      · exact members_leaves ns hs hseen hns

end

theorem declaration_leaves (hs : s.Placed names.origin) (hn : n.InText names.origin) :
    Leaves s (declaration names n) fun r s' => s.Grows names.origin s' ∧
      ∀ d, r = some d → d.Throughout (Decl.Placed names.origin s'.sources) := by
  have hsome : ∀ {x : LoadM Decl}, (Leaves s x fun d s' => s.Grows names.origin s' ∧
      d.Throughout (Decl.Placed names.origin s'.sources)) →
      Leaves s (some <$> x) fun r s' => s.Grows names.origin s' ∧
        ∀ d, r = some d → d.Throughout (Decl.Placed names.origin s'.sources) :=
    fun hx => .map (hx.imp fun d s' h => ⟨h.1, fun e he => Option.some.inj he ▸ h.2⟩)
  unfold declaration
  split
  · exact hsome (function_leaves hs hn)
  · exact hsome ((record_leaves n hs hn).imp fun _ _ h => ⟨h.1, h.2.1⟩)
  · refine hsome ((ofSource_leaves hs (n.enumeration_leaves hs.sources hn)).imp fun _ _ h => ?_)
    exact ⟨h.1, h.2.1⟩
  · exact hsome ((typed_leaves hs hn).imp fun _ _ h => ⟨h.1, h.2.1⟩)
  · refine .bind (enter_leaves hs _) fun _ s₁ h₁ => .get_bind (.pure ⟨h₁, fun d hd => ?_⟩)
    obtain ⟨found, hfound, rfl⟩ := Option.map_eq_some_iff.mp hd
    exact h₁.placed.typedefs _ _ (List.mem_of_find?_eq_some hfound)
  · exact .pure ⟨hs.grows, nofun⟩

end LoadM

namespace HeaderUnit

theorem mem_of_add {k : Kept} {d e : Decl} (h : e ∈ (k.add d).decls) : e = d ∨ e ∈ k.decls := by
  unfold Kept.add at h
  split at h
  · exact List.mem_cons.mp h
  · split at h
    · exact .inr h
    · exact List.mem_cons.mp h

theorem mem_of_addAll {ds : List Decl} {k : Kept} {e : Decl}
    (h : e ∈ (ds.foldl Kept.add k).decls) : e ∈ k.decls ∨ e ∈ ds := by
  induction ds generalizing k with
  | nil => exact .inl h
  | cons d ds ih =>
    rcases ih h with h | h
    · exact (mem_of_add h).elim (fun h => .inr (h ▸ .head _)) .inl
    · exact .inr (.tail _ h)

/-- The files of the header are read, and what is kept is placed. -/
theorem keepDecls_leaves {nodes : List Node} (hs : s.Placed names.origin) {k : Kept}
    (hk : ∀ d ∈ k.decls, d.Throughout (Decl.Placed names.origin s.sources))
    (hnodes : ∀ n ∈ nodes, n.InText names.origin) :
    Leaves s (keepDecls names k nodes) fun k' s' => s.Grows names.origin s' ∧
      (∀ d ∈ k'.decls, d.Throughout (Decl.Placed names.origin s'.sources)) ∧
      ∀ n ∈ nodes, ∀ file, mainFile? names.origin n = some file → s'.sources.contains file := by
  induction nodes generalizing s k with
  | nil => exact .pure ⟨hs.grows, hk, List.forall_mem_nil _⟩
  | cons n ns ih =>
    obtain ⟨hn, hns⟩ := List.forall_mem_cons.mp hnodes
    rw [keepDecls]
    cases hfile : mainFile? names.origin n with
    | none =>
      refine (ih hs hk hns).imp ?_
      rintro _ _ ⟨h, hk', hfiles⟩
      exact ⟨h, hk', List.forall_mem_cons.mpr ⟨by simp [hfile], hfiles⟩⟩
    | some file =>
      have hmain : (names.origin.text? file).isSome := by
        simp [Origin.text?, (mainFile?_some hfile).1]
      refine .bind (LoadM.ofSource_leaves hs (SourceM.read_leaves hs.sources)) ?_
      rintro _ s₁ ⟨h₁, hr, hread⟩
      have hcontains : s₁.sources.contains file := hread (hr ▸ hmain)
      refine .bind (LoadM.declaration_leaves h₁.placed hn) ?_
      rintro r s₂ ⟨h₂, hr⟩
      have hgrown := h₁.trans h₂
      have hrest : ∀ k' : Kept, (∀ d ∈ k'.decls, d ∈ k.decls ∨ r = some d) →
          Leaves s₂ (keepDecls names k' ns) fun k' s' => s.Grows names.origin s' ∧
            (∀ d ∈ k'.decls, d.Throughout (Decl.Placed names.origin s'.sources)) ∧
            ∀ m ∈ n :: ns, ∀ file, mainFile? names.origin m = some file →
              s'.sources.contains file := by
        intro k' hk'
        have hplaced : ∀ d ∈ k'.decls, d.Throughout (Decl.Placed names.origin s₂.sources) :=
          fun d hd => (hk' d hd).elim (fun hd => (hk d hd).grows hgrown.texts) (hr d)
        refine (ih h₂.placed hplaced hns).imp ?_
        rintro _ _ ⟨h₃, hk'', hfiles⟩
        refine ⟨hgrown.trans h₃, hk'', ?_⟩
        refine List.forall_mem_cons.mpr ⟨fun other hother => ?_, hfiles⟩
        obtain rfl : file = other := Option.some.inj (hfile.symm.trans hother)
        exact h₃.texts.keeps file (h₂.texts.keeps file hcontains)
      cases r with
      | none => exact hrest k fun d hd => .inl hd
      | some d =>
        refine hrest (k.add d) fun e he => ?_
        exact (mem_of_add he).elim (fun h => .inr (congrArg some h.symm)) .inl

theorem defineDecl?_placed {m M : SourceMap} {file : String} {c : Definition} {d : Decl}
    (hfile : o.isMain file) (hc : c ∈ Definition.scan o.text) (hd : defineDecl? m file c = some d) :
    d.Throughout (Decl.Placed o M) := by
  simp only [defineDecl?, Option.bind_eq_bind, Option.bind_eq_some_iff] at hd
  obtain ⟨place, hplace, start, hstart, hd⟩ := hd
  cases hd
  obtain ⟨hpfile, hpoffset, -⟩ := SourceMap.location?_some hplace
  obtain ⟨hsfile, hsoffset, -⟩ := SourceMap.location?_some hstart
  obtain ⟨before, gap, blanks, after, -, htext, hbegin, hname⟩ := Definition.scan_written hc
  have hspan : Span 0 o.text.toList c.start ('#' :: gap ++ "define".toList ++ blanks) := by
    refine ⟨before, c.name.toList ++ after, ?_, by simp [hbegin]⟩
    simpa using htext
  have hoffset : c.nameOffset = c.start + byteLength ('#' :: gap ++ "define".toList ++ blanks) := by
    rw [hname, hbegin, ← byteLength_append]
    simp
  obtain ⟨cs, hslice⟩ : ∃ cs, slice? c.start c.nameOffset o.text.toList = some cs :=
    ⟨_, hoffset ▸ hspan.slice⟩
  have hfollows : place.Follows o start := by
    refine ⟨hsfile.trans hpfile.symm, by omega, o.text, cs, ?_, ?_⟩
    · rw [hsfile, Origin.text?, if_pos hfile]
    · rw [hsoffset, hpoffset]
      exact hslice
  refine Decl.throughout_iff.mpr ⟨⟨fun l hl => ?_, fun hseeks => ?_, fun _ => List.forall_mem_nil _⟩,
    List.forall_mem_nil _, fun t ht => ?_⟩
  · cases hl
    exact hfollows
  · obtain ⟨t, ht, -⟩ := hseeks.functional
    cases ht
  · cases ht

theorem build_leaves {nodes : List Node} (hs : s.Placed names.origin)
    (hnodes : ∀ n ∈ nodes, n.InText names.origin) :
    Leaves s (build names nodes) fun ds s' =>
      (∀ d ∈ ds, d.Throughout (Decl.Placed names.origin s'.sources)) ∧
      ∀ n ∈ nodes, ∀ file, mainFile? names.origin n = some file → s'.sources.contains file := by
  refine .bind (keepDecls_leaves hs nofun hnodes) fun k s₁ ⟨h₁, hk, hfiles⟩ => ?_
  refine .bind (LoadM.ofSource_leaves h₁.placed (SourceM.read_leaves h₁.placed.sources))
    fun _ s₂ ⟨h₂, _⟩ => .get_bind (.pure ⟨fun d hd => ?_, fun n hn file hfile => ?_⟩)
  · have hkept := List.mem_reverse.mp ((List.mergeSort_perm _ _).mem_iff.mp hd)
    rcases mem_of_addAll hkept with hd | hd
    · exact (hk d hd).grows h₂.texts
    · obtain ⟨c, hc, hd⟩ := List.mem_filterMap.mp hd
      exact defineDecl?_placed (isMain_fileOf nodes) hc hd
  · exact h₂.texts.keeps file (hfiles n hn file hfile)

end HeaderUnit

end Bindery
