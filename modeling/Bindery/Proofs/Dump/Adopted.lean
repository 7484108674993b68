import Bindery.Dump.Adoption
import Bindery.Proofs.QualType.Described

/-! What a typedef means for the record or enumeration that takes its name. -/

namespace Bindery

namespace QualType

variable {cs bl : List Char} {ts : List Token}

/-- The blanks behind the tokens of a text are some that separate tokens. -/
theorem tokenize_behind_blanks (h : tokenize (cs ++ bl) = .ok ts) (hbl : ∀ c ∈ bl, isBlank c = true) :
    (∀ c ∈ bl, isAsciiBlank c = true) ∧ tokenize cs = .ok ts := by
  induction bl using List.reverseRecOn with
  | nil => exact ⟨nofun, by simpa using h⟩
  | append_singleton bl c ih =>
    rw [← List.append_assoc] at h
    have hc : isAsciiBlank c = true :=
      (lexes_of_tokenize h).endsPlain c (by simp) (hbl c (by simp))
    rw [tokenize_append_blanks (by simpa using hc)] at h
    obtain ⟨hrest, hcs⟩ := ih h fun y hy => hbl y (by simp [hy])
    exact ⟨List.forall_mem_append.mpr ⟨hrest, List.forall_mem_singleton.mpr hc⟩, hcs⟩

def constChars (isConst : Bool) : List Char :=
  if isConst then "const ".toList else []

theorem tokenize_constChars (isConst : Bool) (cs : List Char) :
    tokenize (constChars isConst ++ cs) = (tokenize cs).map (constTokens isConst ++ ·) := by
  cases isConst with
  | false => cases h : tokenize cs <;> simp [constChars, constTokens, h, Except.map]
  | true =>
    have hword : tokenize ('c' :: "onst".toList ++ ' ' :: cs) =
        (tokenize (' ' :: cs)).map (.word "const" :: ·) :=
      tokenize_word (by decide) (List.all_eq_true.mp rfl) (by rintro _ ⟨⟩; decide) (by decide)
    rw [tokenize_blank (by decide)] at hword
    exact hword

end QualType

namespace Node

open QualType

variable {n typedef : Node} {next ns : List Node} {tag name text : String} {a : Adoption}

theorem trimEnd_append (cs : List Char) : ∃ bl, cs = trimEnd cs ++ bl ∧ ∀ c ∈ bl, isBlank c = true := by
  refine ⟨(cs.reverse.takeWhile isBlank).reverse, ?_, fun c hc => ?_⟩
  · rw [trimEnd, ← List.reverse_append, List.takeWhile_append_dropWhile, List.reverse_reverse]
  · exact takeWhile_all isBlank _ c (List.mem_reverse.mp hc)

theorem bareTypeText_parts (text : String) : ∃ isConst bl,
    text.toList = constChars isConst ++ ((bareTypeText text).toList ++ bl) ∧
      ∀ c ∈ bl, isBlank c = true := by
  obtain ⟨isConst, hconst⟩ : ∃ isConst, text.toList = constChars isConst ++
      (if "const ".toList.isPrefixOf text.toList then text.toList.drop 6 else text.toList) := by
    split
    · next h =>
      obtain ⟨rest, hrest⟩ := List.isPrefixOf_iff_prefix.mp h
      exact ⟨true, by rw [← hrest]; rfl⟩
    · exact ⟨false, rfl⟩
  obtain ⟨bl, hbl, hblanks⟩ := trimEnd_append
    (if "const ".toList.isPrefixOf text.toList then text.toList.drop 6 else text.toList)
  refine ⟨isConst, bl, ?_, hblanks⟩
  rw [bareTypeText, String.toList_ofList]
  exact hconst.trans (congrArg _ hbl)

/-- How a typedef whose type is the record itself is written: `const` or not, the keyword, a description
or the name, and blanks. -/
def WritesItself (adopted : Adopted) (tag name text : String) : Adoption → Prop
  | .described _ => ∃ isConst rest bl inside,
      text.toList = constChars isConst ++ (tag.toList ++ rest ++ bl) ∧ IsDescription rest inside ∧
        (∀ c ∈ bl, isAsciiBlank c = true) ∧ adopted.name? (String.ofList inside) = some name
  | .sameName => ∃ isConst bl,
      text.toList = constChars isConst ++ ((tag ++ " " ++ name).toList ++ bl) ∧
        ∀ c ∈ bl, isAsciiBlank c = true

theorem adoption?_some (h : adoption? tag typedef = some a) :
    ∃ text, typedef.kind = "TypedefDecl" ∧ typedef.typeText = some text ∧
      match a with
      | .described _ => tag.toList <+: (bareTypeText text).toList ∧ [')'] <:+ (bareTypeText text).toList
      | .sameName => bareTypeText text = tag ++ " " ++ typedef.name := by
  unfold adoption? at h
  split at h
  · cases h
  · next hkind =>
    obtain ⟨text, htext, h⟩ := Option.bind_eq_some_iff.mp h
    refine ⟨text, by simpa using hkind, htext, ?_⟩
    simp only at h
    split at h
    · split at h
      · next hends =>
        cases h
        obtain ⟨hstart, hend⟩ := (Bool.and_eq_true _ _).mp hends
        exact ⟨String.startsWith_string_iff.mp hstart, by
          simpa using (String.Slice.endsWith_string_iff (s := (bareTypeText text).toSlice)).mp hend⟩
      · cases h
    · split at h
      · next hsame =>
        cases h
        exact beq_iff_eq.mp hsame
      · cases h

theorem adoptionBefore_some (h : n.adoptionBefore next = some (name, a)) :
    ∃ tag typedef, n.unnamedTag? = some tag ∧ next.head? = some typedef ∧ typedef.name = name ∧
      adoption? tag typedef = some a := by
  obtain ⟨tag, htag, h⟩ := Option.bind_eq_some_iff.mp h
  obtain ⟨typedef, hnext, h⟩ := Option.bind_eq_some_iff.mp h
  obtain ⟨a', ha, h⟩ := Option.bind_eq_some_iff.mp h
  cases h
  exact ⟨tag, typedef, htag, hnext, rfl, ha⟩

section Direct

variable {names : TypeNames} {adopted : Adopted}

/-- A type that is the record itself has tokens for the bare text, which blanks may follow. -/
theorem tokens_of_bareTypeText {t : RawType} (htag : isTag tag) (h : tryParse names text = .ok t)
    (hkind : t.kind = taggedKind tag name) : ∃ isConst bl lead x trail,
      text.toList = constChars isConst ++ ((bareTypeText text).toList ++ bl) ∧
        (∀ c ∈ bl, isAsciiBlank c = true) ∧
        tokenize (bareTypeText text).toList = .ok (lead ++ .word tag :: x :: trail) ∧
        (∀ q ∈ lead, IsQualifier q) ∧ (∀ q ∈ trail, IsQualifier q) ∧
        (x = .word name ∨ ∃ key, x = .anonymous key ∧ names.anonymous key = some name) := by
  obtain ⟨ts, lead, x, trail, htokens, hts, hlead, htrail, hx⟩ := tokens_of_itself htag h hkind
  obtain ⟨isConst, bl, htext, hbl⟩ := bareTypeText_parts text
  rw [htext, tokenize_constChars] at htokens
  obtain ⟨us, hus, hboth⟩ := except_map_ok htokens
  obtain ⟨hblanks, hbare⟩ := tokenize_behind_blanks hus hbl
  obtain ⟨lead', hlead', hus'⟩ : ∃ lead', (∀ q ∈ lead', IsQualifier q) ∧
      us = lead' ++ .word tag :: x :: trail := by
    cases isConst with
    | false => exact ⟨lead, hlead, hboth.symm.trans hts⟩
    | true =>
      have hsplit : lead ++ .word tag :: x :: trail = .word "const" :: us := hts.symm.trans hboth
      cases lead with
      | nil =>
        obtain rfl : tag = "const" := by simpa using (List.cons.inj hsplit).1
        cases htag
      | cons q lead => exact ⟨lead, fun q hq => hlead q (.tail _ hq), (List.cons.inj hsplit).2.symm⟩
  exact ⟨isConst, bl, lead', x, trail, htext, hblanks, hus' ▸ hbare, hlead', htrail, hx⟩

theorem itself_iff (htag : isTag tag) (hname : isTagName name) (ha : adoption? tag typedef = some a)
    (hnames : typedef.name = name) (htext : typedef.typeText = some text) (typedefs : TypedefLookup) :
    (∃ t, tryParse ⟨typedefs, adopted.name?⟩ text = .ok t ∧ t.kind = taggedKind tag name) ↔
      WritesItself adopted tag name text a := by
  obtain ⟨text', -, htext', hdirect⟩ := adoption?_some ha
  obtain rfl : text' = text := Option.some.inj (htext'.symm.trans htext)
  constructor
  · rintro ⟨t, ht, hkind⟩
    obtain ⟨isConst, bl, lead, x, trail, hparts, hbl, htokens, hlead, htrail, hx⟩ :=
      tokens_of_bareTypeText htag ht hkind
    cases a with
    | described key =>
      obtain ⟨⟨rest, hrest⟩, hend⟩ := hdirect
      have hlast : ')' ∈ rest.getLast? := by
        obtain ⟨front, hfront⟩ := hend
        rw [← hrest] at hfront
        rcases List.eq_nil_or_concat' rest with rfl | ⟨others, c, rfl⟩
        · obtain ⟨c, w, hlist, hc, hw⟩ := toList_of_isTag htag
          have hall : ∀ y ∈ tag.toList, isWordChar y = true := by
            rw [hlist]
            exact List.forall_mem_cons.mpr ⟨isWordChar_of_isWordStart hc, hw⟩
          have hmem : ')' ∈ tag.toList := by
            rw [← List.append_nil tag.toList, ← hfront]
            simp
          exact absurd (hall ')' hmem) (by decide)
        · rw [← List.append_assoc] at hfront
          obtain rfl : ')' = c := by simpa using (List.append_inj' hfront rfl).2
          simp
      rw [← hrest] at htokens hparts
      have hword : (∃ w, x = .word w) ∨ ∃ key, x = .anonymous key :=
        hx.imp (fun hx => ⟨_, hx⟩) fun ⟨key, hx, _⟩ => ⟨key, hx⟩
      obtain ⟨-, -, inside, rfl, hinside⟩ :=
        description_of_tokens htag htokens hlead htrail hword hlast
      obtain ⟨key, hkey, hadopted⟩ := hx.resolve_left nofun
      cases hkey
      exact ⟨isConst, rest, bl, inside, hparts, hinside, hbl, hadopted⟩
    | sameName =>
      exact ⟨isConst, bl, by rw [hparts, hdirect, hnames], hbl⟩
  · intro hwrites
    cases a with
    | described key =>
      obtain ⟨isConst, rest, bl, inside, hparts, hinside, hbl, hkey⟩ := hwrites
      refine tryParse_itself isConst htag ?_ (.inr ⟨_, rfl, hkey⟩)
      rw [hparts, tokenize_constChars, tokenize_append_blanks hbl, tokenize_description htag hinside]
      rfl
    | sameName =>
      obtain ⟨isConst, bl, hparts, hbl⟩ := hwrites
      obtain ⟨hidentifier, hplain⟩ := (Bool.and_eq_true _ _).mp hname
      have hkeyword : isIdentifier tag := isIdentifier_iff.mpr (toList_of_isTag htag)
      have hspelled := spells_tagged hkeyword htag hidentifier (by simpa using hplain)
      refine tryParse_itself isConst htag ?_ (.inl rfl)
      rw [hparts, tokenize_constChars, tokenize_append_blanks hbl, hspelled.tokenize_eq]
      rfl

end Direct

theorem adoptSiblings_cons (n : Node) (ns : List Node) : (adoptSiblings (n :: ns)).1 =
    (match n.adoptionBefore ns with
      | some (name, _) => { n with name }
      | none => n) :: (adoptSiblings ns).1 := by
  rw [adoptSiblings]
  simp only
  split <;> simp_all

theorem adoptionBefore_of_renamed {i : Nat} {m : Node} (hn : ns[i]? = some n)
    (hm : (adoptSiblings ns).1[i]? = some m) (hnew : m.name ≠ n.name) :
    ∃ a, n.adoptionBefore (ns.drop (i + 1)) = some (m.name, a) := by
  induction ns generalizing i with
  | nil => cases hn
  | cons first ns ih =>
    rw [adoptSiblings_cons] at hm
    cases i with
    | zero =>
      cases hn
      split at hm
      · next name a hadopts =>
        cases hm
        exact ⟨a, hadopts⟩
      · cases hm
        exact absurd rfl hnew
    | succ i => exact ih hn hm

/-- A record or enumeration that takes the name of the typedef behind it is what the typedef stands for
exactly if the type of the typedef is written with nothing but `const`, the keyword, the description of
the record (or the name) and blanks. -/
theorem adoption_itself_iff {i : Nat} {m : Node} (hn : ns[i]? = some n)
    (hm : (adoptSiblings ns).1[i]? = some m) (hnew : m.name ≠ n.name)
    (htag : ∀ tag ∈ n.unnamedTag?, isTag tag) (hname : isTagName m.name) (adopted : Adopted)
    (typedefs : TypedefLookup) : ∃ tag typedef text a,
      n.unnamedTag? = some tag ∧ ns[i + 1]? = some typedef ∧ typedef.kind = "TypedefDecl" ∧
      typedef.name = m.name ∧ typedef.typeText = some text ∧ adoption? tag typedef = some a ∧
      ((∃ t, tryParse ⟨typedefs, adopted.name?⟩ text = .ok t ∧ t.kind = taggedKind tag m.name) ↔
        WritesItself adopted tag m.name text a) := by
  obtain ⟨a, hadopts⟩ := adoptionBefore_of_renamed hn hm hnew
  obtain ⟨tag, typedef, htagged, hnext, hnames, ha⟩ := adoptionBefore_some hadopts
  obtain ⟨text, hkind, htext, -⟩ := adoption?_some ha
  rw [List.head?_drop] at hnext
  exact ⟨tag, typedef, text, a, htagged, hnext, hkind, hnames, htext, ha,
    itself_iff (htag tag htagged) hname ha hnames htext typedefs⟩

def pointKey : String :=
  "unnamed struct at /src/demo.h:1:9"

def pointStruct (name : String) : Node :=
  ⟨"RecordDecl", name, {}, {}, {}, none, false, true, some "struct", none, none, []⟩

def pointAlias (name behind : String) : Node :=
  ⟨"TypedefDecl", name, {}, {}, {}, some ("struct (" ++ pointKey ++ ")" ++ behind), false, false, none,
    none, none, []⟩

theorem pointStruct_adopts {name behind : String}
    (h : adoption? "struct" (pointAlias name behind) = some (.described pointKey)) :
    adoptSiblings [pointStruct "", pointAlias name behind] =
      ([pointStruct name, pointAlias name behind], [(pointKey, name)]) := by
  have htypedef : (pointAlias name behind).unnamedTag? = none := by
    simp [pointAlias, unnamedTag?]
  have hstruct : (pointStruct "").adoptionBefore [pointAlias name behind] =
      some (name, .described pointKey) := by
    have htag : (pointStruct "").unnamedTag? = some "struct" := rfl
    rw [adoptionBefore, htag]
    simp only [Option.bind_eq_bind, Option.bind_some, List.head?_cons, h]
    rfl
  have hlast : (pointAlias name behind).adoptionBefore [] = none := by
    rw [adoptionBefore, htypedef]
    rfl
  rw [adoptSiblings, adoptSiblings]
  simp only [hstruct, hlast]
  rfl

theorem point_itself : ∃ t, tryParse ⟨fun _ => none, Adopted.name? [(pointKey, "Point")]⟩
    ("struct (" ++ pointKey ++ ")" ++ "") = .ok t ∧ t.kind = taggedKind "struct" "Point" := by
  have htaken : adoption? "struct" (pointAlias "Point" "") = some (.described pointKey) := by
    decide +kernel
  obtain ⟨tag, typedef, text, a, htag, hnext, -, -, htext, ha, hiff⟩ :=
    adoption_itself_iff (n := pointStruct "") (m := pointStruct "Point") (i := 0) rfl
      (congrArg (·.1[0]?) (pointStruct_adopts htaken)) (by decide) (by decide) (by decide)
      [(pointKey, "Point")] fun _ => none
  cases htag
  cases hnext
  cases htext
  cases htaken.symm.trans ha
  have hdescription : IsDescription (" (" ++ pointKey ++ ")").toList pointKey.toList :=
    ⟨[' '], by decide, List.all_eq_true.mp rfl, by decide⟩
  exact hiff.mpr ⟨false, _, [], pointKey.toList, by decide, hdescription, nofun, by decide⟩

/-- The tokens of a description name the record by the name given to the description. -/
theorem names_described {anonymous : String → Option String} {key : String}
    (h : anonymous key = some name) :
    Names anonymous [.word "struct", .anonymous key] (.tagged name false) := by
  intro rest hrest
  have hbase : taggedType anonymous "struct" (.anonymous key) = .ok (.tagged name false) := by
    simp [taggedType, h]
  exact ⟨{ base := some (.tagged name false) },
    Specifies.tagged rfl hbase rfl rfl (specifies_end hrest), rfl⟩

/-- A struct takes the name of a typedef that stands for pointers to functions. -/
theorem makePoint_misnamed :
    (adoptSiblings [pointStruct "", pointAlias "MakePoint" " (*)(int)"]).1.map (·.name) =
      ["MakePoint", "MakePoint"] ∧
    ∃ t, tryParse ⟨fun _ => none, Adopted.name? [(pointKey, "MakePoint")]⟩
      ("struct (" ++ pointKey ++ ")" ++ " (*)(int)") = .ok t ∧ t.isDerived := by
  have htaken : adoption? "struct" (pointAlias "MakePoint" " (*)(int)") =
      some (.described pointKey) := by
    decide +kernel
  refine ⟨by rw [pointStruct_adopts htaken]; rfl, ?_⟩
  let args := [Form.words ["int"] .int false]
  have hargs : Form.ValidList args := ⟨⟨by decide, by decide, rfl⟩, trivial⟩
  have htokens : tokenize ("struct (" ++ pointKey ++ ")" ++ " (*)(int)").toList =
      .ok ([.word "struct", .anonymous pointKey] ++
        (QualType.enclosed true (.star :: (constTokens false ++ [])) ++
          parameterTokens (Form.argTokens args) false ++ [])) := by
    decide +kernel
  have hlists : Lists (Adopted.name? [(pointKey, "MakePoint")])
      (commaJoined (Form.argTokens args ++ [])) (Form.rawList args) false :=
    lists_commaJoined (Form.readsParameters args hargs) false rfl
  have hwraps : Wraps _ false (QualType.enclosed true (.star :: (constTokens false ++ [])) ++
      parameterTokens (Form.argTokens args) false)
      fun u => made false (.pointer (.function u (Form.rawList args) false)) :=
    ((wraps_nil _).pointer false).suffixes
      (balanced_parameterTokens (Form.balanced_argTokens args) false)
      fun _ _ hmore => hmore.function hlists
  have hnames : Names (Adopted.name? [(pointKey, "MakePoint")]) [.word "struct", .anonymous pointKey]
      (.tagged "MakePoint" false) :=
    names_described rfl
  have hend : Stops [] := nofun
  have hread := hnames.readsWrapped hwraps hend
  exact ⟨_, tryParse_iff.mpr ⟨_, _, htokens, hread, rfl⟩, rfl⟩

end Node

end Bindery
