import Bindery.Proofs.Dump.Declaration
import Bindery.Proofs.Dump.Site
import Bindery.Proofs.Source.Parameters

/-! Where the text before the name of a declaration stands, and which texts have been read for it. -/

namespace Bindery

section Cuts

variable {cs : List Char} {start stop n : Nat}

theorem takeBytes?_isSome_iff : (takeBytes? n cs).isSome ↔ (dropBytes? n cs).isSome := by
  fun_induction dropBytes? n cs with
  | case1 cs => simp [takeBytes?]
  | case2 => simp [takeBytes?]
  | case3 n c cs hle ih => simp [takeBytes?, hle, ih]
  | case4 n c cs hlt => simp [takeBytes?, hlt]

theorem slice?_isSome (hle : start ≤ stop) (hstart : (dropBytes? start cs).isSome)
    (hstop : (dropBytes? stop cs).isSome) : (slice? start stop cs).isSome := by
  rw [slice?, if_pos hle]
  fun_induction dropBytes? start cs generalizing stop with
  | case1 cs => exact takeBytes?_isSome_iff.mpr hstop
  | case2 => cases hstart
  | case3 n c cs hfits ih =>
    obtain ⟨k, rfl⟩ : ∃ k, stop = k + 1 := ⟨stop - 1, by omega⟩
    have hfits' : c.utf8Size ≤ k + 1 := by omega
    have hsub : k + 1 - c.utf8Size - (n + 1 - c.utf8Size) = k + 1 - (n + 1) := by omega
    rw [dropBytes?, if_pos hfits'] at hstop
    have hrest := ih (by omega) hstart hstop
    rwa [hsub] at hrest
  | case4 => cases hstart

theorem dropBytes?_le (h : (dropBytes? n cs).isSome) : n ≤ byteLength cs := by
  fun_induction dropBytes? n cs with
  | case1 => exact Nat.zero_le _
  | case2 => cases h
  | case3 n c cs hle ih =>
    have hrest := ih h
    rw [byteLength]
    omega
  | case4 => cases h

theorem byteLength_toList (s : String) : byteLength s.toList = s.utf8ByteSize := by
  induction s using String.push_induction with
  | empty => rfl
  | push s c ih => simp [byteLength_append, byteLength, ih]

end Cuts

namespace SourceMap

variable {m : SourceMap} {file : String} {offset : Nat} {l : Location}

theorem contains_iff : m.contains file ↔ (m.text? file).isSome := by
  simp [contains, text?]

theorem location?_some (h : m.location? file offset = some l) :
    l.file = file ∧ l.offset = offset ∧ m.contains file := by
  unfold location? at h
  split at h
  · cases h
  · next text htext =>
    split at h
    · cases h
      exact ⟨rfl, rfl, contains_iff.mpr (by simp [htext])⟩
    · cases h

theorem location?_isSome {text : String} (htext : m.text? file = some text)
    (hle : offset ≤ text.utf8ByteSize) : (m.location? file offset).isSome := by
  simp [location?, htext, hle]

end SourceMap

/-- The texts after some were read: those that were there, and others as their files have them. -/
structure Origin.Grows (o : Origin) (m m' : SourceMap) : Prop where
  holds : o.Holds m'
  keeps : ∀ file, m.contains file → m'.contains file

theorem Origin.Grows.trans {o : Origin} {m m₁ m₂ : SourceMap} (h : o.Grows m m₁)
    (h' : o.Grows m₁ m₂) : o.Grows m m₂ :=
  ⟨h'.holds, fun file hfile => h'.keeps file (h.keeps file hfile)⟩

theorem Origin.Holds.grows {o : Origin} {m : SourceMap} (hm : o.Holds m) : o.Grows m m :=
  ⟨hm, fun _ hfile => hfile⟩

/-- The place stands between characters of a text that can be read. -/
def Location.InText (o : Origin) (l : Location) : Prop :=
  ∃ text, o.text? l.file = some text ∧ (dropBytes? l.offset text.toList).isSome

theorem Location.inText_iff {o : Origin} {l : Location} : l.InText o ↔
    (o.text? l.file).any fun text => (dropBytes? l.offset text.toList).isSome := by
  simp [InText, Option.any_eq_true]

/-- The place follows another one of its file, and the text between them can be read. -/
structure Location.Follows (o : Origin) (l start : Location) : Prop where
  file_eq : start.file = l.file
  le : start.offset ≤ l.offset
  text : ∃ text cs, o.text? start.file = some text ∧
    slice? start.offset l.offset text.toList = some cs

theorem Location.InText.follows {o : Origin} {start l : Location} (hstart : start.InText o)
    (hl : l.InText o) (hfile : start.file = l.file) (hle : start.offset ≤ l.offset) :
    l.Follows o start := by
  obtain ⟨text, htext, hbefore⟩ := hstart
  obtain ⟨text', htext', hbehind⟩ := hl
  obtain rfl : text = text' := Option.some.inj (by rw [← htext, hfile, htext'])
  obtain ⟨cs, hcs⟩ := Option.isSome_iff_exists.mp (slice?_isSome hle hbefore hbehind)
  exact ⟨hfile, hle, text, cs, htext, hcs⟩

/-- The place of a node, the start and the end of its text, and those of what is inside, stand between
characters of texts that can be read. -/
inductive Node.InText (o : Origin) : Node → Prop where
  | intro {n : Node} (place : ∀ p, n.place.written = some p → p.location.InText o)
      (start : ∀ p, n.start.written = some p → p.location.InText o)
      (stop : ∀ p l, n.stop.written = some p → p.after? = some l → l.InText o)
      (inside : ∀ c ∈ n.children, c.InText o) : InText o n

theorem Node.InText.child {o : Origin} {n c : Node} (h : n.InText o) (hc : c ∈ n.children) :
    c.InText o := by
  cases h with
  | intro _ _ _ inside => exact inside c hc

theorem Node.InText.follows {o : Origin} {n : Node} (h : n.InText o) {kind : DeclKind}
    {l start : Location} (hl : n.location? kind = some l) (hstart : n.startBefore l = some start) :
    l.Follows o start := by
  obtain ⟨hplace, hbegin, hend, _⟩ := h
  obtain ⟨hwritten, hbefore⟩ := Option.filter_eq_some_iff.mp hstart
  obtain ⟨p, hp, rfl⟩ := Option.map_eq_some_iff.mp hwritten
  simp only [Bool.and_eq_true, beq_iff_eq, decide_eq_true_eq] at hbefore
  have hlocation : l.InText o := by
    unfold Node.location? at hl
    -- without a place of its own, and as a parameter without a name, it stands behind its text
    cases hstop : n.stop.written <;> cases hwritten : n.place.written <;>
      simp only [hstop, hwritten, hp] at hl
    case none.none => exact Option.some.inj hl ▸ hbegin p hp
    case some.none q => exact hend q l hstop hl
    case none.some r =>
      split at hl
      · exact Option.some.inj hl ▸ hbegin p hp
      · exact Option.some.inj hl ▸ hplace r hwritten
    case some.some q r =>
      split at hl
      · exact hend q l hstop hl
      · exact Option.some.inj hl ▸ hplace r hwritten
  exact (hbegin p hp).follows hlocation hbefore.1 hbefore.2

namespace Decl

/-- Parameters are looked for behind the name of a declaration whose type is that of functions. Those of
a function itself are declared. -/
structure SeeksParameters (d : Decl) : Prop where
  kind_ne : d.kind ≠ .function
  named : d.isAnonymous = false
  functional : ∃ t, d.type = some t ∧ t.isFunctional

/-- The text from the start of a declaration up to its place can be read. It has been read where
parameters were looked for, and where a parameter was found. -/
structure Placed (o : Origin) (m : SourceMap) (d : Decl) : Prop where
  follows : ∀ start, d.typeStart = some start → d.location.Follows o start
  sought : d.SeeksParameters → (o.text? d.location.file).isSome → m.contains d.location.file
  found : d.kind ≠ .function → ∀ c ∈ d.children, c.kind = .parameter → c.typeStart.isSome →
    m.contains c.location.file

theorem Placed.mono {o : Origin} {m m' : SourceMap} {d : Decl} (hd : d.Placed o m)
    (h : o.Grows m m') : d.Placed o m' :=
  ⟨hd.follows, fun hseeks htext => h.keeps _ (hd.sought hseeks htext),
    fun hkind c hc hparameter hstart => h.keeps _ (hd.found hkind c hc hparameter hstart)⟩

end Decl

section

variable {o : Origin} {m m' : SourceMap} {file : String} {n : Node} {kind : DeclKind} {d : Decl}
  {owner : Location} {offset : Nat}

theorem Decl.Throughout.grows (hd : d.Throughout (Decl.Placed o m)) (h : o.Grows m m') :
    d.Throughout (Decl.Placed o m') :=
  hd.imp fun _ he => he.mono h

theorem RawType.Throughout.grows {t : RawType} (ht : t.Throughout (Decl.Placed o m))
    (h : o.Grows m m') : t.Throughout (Decl.Placed o m') :=
  ht.imp fun _ he => he.mono h

theorem SourceM.read_leaves (hm : o.Holds m) : Leaves m (read o file) fun r m' =>
    o.Grows m m' ∧ r = o.text? file ∧ (r.isSome → m'.contains file) := by
  refine .get_bind ?_
  cases hread : m.text? file with
  | some text =>
    have hcontains : m.contains file := SourceMap.contains_iff.mpr (by simp [hread])
    exact .pure ⟨hm.grows, (hm file text hread).symm, fun _ => hcontains⟩
  | none =>
    cases htext : o.text? file with
    | none => exact .pure ⟨hm.grows, rfl, nofun⟩
    | some text =>
      have hgrown : o.Grows m (m.insert file text) := by
        refine ⟨hm.insert htext, fun other hother => SourceMap.contains_iff.mpr ?_⟩
        rw [SourceMap.text?_insert]
        split
        · rfl
        · exact SourceMap.contains_iff.mp hother
      have hcontains : (m.insert file text).contains file := by
        simp [SourceMap.contains_iff, SourceMap.text?_insert]
      exact .modify_bind (.pure ⟨hgrown, rfl, fun _ => hcontains⟩)

theorem SourceM.textThrough_leaves (hm : o.Holds m) {start stop : Option Point} :
    Leaves m (textThrough o start stop) fun _ m' => o.Grows m m' := by
  unfold textThrough
  split
  · split
    · refine .bind (read_leaves hm) fun text _ h => ?_
      cases text with
      | none => exact .pure h.1
      | some text => exact .lift_bind fun _ _ => .pure h.1
    · exact .pure hm.grows
  · exact .pure hm.grows

theorem Node.attributeName_leaves (hm : o.Holds m) :
    Leaves m (n.attributeName o) fun _ m' => o.Grows m m' := by
  unfold attributeName
  split
  · exact .pure hm.grows
  · refine .bind (SourceM.textThrough_leaves hm) fun spelled m₁ h₁ => ?_
    split
    · exact .pure h₁
    · split
      · exact .pure h₁
      · exact .bind (SourceM.read_leaves h₁.holds) fun _ _ h₂ => .pure (h₁.trans h₂.1)

theorem attributeNames_leaves (hm : o.Holds m) (ns : List Node) :
    Leaves m (attributeNames o ns) fun _ m' => o.Grows m m' := by
  induction ns generalizing m with
  | nil => exact .pure hm.grows
  | cons n ns ih =>
    have hrest : ∀ (name : Option String) m₁, o.Grows m m₁ → Leaves m₁
        (do pure (name.toList ++ (← attributeNames o ns))) fun _ m' => o.Grows m m' :=
      fun name m₁ h₁ => .bind (ih h₁.holds) fun _ _ h₂ => .pure (h₁.trans h₂)
    rw [attributeNames]
    split
    · exact .bind (Node.attributeName_leaves hm) fun name m₁ h₁ => hrest name m₁ h₁
    · exact .bind (.pure (Q := fun _ m' => o.Grows m m') hm.grows) fun name m₁ h₁ => hrest name m₁ h₁

/-- A declaration that has a place and nothing else yet. -/
structure Decl.Begun (o : Origin) (kind : DeclKind) (d : Decl) : Prop where
  kind_eq : d.kind = kind
  children_eq : d.children = []
  type_eq : d.type = none
  follows : ∀ start, d.typeStart = some start → d.location.Follows o start

/-- Nothing was looked for behind a declaration without a type and without parameters. -/
theorem Decl.Begun.complete (hd : d.Begun o kind) {children : List Decl}
    (hchildren : ∀ c ∈ children, c.Throughout (Decl.Placed o m))
    (hkind : ∀ c ∈ children, c.kind ≠ .parameter) (value : Option String) :
    Decl.Throughout (Decl.Placed o m) { d with children, value } := by
  refine Decl.throughout_iff.mpr ⟨⟨hd.follows, fun hseeks => ?_, fun _ c hc hparameter => ?_⟩,
    hchildren, fun t ht => ?_⟩
  · obtain ⟨t, ht, -⟩ := hseeks.functional
    cases hd.type_eq.symm.trans ht
  · exact absurd hparameter (hkind c hc)
  · cases hd.type_eq.symm.trans ht

theorem Decl.Begun.placed (hd : d.Begun o kind) : d.Throughout (Decl.Placed o m) := by
  obtain ⟨_, _, _, _, _, children, _, value⟩ := d
  obtain rfl : children = [] := hd.children_eq
  exact hd.complete (List.forall_mem_nil _) (List.forall_mem_nil _) value

theorem Node.declared_leaves (hm : o.Holds m) (hn : n.InText o) : Leaves m (n.declared o kind)
    fun d m' => o.Grows m m' ∧ d.Begun o kind := by
  refine .lift_bind fun l hl => .bind (attributeNames_leaves hm _) fun _ _ h => .pure ?_
  exact ⟨h, rfl, rfl, rfl, fun _ hstart => hn.follows (fitted_eq_ok_iff.mp hl) hstart⟩

theorem SourceM.location?_leaves (hm : o.Holds m) : Leaves m (location? o file offset) fun r m' =>
    o.Grows m m' ∧ (∀ l, r = some l → l.file = file ∧ l.offset = offset) ∧
      ((∃ text, o.text? file = some text ∧ offset ≤ text.utf8ByteSize) → r.isSome) := by
  refine .bind (read_leaves hm) fun r m₁ ⟨h₁, hr, hcontains⟩ => .get_bind (.pure ⟨h₁, ?_, ?_⟩)
  · intro l hl
    obtain ⟨hfile, hoffset, -⟩ := SourceMap.location?_some hl
    exact ⟨hfile, hoffset⟩
  · rintro ⟨text, htext, hle⟩
    have hfound : m₁.contains file := hcontains (by rw [hr, htext]; rfl)
    obtain ⟨text', htext'⟩ := Option.isSome_iff_exists.mp (SourceMap.contains_iff.mp hfound)
    obtain rfl : text' = text := Option.some.inj ((h₁.holds _ _ htext').symm.trans htext)
    exact SourceMap.location?_isSome htext' hle

/-- The parameter was found in the text of a file that has been read. -/
structure ParamText.FoundIn (o : Origin) (m : SourceMap) (file : String) (p : ParamText) : Prop where
  contains : m.contains file
  within : ∃ text, o.text? file = some text ∧ p.Within 0 text.toList

theorem ParamText.FoundIn.grows {p : ParamText} (hp : p.FoundIn o m file) (h : o.Grows m m') :
    p.FoundIn o m' file :=
  ⟨h.keeps file hp.contains, hp.within⟩

theorem ParamText.FoundIn.nested {p : ParamText} (hp : p.FoundIn o m file) {ps : List ParamText}
    (hps : p.nested = some ps) : ∀ q ∈ ps, q.FoundIn o m file := by
  intro q hq
  obtain ⟨text, htext, hwithin⟩ := hp.within
  cases hwithin with
  | intro _ _ _ nested => exact ⟨hp.contains, text, htext, nested ps hps q hq⟩

/-- The parameters behind a name, if a list of them was found, were found in a text that has been read. -/
def ParamText.AllFoundIn (o : Origin) (m : SourceMap) (file : String)
    (texts : Option (List ParamText)) : Prop :=
  ∀ ps, texts = some ps → ∀ p ∈ ps, p.FoundIn o m file

namespace ParamText.AllFoundIn

variable {texts : Option (List ParamText)}

theorem grows (h : AllFoundIn o m file texts) (hgrown : o.Grows m m') : AllFoundIn o m' file texts :=
  fun ps hps p hp => (h ps hps p hp).grows hgrown

theorem head (h : AllFoundIn o m file texts) :
    ∀ p, texts.bind (·.head?) = some p → p.FoundIn o m file := by
  intro p hp
  obtain ⟨ps, hps, hhead⟩ := Option.bind_eq_some_iff.mp hp
  exact h ps hps p (List.mem_of_head? hhead)

theorem nested (h : AllFoundIn o m file texts) :
    AllFoundIn o m file ((texts.bind (·.head?)).bind (·.nested)) := by
  intro ps hps
  obtain ⟨p, hp, hps⟩ := Option.bind_eq_some_iff.mp hps
  exact (h.head p hp).nested hps

theorem tail (h : AllFoundIn o m file texts) : AllFoundIn o m file (texts.map (·.tail)) := by
  intro ps hps
  obtain ⟨qs, hqs, rfl⟩ := Option.map_eq_some_iff.mp hps
  exact fun p hp => h qs hqs p (List.mem_of_mem_tail hp)

theorem filter (h : AllFoundIn o m file texts) (keep : List ParamText → Bool) :
    AllFoundIn o m file (texts.filter keep) :=
  fun ps hps => h ps (Option.filter_eq_some_iff.mp hps).1

end ParamText.AllFoundIn

theorem ParamText.Within.slice {p : ParamText} {cs : List Char} (h : p.Within 0 cs) :
    p.start ≤ p.nameOffset ∧ p.nameOffset ≤ byteLength cs ∧
      ∃ type, slice? p.start p.nameOffset cs = some type := by
  obtain ⟨-, htype, hname, -⟩ := h
  obtain ⟨type, htype⟩ := Option.isSome_iff_exists.mp htype
  simp only [Nat.sub_zero] at htype hname
  have hle : p.start ≤ p.nameOffset := by
    by_contra hlt
    rw [slice?, if_neg hlt] at htype
    cases htype
  refine ⟨hle, dropBytes?_le ?_, type, htype⟩
  rw [slice?, if_pos (Nat.le_add_right _ _)] at hname
  obtain ⟨rest, hrest, -⟩ := Option.bind_eq_some_iff.mp hname
  simp [hrest]

theorem SourceM.paramPlace_leaves (hm : o.Holds m) {text : Option ParamText}
    (htext : ∀ p, text = some p → p.FoundIn o m owner.file) :
    Leaves m (paramPlace o owner text) fun place m' => o.Grows m m' ∧ place.file = owner.file ∧
      ∀ p, text = some p → place.offset = p.nameOffset := by
  cases text with
  | none => exact .pure ⟨hm.grows, rfl, nofun⟩
  | some p =>
    refine .bind (location?_leaves hm) fun r m₁ ⟨h₁, hsome, hfound⟩ => .pure ⟨h₁, ?_⟩
    obtain ⟨text, htext, hwithin⟩ := (htext p rfl).within
    have hle : p.nameOffset ≤ text.utf8ByteSize := byteLength_toList text ▸ hwithin.slice.2.1
    obtain ⟨l, rfl⟩ := Option.isSome_iff_exists.mp (hfound ⟨text, htext, hle⟩)
    obtain ⟨hfile, hoffset⟩ := hsome l rfl
    refine ⟨hfile, fun q hq => ?_⟩
    cases hq
    exact hoffset

theorem SourceM.paramStart_leaves (hm : o.Holds m) (text : Option ParamText) :
    Leaves m (paramStart o owner text) fun start m' => o.Grows m m' ∧
      ∀ l, start = some l → ∃ p, text = some p ∧ l.file = owner.file ∧ l.offset = p.start := by
  cases text with
  | none => exact .pure ⟨hm.grows, nofun⟩
  | some p => exact (location?_leaves hm).imp fun r m₁ h₁ =>
      ⟨h₁.1, fun l hl => ⟨p, rfl, h₁.2.1 l hl⟩⟩

/-- A parameter behind the name of its owner, in a text that was read if the parameter was found. -/
structure Decl.ParamAt (o : Origin) (m : SourceMap) (file : String) (d : Decl) : Prop where
  placed : d.Throughout (Decl.Placed o m)
  file_eq : d.location.file = file
  found : d.typeStart.isSome → m.contains file

theorem Decl.ParamAt.grows (hd : d.ParamAt o m file) (h : o.Grows m m') : d.ParamAt o m' file :=
  ⟨hd.placed.grows h, hd.file_eq, fun hstart => h.keeps file (hd.found hstart)⟩

theorem Decl.paramAt_of_parts {text : Option ParamText} {place : Location} {start : Option Location}
    {t : RawType} {children : List Decl}
    (htext : ∀ p, text = some p → p.FoundIn o m owner.file) (hfile : place.file = owner.file)
    (hplace : ∀ p, text = some p → place.offset = p.nameOffset)
    (hstart : ∀ l, start = some l → ∃ p, text = some p ∧ l.file = owner.file ∧ l.offset = p.start)
    (ht : t.Throughout (Decl.Placed o m))
    (hchildren : ∀ c ∈ children, c.ParamAt o m place.file) :
    Decl.ParamAt o m owner.file { Decl.bare .parameter ((text.map (·.name)).getD "") place with
      typeStart := start, type := some t, children } := by
  refine ⟨Decl.throughout_iff.mpr ⟨⟨fun l hl => ?_, fun hseeks _ => ?_, fun _ c hc _ hc' => ?_⟩,
    fun c hc => (hchildren c hc).placed, fun u hu => ?_⟩, hfile, fun hsome => ?_⟩
  · obtain ⟨p, hp, hlfile, hloffset⟩ := hstart l hl
    obtain ⟨text, htext, hwithin⟩ := (htext p hp).within
    obtain ⟨hle, -, type, htype⟩ := hwithin.slice
    have hoffset : place.offset = p.nameOffset := hplace p hp
    refine ⟨hlfile.trans hfile.symm, ?_, text, type, hlfile ▸ htext, ?_⟩
    · rw [hloffset]
      exact hle.trans_eq hoffset.symm
    · rw [hloffset]
      exact hoffset ▸ htype
  · cases text with
    | none => exact absurd hseeks.named (by simp [Decl.isAnonymous, Decl.bare])
    | some p => exact hfile ▸ (htext p rfl).contains
  · have hcfile := (hchildren c hc).file_eq
    exact hcfile ▸ (hchildren c hc).found hc'
  · cases hu
    exact ht
  · obtain ⟨l, hl⟩ := Option.isSome_iff_exists.mp hsome
    obtain ⟨p, hp, -⟩ := hstart l hl
    exact (htext p hp).contains

mutual

/-- The parameters that a type makes are placed, and so is what their types name. -/
theorem RawType.paramDecls_leaves : ∀ (t : RawType) {m : SourceMap} {texts : Option (List ParamText)}
    {owner : Location}, o.Holds m → t.Throughout (Decl.Placed o m) →
    ParamText.AllFoundIn o m owner.file texts →
    Leaves m (t.paramDecls o texts owner) fun ds m' =>
      o.Grows m m' ∧ ∀ d ∈ ds, d.ParamAt o m' owner.file
  | ⟨kind, _, _⟩, _, _, _, hm, ht, htexts =>
    kind.paramDecls_leaves hm (RawType.throughout_iff.mp ht).1 htexts

theorem RawKind.paramDecls_leaves : ∀ (k : RawKind) {m : SourceMap}
    {texts : Option (List ParamText)} {owner : Location}, o.Holds m →
    (∀ t ∈ k.parts, t.Throughout (Decl.Placed o m)) →
    ParamText.AllFoundIn o m owner.file texts →
    Leaves m (k.paramDecls o texts owner) fun ds m' =>
      o.Grows m m' ∧ ∀ d ∈ ds, d.ParamAt o m' owner.file
  | .function _ args _, _, _, _, hm, hparts, htexts =>
    RawType.argDecls_leaves args hm (List.forall_mem_cons.mp hparts).2 (htexts.filter _)
  | .pointer pointee, _, _, _, hm, hparts, htexts =>
    pointee.paramDecls_leaves hm (List.forall_mem_singleton.mp hparts) htexts
  | .constantArray element _, _, _, _, hm, hparts, htexts =>
    element.paramDecls_leaves hm (List.forall_mem_singleton.mp hparts) htexts
  | .incompleteArray element, _, _, _, hm, hparts, htexts =>
    element.paramDecls_leaves hm (List.forall_mem_singleton.mp hparts) htexts
  | .builtin _, _, _, _, hm, _, _ => .pure ⟨hm.grows, nofun⟩
  | .elaborated _, _, _, _, hm, _, _ => .pure ⟨hm.grows, nofun⟩
  | .typedef _ _ _, _, _, _, hm, _, _ => .pure ⟨hm.grows, nofun⟩
  | .record _ _, _, _, _, hm, _, _ => .pure ⟨hm.grows, nofun⟩
  | .enum _, _, _, _, hm, _, _ => .pure ⟨hm.grows, nofun⟩
  | .unexposed _, _, _, _, hm, _, _ => .pure ⟨hm.grows, nofun⟩

theorem RawType.argDecls_leaves : ∀ (ts : List RawType) {m : SourceMap}
    {texts : Option (List ParamText)} {owner : Location}, o.Holds m →
    (∀ t ∈ ts, t.Throughout (Decl.Placed o m)) →
    ParamText.AllFoundIn o m owner.file texts →
    Leaves m (RawType.argDecls o texts owner ts) fun ds m' =>
      o.Grows m m' ∧ ∀ d ∈ ds, d.ParamAt o m' owner.file
  | [], _, _, _, hm, _, _ => .pure ⟨hm.grows, nofun⟩
  | t :: ts, m, texts, owner, hm, hts, htexts => by
    obtain ⟨ht, hts⟩ := List.forall_mem_cons.mp hts
    -- texts are read at each step, so what is known before it is carried behind it
    refine .bind (SourceM.paramPlace_leaves hm htexts.head) fun place m₁ ⟨h₁, hfile, hplace⟩ => ?_
    refine .bind (SourceM.paramStart_leaves h₁.holds _) fun start m₂ ⟨h₂, hstart⟩ => ?_
    have hgrown := h₁.trans h₂
    have hnested : ParamText.AllFoundIn o m₂ place.file _ := hfile ▸ htexts.nested.grows hgrown
    have hinner := t.paramDecls_leaves h₂.holds (ht.grows hgrown) hnested
    refine .bind hinner fun children m₃ ⟨h₃, hchildren⟩ => ?_
    have hgrown := hgrown.trans h₃
    have hrest := RawType.argDecls_leaves ts h₃.holds (fun u hu => (hts u hu).grows hgrown)
      (htexts.tail.grows hgrown)
    refine .bind hrest fun ds m₄ ⟨h₄, hds⟩ => .pure ?_
    have hgrown := hgrown.trans h₄
    have hd := Decl.paramAt_of_parts (htexts.grows hgrown).head hfile hplace hstart (ht.grows hgrown)
      fun c hc => (hchildren c hc).grows h₄
    exact ⟨hgrown, List.forall_mem_cons.mpr ⟨hd, hds⟩⟩

end

/-- Where parameters are looked for, the text is read; what is found there is in the text. -/
theorem SourceM.paramTexts_leaves (hm : o.Holds m) (d : Decl) :
    Leaves m (paramTexts o d) fun texts m' => o.Grows m m' ∧
      (d.isAnonymous = false → (o.text? d.location.file).isSome → m'.contains d.location.file) ∧
      ParamText.AllFoundIn o m' d.location.file texts := by
  unfold paramTexts
  split
  · next hnone => exact .pure ⟨hm.grows, by simp [hnone], nofun⟩
  · refine .lift_bind fun stop _ => .bind (read_leaves hm) fun r m₁ ⟨h₁, hr, hcontains⟩ => ?_
    cases r with
    | none => exact .pure ⟨h₁, fun _ hsome => absurd hsome (by simp [← hr]), nofun⟩
    | some text =>
      refine .imp .lift fun texts m' ⟨htexts, hm'⟩ => hm' ▸ ⟨h₁, fun _ _ => hcontains rfl, ?_⟩
      rintro ps rfl p hp
      exact ⟨hcontains rfl, text, hr.symm, ParamText.recover_within (mapError_ok htexts) p hp⟩

theorem Decl.withType_leaves (hm : o.Holds m) (hd : d.Begun o kind) {t : RawType}
    (ht : t.Throughout (Decl.Placed o m)) : Leaves m (d.withType o t) fun d' m' =>
      o.Grows m m' ∧ d'.Throughout (Decl.Placed o m') ∧ d'.kind = kind := by
  unfold withType
  split
  · refine .bind (SourceM.paramTexts_leaves hm d) fun texts m₁ ⟨h₁, hread, hfound⟩ => ?_
    have hparams := t.paramDecls_leaves h₁.holds (ht.grows h₁) hfound
    refine .bind hparams fun params m₂ ⟨h₂, hparams⟩ => .pure ⟨h₁.trans h₂, ?_, hd.kind_eq⟩
    rw [hd.children_eq, List.nil_append]
    refine Decl.throughout_iff.mpr ⟨⟨hd.follows, fun hseeks htext => ?_, fun _ c hc _ hstart => ?_⟩,
      fun c hc => (hparams c hc).placed, fun u hu => ?_⟩
    · exact h₂.keeps _ (hread hseeks.named htext)
    · have hfile := (hparams c hc).file_eq
      exact hfile ▸ (hparams c hc).found hstart
    · cases hu
      exact ht.grows (h₁.trans h₂)
  · next hplain =>
    refine .pure ⟨hm.grows, Decl.throughout_iff.mpr ⟨⟨hd.follows, fun hseeks => ?_, ?_⟩, ?_,
      fun u hu => ?_⟩, hd.kind_eq⟩
    · obtain ⟨u, hu, hfunctional⟩ := hseeks.functional
      cases hu
      exact absurd hfunctional hplain
    · simp [hd.children_eq]
    · simp [hd.children_eq]
    · cases hu
      exact ht

theorem Node.typed_leaves (hm : o.Holds m) (hn : n.InText o) {t : RawType}
    (ht : t.Throughout (Decl.Placed o m)) : Leaves m (n.typed o kind t) fun d m' =>
      o.Grows m m' ∧ d.Throughout (Decl.Placed o m') ∧ d.kind = kind := by
  refine .bind (n.declared_leaves hm hn) fun d m₁ ⟨h₁, hd⟩ => ?_
  exact (Decl.withType_leaves h₁.holds hd (ht.grows h₁)).imp fun _ _ h₂ =>
    ⟨h₁.trans h₂.1, h₂.2⟩

theorem Node.constantValue_leaves (hm : o.Holds m) (before : Option (String × String)) :
    Leaves m (n.constantValue o before) fun _ m' => o.Grows m m' := by
  unfold constantValue
  split
  · exact .pure hm.grows
  · split
    · exact .bind (.bind (SourceM.textThrough_leaves hm) fun _ _ h => .pure h) fun _ _ h => .pure h
    · exact .imp .lift fun _ _ ⟨_, hsame⟩ => hsame ▸ hm.grows

theorem constants_leaves (hm : o.Holds m) (before : Option (String × String)) {ns : List Node}
    (hns : ∀ n ∈ ns, n.InText o) : Leaves m (constants o before ns) fun ds m' =>
      o.Grows m m' ∧ ∀ d ∈ ds, d.Throughout (Decl.Placed o m') ∧ d.kind = .enumConstant := by
  induction ns generalizing m before with
  | nil => exact .pure ⟨hm.grows, nofun⟩
  | cons n ns ih =>
    obtain ⟨hn, hns⟩ := List.forall_mem_cons.mp hns
    refine .bind (n.constantValue_leaves hm before) fun value m₁ h₁ => ?_
    refine .bind (n.declared_leaves h₁.holds hn) fun d m₂ ⟨h₂, hd⟩ => ?_
    refine .bind (ih h₂.holds _ hns) fun ds m₃ ⟨h₃, hds⟩ => .pure ?_
    have hplaced : Decl.Throughout (Decl.Placed o m₃) { d with children := [], value := some value } :=
      hd.complete (List.forall_mem_nil _) (List.forall_mem_nil _) (some value)
    rw [← hd.children_eq] at hplaced
    exact ⟨(h₁.trans h₂).trans h₃, List.forall_mem_cons.mpr ⟨⟨hplaced, hd.kind_eq⟩, hds⟩⟩

theorem Node.enumeration_leaves (hm : o.Holds m) (hn : n.InText o) :
    Leaves m (n.enumeration o) fun d m' =>
      o.Grows m m' ∧ d.Throughout (Decl.Placed o m') ∧ d.kind = .enum := by
  refine .bind (n.declared_leaves hm hn) fun d m₁ ⟨h₁, hd⟩ => ?_
  have hinside : ∀ c ∈ n.children.filter (·.kind == "EnumConstantDecl"), c.InText o :=
    fun c hc => hn.child (List.mem_filter.mp hc).1
  refine .bind (constants_leaves h₁.holds none hinside) fun ds m₂ ⟨h₂, hds⟩ => .pure ?_
  have hplaced := hd.complete (fun c hc => (hds c hc).1) (fun c hc => by simp [(hds c hc).2]) d.value
  exact ⟨h₁.trans h₂, hplaced, hd.kind_eq⟩

end

end Bindery
