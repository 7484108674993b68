import Bindery.Dump.Declaration
import Bindery.Proofs.Dump.Step
import Bindery.Proofs.Header

/-! What the declarations built from single nodes say of them, and where building one stops. -/

namespace Bindery

variable {o : Origin} {F : Prop} {file : String} {owner : Location} {kind : DeclKind} {n : Node}

/-- The texts are those of the header and of the files that can be read. -/
def Origin.Holds (o : Origin) (m : SourceMap) : Prop :=
  ∀ file text, m.text? file = some text → o.text? file = some text

theorem Origin.holds_empty (o : Origin) : o.Holds {} :=
  nofun

theorem SourceMap.text?_insert (m : SourceMap) (name text file : String) :
    (m.insert name text).text? file = if file = name then some text else m.text? file := by
  by_cases h : file = name
  · simp [text?, insert, h]
  · have hrest : (m.files.filter (·.1 != name)).find? (·.1 == file) =
        m.files.find? (·.1 == file) := by
      rw [List.find?_filter]
      congr 1
      funext f
      by_cases hf : f.1 = file <;> simp [hf, h]
    have hhead : (name == file) = false := beq_false_of_ne (Ne.symm h)
    rw [if_neg h, text?, insert, List.find?_cons, hhead, hrest]
    rfl

theorem Origin.Holds.insert {m : SourceMap} {text : String} (hm : o.Holds m)
    (htext : o.text? file = some text) : o.Holds (m.insert file text) := by
  intro other t ht
  rw [SourceMap.text?_insert] at ht
  split at ht
  · next h => rw [h, htext, ht]
  · exact hm other t ht

theorem SourceM.read_gives : Gives o.Holds F (read o file) fun r => r = o.text? file := by
  refine .get_bind fun m hm => ?_
  cases hread : m.text? file with
  | some text => exact .pure (hm file text hread).symm
  | none =>
    cases htext : o.text? file with
    | none => exact .pure rfl
    | some text => exact .bind (.modify fun m hm => hm.insert htext) fun _ _ => .pure rfl

theorem SourceM.location?_gives {offset : Nat} :
    Gives o.Holds F (location? o file offset) fun _ => True :=
  .bind read_gives fun _ _ => .get_bind fun _ _ => .pure trivial

theorem fitted_eq_ok_iff {α : Type} {x : Option α} {a : α} : fitted x = .ok a ↔ x = some a := by
  cases x <;> simp [fitted]

theorem fitted_needs {σ α : Type} {I : σ → Prop} (x : Option α) :
    Needs I (x.isSome) (liftM (fitted x) : StateT σ (Except LoadFault) α) fun a => x = some a := by
  refine .imp (.lift ?_) fun a ha => fitted_eq_ok_iff.mp ha
  simp only [fitted_eq_ok_iff, Option.isSome_iff_exists]

/-- The text from one position up to the end of another of the same file. -/
def Origin.between? (o : Origin) (start stop : Option Point) : Option (List Char) :=
  match start, stop with
  | some p, some q =>
    if p.file == q.file then
      (o.text? p.file).bind fun text => q.stop?.bind fun stop => slice? p.offset stop text.toList
    else none
  | _, _ => none

/-- The text between two positions, if there is one to be read, ends at an offset of 64 bits. -/
def Origin.Spans (o : Origin) (start stop : Option Point) : Prop :=
  ∀ p q, start = some p → stop = some q → p.file = q.file → (o.text? p.file).isSome → q.stop?.isSome

theorem SourceM.textThrough_needs {start stop : Option Point} :
    Needs o.Holds (o.Spans start stop) (textThrough o start stop) fun cs =>
      cs = o.between? start stop := by
  unfold textThrough
  split
  · next p q =>
    split
    · next hfile =>
      refine .after read_gives fun text htext => ?_
      have hspans : (text.isSome → q.stop?.isSome) ↔ o.Spans (some p) (some q) := by
        simp [Origin.Spans, htext, eq_of_beq hfile]
      have hbetween : o.between? (some p) (some q) =
          text.bind fun text => q.stop?.bind fun stop => slice? p.offset stop text.toList := by
        rw [Origin.between?, if_pos hfile, htext]
      rw [hbetween]
      refine .congr ?_ hspans
      cases text with
      | none => exact .of_true (by simp) (.pure rfl)
      | some text =>
        have hstop : q.stop?.isSome ↔ ((some text).isSome → q.stop?.isSome) := by simp
        refine .congr (.before (fitted_needs q.stop?) fun stop hfits => .pure ?_) hstop
        rw [hfits, Option.bind_some, Option.bind_some]
    · next hfile =>
      have hspans : o.Spans (some p) (some q) := by
        rintro _ _ ⟨⟩ ⟨⟩ hsame
        exact absurd (beq_iff_eq.mpr hsame) hfile
      exact .of_true hspans (.pure (by rw [Origin.between?, if_neg hfile]))
  · next hmissing =>
    refine .of_true (fun p q hp hq => (hmissing p q hp hq).elim) (.pure ?_)
    rw [Origin.between?]
    exact hmissing

/-- The text of an attribute can be looked at, unless the dump gives the name in it. -/
def Node.Spelled (o : Origin) (n : Node) : Prop :=
  n.mark = none → o.Spans n.start.spelling n.stop.spelling

theorem Node.attributeName_needs :
    Needs o.Holds (n.Spelled o) (n.attributeName o) fun _ => True := by
  unfold attributeName
  split
  · next name hmark => exact .of_true (fun hnone => by simp [hmark] at hnone) (.pure trivial)
  · next hmark =>
    have hspelled : o.Spans n.start.spelling n.stop.spelling ↔ n.Spelled o := by simp [Spelled, hmark]
    refine .congr (.before SourceM.textThrough_needs fun spelled _ => ?_) hspelled
    split
    · exact .pure trivial
    · split
      · exact .pure trivial
      · exact .bind SourceM.read_gives fun _ _ => .pure trivial

theorem attributeNames_needs (ns : List Node) :
    Needs o.Holds (∀ a ∈ ns, a.kind = "AnnotateAttr" → a.Spelled o) (attributeNames o ns)
      fun _ => True := by
  induction ns with
  | nil => exact .of_true nofun (.pure trivial)
  | cons n ns ih =>
    have hrest : ∀ name : Option String, Needs o.Holds
        (∀ a ∈ ns, a.kind = "AnnotateAttr" → a.Spelled o)
        (do pure (name.toList ++ (← attributeNames o ns))) fun _ => True :=
      fun name => .before ih fun _ _ => .pure trivial
    rw [attributeNames]
    refine .congr ?_ List.forall_mem_cons.symm
    split
    · next hkind =>
      exact (Needs.bind Node.attributeName_needs fun name _ => hrest name).congr
        (and_congr_left' (by simp [eq_of_beq hkind]))
    · next hkind =>
      refine .bind (R := fun _ => True) (.of_true ?_ (.pure trivial)) fun name _ => hrest name
      exact fun hsame => absurd (beq_iff_eq.mpr hsame) hkind

/-- The place of a node as a declaration of a kind fits its words, and its attributes can be read. -/
structure Node.Placeable (o : Origin) (kind : DeclKind) (n : Node) : Prop where
  place : (n.location? kind).isSome
  marks : ∀ a ∈ n.children, a.kind = "AnnotateAttr" → a.Spelled o

/-- The declaration has the given kind, and the name and the place of the node. -/
structure Decl.Heads (d : Decl) (kind : DeclKind) (n : Node) : Prop where
  kind_eq : d.kind = kind
  name_eq : d.name = n.name
  location_eq : n.location? kind = some d.location

theorem Node.declared_needs (n : Node) (kind : DeclKind) :
    Needs o.Holds (n.Placeable o kind) (n.declared o kind) fun d =>
      d.Heads kind n ∧ d.children = [] := by
  refine (Needs.bind (fitted_needs (n.location? kind)) fun l hl => ?_).congr
    ⟨fun ⟨hplace, hmarks⟩ => ⟨hplace, hmarks⟩, fun h => ⟨h.place, h.marks⟩⟩
  exact .before (attributeNames_needs _) fun _ _ => .pure ⟨⟨rfl, rfl, hl⟩, rfl⟩

theorem SourceM.paramPlace_gives {text : Option ParamText} :
    Gives o.Holds F (paramPlace o owner text) fun _ => True := by
  cases text with
  | none => exact .pure trivial
  | some p => exact .bind location?_gives fun _ _ => .pure trivial

theorem SourceM.paramStart_gives {text : Option ParamText} :
    Gives o.Holds F (paramStart o owner text) fun _ => True := by
  cases text with
  | none => exact .pure trivial
  | some p => exact location?_gives

mutual

theorem RawType.paramDecls_gives (texts : Option (List ParamText)) (owner : Location) :
    ∀ t : RawType, Gives o.Holds F (t.paramDecls o texts owner) fun _ => True
  | ⟨kind, _, _⟩ => kind.paramDecls_gives texts owner

theorem RawKind.paramDecls_gives (texts : Option (List ParamText)) (owner : Location) :
    ∀ k : RawKind, Gives o.Holds F (k.paramDecls o texts owner) fun _ => True
  | .function _ args _ => RawType.argDecls_gives _ owner args
  | .pointer pointee => pointee.paramDecls_gives texts owner
  | .constantArray element _ => element.paramDecls_gives texts owner
  | .incompleteArray element => element.paramDecls_gives texts owner
  | .builtin _ => .pure trivial
  | .elaborated _ => .pure trivial
  | .typedef _ _ _ => .pure trivial
  | .record _ _ => .pure trivial
  | .enum _ => .pure trivial
  | .unexposed _ => .pure trivial

theorem RawType.argDecls_gives (texts : Option (List ParamText)) (owner : Location) :
    ∀ ts : List RawType, Gives o.Holds F (RawType.argDecls o texts owner ts) fun _ => True
  | [] => .pure trivial
  | t :: ts =>
    .bind SourceM.paramPlace_gives fun place _ =>
      .bind SourceM.paramStart_gives fun _ _ =>
        .bind (t.paramDecls_gives _ place) fun _ _ =>
          .bind (RawType.argDecls_gives _ owner ts) fun _ _ => .pure trivial

end

/-- A name at a place ends at an offset of 64 bits, and within the text that it is written in, if there is
such a text. -/
def Location.Carries (o : Origin) (l : Location) (name : String) : Prop :=
  (l.behind? name).isSome ∧ ∀ stop, l.behind? name = some stop →
    ∀ text, o.text? l.file = some text → (dropBytes? stop text.toList).isSome

theorem Location.carries_iff {l : Location} {name : String} : l.Carries o name ↔
    (l.behind? name).any fun stop =>
      (o.text? l.file).all fun text => (dropBytes? stop text.toList).isSome := by
  rw [Carries]
  cases l.behind? name <;> simp [Option.all_eq_true]

/-- A node has no name, or its name can be read at its place. -/
def Node.Legible (o : Origin) (n : Node) : Prop :=
  ∀ kind l, n.name.isEmpty = false → n.location? kind = some l → l.Carries o n.name

/-- The place of a node with a name does not depend on what it declares. -/
theorem Node.legible_iff {l : Location} (hnamed : n.name.isEmpty = false)
    (hl : n.location? kind = some l) : n.Legible o ↔ l.Carries o n.name := by
  have hplace : ∀ k, n.location? k = n.location? kind := by
    intro k
    simp only [location?, hnamed, Bool.and_false, Bool.false_eq_true, if_false]
  refine ⟨fun h => h kind l hnamed hl, fun h k l' _ hl' => ?_⟩
  rw [hplace, hl] at hl'
  exact Option.some.inj hl' ▸ h

/-- The parameters behind a name can be looked for exactly if the name is legible. -/
theorem SourceM.paramTexts_needs {d : Decl} (hd : d.Heads kind n) :
    Needs o.Holds (n.Legible o) (paramTexts o d) fun _ => True := by
  unfold paramTexts
  rw [Decl.isAnonymous, hd.name_eq]
  cases hnamed : n.name.isEmpty with
  | true =>
    have hlegible : n.Legible o := fun _ _ hfalse => absurd (hnamed.symm.trans hfalse) (by simp)
    exact .of_true hlegible (.pure trivial)
  | false =>
    rw [n.legible_iff hnamed hd.location_eq]
    refine .determined (fitted_needs _) fun stop _ => .after read_gives fun text htext => ?_
    simp only [← htext]
    cases text with
    | none => exact .of_true nofun (.pure trivial)
    | some text =>
      refine .imp (.lift ?_) fun _ _ => trivial
      rw [ParamText.recover]
      cases hends : dropBytes? stop text.toList <;> simp [hends, Except.mapError]

theorem Decl.withType_needs {d : Decl} (t : RawType) (hd : d.Heads kind n) :
    Needs o.Holds (t.isFunctional → n.Legible o) (d.withType o t) fun d' => d'.Heads kind n := by
  have hsame : ∀ (type : Option RawType) (children : List Decl),
      ({ d with type, children } : Decl).Heads kind n :=
    fun _ _ => ⟨hd.kind_eq, hd.name_eq, hd.location_eq⟩
  unfold withType
  split
  · next hfunctional =>
    have hsearch : Needs o.Holds (n.Legible o) (SourceM.paramTexts o d >>= fun texts => do
        let params ← t.paramDecls o texts d.location
        pure { d with type := some t, children := d.children ++ params }) (·.Heads kind n) :=
      .before (SourceM.paramTexts_needs hd) fun _ _ =>
        .bind (t.paramDecls_gives _ _) fun _ _ => .pure (hsame _ _)
    exact hsearch.congr (by simp [hfunctional])
  · next hother => exact .of_true (fun h => absurd h hother) (.pure (hsame _ _))

theorem Node.typed_needs (n : Node) (kind : DeclKind) (t : RawType) :
    Needs o.Holds (n.Placeable o kind ∧ (t.isFunctional → n.Legible o)) (n.typed o kind t) fun d =>
      d.Heads kind n :=
  .bind (n.declared_needs kind) fun _ hd => Decl.withType_needs t hd.1

theorem Decl.Heads.key_eq {d : Decl} (hd : d.Heads kind n) : d.key = (kind, n.name) :=
  Prod.ext hd.kind_eq hd.name_eq

theorem Node.writtenText_needs :
    Needs o.Holds (o.Spans n.start.written n.stop.written) (n.writtenText o) fun text =>
      text = (o.between? n.start.written n.stop.written).map fun cs => String.ofList (trim cs) :=
  .before SourceM.textThrough_needs fun _ hcs => .pure (by rw [hcs])

/-- What a constant is initialized with, if it is. -/
def Node.initializer? (n : Node) : Option Node :=
  n.children.find? (!·.kind.endsWith "Attr")

/-- The text of the value of a constant behind the constant `before`. There is none for a number that
does not fit its word. -/
def Node.valueBehind? (o : Origin) (before : Option (String × String)) (n : Node) : Option String :=
  match n.firstValue, n.initializer? with
  | some value, _ => some value
  | none, some init => some <|
    ((o.between? init.start.written init.stop.written).map fun cs => String.ofList (trim cs)).getD ""
  | none, none => countedValue? before

/-- The initializer of a constant can be looked at, unless the constant was evaluated. -/
def Node.Initialized (o : Origin) (n : Node) : Prop :=
  ∀ init, n.firstValue = none → n.initializer? = some init →
    o.Spans init.start.written init.stop.written

theorem Node.constantValue_needs {before : Option (String × String)} :
    Needs o.Holds (n.Initialized o ∧ (n.valueBehind? o before).isSome) (n.constantValue o before)
      fun value => n.valueBehind? o before = some value := by
  unfold constantValue valueBehind?
  cases hvalue : n.firstValue with
  | some value => exact .of_true ⟨fun _ hnone => by simp [hvalue] at hnone, rfl⟩ (.pure rfl)
  | none =>
    cases hinit : n.initializer? with
    | some init =>
      have hspans : o.Spans init.start.written init.stop.written ↔ n.Initialized o ∧ True := by
        simp [Initialized, hvalue, hinit]
      rw [initializer?] at hinit
      simp only [hinit]
      refine .congr (.before Node.writtenText_needs fun text htext => .pure ?_) (hspans.trans (by simp))
      rw [htext]
    | none =>
      have hplain : n.Initialized o := fun init _ hsome => by simp [hinit] at hsome
      rw [initializer?] at hinit
      simp only [hinit]
      exact (fitted_needs (countedValue? before)).congr (by simp [hplain])

/-- Constants behind the constant `before` have values and places. -/
def ConstantsFit (o : Origin) : Option (String × String) → List Node → Prop
  | _, [] => True
  | before, n :: ns => (n.Initialized o ∧ (n.valueBehind? o before).isSome) ∧
    ∀ value, n.valueBehind? o before = some value →
      n.Placeable o .enumConstant ∧ ConstantsFit o (some (n.name, value)) ns

/-- The declarations are those of constants, with their values. -/
inductive ConstantsOf (o : Origin) : Option (String × String) → List Node → List Decl → Prop where
  | nil {before : Option (String × String)} : ConstantsOf o before [] []
  | cons {before : Option (String × String)} {n : Node} {ns : List Node} {d : Decl} {ds : List Decl}
      {value : String} (heads : d.Heads .enumConstant n) (value_eq : d.value = some value)
      (counted : n.valueBehind? o before = some value)
      (rest : ConstantsOf o (some (n.name, value)) ns ds) : ConstantsOf o before (n :: ns) (d :: ds)

theorem ConstantsOf.keys {before : Option (String × String)} {ns : List Node} {ds : List Decl}
    (h : ConstantsOf o before ns ds) :
    ds.map Decl.key = ns.map fun n => (.enumConstant, n.name) := by
  induction h with
  | nil => rfl
  | cons heads _ _ _ ih => rw [List.map_cons, List.map_cons, ih, heads.key_eq]

theorem constants_needs (before : Option (String × String)) (ns : List Node) :
    Needs o.Holds (ConstantsFit o before ns) (constants o before ns) (ConstantsOf o before ns) := by
  induction ns generalizing before with
  | nil => exact .of_true trivial (.pure .nil)
  | cons n ns ih =>
    refine .determined Node.constantValue_needs fun value hvalue => ?_
    refine .bind (n.declared_needs .enumConstant) fun d hd => ?_
    refine .before (ih _) fun ds hds => .pure (.cons ?_ rfl hvalue hds)
    exact ⟨hd.1.kind_eq, hd.1.name_eq, hd.1.location_eq⟩

/-- The nodes of the constants of an enumeration. -/
def Node.constantNodes (n : Node) : List Node :=
  n.children.filter (·.kind == "EnumConstantDecl")

/-- The kind and the name of the constants of an enumeration, in order. -/
def Node.constantKeys (n : Node) : List (DeclKind × String) :=
  n.constantNodes.map fun c => (.enumConstant, c.name)

theorem Node.enumeration_needs (n : Node) :
    Needs o.Holds (n.Placeable o .enum ∧ ConstantsFit o none n.constantNodes) (n.enumeration o)
      fun d => d.Heads .enum n ∧ ConstantsOf o none n.constantNodes d.children := by
  refine .bind (n.declared_needs .enum) fun d hd => ?_
  refine .before (constants_needs none _) fun ds hds => .pure ⟨?_, hds⟩
  exact ⟨hd.1.kind_eq, hd.1.name_eq, hd.1.location_eq⟩

end Bindery
