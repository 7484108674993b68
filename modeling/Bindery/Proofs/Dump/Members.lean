import Mathlib.Data.List.Forall2
import Bindery.Proofs.Dump.Built

/-! Which children of a record its members are built from. A field may take an unnamed record away. -/

namespace Bindery

namespace Node

def isNamedField (n : Node) : Bool :=
  n.kind == "FieldDecl" && !(n.isImplicit || n.name.isEmpty)

def isUnnamedRecord (n : Node) : Bool :=
  n.kind == "RecordDecl" && n.name.isEmpty

def isMember (n : Node) : Bool :=
  n.isNamedField || n.kind == "RecordDecl"

/-- A field that takes the member before it away if that is a record without a name. -/
def isTaker (n : Node) : Bool :=
  n.isNamedField && LoadM.hasUnnamedType n

/-- The children that members are built from, behind those in `seen`, which are in reverse. -/
def keptBehind (seen : List Node) : List Node → List Node
  | [] => seen.reverse
  | n :: ns =>
    if n.isTaker && seen.head?.any isUnnamedRecord then keptBehind seen.tail ns
    else if n.isMember then keptBehind (n :: seen) ns
    else keptBehind seen ns

def kept (ns : List Node) : List Node :=
  keptBehind [] ns

/-- The field that takes a record without a name away and what is behind it, when there are `depth`
others between the record and `ns`. -/
def taker? (depth : Nat) : List Node → Option (Node × List Node)
  | [] => none
  | n :: ns =>
    if n.isTaker then
      match depth with
      | 0 => some (n, ns)
      | depth + 1 => taker? depth ns
    else if n.isUnnamedRecord then taker? (depth + 1) ns
    else if n.isMember then none
    else taker? depth ns

section Kept

variable {n r f : Node} {ns us seen front back rest : List Node}

theorem isUnnamedRecord_of_isTaker (h : n.isTaker) : n.isUnnamedRecord = false := by
  have hkind : n.kind = "FieldDecl" := by simp_all [isTaker, isNamedField]
  simp [isUnnamedRecord, hkind]

theorem isMember_of_isUnnamedRecord (h : n.isUnnamedRecord) : n.isMember := by
  simp_all [isUnnamedRecord, isMember]

theorem keptBehind_append (seen front back : List Node) :
    keptBehind seen (front ++ back) = keptBehind (keptBehind seen front).reverse back := by
  induction front generalizing seen with
  | nil => simp [keptBehind]
  | cons n front ih =>
    simp only [List.cons_append, keptBehind]
    split
    · exact ih _
    · split <;> exact ih _

/-- Nothing is taken away from below a member that is no record without a name. -/
theorem keptBehind_over (hr : r.isUnnamedRecord = false) (seen ns us : List Node) :
    keptBehind (us ++ r :: seen) ns = (r :: seen).reverse ++ keptBehind us ns := by
  induction ns generalizing us with
  | nil => simp [keptBehind]
  | cons n ns ih =>
    have hpush : keptBehind (n :: us ++ r :: seen) ns = (r :: seen).reverse ++ keptBehind (n :: us) ns :=
      ih (n :: us)
    cases us with
    | nil =>
      by_cases hmember : n.isMember
      · simpa [keptBehind, hr, hmember] using hpush
      · simpa [keptBehind, hr, hmember] using ih []
    | cons u us =>
      by_cases htakes : n.isTaker ∧ u.isUnnamedRecord
      · simpa [keptBehind, htakes] using ih us
      · by_cases hmember : n.isMember
        · simpa [keptBehind, htakes, hmember] using hpush
        · simpa [keptBehind, htakes, hmember] using ih (u :: us)

theorem keptBehind_safe (seen : List Node) (hus : ∀ u ∈ us, u.isUnnamedRecord)
    (h : taker? us.length ns = none) :
    keptBehind (us ++ seen) ns = seen.reverse ++ keptBehind us ns := by
  induction ns generalizing us with
  | nil => simp [keptBehind]
  | cons n ns ih =>
    by_cases htaker : n.isTaker
    · cases us with
      | nil => simp [taker?, htaker] at h
      | cons u us =>
        obtain ⟨hu, hus⟩ := List.forall_mem_cons.mp hus
        have hrest := ih hus (by simpa [taker?, htaker] using h)
        simpa [keptBehind, htaker, hu] using hrest
    · by_cases hrecord : n.isUnnamedRecord
      · have hrest := ih (List.forall_mem_cons.mpr ⟨hrecord, hus⟩)
          (by simpa [taker?, htaker, hrecord] using h)
        simpa [keptBehind, htaker, isMember_of_isUnnamedRecord hrecord] using hrest
      · by_cases hmember : n.isMember
        · have hbarrier : n.isUnnamedRecord = false := by simpa using hrecord
          have hwith := keptBehind_over hbarrier (us ++ seen) ns []
          have hwithout := keptBehind_over hbarrier us ns []
          simp only [List.nil_append] at hwith hwithout
          simp [keptBehind, htaker, hmember, hwith, hwithout]
        · have hrest := ih hus (by simpa [taker?, htaker, hrecord, hmember] using h)
          simpa [keptBehind, htaker, hmember] using hrest

theorem keptBehind_taken (seen : List Node) (hr : r.isUnnamedRecord)
    (hus : ∀ u ∈ us, u.isUnnamedRecord) (h : taker? us.length ns = some (f, rest)) :
    f ∈ ns ∧ f.isTaker ∧ keptBehind (us ++ r :: seen) ns = keptBehind seen rest := by
  induction ns generalizing us with
  | nil => cases h
  | cons n ns ih =>
    by_cases htaker : n.isTaker
    · cases us with
      | nil =>
        obtain ⟨rfl, rfl⟩ : n = f ∧ ns = rest := by simpa [taker?, htaker] using h
        exact ⟨.head _, htaker, by simp [keptBehind, htaker, hr]⟩
      | cons u us =>
        obtain ⟨hu, hus⟩ := List.forall_mem_cons.mp hus
        obtain ⟨hmem, hf, hrest⟩ := ih hus (by simpa [taker?, htaker] using h)
        exact ⟨.tail _ hmem, hf, by simpa [keptBehind, htaker, hu] using hrest⟩
    · by_cases hrecord : n.isUnnamedRecord
      · obtain ⟨hmem, hf, hrest⟩ := ih (List.forall_mem_cons.mpr ⟨hrecord, hus⟩)
          (by simpa [taker?, htaker, hrecord] using h)
        refine ⟨.tail _ hmem, hf, ?_⟩
        simpa [keptBehind, htaker, isMember_of_isUnnamedRecord hrecord] using hrest
      · by_cases hmember : n.isMember
        · simp [taker?, htaker, hrecord, hmember] at h
        · obtain ⟨hmem, hf, hrest⟩ := ih hus (by simpa [taker?, htaker, hrecord, hmember] using h)
          exact ⟨.tail _ hmem, hf, by simpa [keptBehind, htaker, hmember] using hrest⟩

theorem kept_unnamed (hr : r.isUnnamedRecord) (front back : List Node) :
    kept (front ++ r :: back) = keptBehind (r :: (kept front).reverse) back := by
  have htaker : r.isTaker = false := by
    by_contra h
    rw [isUnnamedRecord_of_isTaker (by simpa using h)] at hr
    cases hr
  simp [kept, keptBehind_append, keptBehind, htaker, isMember_of_isUnnamedRecord hr]

theorem kept_safe (hr : r.isUnnamedRecord) (h : taker? 0 back = none) :
    kept (front ++ r :: back) = kept front ++ r :: kept back := by
  have hnone : ∀ u ∈ ([] : List Node), u.isUnnamedRecord := nofun
  have hsafe := keptBehind_safe (r :: (kept front).reverse) hnone h
  rw [kept_unnamed hr]
  simpa [kept] using hsafe

/-- A field that takes a record away leaves what would be kept without them and all between them. -/
theorem kept_taken (front : List Node) (hr : r.isUnnamedRecord) (h : taker? 0 back = some (f, rest)) :
    f ∈ back ∧ f.isTaker ∧ kept (front ++ r :: back) = kept (front ++ rest) := by
  have hnone : ∀ u ∈ ([] : List Node), u.isUnnamedRecord := nofun
  obtain ⟨hmem, hf, htaken⟩ := keptBehind_taken (kept front).reverse hr hnone h
  refine ⟨hmem, hf, ?_⟩
  rw [kept_unnamed hr]
  simpa [kept, keptBehind_append] using htaken

end Kept

end Node

namespace LoadM

variable {names : DumpNames} {all : List Node} {c n : Node} {d e : Decl}

/-- How a child of a record becomes a member. -/
def member (names : DumpNames) (c : Node) : LoadM Decl :=
  if c.kind == "FieldDecl" then typed names .field c else record names c

theorem member_field (h : c.kind = "FieldDecl") : member names c = typed names .field c :=
  if_pos (by simp [h])

theorem member_record (h : c.kind ≠ "FieldDecl") : member names c = record names c :=
  if_neg (by simpa using h)

/-- The declaration is one that the child becomes in a state between the declarations. -/
def BuiltFrom (names : DumpNames) (all : List Node) (c : Node) (d : Decl) : Prop :=
  ∃ s s', s.Checked names all ∧ (member names c).run s = .ok (d, s')

theorem BuiltFrom.heads (h : BuiltFrom names all c d) :
    d.Heads (if c.kind == "FieldDecl" then .field else c.recordKind) c := by
  obtain ⟨s, s', hs, hd⟩ := h
  by_cases hfield : c.kind = "FieldDecl"
  · rw [member_field hfield] at hd
    simpa [hfield] using ((typed_needs c rfl s hs).1 d s' hd).1.2
  · rw [member_record hfield] at hd
    simpa [hfield] using ((record_needs c s hs).1 d s' hd).1.2.1

theorem endsUnnamed_built (hc : c.isMember) (hd : BuiltFrom names all c d) (ds : List Decl) :
    endsUnnamed (d :: ds) = c.isUnnamedRecord := by
  obtain ⟨hkind, hname, -⟩ := hd.heads
  have hends : endsUnnamed (d :: ds) = (d.kind.isRecord && c.name.isEmpty) := by
    rw [← hname]
    rfl
  by_cases hfield : c.kind = "FieldDecl"
  · simp [hends, hkind, hfield, Node.isUnnamedRecord, DeclKind.isRecord]
  · have hrecord : c.kind = "RecordDecl" := by simpa [Node.isMember, Node.isNamedField, hfield] using hc
    have htag : c.recordKind.isRecord := by
      unfold Node.recordKind
      split <;> rfl
    simp [hends, hkind, hrecord, htag, Node.isUnnamedRecord]

theorem member_built (c : Node) :
    Gives (Loading.Checked names all) True (member names c) (BuiltFrom names all c) := by
  have hrun : ∀ {P : Prop} {Q : Decl → Prop}, Needs (Loading.Checked names all) P (member names c) Q →
      Gives (Loading.Checked names all) True (member names c) (BuiltFrom names all c) := by
    intro P Q h
    have h := Gives.fails h.run fun _ => trivial
    exact h.imp fun d ⟨_, _, s, s', hs, hd⟩ => ⟨s, s', hs, hd⟩
  by_cases hfield : c.kind = "FieldDecl"
  · refine hrun (P := Part.Typable names all ⟨.field, c⟩) (Q := fun d => d.Heads .field c) ?_
    rw [member_field hfield]
    exact typed_needs c rfl
  · have hrecord : Needs (Loading.Checked names all) _ (record names c) _ := record_needs c
    rw [← member_record hfield] at hrecord
    exact hrun hrecord

/-- The members are built in order, one from each child that is kept. -/
theorem members_built (ns : List Node) {seen : List Node} {ds : List Decl}
    (hseen : ∀ c ∈ seen, c.isMember) (h : List.Forall₂ (BuiltFrom names all) seen ds) :
    Gives (Loading.Checked names all) True (members names ds ns)
      (List.Forall₂ (BuiltFrom names all) (Node.keptBehind seen ns)) := by
  induction ns generalizing seen ds with
  | nil => exact .pure (List.forall₂_reverse_iff.mpr h)
  | cons n ns ih =>
    have hends : endsUnnamed ds = seen.head?.any Node.isUnnamedRecord := by
      cases h with
      | nil => rfl
      | cons hd _ => exact endsUnnamed_built (hseen _ (.head _)) hd _
    have hnext : n.isMember → Gives (Loading.Checked names all) True
        (do members names ((← member names n) :: ds) ns)
        (List.Forall₂ (BuiltFrom names all) (Node.keptBehind (n :: seen) ns)) :=
      fun hn => .bind (member_built n) fun d hd =>
        ih (List.forall_mem_cons.mpr ⟨hn, hseen⟩) (.cons hd h)
    have hskip := ih hseen h
    have htail := ih (fun c hc => hseen c (List.mem_of_mem_drop hc)) (List.forall₂_drop 1 h)
    rw [List.drop_one, List.drop_one] at htail
    rw [members, hends]
    by_cases hfield : n.kind = "FieldDecl"
    · rw [member_field hfield] at hnext
      by_cases hnamed : n.isImplicit || n.name.isEmpty
      · simpa [Node.keptBehind, Node.isTaker, Node.isMember, Node.isNamedField, hfield, hnamed] using hskip
      · have hn : n.isNamedField := by simpa [Node.isNamedField, hfield] using hnamed
        by_cases htakes : hasUnnamedType n && seen.head?.any Node.isUnnamedRecord
        · simpa [Node.keptBehind, Node.isTaker, hn, hfield, hnamed, htakes] using htail
        · simpa [Node.keptBehind, Node.isTaker, Node.isMember, hn, hfield, hnamed, htakes] using hnext
    · rw [member_record hfield] at hnext
      have hn : n.isNamedField = false := by simp [Node.isNamedField, hfield]
      by_cases hrecord : n.kind = "RecordDecl"
      · simpa [Node.keptBehind, Node.isTaker, Node.isMember, hn, hfield, hrecord] using hnext
      · simpa [Node.keptBehind, Node.isTaker, Node.isMember, hn, hfield, hrecord] using hskip

/-- The declarations are the members that a list of children gives. -/
def MembersOf (names : DumpNames) (all cs : List Node) (ds : List Decl) : Prop :=
  List.Forall₂ (BuiltFrom names all) (Node.kept cs) ds

theorem record_built (hn : n.isComplete) :
    Gives (Loading.Checked names all) True (record names n) fun d =>
      MembersOf names all n.children d.children := by
  obtain ⟨_, _, _, _, _, _, _, isComplete, _, _, _, children⟩ := n
  obtain rfl : isComplete = true := hn
  rw [record]
  refine .bind (Gives.fails (ofSource_needs (Node.declared_needs _ _)) fun _ => trivial) fun d _ => ?_
  exact .bind (members_built children (by simp) .nil) fun ds hds => .pure hds

theorem BuiltFrom.membersOf (h : BuiltFrom names all c d) (hrecord : c.isUnnamedRecord)
    (hc : c.isComplete) : MembersOf names all c.children d.children := by
  obtain ⟨s, s', hs, hd⟩ := h
  have hkind : c.kind = "RecordDecl" := by simp_all [Node.isUnnamedRecord]
  rw [member_record (by simp [hkind])] at hd
  exact ((record_built hc s hs).1 d s' hd).1

/-- A record with a body is built exactly if it and all that it is built of can be typed. A record without a name inside it
is a member, with its own members, exactly if no field takes it away; one that does is left out with
it, and the other members are those that the children give without the two and what is between them. -/
theorem unnamed_record_kept_iff {s : Loading} (hs : s.Checked names all) (hn : n.isComplete) :
    ((∃ d s', (record names n).run s = .ok (d, s')) ↔ ∀ p ∈ n.recordParts, p.Typable names all) ∧
    ∀ d s', (record names n).run s = .ok (d, s') →
      ∀ front r back, n.children = front ++ r :: back → r.isUnnamedRecord →
        (Node.taker? 0 back = none → ∃ before e behind, d.children = before ++ e :: behind ∧
          MembersOf names all front before ∧ MembersOf names all back behind ∧
          BuiltFrom names all r e ∧ (r.isComplete → MembersOf names all r.children e.children)) ∧
        ∀ f rest, Node.taker? 0 back = some (f, rest) → f ∈ back ∧ f.isTaker ∧
          MembersOf names all (front ++ rest) d.children := by
  refine ⟨(record_needs n).succeeds_iff hs, fun d s' hd front r back hchildren hr => ?_⟩
  have hmembers : MembersOf names all n.children d.children := ((record_built hn s hs).1 d s' hd).1
  rw [hchildren] at hmembers
  constructor
  · intro hsafe
    rw [MembersOf, Node.kept_safe hr hsafe] at hmembers
    have hfront := List.forall₂_take (Node.kept front).length hmembers
    have hback := List.forall₂_drop (Node.kept front).length hmembers
    rw [List.take_left] at hfront
    rw [List.drop_left, List.forall₂_cons_left_iff] at hback
    obtain ⟨e, behind, he, hbehind, hdrop⟩ := hback
    have hsplit : d.children = d.children.take (Node.kept front).length ++ e :: behind := by
      rw [← hdrop, List.take_append_drop]
    exact ⟨_, e, behind, hsplit, hfront, hbehind, he, he.membersOf hr⟩
  · intro f rest htaken
    obtain ⟨hmem, hf, hkept⟩ := Node.kept_taken front hr htaken
    rw [MembersOf, hkept] at hmembers
    exact ⟨hmem, hf, hmembers⟩

/-- A struct of an unnamed union, an unnamed enumeration and one more field. -/
def configField (name type : String) : Node :=
  ⟨"FieldDecl", name, {}, {}, {}, some type, name.isEmpty, false, none, none, none, []⟩

def configUnion : Node :=
  ⟨"RecordDecl", "", {}, {}, {}, none, false, true, some "union", none, none,
    [configField "number" "int", configField "ratio" "float"]⟩

def configNode (last : Node) : Node :=
  ⟨"RecordDecl", "config", {}, {}, {}, none, false, true, some "struct", none, none,
    [configUnion, configField "" "union config::(anonymous at /src/demo.h:2:3)",
      ⟨"EnumDecl", "", {}, {}, {}, none, false, false, none, none, none, []⟩, last]⟩

def configNames : DumpNames :=
  ⟨⟨"/src/demo.h", "", fun _ => none⟩, []⟩

def countField : Node :=
  configField "count" "int"

def modeField : Node :=
  configField "mode" "enum (unnamed enum at /src/demo.h:3:3)"

/-- A node without a place, and without attributes and constants. -/
theorem unplaced_readable {n : Node} (hplace : n.place = {}) (hstart : n.start = {}) (hstop : n.stop = {})
    (hname : n.name.utf8ByteSize < limit64)
    (hplain : ∀ c ∈ n.children, c.kind ≠ "AnnotateAttr" ∧ c.kind ≠ "EnumConstantDecl")
    (hinside : ∀ c ∈ n.children, c.Readable configNames.origin) : n.Readable configNames.origin := by
  have hunread : configNames.origin.text? Location.unknown.file = none := by decide +kernel
  have hunknown : ∀ kind, n.location? kind = some .unknown := by
    intro kind
    rw [Node.location?, hplace, hstart, hstop]
    rfl
  have hbehind : Location.unknown.behind? n.name = some n.name.utf8ByteSize := by
    simpa [Location.behind?, Location.unknown, sumBelow?] using hname
  have hnone : n.constantNodes = [] :=
    List.filter_eq_nil_iff.mpr fun c hc hkind => (hplain c hc).2 (eq_of_beq hkind)
  refine .intro (fun kind => ⟨by simp [hunknown kind], fun a ha hkind => ?_⟩) ?_ (by simp [hnone, ConstantsFit])
    hinside
  · exact absurd hkind (hplain a ha).1
  · intro kind l _ hl
    obtain rfl : Location.unknown = l := Option.some.inj ((hunknown kind).symm.trans hl)
    simp [Location.carries_iff, hbehind, hunread]

theorem configField_readable {name : String} (type : String) (hname : name.utf8ByteSize < limit64) :
    (configField name type).Readable configNames.origin :=
  unplaced_readable rfl rfl rfl hname nofun nofun

theorem configUnion_readable : configUnion.Readable configNames.origin := by
  refine unplaced_readable rfl rfl rfl (by decide) (by decide) ?_
  refine List.forall_mem_cons.mpr ⟨configField_readable _ (by decide), List.forall_mem_singleton.mpr ?_⟩
  exact configField_readable _ (by decide)

theorem configNode_typable {last : Node} (hkind : last.kind = "FieldDecl")
    (hlast : last.Readable configNames.origin) :
    ∀ p ∈ (configNode last).recordParts, p.Typable configNames [] := by
  have hread : (configNode last).Readable configNames.origin := by
    have hname : "config".utf8ByteSize < limit64 := by decide
    refine unplaced_readable rfl rfl rfl hname ?_ ?_ <;>
      simp only [configNode, List.forall_mem_cons, List.not_mem_nil, false_imp_iff, forall_true_iff,
        and_true]
    · rw [hkind]
      decide
    · exact ⟨configUnion_readable, configField_readable _ (by decide),
        unplaced_readable rfl rfl rfl (by decide) nofun nofun, hlast⟩
  exact fun p hp => ⟨fun _ _ t ht => absurd ht.mem List.not_mem_nil, Node.Readable.recordParts _ hread p hp⟩

theorem configUnion_kept : ∃ d s', (record configNames (configNode countField)).run { fresh := [] } =
    .ok (d, s') ∧ ∃ e ∈ d.children, BuiltFrom configNames [] configUnion e ∧
      MembersOf configNames [] configUnion.children e.children := by
  have hstart : Loading.Checked configNames [] { fresh := [] } := Loading.checked_start
  obtain ⟨hbuilt, hmembers⟩ := unnamed_record_kept_iff (n := configNode countField) hstart rfl
  obtain ⟨d, s', hd⟩ := hbuilt.mpr (configNode_typable rfl (configField_readable _ (by decide)))
  obtain ⟨hkept, -⟩ := hmembers d s' hd [] configUnion _ rfl rfl
  obtain ⟨before, e, behind, hsplit, -, -, he, hinside⟩ := hkept rfl
  exact ⟨d, s', hd, e, by simp [hsplit], he, hinside rfl⟩

/-- A field of an unnamed enumeration takes an unnamed union away. -/
theorem configUnion_lost : ∃ d s', (record configNames (configNode modeField)).run { fresh := [] } =
    .ok (d, s') ∧ d.children = [] := by
  have hkeys : Node.memberKeys [] (configNode modeField).children = [] := rfl
  have hstart : Loading.Checked configNames [] { fresh := [] } := Loading.checked_start
  have hneeds : Needs (Loading.Checked configNames []) _ (record configNames (configNode modeField)) _ :=
    record_needs _
  obtain ⟨d, s', hd⟩ := (hneeds.succeeds_iff hstart).mpr
    (configNode_typable rfl (configField_readable _ (by decide)))
  have hmembers := ((hneeds _ hstart).1 d s' hd).1.2.2
  have hcomplete : (configNode modeField).isComplete = true := rfl
  rw [if_pos hcomplete, hkeys] at hmembers
  exact ⟨d, s', hd, List.map_eq_nil_iff.mp hmembers⟩

end LoadM

end Bindery
