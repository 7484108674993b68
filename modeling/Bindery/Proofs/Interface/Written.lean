import Bindery.Proofs.Interface.Pieces
import Bindery.Proofs.Interface.Sections

/-! The lines of an interface. None stands before those that define what it needs. -/

namespace Bindery

namespace Line

/-- What the pieces of a line need stands on lines of its own among those that are known. -/
def RestsOn (known : List Line) (l : Line) : Prop :=
  ∀ p ∈ l, ∀ q ∈ p.needs, [q] ∈ known

/-- Every line rests on those that are known at the start and those before it. -/
def DefinedFrom : List Line → List Line → Prop
  | _, [] => True
  | known, l :: ls => l.RestsOn known ∧ DefinedFrom (known ++ [l]) ls

variable {known ls more front back : List Line} {l : Line} {bs : List GenericBinding}

theorem Names.restsOn (h : l.Names bs)
    (hbs : ∀ b ∈ bs, [.instantiation b.generic b.specialization] ∈ known) : l.RestsOn known := by
  intro p hp q hq
  rcases h p hp with ⟨s, rfl⟩ | ⟨b, hb, rfl⟩
  · cases hq
  · exact List.mem_singleton.mp hq ▸ hbs b hb

theorem restsOn_plain (s : String) : RestsOn known (plain s) := by
  simp [RestsOn, plain, Piece.needs]

namespace DefinedFrom

theorem append (h : DefinedFrom known ls) (h' : DefinedFrom (known ++ ls) more) :
    DefinedFrom known (ls ++ more) := by
  induction ls generalizing known with
  | nil => simpa using h'
  | cons l ls ih =>
    refine ⟨h.1, ih h.2 ?_⟩
    rwa [List.append_assoc, List.singleton_append]

theorem of_known (h : ∀ l ∈ ls, l.RestsOn known) : DefinedFrom known ls := by
  induction ls generalizing known with
  | nil => trivial
  | cons l ls ih =>
    obtain ⟨hl, hls⟩ := List.forall_mem_cons.mp h
    exact ⟨hl, ih fun l' hl' p hp q hq => List.mem_append_left _ (hls l' hl' p hp q hq)⟩

theorem before (h : DefinedFrom known (front ++ l :: back)) : l.RestsOn (known ++ front) := by
  induction front generalizing known with
  | nil => simpa using h.1
  | cons l' front ih =>
    have hrest := ih h.2
    rwa [List.append_assoc, List.singleton_append] at hrest

end DefinedFrom

end Line

/-- What defines a generic or an instance for others. -/
def Defined.piece : Defined → Piece
  | .template n => .opening n
  | .instantiation n k => .instantiation n k

namespace Section

variable {c : Context} {known : List Line}

/-- The lines of a section. What stands in a template or an extension is no more than text. -/
def mark (c : Context) : Section → List Line
  | .template g =>
    [.opening g.name] :: Line.plains (templateLines c.recordNames c.options g).tail.dropLast ++
      [[.closing g.name]]
  | .instantiation n k => [[.instantiation n k]]
  | .extension n k lines => Line.enclosed [.extension n k] (Line.plains lines) "\x7d"
  | .class cls => cls.mark c.recordNames c.options
  | .director d => d.mark c.recordNames
  | s => Line.plains (s.lines c)

theorem shown_mark : ∀ s : Section, (s.mark c).map Line.shown = s.lines c
  | .template g => by simp [mark, lines, templateLines, enclosed, Line.shown, Piece.shown]
  | .instantiation n k => by simp [mark, lines, Line.shown, Piece.shown]
  | .extension n k texts => by simp [mark, lines, Line.shown, Piece.shown]
  | .class _ => Class.shown_mark
  | .director _ => Director.shown_mark
  | .preamble => Line.map_shown_plains _
  | .enumeration _ => Line.map_shown_plains _
  | .defines _ => Line.map_shown_plains _

theorem count_of_names {ls : List Line} {bs : List GenericBinding} (h : ∀ l ∈ ls, l.Names bs)
    (d : Defined) : ls.count [d.piece] = 0 := by
  refine List.count_eq_zero.mpr fun hmem => ?_
  rcases h _ hmem _ (List.mem_singleton_self _) with ⟨s, hs⟩ | ⟨b, -, hb⟩
  · cases d <;> cases hs
  · cases d <;> cases hb

theorem count_plains (texts : List String) (d : Defined) : (Line.plains texts).count [d.piece] = 0 := by
  have hplains : ∀ l ∈ Line.plains texts, l.Names [] := .plains texts
  exact count_of_names hplains d

/-- A section writes what it defines, and nothing else of that kind. -/
theorem count_mark (d : Defined) : ∀ s : Section, (s.mark c).count [d.piece] = s.definitions.count d
  | .template g => by
    have hclosing : [Piece.closing g.name] ≠ [d.piece] := by cases d <;> simp [Defined.piece]
    have hopening : Piece.opening g.name = d.piece ↔ .template g.name = d := by
      cases d <;> simp [Defined.piece]
    simp [mark, definitions, List.count_cons, count_plains, hclosing, hopening]
  | .instantiation n k => by
    have hpiece : Piece.instantiation n k = d.piece ↔ .instantiation n k = d := by
      cases d <;> simp [Defined.piece]
    simp [mark, definitions, List.count_cons, hpiece]
  | .extension n k texts => by
    have hpiece : [Piece.extension n k] ≠ [d.piece] := by cases d <;> simp [Defined.piece]
    have hbody : ∀ l ∈ Line.deeper (Line.plains texts) ++ [Line.plain "\x7d"], l.Names [] :=
      List.forall_mem_append.mpr ⟨.deeper (.plains texts), List.forall_mem_singleton.mpr (.plain _)⟩
    rw [mark, Line.enclosed, List.cons_append, List.count_cons_of_ne hpiece, count_of_names hbody d]
    rfl
  | .class _ => count_of_names Class.mark_names d
  | .director _ => count_of_names Director.mark_names d
  | .preamble => count_plains _ d
  | .enumeration _ => count_plains _ d
  | .defines _ => count_plains _ d

theorem restsOn_plains {texts : List String} : ∀ l ∈ Line.plains texts, l.RestsOn known :=
  List.forall_mem_map.mpr fun s _ => Line.restsOn_plain s

theorem definedFrom_ofGeneric (g : Generic) :
    Line.DefinedFrom known ((ofGeneric g).flatMap (mark c)) := by
  have hkeys : (g.specializations.map (instantiation g.name)).flatMap (mark c) =
      g.specializations.map fun k => [.instantiation g.name k] := by
    rw [List.flatMap_map, List.map_eq_flatMap]
    rfl
  have hrest : Line.DefinedFrom (known ++ [[.opening g.name]])
      (Line.plains (templateLines c.recordNames c.options g).tail.dropLast ++ [[.closing g.name]] ++
        (g.specializations.map (instantiation g.name)).flatMap (mark c)) := by
    refine .append (.append (.of_known restsOn_plains) (.of_known ?_)) (.of_known ?_)
    · simp [Line.RestsOn, Piece.needs]
    · rw [hkeys]
      simp [Line.RestsOn, Piece.needs]
  exact ⟨by simp [Line.RestsOn, Piece.needs], hrest⟩

theorem definedFrom_generics (order : List Generic) :
    Line.DefinedFrom known ((order.flatMap ofGeneric).flatMap (mark c)) := by
  induction order generalizing known with
  | nil => trivial
  | cons g order ih =>
    rw [List.flatMap_cons, List.flatMap_append]
    exact (definedFrom_ofGeneric g).append ih

end Section

namespace Context

variable {c : Context} {order : List Generic}

/-- The lines of sections. -/
def marked (c : Context) (secs : List Section) : List Line :=
  secs.flatMap (Section.mark c)

theorem written_eq (c : Context) (secs : List Section) :
    c.written secs = String.join ((c.marked secs).map (·.shown ++ "\n")) := by
  have hlines : (c.marked secs).map Line.shown = secs.flatMap (Section.lines c) := by
    simp [marked, List.map_flatMap, Section.shown_mark]
  rw [written, ← hlines, List.map_map]
  rfl

theorem count_marked (secs : List Section) (d : Defined) :
    (c.marked secs).count [d.piece] = (secs.flatMap Section.definitions).count d := by
  simp [marked, List.count_flatMap, Section.count_mark, Function.comp_def]

theorem bindings_class {cls : Class} (h : cls ∈ c.classes) : cls.bindings ⊆ c.bindings := by
  intro b hb
  rcases List.mem_append.mp hb with hb | hb
  · exact List.mem_append_left _
      (List.mem_flatMap.mpr ⟨cls.slots, List.mem_map_of_mem h, hb⟩)
  · obtain ⟨f, hf, hb⟩ := List.mem_flatMap.mp hb
    refine List.mem_append_right _ (List.mem_flatMap.mpr ⟨f, ?_, hb⟩)
    exact List.mem_append_right _ (List.mem_flatMap.mpr ⟨cls, h, hf⟩)

theorem mem_marked_class {secs : List Section} {cls : Class} {l : Line} (hsecs : c.sections = .ok secs)
    (h : cls ∈ c.classes) (hl : l ∈ cls.mark c.recordNames c.options) : l ∈ c.marked secs := by
  obtain ⟨names, _, hnames⟩ := except_bind_ok hsecs
  cases hnames
  refine List.mem_flatMap.mpr ⟨.class cls, ?_, hl⟩
  simp [h]

/-- What comes behind the generics uses instances that they define. -/
theorem definedFrom_restSections {ok : Bool} (ho : c.generics.InOrder order) (ht : c.Tracked ok)
    (hd : c.Directed) (valid : c.generics.validate = .ok ()) {known : List Line}
    (hknown : ∀ x ∈ order.flatMap Generic.definitions, [x.piece] ∈ known) :
    Line.DefinedFrom known (c.marked (c.restSections order)) := by
  have hkey : ∀ g ∈ c.generics.generics, ∀ k ∈ g.specializations, [.instantiation g.name k] ∈ known :=
    fun g hg k hk => hknown _ (List.mem_flatMap.mpr
      ⟨g, ho.perm.mem_iff.mpr hg, Generic.mem_definitions.mpr ⟨rfl, hk⟩⟩)
  have hbound : ∀ b ∈ c.bindings, [.instantiation b.generic b.specialization] ∈ known := by
    intro b hb
    obtain ⟨g, hg, hname, hk⟩ := ht.mem_keys hb
    exact hname ▸ hkey g hg _ hk
  refine .of_known (List.forall_mem_flatMap.mpr fun s hs => ?_)
  rcases mem_restSections hs with ⟨g, hg, e, he, rfl⟩ | ⟨cls, hcls, rfl⟩ | ⟨d, hmem, rfl⟩ | ⟨e, rfl⟩ |
    ⟨p, rfl⟩
  · have hg' := ho.perm.mem_iff.mp hg
    have hext := ((Registry.validate_ok valid).1 g hg').2 e he
    have hopening : Line.RestsOn known [.extension g.name e.1] := by
      simpa [Line.RestsOn, Piece.needs] using hkey g hg' _ hext
    have hbody : ∀ l ∈ Line.deeper (Line.plains e.2), l.RestsOn known :=
      fun l hl => (Line.Names.deeper (.plains e.2) l hl).restsOn (List.forall_mem_nil _)
    exact List.forall_mem_append.mpr ⟨List.forall_mem_cons.mpr ⟨hopening, hbody⟩,
      List.forall_mem_singleton.mpr (Line.restsOn_plain _)⟩
  · exact fun l hl => (Class.mark_names l hl).restsOn fun b hb => hbound b (bindings_class hcls hb)
  · exact fun l hl => (Director.mark_names l hl).restsOn fun b hb =>
      hbound b (List.mem_append_left _ (hd d hmem hb))
  · exact Section.restsOn_plains
  · exact Section.restsOn_plains

end Context

/-- Lines write every template and every instance once, and no other instances. What a line needs of them
stands on lines before it. -/
structure DefinesBeforeUse (r : Registry) (lines : List Line) : Prop where
  templates : ∀ g ∈ r.generics, lines.count [.opening g.name] = 1
  instances : ∀ g ∈ r.generics, ∀ k ∈ g.specializations, lines.count [.instantiation g.name k] = 1
  others : ∀ n k, [.instantiation n k] ∈ lines → ∃ g ∈ r.generics, g.name = n ∧ k ∈ g.specializations
  before : ∀ front l back, lines = front ++ l :: back → l.RestsOn front

theorem Context.marked_defineBeforeUse {ok : Bool} {c : Context} {order : List Generic}
    (ho : c.generics.InOrder order) (ht : c.Tracked ok) (hd : c.Directed) (hs : c.generics.Sorted)
    (valid : c.generics.validate = .ok ()) : DefinesBeforeUse c.generics
      (c.marked (.preamble :: order.flatMap Section.ofGeneric ++ c.restSections order)) := by
  have hcount : ∀ d, (c.marked (.preamble :: order.flatMap Section.ofGeneric ++
      c.restSections order)).count [d.piece] = (order.flatMap Generic.definitions).count d := by
    intro d
    rw [count_marked, c.definitions_sections]
  have honce : ∀ d ∈ order.flatMap Generic.definitions, (c.marked (.preamble ::
      order.flatMap Section.ofGeneric ++ c.restSections order)).count [d.piece] = 1 := fun d hd =>
    (hcount d).trans (List.count_eq_one_of_mem (ho.definitions_nodup hs) hd)
  refine ⟨fun g hg => honce (.template g.name) ?_, fun g hg k hk => honce (.instantiation g.name k) ?_,
    fun n k hmem => ?_, fun front l back hsplit => ?_⟩
  · exact List.mem_flatMap.mpr ⟨g, ho.perm.mem_iff.mpr hg, List.mem_cons_self⟩
  · exact List.mem_flatMap.mpr
      ⟨g, ho.perm.mem_iff.mpr hg, Generic.mem_definitions.mpr ⟨rfl, hk⟩⟩
  · have hpos : 0 < (order.flatMap Generic.definitions).count (.instantiation n k) :=
      hcount (.instantiation n k) ▸ List.count_pos_iff.mpr hmem
    obtain ⟨g, hg, hdef⟩ := List.mem_flatMap.mp (List.count_pos_iff.mp hpos)
    obtain ⟨rfl, hk⟩ := Generic.mem_definitions.mp hdef
    exact ⟨g, ho.perm.mem_iff.mp hg, rfl, hk⟩
  · have hstart : Line.DefinedFrom [] (c.marked (.preamble :: order.flatMap Section.ofGeneric)) :=
      .append (.of_known Section.restsOn_plains) (Section.definedFrom_generics order)
    have hknown : ∀ x ∈ order.flatMap Generic.definitions,
        [x.piece] ∈ [] ++ c.marked (.preamble :: order.flatMap Section.ofGeneric) := by
      intro x hx
      rw [← Section.definitions_generics] at hx
      refine List.count_pos_iff.mp ((count_marked _ x).symm ▸ List.count_pos_iff.mpr ?_)
      exact List.mem_append_right _ hx
    have hall := hstart.append (definedFrom_restSections ho ht hd valid hknown)
    rw [marked, marked, ← List.flatMap_append, ← marked, hsplit] at hall
    exact hall.before

/-- If the generics pass their checks after some calls, then there is an interface. Its lines write the
template of every generic once, and every instance once and behind the template. An extension, and a name
that a class or a director prints for an instance, comes behind the instance. -/
theorem defined_before_use (options : BindOptions) (headers : List Header)
    (calls : List (Nat × BindCall)) :
    let c := ((Session.start options headers).perform calls).2.context
    c.generics.validate = .ok () → ∃ secs, c.sections = .ok secs ∧
      c.render = .ok (String.join ((c.marked secs).map (·.shown ++ "\n"))) ∧
      DefinesBeforeUse c.generics (c.marked secs) := by
  intro c valid
  have ht : c.Tracked _ := Session.perform_tracked options headers calls
  obtain ⟨order, ho, hsecs⟩ := Context.sections_ok ht valid
  refine ⟨_, hsecs, (Context.render_ok hsecs).trans (congrArg _ (c.written_eq _)), ?_⟩
  exact Context.marked_defineBeforeUse ho ht (Session.perform_directed options headers calls)
    (Session.perform_sorted options headers calls) valid

/-- Calls that register a generic, bind a struct with a use of it, and extend the instance. -/
def boxCalls : List (Nat × BindCall) :=
  [(0, .addGeneric "List" .required []), (0, .addClass ⟨"Box", some "box", [], []⟩),
    (0, .addExtension "List" "int" ["int first(void);"])]

theorem boxCalls_valid :
    ((Session.start {} [boxHeader]).perform boxCalls).2.context.generics.validate = .ok () := by
  cbv

theorem box_defined :
    let c := ((Session.start {} [boxHeader]).perform boxCalls).2.context
    c.generics.validate = .ok () ∧ ∃ secs, c.sections = .ok secs ∧
      c.render = .ok (String.join ((c.marked secs).map (·.shown ++ "\n"))) ∧
      DefinesBeforeUse c.generics (c.marked secs) ∧ [.instantiation "List" "int"] ∈ c.marked secs ∧
      ∃ l ∈ c.marked secs, .bound ⟨"List", "int"⟩ ∈ l := by
  intro c
  obtain ⟨secs, hsecs, hrender, hdefines⟩ :=
    defined_before_use {} [boxHeader] boxCalls boxCalls_valid
  have hbound : (c.classes.any fun cls => (cls.mark c.recordNames c.options).any
      (·.contains (.bound ⟨"List", "int"⟩))) = true := by
    decide +kernel
  obtain ⟨l, hl, hb⟩ : ∃ l ∈ c.marked secs, .bound ⟨"List", "int"⟩ ∈ l := by
    obtain ⟨cls, hcls, hany⟩ := List.any_eq_true.mp hbound
    obtain ⟨l, hl, hb⟩ := List.any_eq_true.mp hany
    exact ⟨l, Context.mem_marked_class hsecs hcls hl, List.contains_iff_mem.mp hb⟩
  obtain ⟨front, back, hsplit⟩ := List.append_of_mem hl
  have hbefore := hdefines.before front l back hsplit _ hb _ (List.mem_singleton_self _)
  refine ⟨boxCalls_valid, secs, hsecs, hrender, hdefines, ?_, l, hl, hb⟩
  exact hsplit ▸ List.mem_append_left _ hbefore

end Bindery
