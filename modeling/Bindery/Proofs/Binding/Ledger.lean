import Bindery.Proofs.Binding.Reached

/-! Where bound things come from. Each is listed with the entry of a header that was claimed for it. -/

namespace Bindery

/-- What is bound from one declaration. An enumeration is bound from two: that of its name and that
of its constants. -/
inductive Item where
  | func (f : Func)
  | struct (className structName : String)
  | enumName (name : String)
  | enum (e : BoundEnum)
  | define (constant : String × String)

/-- Whether a thing is bound from a declaration. -/
def Item.From : Item → Decl → Prop
  | .func f, d => d.kind = .function ∧ f.function.decl = d
  | .struct className structName, d =>
    d.kind = .struct ∧ structName = if d.name.isEmpty then className else d.name
  | .enumName name, d => d.kind = .typedef ∧ d.name = name
  | .enum e, d =>
    d.kind = .enum ∧ BindM.enumConstants e.typedefName d.children = .ok e.constants
  | .define constant, d => d.kind = .define ∧ constant = (d.name, d.value.getD "")

namespace Context

def classItems (c : Context) : List Item :=
  c.classes.map fun k => .struct k.name k.structName

def enumItems (c : Context) : List Item :=
  c.enums.flatMap fun e => [.enumName e.typedefName, .enum e]

def defineItems (c : Context) : List Item :=
  c.defines.flatten.map .define

/-- All that is bound: functions, classes, enumerations and constants. -/
def items (c : Context) : List Item :=
  c.functions.map .func ++ c.classItems ++ c.enumItems ++ c.defineItems

theorem items_congr {c c' : Context} (hf : c'.functions = c.functions)
    (hc : c'.classItems = c.classItems) (he : c'.enums = c.enums) (hd : c'.defines = c.defines) :
    c'.items = c.items := by
  simp only [items, hf, hc, enumItems, he, defineItems, hd]

end Context

/-- Between two times of a header entries are claimed, each for one of the things listed. -/
structure Header.Yields (h h' : Header) (listed : List (Nat × Item)) : Prop where
  later : h.Later h'
  distinct : (listed.map (·.1)).Nodup
  claims : ∀ e ∈ listed, ∃ d, h.entries[e.1]? = some ⟨d, false⟩ ∧
    h'.entries[e.1]? = some ⟨d, true⟩ ∧ e.2.From d

namespace Header.Yields

variable {h h' h'' : Header}

theorem nil (hl : h.Later h') : h.Yields h' [] :=
  ⟨hl, List.nodup_nil, nofun⟩

theorem ofPop {kind : DeclKind} {name : String} {d : Decl} (hp : h.pop kind name = .ok (d, h'))
    (item : Item) (hi : d.kind = kind → item.From d) :
    ∃ i, h.Yields h' [(i, item)] := by
  obtain ⟨hl, i, hopen, hclaimed, hkind, -⟩ := Header.pop_ok hp
  refine ⟨i, hl, List.nodup_singleton i, fun e he => ?_⟩
  obtain rfl := List.mem_singleton.mp he
  exact ⟨d, hopen, hclaimed, hi hkind⟩

/-- Entries that are claimed afterwards are other ones. -/
theorem append {listed more : List (Nat × Item)} (hy : h.Yields h' listed)
    (hy' : h'.Yields h'' more) : h.Yields h'' (listed ++ more) := by
  refine ⟨hy.later.trans hy'.later, ?_, fun e he => ?_⟩
  · rw [List.map_append]
    refine List.nodup_append.mpr ⟨hy.distinct, hy'.distinct, ?_⟩
    rintro i hi _ hi' rfl
    obtain ⟨e, he, rfl⟩ := List.mem_map.mp hi
    obtain ⟨e', he', heq⟩ := List.mem_map.mp hi'
    obtain ⟨d, _, hclaimed, _⟩ := hy.claims e he
    obtain ⟨d', hopen, _, _⟩ := hy'.claims e' he'
    rw [heq, hclaimed] at hopen
    cases hopen
  · rcases List.mem_append.mp he with he | he
    · obtain ⟨d, hopen, hclaimed, hd⟩ := hy.claims e he
      exact ⟨d, hopen, hy'.later.claimed hclaimed, hd⟩
    · obtain ⟨d, hopen, hclaimed, hd⟩ := hy'.claims e he
      exact ⟨d, hy.later.unclaimed hopen, hclaimed, hd⟩

theorem ofTaken {ds : List Decl} (ht : Taken .define h ds h') : ∃ listed, h.Yields h' listed ∧
    listed.map (·.2) = ds.map fun d => .define (d.name, d.value.getD "") := by
  induction ht with
  | nil => exact ⟨[], .nil (.refl _), rfl⟩
  | @cons h h' h'' name d ds first _ ih =>
    obtain ⟨more, hmore, hitems⟩ := ih
    obtain ⟨i, hone⟩ := ofPop first (.define (d.name, d.value.getD "")) fun hk => ⟨hk, rfl⟩
    exact ⟨_, hone.append hmore, by simp [hitems]⟩

end Header.Yields

/-- What is bound between two workspaces, each thing with its entry in the header. -/
def Workspace.Gains (w w' : Workspace) (listed : List (Nat × Item)) : Prop :=
  w.header.Yields w'.header listed ∧
    w'.context.items.Perm (w.context.items ++ listed.map (·.2))

theorem Workspace.Gains.trans {w w' w'' : Workspace} {listed more : List (Nat × Item)}
    (hg : w.Gains w' listed) (hg' : w'.Gains w'' more) : w.Gains w'' (listed ++ more) := by
  refine ⟨hg.1.append hg'.1, hg'.2.trans ?_⟩
  rw [List.map_append, ← List.append_assoc]
  exact hg.2.append_right _

theorem Workspace.Gains.nil {w w' : Workspace} (hl : w.header.Later w'.header)
    (hi : w'.context.items = w.context.items) : w.Gains w' [] :=
  ⟨.nil hl, by simp [hi]⟩

theorem Context.items_recordAll (c : Context) (uses : List GenericBinding) :
    items { c with generics := c.generics.recordAll uses } = c.items :=
  items_congr (c.functions_recordAll uses) rfl rfl rfl

theorem Workspace.gains_bindFunc {w : Workspace} {name : String} {d : Decl} {h : Header} {kind : FuncKind}
    {options : FuncOptions} {f : Func} {r : Registry} {c : Context} (hd : w.context.Distinct)
    (taken : w.header.pop .function name = .ok (d, h))
    (bound : (Func.bind h.source d kind options).run.run w.context.generics = (.ok f, r))
    (placed : Placed f kind { w.context with generics := r } c) :
    ∃ listed, w.Gains ⟨c, h⟩ listed := by
  obtain ⟨uses, rfl, _, hbinds⟩ := (Func.bind_records _ _ _ _).ran bound
  have hdeclares := (hbinds f rfl).2.1.declares
  obtain ⟨i, hy⟩ := Header.Yields.ofPop taken (.func f) fun hk => ⟨hk, hdeclares.decl⟩
  obtain ⟨he, hdef, _⟩ := placed.aside
  have hcls : c.classItems = w.context.classItems := placed.map_classes _ fun _ _ _ _ _ => rfl
  have hfuncs := placed.functions_perm (hd.recordAll uses)
  rw [w.context.functions_recordAll] at hfuncs
  refine ⟨[(i, .func f)], hy, ?_⟩
  have hmoved := (hfuncs.map Item.func).append_right
    (w.context.classItems ++ w.context.enumItems ++ w.context.defineItems)
  rw [List.map_append] at hmoved
  simpa [Context.items, hcls, Context.enumItems, Context.defineItems, he, hdef]
    using hmoved.trans (perm_last _ _ _)

theorem Workspace.gains_bindClass {w : Workspace} {tag : String} {record : Decl} {h : Header}
    {spec : ClassSpec} {policy : StalePolicy} {cls : Class} {stale : List String} {r : Registry}
    (taken : w.header.pop .struct tag = .ok (record, h))
    (bound : (Class.ofRecord h.source spec policy record).run.run w.context.generics =
      (.ok (cls, stale), r)) :
    ∃ listed, w.Gains ⟨{ w.context with
      generics := r
      classes := w.context.classes ++ [cls]
      warnings := w.context.warnings ++ stale }, h⟩ listed := by
  obtain ⟨uses, rfl, _, hcls⟩ := (Class.ofRecord_records _ _ _ _).ran bound
  obtain ⟨_, hbinds, _⟩ := hcls _ rfl
  obtain ⟨i, hy⟩ := Header.Yields.ofPop taken (.struct cls.name cls.structName)
    fun hk => ⟨hk, by rw [hbinds.name, hbinds.structName]⟩
  have hfuncs := w.context.functions_addClass uses (w.context.warnings ++ stale) hbinds.functions
  refine ⟨[(i, .struct cls.name cls.structName)], hy, ?_⟩
  have hlast := perm_last (w.context.functions.map Item.func ++ w.context.classItems)
    [.struct cls.name cls.structName] (w.context.enumItems ++ w.context.defineItems)
  simpa [Context.items, Context.classItems, Context.enumItems, Context.defineItems, hfuncs]
    using hlast

theorem Workspace.gains_bindEnum {w : Workspace} {typedefName tag : String} {t e : Decl} {h h' : Header}
    {constants : List (String × String)}
    (named : w.header.pop .typedef typedefName = .ok (t, h))
    (taken : h.pop .enum tag = .ok (e, h'))
    (listed : BindM.enumConstants typedefName e.children = .ok constants) :
    ∃ listed, w.Gains
      ⟨{ w.context with enums := w.context.enums ++ [⟨t.name, constants⟩] }, h'⟩ listed := by
  obtain ⟨_, _, _, _, _, hname⟩ := Header.pop_ok named
  obtain ⟨i, hy⟩ := Header.Yields.ofPop named (.enumName t.name) fun hk => ⟨hk, rfl⟩
  obtain ⟨j, hy'⟩ := Header.Yields.ofPop taken (.enum ⟨t.name, constants⟩)
    fun hk => ⟨hk, by rw [hname]; exact listed⟩
  have hfuncs : Context.functions { w.context with
      enums := w.context.enums ++ [⟨t.name, constants⟩] } = w.context.functions :=
    Context.functions_congr rfl rfl
  refine ⟨_, hy.append hy', ?_⟩
  have hlast := perm_last (w.context.functions.map Item.func ++ w.context.classItems ++
    w.context.enumItems) [.enumName t.name, .enum ⟨t.name, constants⟩] w.context.defineItems
  simpa [Context.items, Context.classItems, Context.enumItems, Context.defineItems, hfuncs]
    using hlast

theorem Workspace.gains_bindDefines {w : Workspace} {ds : List Decl} {h : Header}
    (taken : Taken .define w.header ds h) :
    ∃ listed, w.Gains ⟨{ w.context with
      defines := w.context.defines ++ [ds.map fun d => (d.name, d.value.getD "")] }, h⟩ listed := by
  obtain ⟨listed, hy, hitems⟩ := Header.Yields.ofTaken taken
  have hfuncs : Context.functions { w.context with
      defines := w.context.defines ++ [ds.map fun d => (d.name, d.value.getD "")] } =
        w.context.functions :=
    Context.functions_congr rfl rfl
  refine ⟨listed, hy, ?_⟩
  simp [Context.items, Context.classItems, Context.enumItems, Context.defineItems, hfuncs,
    hitems, Function.comp_def]

theorem Move.gains {ok : Bool} {w w' : Workspace} (h : Move ok w w')
    (hd : w.context.Distinct) : ∃ listed, w.Gains w' listed := by
  cases h with
  | claim hl => exact ⟨[], .nil hl rfl⟩
  | addInclude header =>
    refine ⟨[], .nil (.refl _) ?_⟩
    unfold Context.addInclude
    split <;> rfl
  | dress hsame =>
    refine ⟨[], .nil (.refl _) (Context.items_congr ?_ rfl rfl rfl)⟩
    exact w.context.functions_dress _ fun g => by rw [hsame]
  | bindFunc taken hb hp => exact Workspace.gains_bindFunc hd taken hb hp
  | bindClass taken _ hb => exact Workspace.gains_bindClass taken hb
  | bindDirector _ _ => exact ⟨[], .nil (.refl _) rfl⟩
  | bindEnum named taken listed => exact Workspace.gains_bindEnum named taken listed
  | bindDefines taken => exact Workspace.gains_bindDefines taken
  | loseFunc taken hb =>
    obtain ⟨uses, rfl, _, _⟩ := (Func.bind_records _ _ _ _).ran hb
    exact ⟨[], .nil (Header.pop_ok taken).1 (w.context.items_recordAll uses)⟩
  | loseClass taken hb =>
    obtain ⟨uses, rfl, _, _⟩ := (Class.ofRecord_records _ _ _ _).ran hb
    exact ⟨[], .nil (Header.pop_ok taken).1 (w.context.items_recordAll uses)⟩

theorem Course.gains {ok : Bool} {w w' : Workspace} (h : Course ok w w')
    (hd : w.context.Distinct) : w'.context.Distinct ∧ ∃ listed, w.Gains w' listed := by
  induction h with
  | refl => exact ⟨hd, [], .nil (.refl _) rfl⟩
  | tail _ hmove ih =>
    obtain ⟨hd', listed, hg⟩ := ih
    obtain ⟨more, hg'⟩ := hmove.gains hd'
    exact ⟨hmove.change.distinct hd', _, hg.trans hg'⟩

theorem Turn.gains {ok : Bool} {w w' : Workspace} {call : BindCall} (h : Turn ok w call w')
    (hd : w.context.Distinct) : w'.context.Distinct ∧ ∃ listed, w.Gains w' listed := by
  cases h with
  | moves hc => exact hc.gains hd
  | registers taken _ hr =>
    have hchange : Change ok w.context _ := .register hr
    refine ⟨hchange.distinct hd, [], .nil (Header.pop_ok taken).1 ?_⟩
    exact Context.items_congr (Context.functions_register hr) rfl rfl rfl

/-- The ledger of a session lists what its calls bind, call by call, with the place of the header
that the call works on and the place of the entry that it claims for it. -/
inductive Ledger : Session → List (Nat × BindCall) → List ((Nat × Nat) × Item) → Prop where
  | nil {s : Session} : Ledger s [] []
  | skip {s : Session} {place : Nat} {c : BindCall} {calls : List (Nat × BindCall)}
      {entries : List ((Nat × Nat) × Item)} (absent : s.headers[place]? = none)
      (rest : Ledger s calls entries) : Ledger s ((place, c) :: calls) entries
  | call {s : Session} {place : Nat} {c : BindCall} {calls : List (Nat × BindCall)}
      {h h' : Header} {listed : List (Nat × Item)} {entries : List ((Nat × Nat) × Item)}
      (before : s.headers[place]? = some h)
      (after : (s.call place c).2.headers[place]? = some h')
      (gains : Workspace.Gains ⟨s.context, h⟩ ⟨(s.call place c).2.context, h'⟩ listed)
      (rest : Ledger (s.call place c).2 calls entries) :
      Ledger s ((place, c) :: calls) (listed.map (fun e => ((place, e.1), e.2)) ++ entries)

namespace Session

theorem exists_ledger (s : Session) (calls : List (Nat × BindCall)) (hd : s.context.Distinct) :
    ∃ entries, Ledger s calls entries := by
  induction calls generalizing s with
  | nil => exact ⟨[], .nil⟩
  | cons entry calls ih =>
    obtain ⟨place, c⟩ := entry
    cases hh : s.headers[place]? with
    | none =>
      obtain ⟨entries, hrest⟩ := ih s hd
      exact ⟨entries, .skip hh hrest⟩
    | some h =>
      obtain ⟨w', hturn, he⟩ := s.call_turn c hh
      obtain ⟨_, listed, hg⟩ := hturn.gains hd
      obtain ⟨entries, hrest⟩ := ih (s.call place c).2 (s.call_distinct place c hd)
      have hlt := (List.getElem?_eq_some_iff.mp hh).1
      have hafter : (s.call place c).2.headers[place]? = some w'.header := by
        rw [he, List.getElem?_set_self hlt]
      have hgains : Workspace.Gains ⟨s.context, h⟩ ⟨(s.call place c).2.context, w'.header⟩ listed := by
        rw [he]
        exact hg
      exact ⟨_, .call hh hafter hgains hrest⟩

end Session

/-- Whether an entry of a header is there, with its declaration and whether it is claimed. -/
def Session.Holds (s : Session) (key : Nat × Nat) (d : Decl) (claimed : Bool) : Prop :=
  ∃ h, s.headers[key.1]? = some h ∧ h.entries[key.2]? = some ⟨d, claimed⟩

theorem Session.Later.holds_claimed {s s' : Session} (hl : s.Later s') {key : Nat × Nat} {d : Decl}
    (hs : s.Holds key d true) : s'.Holds key d true := by
  obtain ⟨h, hh, hi⟩ := hs
  obtain ⟨h', hh', hle⟩ := hl.onward hh
  exact ⟨h', hh', hle.claimed hi⟩

theorem Session.Later.holds_open {s s' : Session} (hl : s.Later s') {key : Nat × Nat} {d : Decl}
    (hs : s'.Holds key d false) : s.Holds key d false := by
  obtain ⟨h', hh', hi⟩ := hs
  obtain ⟨h, hh, hle⟩ := hl.back hh'
  exact ⟨h, hh, hle.unclaimed hi⟩

namespace Ledger

variable {s : Session} {calls : List (Nat × BindCall)} {entries : List ((Nat × Nat) × Item)}

theorem items_perm (hl : Ledger s calls entries) :
    (s.perform calls).2.context.items.Perm (s.context.items ++ entries.map (·.2)) := by
  induction hl with
  | nil => simp [Session.perform]
  | @skip s place c calls entries absent _ ih =>
    simpa only [Session.perform, s.call_none c absent] using ih
  | @call s place c calls h h' listed entries before after gains _ ih =>
    simp only [Session.perform, List.map_append, List.map_map, ← List.append_assoc]
    exact ih.trans (gains.2.append_right _)

/-- Every listed thing is bound from its entry, which is claimed by one of the calls. -/
theorem claims (hl : Ledger s calls entries) : ∀ e ∈ entries, ∃ d, s.Holds e.1 d false ∧
    (s.perform calls).2.Holds e.1 d true ∧ e.2.From d := by
  induction hl with
  | nil => exact nofun
  | @skip s place c calls entries absent _ ih =>
    simpa only [Session.perform, s.call_none c absent] using ih
  | @call s place c calls h h' listed entries before after gains _ ih =>
    intro e he
    simp only [Session.perform]
    rcases List.mem_append.mp he with he | he
    · obtain ⟨one, hone, rfl⟩ := List.mem_map.mp he
      obtain ⟨d, hopen, hclaimed, hd⟩ := gains.1.claims one hone
      have hlater := Session.perform_later (s.call place c).2 calls
      exact ⟨d, ⟨h, before, hopen⟩, hlater.holds_claimed ⟨h', after, hclaimed⟩, hd⟩
    · obtain ⟨d, hopen, hclaimed, hd⟩ := ih e he
      exact ⟨d, (s.call_later place c).holds_open hopen, hclaimed, hd⟩

theorem keys_nodup (hl : Ledger s calls entries) : (entries.map (·.1)).Nodup := by
  induction hl with
  | nil => exact List.nodup_nil
  | skip _ _ ih => exact ih
  | @call s place c calls h h' listed entries before after gains hrest ih =>
    have hnow : ((listed.map fun e => ((place, e.1), e.2)).map (·.1)).Nodup := by
      have hpair := gains.1.distinct.map (f := fun i => (place, i)) fun i j he => (Prod.mk.inj he).2
      rw [List.map_map] at hpair ⊢
      exact hpair
    rw [List.map_append]
    refine List.nodup_append.mpr ⟨hnow, ih, ?_⟩
    -- what a later call claims was not claimed by this one
    rintro key hkey _ hkey' rfl
    simp only [List.map_map, List.mem_map] at hkey hkey'
    obtain ⟨e, he, rfl⟩ := hkey
    obtain ⟨e', he', heq⟩ := hkey'
    obtain ⟨d, _, hclaimed, _⟩ := gains.1.claims e he
    obtain ⟨d', ⟨h'', hh, hopen⟩, _⟩ := hrest.claims e' he'
    simp only [heq, Function.comp_apply] at hh hopen
    rw [after] at hh
    cases hh
    rw [hclaimed] at hopen
    cases hopen

end Ledger

/-- Whatever calls are made, every function, class, enumeration and constant that they bind comes
from an entry of its own, which is claimed in its header; and from then on, through any more calls,
the header does not give out the declaration of a claimed entry. -/
theorem entries_bound_once (options : BindOptions) (headers : List Header)
    (built : ∀ h ∈ headers, h.Built) (calls : List (Nat × BindCall)) :
    let s := ((Session.start options headers).perform calls).2
    (∃ entries, Ledger (Session.start options headers) calls entries ∧
      s.context.items.Perm (entries.map (·.2)) ∧ (entries.map (·.1)).Nodup ∧
      ∀ e ∈ entries, ∃ d, s.Holds e.1 d true ∧ e.2.From d) ∧
    ∀ key d, s.Holds key d true → ∀ more h, (s.perform more).2.headers[key.1]? = some h →
      ∀ h', h.Later h' → h'.Withholds d := by
  intro s
  constructor
  · obtain ⟨entries, hl⟩ := (Session.start options headers).exists_ledger calls
      (Session.start_distinct options headers)
    have hnone : (Session.start options headers).context.items = [] := rfl
    have hperm := hl.items_perm
    rw [hnone, List.nil_append] at hperm
    refine ⟨entries, hl, hperm, hl.keys_nodup, fun e he => ?_⟩
    obtain ⟨d, _, hclaimed, hd⟩ := hl.claims e he
    exact ⟨d, hclaimed, hd⟩
  · rintro key d ⟨h₀, hh₀, hi⟩ more h hh h' hl
    obtain ⟨start, hstart, hl₀⟩ :=
      ((Session.start options headers).perform_later calls).back hh₀
    obtain ⟨h₁, hh₁, hl₁⟩ := (s.perform_later more).onward hh₀
    rw [hh] at hh₁
    cases hh₁
    have hkeys := (built start (List.mem_of_getElem? hstart)).keys_nodup
    exact (hl₁.trans hl).withholds (hl₀.keys_eq ▸ hkeys) (List.mem_of_getElem? hi)

/-- A struct, and a function that gives its size. -/
def sizeDecls : List Decl := [
  Decl.bare .struct "box" ⟨"box.h", 1, 8, 7⟩,
  { Decl.bare .function "box_size" ⟨"box.h", 2, 5, 16⟩ with
    type := some (.function (.builtin .int) [] false) }]

def sizeHeader : Header where
  name := "box.h"
  source := ⟨[("box.h", "struct box;\nint box_size(void);")]⟩
  entries := sizeDecls.map (⟨·, false⟩)

def sizeCalls : List (Nat × BindCall) :=
  [(0, .addClass ⟨"Box", some "box", [], []⟩), (0, .addFunc "Box" "box_size" "size" {})]

theorem sizeHeader_built : ∀ h ∈ [sizeHeader], h.Built := by
  intro h hh
  obtain rfl := List.mem_singleton.mp hh
  exact ⟨"box.h", ⟨[("box.h", "struct box;\nint box_size(void);")]⟩, sizeDecls, rfl⟩

set_option maxRecDepth 4000 in
/-- The struct and the function are bound, and the header gives out neither of them again. -/
theorem size_bound_once :
    (∀ h ∈ [sizeHeader], h.Built) ∧
      let s := ((Session.start {} [sizeHeader]).perform sizeCalls).2
      (∃ entries, Ledger (Session.start {} [sizeHeader]) sizeCalls entries ∧
        s.context.items.Perm (entries.map (·.2)) ∧ (entries.map (·.1)).Nodup) ∧
      ∃ h, s.headers[0]? = some h ∧ ∀ d ∈ sizeDecls, h.Withholds d := by
  obtain ⟨⟨entries, hledger, hperm, hnodup, _⟩, hwithheld⟩ :=
    entries_bound_once {} [sizeHeader] sizeHeader_built sizeCalls
  have hheaders : ((Session.start {} [sizeHeader]).perform sizeCalls).2.headers =
      [{ sizeHeader with entries := sizeDecls.map (⟨·, true⟩) }] := rfl
  refine ⟨sizeHeader_built, ⟨entries, hledger, hperm, hnodup⟩, _, by rw [hheaders]; rfl, ?_⟩
  intro d hd
  obtain ⟨i, hi⟩ := List.getElem?_of_mem hd
  have hentry : (sizeDecls.map (HeaderEntry.mk · true))[i]? = some ⟨d, true⟩ := by simp [hi]
  have hclaimed : ((Session.start {} [sizeHeader]).perform sizeCalls).2.Holds (0, i) d true :=
    ⟨_, by rw [hheaders]; rfl, hentry⟩
  exact hwithheld (0, i) d hclaimed [] _ (by rw [Session.perform, hheaders]; rfl) _ (.refl _)

end Bindery
