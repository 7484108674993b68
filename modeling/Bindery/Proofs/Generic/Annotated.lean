import Mathlib.Data.List.Induction
import Bindery.Proofs.Generic.Exact

/-! Which uses of generics are bound to instances. A use is looked at once, when it is bound. -/

namespace Bindery

namespace Context

/-- The records at which the bound fields, arguments and results are bound to instances. -/
def records (c : Context) : List RecordUse :=
  (c.classes.map (·.slots)).flatMap slotRecords ++
    c.functions.flatMap fun f => f.function.records f.kind

/-- Every use of a generic is bound to an instance. -/
def Annotated (c : Context) : Prop :=
  c.generics.Annotated c.records

/-- The generics stay for the same structs, and no new record of theirs is without an instance. -/
structure Grows (c c' : Context) : Prop where
  structs : c'.generics.structs = c.generics.structs
  records : ∃ new, c'.records.Perm (c.records ++ new) ∧ c.generics.Annotated new

namespace Grows

variable {c c' c'' : Context}

theorem of_eq (hs : c'.generics.structs = c.generics.structs)
    (hc : c'.classes.map (·.slots) = c.classes.map (·.slots)) (hf : c'.functions = c.functions) :
    c.Grows c' :=
  ⟨hs, [], by simp [Context.records, hc, hf], .nil⟩

theorem refl (c : Context) : c.Grows c :=
  of_eq rfl rfl rfl

theorem trans (h : c.Grows c') (h' : c'.Grows c'') : c.Grows c'' := by
  obtain ⟨new, hperm, ha⟩ := h.records
  obtain ⟨more, hperm', ha'⟩ := h'.records
  refine ⟨h'.structs.trans h.structs, new ++ more, ?_, ha.append (ha'.congr h.structs.symm)⟩
  rw [← List.append_assoc]
  exact hperm'.trans (hperm.append_right more)

theorem annotated (h : c.Grows c') (ha : c.Annotated) : c'.Annotated := by
  obtain ⟨new, hperm, hnew⟩ := h.records
  intro u hu
  exact (ha.append hnew).congr h.structs u (hperm.mem_iff.mp hu)

end Grows

theorem grows_bindFunc {c c' : Context} {uses : List GenericBinding} {f : Func} {kind : FuncKind}
    (hd : c.Distinct) (hp : Placed f kind { c with generics := c.generics.recordAll uses } c')
    (ha : c.generics.Annotated (f.function.records f.kind)) : c.Grows c' := by
  have hperm := hp.functions_perm (hd.recordAll uses)
  rw [c.functions_recordAll] at hperm
  refine ⟨?_, f.function.records f.kind, ?_, ha⟩
  · have hstructs := hp.map_generics (hd.recordAll uses).generics (·.structName) fun _ _ => rfl
    exact hstructs.trans (Registry.recordAll_structs c.generics uses)
  · have hrecords := hperm.flatMap_right fun f => f.function.records f.kind
    rw [List.flatMap_append, List.flatMap_singleton] at hrecords
    rw [records, hp.slots, records, List.append_assoc]
    exact hrecords.append_left _

end Context

theorem Move.grows {ok : Bool} {w w' : Workspace} (h : Move ok w w') (hd : w.context.Distinct) :
    w.context.Grows w'.context := by
  have hlost : ∀ uses, w.context.Grows
      { w.context with generics := w.context.generics.recordAll uses } := fun uses =>
    .of_eq (Registry.recordAll_structs _ uses) rfl (w.context.functions_recordAll uses)
  cases h with
  | claim _ => exact .refl _
  | addInclude header =>
    unfold Context.addInclude
    split
    · exact .refl _
    · exact .of_eq rfl rfl rfl
  | dress hsame =>
    refine .of_eq ?_ rfl (w.context.functions_dress _ fun g => by rw [hsame])
    exact Registry.modify_map _ _ _ fun g _ => by rw [hsame]
  | bindFunc _ hb hp =>
    obtain ⟨uses, rfl, _, hbinds⟩ := (Func.bind_records _ _ _ _).ran hb
    exact Context.grows_bindFunc hd hp (hbinds _ rfl).2.2
  | @bindClass _ _ tag record h' spec cls stale r _ _ hb =>
    obtain ⟨uses, rfl, _, hcls⟩ := (Class.ofRecord_records _ _ _ _).ran hb
    obtain ⟨_, hbinds, ha, -⟩ := hcls _ rfl
    have hfuncs := w.context.functions_addClass uses (w.context.warnings ++ stale) hbinds.functions
    refine ⟨Registry.recordAll_structs _ uses, slotRecords cls.slots, ?_, ha⟩
    have hlast := perm_last ((w.context.classes.map (·.slots)).flatMap slotRecords)
      (slotRecords cls.slots) (w.context.functions.flatMap fun f => f.function.records f.kind)
    simpa [Context.records, hfuncs] using hlast
  | bindDirector _ _ => exact .of_eq rfl rfl rfl
  | bindEnum _ _ _ => exact .of_eq rfl rfl rfl
  | bindDefines _ => exact .of_eq rfl rfl rfl
  | loseFunc _ hb =>
    obtain ⟨uses, rfl, _, _⟩ := (Func.bind_records _ _ _ _).ran hb
    exact hlost uses
  | loseClass _ hb =>
    obtain ⟨uses, rfl, _, _⟩ := (Class.ofRecord_records _ _ _ _).ran hb
    exact hlost uses

theorem Course.grows {ok : Bool} {w w' : Workspace} (h : Course ok w w')
    (hd : w.context.Distinct) : w'.context.Distinct ∧ w.context.Grows w'.context := by
  induction h with
  | refl => exact ⟨hd, .refl _⟩
  | tail _ hmove ih => exact ⟨hmove.change.distinct ih.1, ih.2.trans (hmove.grows ih.1)⟩

/-- A call lets the interface grow, unless it registers a generic; then the records stay as they
are. -/
def Context.Advances (c : Context) (call : BindCall) (c' : Context) : Prop :=
  c.Grows c' ∨ ∃ name pointer dependencies, call = .addGeneric name pointer dependencies ∧
    c'.records = c.records ∧ c.generics.structs ⊆ c'.generics.structs

theorem Turn.advances {ok : Bool} {w w' : Workspace} {call : BindCall} (h : Turn ok w call w')
    (hd : w.context.Distinct) : w.context.Advances call w'.context := by
  cases h with
  | moves hc => exact .inl (hc.grows hd).2
  | registers _ _ hr =>
    obtain ⟨_, keys, _, rfl⟩ := Registry.register_ok hr
    refine .inr ⟨_, _, _, rfl, ?_, ?_⟩
    · simp [Context.records, Context.functions_register hr]
    · simp [Registry.structs]

namespace Session

theorem call_advances (s : Session) (place : Nat) (c : BindCall) (hd : s.context.Distinct) :
    s.context.Advances c (s.call place c).2.context := by
  cases hh : s.headers[place]? with
  | none =>
    rw [s.call_none c hh]
    exact .inl (.refl _)
  | some h =>
    obtain ⟨w', hturn, he⟩ := s.call_turn c hh
    rw [he]
    exact hturn.advances hd

/-- Records that are bound stay so, and generics stay registered. -/
theorem perform_onward (s : Session) (calls : List (Nat × BindCall)) (hd : s.context.Distinct) :
    s.context.records ⊆ (s.perform calls).2.context.records ∧
      s.context.generics.structs ⊆ (s.perform calls).2.context.generics.structs := by
  induction calls generalizing s with
  | nil => exact ⟨List.Subset.refl _, List.Subset.refl _⟩
  | cons entry calls ih =>
    obtain ⟨place, c⟩ := entry
    obtain ⟨hrecords, hstructs⟩ := ih (s.call place c).2 (s.call_distinct place c hd)
    rcases s.call_advances place c hd with hg | ⟨_, _, _, _, hr, hs⟩
    · obtain ⟨new, hperm, _⟩ := hg.records
      exact ⟨fun u hu => hrecords (hperm.mem_iff.mpr (List.mem_append_left _ hu)),
        fun tag htag => hstructs (hg.structs ▸ htag)⟩
    · exact ⟨hr ▸ hrecords, List.Subset.trans hs hstructs⟩

end Session

/-- After any calls every use of a generic is bound to an instance if and only if each call that
registered a generic left no use of it unbound that was bound before the call. -/
theorem uses_annotated_iff (options : BindOptions) (headers : List Header)
    (calls : List (Nat × BindCall)) :
    let reached := fun calls => ((Session.start options headers).perform calls).2.context
    (reached calls).Annotated ↔
      ∀ before place name pointer dependencies after,
        calls = before ++ (place, .addGeneric name pointer dependencies) :: after →
          (reached (before ++ [(place, .addGeneric name pointer dependencies)])).generics.Annotated
            (reached before).records := by
  intro reached
  have happend : ∀ calls more, reached (calls ++ more) =
      (((Session.start options headers).perform calls).2.perform more).2.context :=
    fun calls more => congrArg Session.context (Session.perform_append _ calls more)
  have hdistinct := Session.perform_distinct options headers
  constructor
  · rintro ha before place name pointer dependencies after rfl u hu htag
    have hregistered := (Session.perform_onward _ after (hdistinct
      (before ++ [(place, .addGeneric name pointer dependencies)]))).2
    have hkept := (Session.perform_onward _ ((place, .addGeneric name pointer dependencies) :: after)
      (hdistinct before)).1
    rw [← happend, List.append_assoc, List.singleton_append] at hregistered
    rw [← happend] at hkept
    refine ha u (hkept hu) (Registry.forStruct?_isSome_iff.mpr (hregistered ?_))
    exact Registry.forStruct?_isSome_iff.mp htag
  · -- from the last call backwards: only one that registers a generic can leave a use unbound
    induction calls using List.reverseRecOn with
    | nil => exact fun _ => .nil
    | append_singleton calls entry ih =>
      obtain ⟨place, c⟩ := entry
      intro h
      have hprevious := ih fun before other name pointer dependencies after he =>
        h before other name pointer dependencies (after ++ [(place, c)]) (by simp [he])
      have hcall : reached (calls ++ [(place, c)]) =
          (((Session.start options headers).perform calls).2.call place c).2.context :=
        happend calls [(place, c)]
      rcases Session.call_advances _ place c (hdistinct calls) with
        hg | ⟨name, pointer, dependencies, rfl, hr, _⟩
      · rw [hcall]
        exact hg.annotated hprevious
      · have hleft := h calls place name pointer dependencies [] rfl
        rw [hcall] at hleft ⊢
        rwa [Context.Annotated, hr]

/-- A struct with a use of a generic that is registered after it. -/
def lateCalls : List (Nat × BindCall) :=
  [(0, .addClass ⟨"Box", some "box", [], []⟩), (0, .addGeneric "List" .required [])]

/-- All calls succeed, and the field is bound to no instance although a comment names one. -/
theorem late_generic_unannotated :
    let ended := (Session.start {} [boxHeader]).perform lateCalls
    let c := ended.2.context
    (∀ result ∈ ended.1, result = .ok ()) ∧ ⟨"list", false, none⟩ ∈ c.records ∧
      (c.generics.forStruct? "list").isSome ∧ ¬ c.Annotated := by
  intro ended c
  have hall : ended.1.all (·.isOk) = true := by decide
  have hmem : ⟨"list", false, none⟩ ∈ c.records := by decide
  have hgeneric : (c.generics.forStruct? "list").isSome := by decide
  refine ⟨ok_of_all_isOk hall, hmem, hgeneric, fun ha => ?_⟩
  · exact absurd (ha _ hmem hgeneric) nofun

end Bindery
