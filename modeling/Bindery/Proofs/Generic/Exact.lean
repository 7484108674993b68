import Bindery.Proofs.Binding.Reached

/-! The instances of generics are exactly those that the bound fields and functions use. -/

namespace Bindery

namespace Context

/-- The instances that the bound fields, arguments and results use. -/
def bindings (c : Context) : List GenericBinding :=
  (c.classes.map (·.slots)).flatMap slotBindings ++ c.functions.flatMap (·.function.bindings)

/-- The registry holds what was recorded in some uses, among them all that are bound; none was
recorded in vain if `ok`. -/
def Tracked (ok : Bool) (c : Context) : Prop :=
  ∃ used, c.generics.Exact used ∧ (∀ b ∈ c.bindings, b ∈ used) ∧
    (ok = true → ∀ b ∈ used, b ∈ c.bindings)

theorem Tracked.congr {ok : Bool} {c c' : Context} (ht : c.Tracked ok)
    (hg : ∀ used, c.generics.Exact used → c'.generics.Exact used)
    (hb : ∀ b, b ∈ c'.bindings ↔ b ∈ c.bindings) : c'.Tracked ok := by
  obtain ⟨used, he, hbound, hall⟩ := ht
  exact ⟨used, hg used he, fun b h => hbound b ((hb b).mp h),
    fun hok b h => (hb b).mpr (hall hok b h)⟩

/-- New uses are recorded, and all of them are bound, or some may be lost. -/
theorem Tracked.record {ok : Bool} {c c' : Context} (ht : c.Tracked ok)
    {uses : List GenericBinding} (hk : ∀ b ∈ uses, b.generic ∈ c.generics.names)
    (hg : ∀ used, (c.generics.recordAll uses).Exact used → c'.generics.Exact used)
    (hb : ∀ b ∈ c'.bindings, b ∈ c.bindings ∨ b ∈ uses)
    (hall : ok = true → ∀ b, b ∈ c.bindings ∨ b ∈ uses → b ∈ c'.bindings) : c'.Tracked ok := by
  obtain ⟨used, he, hbound, hkept⟩ := ht
  refine ⟨uses.reverse ++ used, hg _ (he.recordAll hk), fun b h => ?_, fun hok b h => ?_⟩
  · rcases hb b h with h | h
    · exact List.mem_append_right _ (hbound b h)
    · exact List.mem_append_left _ (List.mem_reverse.mpr h)
  · rcases List.mem_append.mp h with h | h
    · exact hall hok b (.inr (List.mem_reverse.mp h))
    · exact hall hok b (.inl (hkept hok b h))

end Context

theorem Placed.exact {f : Func} {kind : FuncKind} {c c' : Context} (h : Placed f kind c c')
    {used : List GenericBinding} (he : c.generics.Exact used) : c'.generics.Exact used := by
  cases h with
  | @generic _ name rename g g' markers found free =>
    obtain ⟨hmem, hname⟩ := Registry.get?_name found
    obtain rfl := Generic.insertMethod_ok free
    apply he.map
    intro g₀ hg₀
    by_cases hn : g₀.name = name
    · obtain rfl := Registry.eq_of_name_eq he.nodup hg₀ hmem (hn.trans hname.symm)
      simp [hn]
    · simp [hn]
  | constructor found free => exact he
  | destructor found free => exact he
  | method found free => exact he
  | static found free => exact he

theorem Context.bindings_congr {c c' : Context}
    (hf : c'.functions = c.functions) (hc : c'.classes.map (·.slots) = c.classes.map (·.slots)) :
    c'.bindings = c.bindings := by
  rw [Context.bindings, Context.bindings, hf, hc]

theorem Context.bindings_recordAll (c : Context) (uses : List GenericBinding) :
    Context.bindings { c with generics := c.generics.recordAll uses } = c.bindings :=
  bindings_congr (c.functions_recordAll uses) rfl

/-- Uses that are recorded and then lost. -/
theorem Context.Tracked.lose {c : Context} (ht : c.Tracked false) {uses : List GenericBinding}
    (hk : ∀ b ∈ uses, b.generic ∈ c.generics.names) :
    Tracked false { c with generics := c.generics.recordAll uses } :=
  ht.record hk (fun _ he => he) (fun _ hb => .inl (c.bindings_recordAll uses ▸ hb)) nofun

theorem Placed.mem_bindings {f : Func} {kind : FuncKind} {c c' : Context} (h : Placed f kind c c')
    (hd : c.Distinct) (b : GenericBinding) :
    b ∈ c'.bindings ↔ b ∈ c.bindings ∨ b ∈ f.function.bindings := by
  have hfuncs : b ∈ c'.functions.flatMap (·.function.bindings) ↔
      b ∈ c.functions.flatMap (·.function.bindings) ∨ b ∈ f.function.bindings := by
    simp only [List.mem_flatMap, h.mem_functions hd, or_and_right, exists_or, exists_eq_left]
  rw [Context.bindings, Context.bindings, h.slots, List.mem_append, List.mem_append, hfuncs,
    or_assoc]

theorem Context.mem_bindings_addClass (c : Context) (uses : List GenericBinding)
    (stale : List String) {cls : Class} (hcls : cls.functions = []) (b : GenericBinding) :
    b ∈ Context.bindings { c with
        generics := c.generics.recordAll uses
        classes := c.classes ++ [cls]
        warnings := c.warnings ++ stale } ↔ b ∈ c.bindings ∨ b ∈ slotBindings cls.slots := by
  have hfuncs := c.functions_addClass uses (c.warnings ++ stale) hcls
  simp only [bindings, hfuncs, List.map_append, List.map_cons, List.map_nil, List.flatMap_append,
    List.flatMap_cons, List.flatMap_nil, List.append_nil, List.mem_append]
  tauto

theorem Change.tracked {ok : Bool} {c c' : Context} (h : Change ok c c') (hd : c.Distinct)
    (ht : c.Tracked ok) : c'.Tracked ok := by
  cases h with
  | aside hg hc _ =>
    have hb := Context.bindings_congr (Context.functions_congr (by rw [hg]) hc) (by rw [hc])
    exact ht.congr (fun _ he => hg ▸ he) fun b => by rw [hb]
  | @register _ _ name tag pointer dependencies r hr =>
    have hb : Context.bindings { c with generics := r } = c.bindings :=
      Context.bindings_congr (Context.functions_register hr) rfl
    exact ht.congr (fun _ he => he.register rfl hr) fun b => by rw [hb]
  | @dress _ _ name f hsame =>
    have hb : Context.bindings { c with generics := c.generics.modify name f } = c.bindings :=
      Context.bindings_congr (c.functions_dress name fun g => by rw [hsame]) rfl
    refine ht.congr (fun _ he => he.map fun g _ => ?_) fun b => by rw [hb]
    by_cases hn : g.name = name
    · simp only [hn, beq_self_eq_true, if_true]
      rw [hsame]
      exact ⟨hn, rfl, rfl⟩
    · simp [hn]
  | bindFunc hb hp =>
    obtain ⟨uses, rfl, hk, hf⟩ := (Func.bind_records _ _ _ _).ran hb
    obtain ⟨hperm, _⟩ := hf _ rfl
    have hmem := hp.mem_bindings (hd.recordAll uses)
    simp only [c.bindings_recordAll uses, ← hperm.mem_iff] at hmem
    exact ht.record hk (fun _ he => hp.exact he) (fun b => (hmem b).mp) fun _ b => (hmem b).mpr
  | @bindClass _ _ _ _ _ cls stale r hfresh hb =>
    obtain ⟨uses, rfl, hk, hcls⟩ := (Class.ofRecord_records _ _ _ _).ran hb
    obtain ⟨rfl, hbinds, _⟩ := hcls _ rfl
    have hmem := c.mem_bindings_addClass (slotBindings cls.slots) stale hbinds.functions
    exact ht.record hk (fun _ he => he) (fun b => (hmem b).mp) fun _ b => (hmem b).mpr
  | loseFunc hb =>
    obtain ⟨uses, rfl, hk, _⟩ := (Func.bind_records _ _ _ _).ran hb
    exact ht.lose hk
  | loseClass hb =>
    obtain ⟨uses, rfl, hk, _⟩ := (Class.ofRecord_records _ _ _ _).ran hb
    exact ht.lose hk

theorem Evolution.tracked {ok : Bool} {c c' : Context} (h : Evolution ok c c') (hd : c.Distinct)
    (ht : c.Tracked ok) : c'.Distinct ∧ c'.Tracked ok := by
  induction h with
  | refl => exact ⟨hd, ht⟩
  | tail _ hstep ih => exact ⟨hstep.distinct ih.1, hstep.tracked ih.1 ih.2⟩

theorem Session.start_tracked (ok : Bool) (options : BindOptions) (headers : List Header) :
    (Session.start options headers).context.Tracked ok :=
  ⟨[], Registry.Exact.empty, nofun, fun _ => nofun⟩

theorem Session.perform_tracked (options : BindOptions) (headers : List Header)
    (calls : List (Nat × BindCall)) :
    let ended := (Session.start options headers).perform calls
    ended.2.context.Tracked (ended.1.all (·.isOk)) :=
  (((Session.start options headers).perform_evolves calls).tracked
    (start_distinct options headers) (start_tracked _ options headers)).2

/-- After any calls on any headers, a bound use of an instance is among the instances of its generic
and among those of the registered dependencies of the generic. If no call failed, no generic has
other instances. -/
theorem specializations_exact (options : BindOptions) (headers : List Header)
    (calls : List (Nat × BindCall)) :
    let ended := (Session.start options headers).perform calls
    let c := ended.2.context
    (∀ b ∈ c.bindings, ∃ g, c.generics.get? b.generic = some g ∧
      b.specialization ∈ g.specializations ∧
      ∀ d ∈ g.dependencies, ∀ g', c.generics.get? d = some g' →
        b.specialization ∈ g'.specializations) ∧
    ((∀ result ∈ ended.1, result = .ok ()) →
      ∀ n g, c.generics.get? n = some g → ∀ k ∈ g.specializations,
        ⟨n, k⟩ ∈ c.bindings ∨
          ∃ m h, c.generics.get? m = some h ∧ n ∈ h.dependencies ∧ ⟨m, k⟩ ∈ c.bindings) := by
  intro ended c
  obtain ⟨used, he, hbound, hall⟩ := Session.perform_tracked options headers calls
  constructor
  · intro b hb
    have hu := hbound b hb
    obtain ⟨g, hg⟩ := Option.isSome_iff_exists.mp (Registry.get?_isSome_iff.mpr (he.known b hu))
    obtain ⟨hmem, hname⟩ := Registry.get?_name hg
    refine ⟨g, hg, (he.keys g hmem _).mpr (.inl (hname ▸ hu)), fun d hd g' hg' => ?_⟩
    obtain ⟨hmem', hname'⟩ := Registry.get?_name hg'
    exact (he.keys g' hmem' _).mpr (.inr ⟨g, hmem, hname' ▸ hd, hname ▸ hu⟩)
  · intro hok n g hg k hk
    have hkept := hall (List.all_eq_true.mpr fun result hr => by rw [hok result hr]; rfl)
    obtain ⟨hmem, rfl⟩ := Registry.get?_name hg
    rcases (he.keys g hmem k).mp hk with hu | ⟨h, hh, hd, hu⟩
    · exact .inl (hkept _ hu)
    · refine .inr ⟨h.name, h, ?_, hd, hkept _ hu⟩
      exact Registry.get?_of_mem he.nodup hh

def listName : String :=
  "List"

/-- A typedef of a struct, and a struct with a field that points to it. -/
def boxHeader : Header where
  name := "box.h"
  source := ⟨[("box.h", "List /*<int *>*/ items;")]⟩
  entries := [
    ⟨{ Decl.bare .typedef listName ⟨"box.h", 1, 1, 0⟩ with type := some (.struct "list") }, false⟩,
    ⟨{ Decl.bare .struct "box" ⟨"box.h", 1, 1, 0⟩ with children := [
      { Decl.bare .field "items" ⟨"box.h", 1, 18, 17⟩ with
        typeStart := some ⟨"box.h", 1, 1, 0⟩
        type := some (.pointer (.typedef listName (.struct "list") none)) }] }, false⟩]

/-- The field of the struct is bound to an instance of the generic, and the generic has it. -/
theorem box_specialized :
    let ended := (Session.start {} [boxHeader]).perform
      [(0, .addGeneric "List" .required []), (0, .addClass ⟨"Box", some "box", [], []⟩)]
    let c := ended.2.context
    (∀ result ∈ ended.1, result = .ok ()) ∧ ∃ g, c.generics.get? "List" = some g ∧
      "int" ∈ g.specializations ∧ (⟨"List", "int"⟩ ∈ c.bindings ∨
        ∃ m h, c.generics.get? m = some h ∧ "List" ∈ h.dependencies ∧ ⟨m, "int"⟩ ∈ c.bindings) := by
  intro ended c
  obtain ⟨hbound, hkept⟩ := specializations_exact {} [boxHeader]
    [(0, .addGeneric "List" .required []), (0, .addClass ⟨"Box", some "box", [], []⟩)]
  have hok : ∀ result ∈ ended.1, result = .ok () := ok_of_all_isOk (by decide +kernel)
  obtain ⟨g, hg, hk, _⟩ := hbound ⟨"List", "int"⟩ (by decide +kernel)
  exact ⟨hok, g, hg, hk, hkept hok "List" g hg "int" hk⟩

end Bindery
