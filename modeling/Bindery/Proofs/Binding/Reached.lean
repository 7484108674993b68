import Bindery.Proofs.Binding.Change
import Bindery.Proofs.Binding.Class

/-! What holds in every context that calls reach. -/

namespace Bindery

namespace Registry

theorem recordAll_methods (r : Registry) (uses : List GenericBinding) :
    (r.recordAll uses).generics.map (·.methods) = r.generics.map (·.methods) :=
  r.recordAll_map uses _ fun _ _ => rfl

theorem modify_map {α : Type} (r : Registry) (name : String) (part : Generic → α)
    {f : Generic → Generic} (hf : ∀ g, g.name = name → part (f g) = part g) :
    (r.modify name f).generics.map part = r.generics.map part := by
  simp only [modify, List.map_map]
  apply List.map_congr_left
  intro g _
  by_cases hn : g.name = name
  · simp [hn, hf g hn]
  · simp [hn]

end Registry

theorem Class.Binds.functions {spec : ClassSpec} {record : Decl} {cls : Class}
    (h : Class.Binds spec record cls) : cls.functions = [] := by
  simp [Class.functions, h.funcs, h.methods, h.constructor, h.destructor]

theorem Generic.insertMethod_ok {g g' : Generic} {name : String} {f : Func}
    (h : g.insertMethod name f = .ok g') : g' = { g with methods := g.methods ++ [(name, f)] } := by
  unfold Generic.insertMethod at h
  split at h
  · cases h
  · exact (Except.ok.inj h).symm

namespace Context

def classNames (c : Context) : List String :=
  c.classes.map (·.name)

/-- Generics differ in their names, and so do classes. -/
structure Distinct (c : Context) : Prop where
  generics : c.generics.names.Nodup
  classes : c.classNames.Nodup

theorem changeClass_map {α : Type} (c : Context) (name : String) (part : Class → α)
    {f : Class → Class} (hf : ∀ k, part (f k) = part k) :
    (c.changeClass name f).classes.map part = c.classes.map part := by
  simp only [changeClass, List.map_map]
  apply List.map_congr_left
  intro k _
  by_cases hn : k.name = name
  · simp [hn, hf k]
  · simp [hn]

end Context

/-- Giving a function its place changes nothing of the classes but their functions. -/
theorem Placed.map_classes {α : Type} {f : Func} {kind : FuncKind} {c c' : Context}
    (h : Placed f kind c c') (part : Class → α)
    (hpart : ∀ k funcs methods constructor destructor, part { k with
      funcs := funcs, methods := methods, constructor := constructor, destructor := destructor } =
        part k) : c'.classes.map part = c.classes.map part := by
  cases h with
  | generic found free => rfl
  | constructor found free => exact c.changeClass_map _ part fun k => hpart k _ _ _ _
  | destructor found free => exact c.changeClass_map _ part fun k => hpart k _ _ _ _
  | method found free => exact c.changeClass_map _ part fun k => hpart k _ _ _ _
  | static found free => exact c.changeClass_map _ part fun k => hpart k _ _ _ _

/-- Giving a function its place changes nothing of the generics but their methods. -/
theorem Placed.map_generics {α : Type} {f : Func} {kind : FuncKind} {c c' : Context}
    (h : Placed f kind c c') (hnd : c.generics.names.Nodup) (part : Generic → α)
    (hpart : ∀ g methods, part { g with methods := methods } = part g) :
    c'.generics.generics.map part = c.generics.generics.map part := by
  cases h with
  | @generic _ name rename g₀ g' markers found free =>
    obtain ⟨hmem, hname⟩ := Registry.get?_name found
    obtain rfl := Generic.insertMethod_ok free
    simp only [Registry.modify, List.map_map]
    refine List.map_congr_left fun g hg => ?_
    by_cases hn : g.name = name
    · obtain rfl := Registry.eq_of_name_eq hnd hg hmem (hn.trans hname.symm)
      simpa [hn] using hpart g (g.methods ++ [(rename, f)])
    · simp [hn]
  | constructor found free => rfl
  | destructor found free => rfl
  | method found free => rfl
  | static found free => rfl

theorem Placed.slots {f : Func} {kind : FuncKind} {c c' : Context} (h : Placed f kind c c') :
    c'.classes.map (·.slots) = c.classes.map (·.slots) :=
  h.map_classes _ fun _ _ _ _ _ => rfl

theorem Placed.aside {f : Func} {kind : FuncKind} {c c' : Context} (h : Placed f kind c c') :
    c'.enums = c.enums ∧ c'.defines = c.defines ∧ c'.directors = c.directors := by
  cases h <;> exact ⟨rfl, rfl, rfl⟩

theorem Change.distinct {ok : Bool} {c c' : Context} (h : Change ok c c') (hd : c.Distinct) :
    c'.Distinct := by
  have hrecorded : ∀ uses, (c.generics.recordAll uses).names.Nodup := fun uses => by
    rw [Registry.recordAll_names]
    exact hd.generics
  cases h with
  | aside hg hc _ => exact ⟨hg ▸ hd.generics, by simpa [Context.classNames, hc] using hd.classes⟩
  | register hr =>
    obtain ⟨hno, keys, _, rfl⟩ := Registry.register_ok hr
    refine ⟨?_, hd.classes⟩
    simpa [Registry.names, List.nodup_append, Generic.withKeys] using
      ⟨hd.generics, Registry.not_mem_names.mp hno⟩
  | @dress _ _ name f hsame =>
    have hnames : (c.generics.modify name f).names = c.generics.names :=
      Registry.modify_map _ _ _ fun g _ => by rw [hsame]
    exact ⟨hnames ▸ hd.generics, hd.classes⟩
  | bindFunc hb hp =>
    obtain ⟨uses, rfl, _, _⟩ := (Func.bind_records _ _ _ _).ran hb
    have hg : c'.generics.names = (c.generics.recordAll uses).names :=
      hp.map_generics (hrecorded uses) _ fun _ _ => rfl
    have hc : c'.classNames = c.classNames := hp.map_classes _ fun _ _ _ _ _ => rfl
    exact ⟨hg ▸ hrecorded uses, hc ▸ hd.classes⟩
  | bindClass hfresh hb =>
    obtain ⟨uses, rfl, _, hcls⟩ := (Class.ofRecord_records _ _ _ _).ran hb
    obtain ⟨_, hbinds, _⟩ := hcls _ rfl
    refine ⟨hrecorded uses, ?_⟩
    rw [← hbinds.name] at hfresh
    have hno := List.any_eq_false.mp hfresh
    simpa [Context.classNames, List.nodup_append] using
      ⟨hd.classes, fun k hk => by simpa using hno k hk⟩
  | loseFunc hb =>
    obtain ⟨uses, rfl, _, _⟩ := (Func.bind_records _ _ _ _).ran hb
    exact ⟨hrecorded uses, hd.classes⟩
  | loseClass hb =>
    obtain ⟨uses, rfl, _, _⟩ := (Class.ofRecord_records _ _ _ _).ran hb
    exact ⟨hrecorded uses, hd.classes⟩

namespace Context

/-- The functions of a context depend on the methods of its generics and on its classes only. -/
theorem functions_congr {c c' : Context}
    (hg : c'.generics.generics.map (·.methods) = c.generics.generics.map (·.methods))
    (hc : c'.classes = c.classes) : c'.functions = c.functions := by
  have hflat : ∀ gs : List Generic, gs.flatMap (fun g => g.methods.map (·.2)) =
      (gs.map (·.methods)).flatMap fun methods => methods.map (·.2) := by
    simp [List.flatMap_map]
  rw [functions, functions, hflat, hflat, hg, hc]

theorem functions_recordAll (c : Context) (uses : List GenericBinding) :
    functions { c with generics := c.generics.recordAll uses } = c.functions :=
  functions_congr (Registry.recordAll_methods c.generics uses) rfl

theorem functions_register {c : Context} {name tag : String} {pointer : PointerPolicy}
    {dependencies : List String} {r : Registry}
    (h : c.generics.register (.bare name tag pointer dependencies) = .ok r) :
    functions { c with generics := r } = c.functions := by
  obtain ⟨_, keys, _, rfl⟩ := Registry.register_ok h
  simp [functions, Generic.withKeys, Generic.bare]

theorem functions_dress (c : Context) (name : String) {f : Generic → Generic}
    (h : ∀ g, (f g).methods = g.methods) :
    functions { c with generics := c.generics.modify name f } = c.functions :=
  functions_congr (c.generics.modify_map name _ fun g _ => h g) rfl

theorem functions_addClass (c : Context) (uses : List GenericBinding) (warnings : List String)
    {cls : Class} (hcls : cls.functions = []) :
    functions { c with
      generics := c.generics.recordAll uses
      classes := c.classes ++ [cls]
      warnings := warnings } = c.functions := by
  rw [← functions_recordAll c uses]
  simp [functions, hcls]

end Context

theorem perm_last {α : Type} (before new after : List α) :
    (before ++ new ++ after).Perm (before ++ after ++ new) := by
  rw [List.append_assoc, List.append_assoc]
  exact List.perm_append_comm.append_left before

/-- Changing the one item of a name so that it yields one thing more. -/
theorem flatMap_change_perm {α β : Type} {items : List α} {key : α → String} {name : String}
    {item : α} (change : α → α) (parts : α → List β) {new : β} (hnd : (items.map key).Nodup)
    (hitem : item ∈ items) (hname : key item = name)
    (hparts : (parts (change item)).Perm (parts item ++ [new])) :
    ((items.map fun x => if key x == name then change x else x).flatMap parts).Perm
      (items.flatMap parts ++ [new]) := by
  obtain ⟨before, after, rfl⟩ := List.append_of_mem hitem
  rw [List.map_append, List.map_cons, List.nodup_middle, List.nodup_cons, ← List.map_append] at hnd
  have hother : ∀ xs : List α, xs ⊆ before ++ after →
      (xs.map fun x => if key x == name then change x else x) = xs := by
    intro xs hxs
    refine (List.map_congr_left fun x hx => ?_).trans (List.map_id xs)
    have hne : key x ≠ name := fun he => hnd.1 (hname.trans he.symm ▸ List.mem_map_of_mem (hxs hx))
    simp [hne]
  have hchanged := (hparts.append_right (after.flatMap parts)).append_left (before.flatMap parts)
  rw [List.map_append, List.map_cons, hother before (List.subset_append_left _ _),
    hother after (List.subset_append_right _ _)]
  simp only [← List.append_assoc] at hchanged
  have hall := hchanged.trans (perm_last _ [new] _)
  simpa [hname] using hall

theorem Context.getClass?_name {c : Context} {name : String} {k : Class}
    (h : c.getClass? name = some k) : k ∈ c.classes ∧ k.name = name :=
  ⟨List.mem_of_find?_eq_some h, by simpa using List.find?_some h⟩

theorem Context.changeClass_perm {c : Context} (hd : c.Distinct) {name : String} {k : Class}
    (hk : c.getClass? name = some k) {f : Func} {change : Class → Class}
    (hf : (change k).functions.Perm (k.functions ++ [f])) :
    (c.changeClass name change).functions.Perm (c.functions ++ [f]) := by
  obtain ⟨hmem, hname⟩ := getClass?_name hk
  have hchange := flatMap_change_perm change Class.functions hd.classes hmem hname hf
  simp only [functions, changeClass, List.append_assoc]
  exact hchange.append_left _

/-- A function that gets its place is one more, and no other loses its place. -/
theorem Placed.functions_perm {f : Func} {kind : FuncKind} {c c' : Context}
    (h : Placed f kind c c') (hd : c.Distinct) : c'.functions.Perm (c.functions ++ [f]) := by
  cases h with
  | @generic _ name rename g g' markers found free =>
    obtain ⟨hmem, hname⟩ := Registry.get?_name found
    obtain rfl := Generic.insertMethod_ok free
    have hparts : ((g.methods ++ [(rename, f)]).map (·.2)).Perm (g.methods.map (·.2) ++ [f]) := by
      simp
    have hchange := flatMap_change_perm (fun _ => { g with methods := g.methods ++ [(rename, f)] })
      (fun g => g.methods.map (·.2)) hd.generics hmem hname hparts
    have hall := hchange.append_right (c.classes.flatMap Class.functions)
    exact hall.trans (perm_last _ [f] _)
  | @constructor _ _ cls found free =>
    have hno := Option.isNone_iff_eq_none.mp (Option.isSome_eq_false_iff.mp free)
    refine Context.changeClass_perm hd found ?_
    simpa [Class.functions, hno] using
      perm_last [] [f] (cls.destructor.toList ++ cls.funcs.map (·.2) ++ cls.methods.map (·.2))
  | @destructor _ _ cls found free =>
    have hno := Option.isNone_iff_eq_none.mp (Option.isSome_eq_false_iff.mp free)
    refine Context.changeClass_perm hd found ?_
    simpa [Class.functions, hno] using
      perm_last cls.constructor.toList [f] (cls.funcs.map (·.2) ++ cls.methods.map (·.2))
  | method found free =>
    refine Context.changeClass_perm hd found ?_
    simp [Class.functions]
  | @static _ _ _ cls found free =>
    refine Context.changeClass_perm hd found ?_
    simpa [Class.functions] using perm_last
      (cls.constructor.toList ++ cls.destructor.toList ++ cls.funcs.map (·.2)) [f]
      (cls.methods.map (·.2))

theorem Placed.mem_functions {f : Func} {kind : FuncKind} {c c' : Context}
    (h : Placed f kind c c') (hd : c.Distinct) (f' : Func) :
    f' ∈ c'.functions ↔ f' ∈ c.functions ∨ f' = f := by
  rw [(h.functions_perm hd).mem_iff, List.mem_append, List.mem_singleton]

theorem Context.Distinct.recordAll {c : Context} (hd : c.Distinct) (uses : List GenericBinding) :
    Distinct { c with generics := c.generics.recordAll uses } :=
  ⟨by rw [Registry.recordAll_names]; exact hd.generics, hd.classes⟩

theorem Evolution.distinct {ok : Bool} {c c' : Context} (h : Evolution ok c c')
    (hd : c.Distinct) : c'.Distinct := by
  induction h with
  | refl => exact hd
  | tail _ hstep ih => exact hstep.distinct ih

theorem Session.start_distinct (options : BindOptions) (headers : List Header) :
    (Session.start options headers).context.Distinct :=
  ⟨List.nodup_nil, List.nodup_nil⟩

theorem Session.call_distinct (s : Session) (place : Nat) (c : BindCall)
    (hd : s.context.Distinct) : (s.call place c).2.context.Distinct :=
  (s.call_evolves place c).distinct hd

theorem Session.perform_distinct (options : BindOptions) (headers : List Header)
    (calls : List (Nat × BindCall)) :
    ((Session.start options headers).perform calls).2.context.Distinct :=
  ((Session.start options headers).perform_evolves calls).distinct (start_distinct options headers)

/-- Every bound function comes from a declaration. -/
def Context.Bound (c : Context) : Prop :=
  ∀ f ∈ c.functions, ∃ d kind, f.Binds d kind

theorem Change.bound {ok : Bool} {c c' : Context} (h : Change ok c c') (hd : c.Distinct)
    (hc : c.Bound) : c'.Bound := by
  cases h with
  | aside hg hcls _ =>
    intro f hf
    exact hc f (Context.functions_congr (by rw [hg]) hcls ▸ hf)
  | register hr =>
    intro f hf
    exact hc f (Context.functions_register hr ▸ hf)
  | @dress _ _ name change hsame =>
    have hfuncs : Context.functions { c with generics := c.generics.modify name change } =
        c.functions := c.functions_dress name fun g => by rw [hsame]
    intro f hf
    exact hc f (hfuncs ▸ hf)
  | bindFunc hb hp =>
    obtain ⟨uses, rfl, _, hbinds⟩ := (Func.bind_records _ _ _ _).ran hb
    intro f hf
    rcases (hp.mem_functions (hd.recordAll uses) f).mp hf with hf | rfl
    · exact hc f (c.functions_recordAll uses ▸ hf)
    · exact ⟨_, _, (hbinds _ rfl).2.1⟩
  | bindClass hfresh hb =>
    obtain ⟨uses, rfl, _, hcls⟩ := (Class.ofRecord_records _ _ _ _).ran hb
    intro f hf
    exact hc f (c.functions_addClass uses _ (hcls _ rfl).2.1.functions ▸ hf)
  | loseFunc hb =>
    obtain ⟨uses, rfl, _, _⟩ := (Func.bind_records _ _ _ _).ran hb
    intro f hf
    exact hc f (c.functions_recordAll uses ▸ hf)
  | loseClass hb =>
    obtain ⟨uses, rfl, _, _⟩ := (Class.ofRecord_records _ _ _ _).ran hb
    intro f hf
    exact hc f (c.functions_recordAll uses ▸ hf)

theorem Evolution.bound {ok : Bool} {c c' : Context} (h : Evolution ok c c') (hd : c.Distinct)
    (hc : c.Bound) : c'.Distinct ∧ c'.Bound := by
  induction h with
  | refl => exact ⟨hd, hc⟩
  | tail _ hstep ih => exact ⟨hstep.distinct ih.1, hstep.bound ih.1 ih.2⟩

theorem Session.perform_bound (options : BindOptions) (headers : List Header)
    (calls : List (Nat × BindCall)) :
    ((Session.start options headers).perform calls).2.context.Bound :=
  (((Session.start options headers).perform_evolves calls).bound
    (start_distinct options headers) nofun).2

end Bindery
