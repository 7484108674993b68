import Bindery.Proofs.Binding.Exposed
import Bindery.Proofs.CType.Pointed
import Bindery.Proofs.Merge

/-! What a scan for functions whose names start alike binds, and in which order. -/

namespace Bindery

namespace Decl

/-- Whether the first parameter of a function points to a record of the tag. -/
def receives (tag : String) (d : Decl) : Bool :=
  d.params.head?.bind (fun p => p.type.bind RawType.pointedTag) == some tag

end Decl

theorem pointeeRecord_of_ofDecl {d : Decl} {a : FuncArg} (h : FuncArg.ofDecl d = .ok a) :
    a.type.pointeeRecord.map (·.tag) = d.type.bind RawType.pointedTag := by
  obtain ⟨t, ht, he⟩ := except_bind_ok h
  cases he
  cases hd : d.type with
  | none => simp [Decl.classify, hd] at ht
  | some raw =>
    simp only [Decl.classify, hd] at ht
    exact RawType.pointeeRecord_of_classify (mapError_ok ht)

/-- The receiver can be told from the declaration as written. -/
theorem CFunction.takesReceiver_eq {d : Decl} {f : CFunction} (h : CFunction.ofDecl d = .ok f)
    (tag : String) : f.takesReceiver tag = d.receives tag := by
  unfold CFunction.ofDecl at h
  split at h
  · obtain ⟨result, -, h⟩ := except_bind_ok h
    obtain ⟨args, hargs, he⟩ := except_bind_ok h
    cases he
    simp only [takesReceiver, Decl.receives]
    cases hparams : d.params with
    | nil =>
      rw [hparams] at hargs
      cases hargs
      rfl
    | cons p ps =>
      rw [hparams, List.mapM_cons] at hargs
      obtain ⟨a, ha, hargs⟩ := except_bind_ok hargs
      obtain ⟨as, -, he⟩ := except_bind_ok hargs
      cases he
      have hpointed := pointeeRecord_of_ofDecl ha
      simp only [List.head?_cons, Option.bind_some, ← hpointed]
      cases a.type.pointeeRecord <;> simp
  · cases h

namespace Header

theorem claim_claim (h : Header) (p q : HeaderEntry → Bool)
    (hq : ∀ e, q { e with claimed := true } = q e) :
    (h.claim p).claim q = h.claim fun e => p e || q e := by
  simp only [claim, List.map_map, mk.injEq, true_and]
  refine List.map_congr_left fun e _ => ?_
  by_cases hp : p e <;> simp [hp, hq]

/-- Functions of different names that are not claimed. -/
structure Offers (h : Header) (ds : List Decl) : Prop where
  entries : ∀ d ∈ ds, ⟨d, false⟩ ∈ h.entries
  functions : ∀ d ∈ ds, d.kind = .function
  names : (ds.map Decl.name).Nodup

namespace Offers

variable {h h' : Header} {d d' : Decl} {ds : List Decl}

theorem tail (ho : h.Offers (d :: ds)) : h.Offers ds :=
  ⟨fun a ha => ho.entries a (.tail _ ha), fun a ha => ho.functions a (.tail _ ha),
    (List.nodup_cons.mp ho.names).2⟩

theorem get? (ho : h.Offers (d :: ds)) (hk : h.keys.Nodup) : h.get? .function d.name = some d := by
  have hkey : HeaderEntry.key ⟨d, false⟩ = (.function, d.name) :=
    congrArg (·, d.name) (ho.functions d (.head _))
  have hf := (find?_iff hk).mpr ⟨ho.entries d (.head _), hkey⟩
  simp [Header.get?, hf]

theorem pop (ho : h.Offers (d :: ds)) (hk : h.keys.Nodup)
    (hp : h.pop .function d.name = .ok (d', h')) :
    d' = d ∧ h' = h.claim (fun e => [d.key].contains e.key) ∧ h'.Offers ds := by
  have hd : d.kind = .function := ho.functions d (.head _)
  simp only [Header.pop, ho.get? hk, Except.ok.injEq, Prod.mk.injEq] at hp
  obtain ⟨rfl, rfl⟩ := hp
  have hdeclares : ∀ e : HeaderEntry, e.declares .function d.name = [d.key].contains e.key := by
    intro e
    rw [Bool.eq_iff_iff, HeaderEntry.declares_iff]
    simp [Decl.key, hd]
  have hclaim : h.claim (·.declares .function d.name) = h.claim fun e => [d.key].contains e.key :=
    congrArg h.claim (funext hdeclares)
  refine ⟨rfl, hclaim, fun a ha => ?_, ho.tail.functions, ho.tail.names⟩
  have hne : a.name ≠ d.name := fun hsame =>
    (List.nodup_cons.mp ho.names).1 (hsame ▸ List.mem_map_of_mem ha)
  refine List.mem_map.mpr ⟨⟨a, false⟩, ho.tail.entries a ha, if_neg ?_⟩
  rw [HeaderEntry.declares_iff]
  exact fun hkey => hne (congrArg Prod.snd hkey)

end Offers

theorem offers_of_sublist {h : Header} {ds : List Decl} (hk : h.keys.Nodup)
    (hs : ds.Sublist (h.available .function)) : h.Offers ds := by
  have hmem : ∀ d ∈ ds, d ∈ h.unclaimed ∧ d.kind = .function := fun d hd => by
    simpa [available] using hs.subset hd
  have hkeys : (ds.map Decl.key).Sublist h.keys := by
    have hopen : (ds.map Decl.key).Sublist (h.unclaimed.map Decl.key) :=
      (hs.trans List.filter_sublist).map _
    rw [unclaimed, List.map_map] at hopen
    exact hopen.trans (List.filter_sublist.map HeaderEntry.key)
  refine ⟨fun d hd => ?_, fun d hd => (hmem d hd).2, ?_⟩
  · obtain ⟨⟨d', claimed⟩, he, rfl⟩ := List.mem_map.mp (hmem d hd).1
    obtain ⟨he, hclaimed⟩ := List.mem_filter.mp he
    obtain rfl : claimed = false := by simpa using hclaimed
    exact he
  · have hcongr :
        ds.map Decl.key = (ds.map Decl.name).map fun name => (DeclKind.function, name) := by
      rw [List.map_map]
      exact List.map_congr_left fun d hd => by simp [Decl.key, (hmem d hd).2]
    exact List.Nodup.of_map _ (hcongr ▸ hkeys.nodup hk)

end Header

variable {α β : Type}

namespace Attains

variable {w : Workspace} {P : α → Workspace → Prop}

theorem ofExcept_bind {x : Except BindError β} {f : β → BindM α}
    (hf : ∀ b, x = .ok b → Attains (f b) w P) : Attains (BindM.ofExcept x >>= f) w P := by
  cases x with
  | error e => exact .throw e
  | ok b => exact hf b rfl

theorem getHeader_bind {f : Header → BindM α} (h : Attains (f w.header) w P) :
    Attains (BindM.getHeader >>= f) w P := h

end Attains

theorem pop_attains (kind : DeclKind) (name : String) (w : Workspace) :
    Attains (BindM.pop kind name) w fun d w' =>
      ∃ h, w.header.pop kind name = .ok (d, h) ∧ w' = { w with header := h } := by
  refine (pop_ends kind name w).imp fun result w' h d hd => ?_
  subst hd
  exact h

theorem bindFunc_attains (d : Decl) (kind : FuncKind) (options : FuncOptions) (w : Workspace) :
    Attains (BindM.bindFunc d kind options) w fun f w' => ∃ uses,
      w' = { w with context := { w.context with generics := w.context.generics.recordAll uses } } ∧
      uses.Perm f.function.bindings ∧ f.Binds d kind := by
  rw [BindM.bindFunc]
  apply Attains.getHeader_bind
  unfold Attains Ends
  rw [onRegistry_run]
  intro f hf
  obtain ⟨uses, hr, -, hok⟩ :=
    Func.bind_records (r := w.context.generics) w.header.source d kind options
  obtain ⟨huses, hbinds, -⟩ := hok f hf
  exact ⟨uses, by rw [hr], huses, hbinds⟩

theorem stem_behindStem {stem name : String} (h : name.startsWith stem) :
    stem ++ BindM.behindStem stem name = name := by
  obtain ⟨rest, hrest⟩ := String.startsWith_string_iff.mp h
  apply String.toList_inj.mp
  simp [BindM.behindStem, ← hrest]

namespace FuncTable

variable {t : FuncTable} {cls stem tag : String} {marker : Option String} {w w' w'' : Workspace}
  {d : Decl} {ds ds' : List Decl}

def add (cls name rename : String) : FuncTable → BindM Unit
  | .methods => BindM.addMethod cls name rename {}
  | .funcs => BindM.addFunc cls name rename {}

def scan (cls tag stem : String) (marker : Option String) (names : List String) :
    FuncTable → BindM Nat
  | .methods => BindM.scanMethods cls tag stem marker names
  | .funcs => BindM.scanFuncs cls stem marker names

/-- What a scan for methods asks of a function; one for static functions asks nothing. -/
def wants (tag : String) (d : Decl) : FuncTable → Bool
  | .methods => d.receives tag
  | .funcs => true

theorem add_eq (t : FuncTable) (cls name rename : String) : t.add cls name rename = (do
    let d ← BindM.pop .function name
    t.insert cls rename (← BindM.bindFunc d t.kind {})) := by
  cases t <;> rfl

theorem append_append (t : FuncTable) (first more : List (String × Func)) (k : Class) :
    t.append more (t.append first k) = t.append (first ++ more) k := by
  cases t <;> simp [append]

theorem append_name (t : FuncTable) (added : List (String × Func)) (k : Class) :
    (t.append added k).name = k.name := by
  cases t <;> rfl

theorem append_nil (t : FuncTable) (k : Class) : t.append [] k = k := by
  cases t <;> simp [append]

/-- The declarations are claimed, and no others; the functions bound to them are entered into the
table of the class, each under its name without the stem. The generics have recorded what these
functions use. -/
structure Takes (t : FuncTable) (cls stem : String) (ds : List Decl) (w w' : Workspace) : Prop where
  header : w'.header = w.header.claim fun e => (ds.map Decl.key).contains e.key
  entered : ∃ added : List (String × Func), ∃ uses : List GenericBinding,
    List.Forall₂ (fun d p => stem ++ p.1 = d.name ∧ p.2.Binds d t.kind) ds added ∧
    uses.Perm (added.flatMap (·.2.function.bindings)) ∧
    w'.context = { w.context with generics := w.context.generics.recordAll uses }.changeClass cls
      (t.append added)

theorem Takes.nil (t : FuncTable) (cls stem : String) (w : Workspace) :
    t.Takes cls stem [] w w := by
  refine ⟨by simp [Header.claim], [], [], .nil, .nil, ?_⟩
  simp [Context.changeClass, append_nil, Registry.recordAll]

theorem Takes.append (h : t.Takes cls stem ds w w') (h' : t.Takes cls stem ds' w' w'') :
    t.Takes cls stem (ds ++ ds') w w'' := by
  obtain ⟨added, uses, hadded, huses, hcontext⟩ := h.entered
  obtain ⟨added', uses', hadded', huses', hcontext'⟩ := h'.entered
  refine ⟨?_, added ++ added', uses ++ uses', ?_, ?_, ?_⟩
  · rw [h'.header, h.header, Header.claim_claim _ _ _ fun _ => rfl]
    simp
  · exact List.rel_append hadded hadded'
  · simpa using huses.append huses'
  · rw [hcontext', hcontext]
    simp only [Context.changeClass, List.map_map, Registry.recordAll_append, Context.mk.injEq,
      true_and, and_true]
    refine List.map_congr_left fun k _ => ?_
    by_cases hk : k.name = cls
    · simp [hk, append_name, append_append]
    · simp [hk]

theorem add_takes (t : FuncTable) (ho : w.header.Offers (d :: ds)) (hk : w.header.keys.Nodup)
    (hstem : d.name.startsWith stem) :
    Attains (t.add cls d.name (BindM.behindStem stem d.name)) w fun _ w' =>
      t.Takes cls stem [d] w w' ∧ w'.header.Offers ds := by
  rw [add_eq]
  refine (pop_attains .function d.name w).bind ?_
  rintro d' _ ⟨h, hpop, rfl⟩
  obtain ⟨rfl, hclaim, hoffers⟩ := ho.pop hk hpop
  refine (bindFunc_attains d' t.kind {} _).bind ?_
  rintro f _ ⟨uses, rfl, huses, hbinds⟩
  refine (t.insert_ends cls _ f _).imp fun result w' hinsert a ha => ?_
  subst ha
  obtain ⟨k, -, -, rfl⟩ := hinsert
  have hname : stem ++ BindM.behindStem stem d'.name = d'.name := stem_behindStem hstem
  refine ⟨⟨hclaim, [(BindM.behindStem stem d'.name, f)], uses, ?_, ?_, rfl⟩, hoffers⟩
  · exact .cons ⟨hname, hbinds⟩ .nil
  · simpa using huses

theorem scan_cons {names : List String} {P : Nat → Workspace → Prop}
    (hg : w.header.get? .function d.name = some d)
    (hskip : (BindM.visible marker d && t.wants tag d) = false →
      Attains (t.scan cls tag stem marker names) w P)
    (hadd : (BindM.visible marker d && t.wants tag d) = true → Attains (do
      t.add cls d.name (BindM.behindStem stem d.name)
      let n ← t.scan cls tag stem marker names
      pure (n + 1)) w P) :
    Attains (t.scan cls tag stem marker (d.name :: names)) w P := by
  cases t with
  | methods =>
    simp only [scan, BindM.scanMethods]
    apply Attains.getHeader_bind
    simp only [hg]
    by_cases hv : BindM.visible marker d
    · simp only [hv, if_true]
      apply Attains.ofExcept_bind
      intro f hf
      have hr : f.takesReceiver tag = d.receives tag := CFunction.takesReceiver_eq hf tag
      simp only [hv, wants, Bool.true_and] at hskip hadd
      by_cases hw : d.receives tag
      · simp only [hr, hw, if_true]
        exact hadd hw
      · simp only [hr, hw, if_false, Bool.false_eq_true]
        exact hskip ((Bool.not_eq_true _).mp hw)
    · simp only [hv, if_false, Bool.false_eq_true]
      exact hskip (by simp [hv])
  | funcs =>
    simp only [scan, BindM.scanFuncs]
    apply Attains.getHeader_bind
    simp only [hg, Option.any_some]
    by_cases hv : BindM.visible marker d
    · simp only [hv, if_true]
      exact hadd (by simp [hv, wants])
    · simp only [hv, if_false, Bool.false_eq_true]
      exact hskip (by simp [hv])

theorem scan_takes (t : FuncTable) (cls tag : String) (marker : Option String)
    (ho : w.header.Offers ds) (hk : w.header.keys.Nodup)
    (hstem : ∀ d ∈ ds, d.name.startsWith stem) :
    Attains (t.scan cls tag stem marker (ds.map Decl.name)) w fun n w' =>
      n = (ds.filter fun d => BindM.visible marker d && t.wants tag d).length ∧
      t.Takes cls stem (ds.filter fun d => BindM.visible marker d && t.wants tag d) w w' := by
  -- what is left of the names is on offer in the header reached so far
  induction ds generalizing w with
  | nil => cases t <;> exact .pure ⟨rfl, .nil _ _ _ _⟩
  | cons d ds ih =>
    obtain ⟨hd, hds⟩ := List.forall_mem_cons.mp hstem
    refine scan_cons (ho.get? hk) (fun hno => ?_) fun hyes => ?_
    · rw [List.filter_cons_of_neg (by simp [hno])]
      exact ih ho.tail hk hds
    · rw [List.filter_cons_of_pos (by simpa using hyes)]
      refine (t.add_takes ho hk hd).bind ?_
      rintro _ w₁ ⟨htakes, hoffers⟩
      have hk₁ : w₁.header.keys.Nodup := by
        rw [htakes.header, (w.header.claim_later _).keys_eq]
        exact hk
      refine (ih hoffers hk₁ hds).bind ?_
      rintro n w' ⟨rfl, hrest⟩
      exact .pure ⟨rfl, htakes.append hrest⟩

end FuncTable

/-- What a scan picks of a header: the functions whose names start alike, that are marked as those
to be found, and of which `wanted` holds. -/
def Workspace.picks (w : Workspace) (stem : String) (wanted : Decl → Bool) (d : Decl) : Bool :=
  d.kind == .function && d.name.startsWith stem && BindM.visible w.context.options.visibility d &&
    wanted d

/-- A scan has claimed the declarations that are picked, and no others. It counts them, and in the
order of the header it enters the functions bound to them into the table, each under its name
without the stem; but for this only the instances change that generics have recorded. -/
structure FuncTable.Scanned (t : FuncTable) (cls stem : String) (wanted : Decl → Bool)
    (w : Workspace) (n : Nat) (w' : Workspace) : Prop where
  count : n = (w.header.unclaimed.filter (w.picks stem wanted)).length
  header : w'.header = { w.header with entries := w.header.entries.map fun e =>
    { e with claimed := e.claimed || w.picks stem wanted e.decl } }
  entered : ∃ added : List (String × Func), ∃ uses : List GenericBinding,
    List.Forall₂ (fun d p => stem ++ p.1 = d.name ∧ p.2.Binds d t.kind)
      (w.header.unclaimed.filter (w.picks stem wanted)) added ∧
    uses.Perm (added.flatMap (·.2.function.bindings)) ∧
    w'.context = { w.context with generics := w.context.generics.recordAll uses }.changeClass cls
      (t.append added)

theorem Header.claim_picked {h : Header} (hk : h.keys.Nodup) (p : Decl → Bool) :
    h.claim (fun e => ((h.unclaimed.filter p).map Decl.key).contains e.key) =
      { h with entries := h.entries.map fun e => { e with claimed := e.claimed || p e.decl } } := by
  simp only [claim, mk.injEq, true_and]
  refine List.map_congr_left fun e he => ?_
  obtain ⟨d, claimed⟩ := e
  have hpicked : ((h.unclaimed.filter p).map Decl.key).contains (HeaderEntry.key ⟨d, claimed⟩) =
      (!claimed && p d) := by
    rw [Bool.eq_iff_iff, List.contains_iff_mem, Bool.and_eq_true_iff, Bool.not_eq_true']
    constructor
    · intro hmem
      obtain ⟨d', hd', hkey⟩ := List.mem_map.mp hmem
      obtain ⟨hopen, hp⟩ := List.mem_filter.mp hd'
      obtain ⟨e', he', rfl⟩ := List.mem_map.mp hopen
      obtain ⟨he', hfree⟩ := List.mem_filter.mp he'
      obtain rfl : e' = ⟨d, claimed⟩ := List.inj_on_of_nodup_map hk he' he hkey
      exact ⟨by simpa using hfree, hp⟩
    · rintro ⟨rfl, hp⟩
      have hopen : d ∈ h.unclaimed := List.mem_map.mpr ⟨_, List.mem_filter.mpr ⟨he, rfl⟩, rfl⟩
      exact List.mem_map.mpr ⟨d, List.mem_filter.mpr ⟨hopen, hp⟩, rfl⟩
  simp only [hpicked]
  cases claimed <;> cases p d <;> rfl

namespace FuncTable

theorem scan_scanned {w : Workspace} (t : FuncTable) (cls stem tag : String)
    (hk : w.header.keys.Nodup) :
    Attains (t.scan cls tag stem w.context.options.visibility (w.header.functionsWith stem)) w
      (t.Scanned cls stem (fun d => t.wants tag d) w) := by
  have hnames : w.header.functionsWith stem =
      ((w.header.available .function).filter fun d => d.name.startsWith stem).map Decl.name := by
    rw [Header.functionsWith, List.filter_map]
    rfl
  have hpicks : (((w.header.available .function).filter fun d => d.name.startsWith stem).filter
      fun d => BindM.visible w.context.options.visibility d && t.wants tag d) =
        w.header.unclaimed.filter (w.picks stem fun d => t.wants tag d) := by
    simp only [Header.available, List.filter_filter]
    refine List.filter_congr fun d _ => ?_
    simp only [Workspace.picks]
    ac_rfl
  have hoffers := Header.offers_of_sublist hk
    (List.filter_sublist (l := w.header.available .function) (p := fun d => d.name.startsWith stem))
  rw [hnames]
  refine (t.scan_takes cls tag _ hoffers hk fun d hd => (List.mem_filter.mp hd).2).imp ?_
  rintro n w' ⟨hcount, htakes⟩
  rw [hpicks] at hcount htakes
  exact ⟨hcount, by rw [htakes.header, Header.claim_picked hk], htakes.entered⟩

end FuncTable

/-- A scan for methods that succeeds binds exactly the marked functions with the stem that take the
struct of the class first, and a scan for static functions all that are marked and have the stem.
The header is one that holds each kind and name once, as every one does that is made of
declarations. -/
theorem scans_select {w : Workspace} (hk : w.header.keys.Nodup) (cls stem : String) :
    (∀ n w', (BindM.addMethodsWith cls stem).run.run w = (.ok n, w') →
      ∃ k, w.context.getClass? cls = some k ∧
        FuncTable.methods.Scanned cls stem (·.receives k.structName) w n w') ∧
    ∀ n w', (BindM.addFuncsWith cls stem).run.run w = (.ok n, w') →
      FuncTable.funcs.Scanned cls stem (fun _ => true) w n w' := by
  have hmethods : Attains (BindM.addMethodsWith cls stem) w fun n w' =>
      ∃ k, w.context.getClass? cls = some k ∧
        FuncTable.methods.Scanned cls stem (·.receives k.structName) w n w' := by
    refine (getClass_ends cls w).bind ?_ fun _ _ _ => nofun
    rintro k _ ⟨rfl, hclass⟩
    refine Attains.imp (FuncTable.methods.scan_scanned cls stem k.structName hk) fun n w' h => ?_
    exact ⟨k, hclass k rfl, h⟩
  have hfuncs : Attains (BindM.addFuncsWith cls stem) w
      (FuncTable.funcs.Scanned cls stem (fun _ => true) w) :=
    FuncTable.funcs.scan_scanned cls stem "" hk
  exact ⟨fun n w' => hmethods.ran, fun n w' => hfuncs.ran⟩

/-- A class of the struct of two numbers. The functions around it are marked to be found. -/
def vectorWorkspace : Workspace where
  context := { classes := [{ name := "Vec", structName := "vec", slots := [] }] }
  header := { vectorHeader with entries := vectorHeader.entries.map fun e =>
    { e with decl := { e.decl with annotations := ["RZ_API"] } } }

/-- Of two functions one takes the struct. -/
theorem vector_scanned : vectorWorkspace.header.keys.Nodup ∧
    (∃ w', (BindM.addMethodsWith "Vec" "vec_").run.run vectorWorkspace = (.ok 1, w') ∧
      ∃ k, vectorWorkspace.context.getClass? "Vec" = some k ∧
        FuncTable.methods.Scanned "Vec" "vec_" (·.receives k.structName) vectorWorkspace 1 w') ∧
    ∃ w', (BindM.addFuncsWith "Vec" "vec_").run.run vectorWorkspace = (.ok 2, w') ∧
      FuncTable.funcs.Scanned "Vec" "vec_" (fun _ => true) vectorWorkspace 2 w' := by
  have hk : vectorWorkspace.header.keys.Nodup := by decide
  have hgives : ∀ {x : BindM Nat} {n : Nat}, (x.run.run vectorWorkspace).1.toOption = some n →
      x.run.run vectorWorkspace = (.ok n, (x.run.run vectorWorkspace).2) := by
    intro x n h
    rcases hx : x.run.run vectorWorkspace with ⟨e | n', w'⟩
    · rw [hx] at h
      cases h
    · rw [hx] at h
      cases h
      rfl
  have hmethods := hgives (x := BindM.addMethodsWith "Vec" "vec_") (n := 1) (by decide +kernel)
  have hfuncs := hgives (x := BindM.addFuncsWith "Vec" "vec_") (n := 2) (by decide +kernel)
  exact ⟨hk, ⟨_, hmethods, (scans_select hk "Vec" "vec_").1 _ _ hmethods⟩,
    _, hfuncs, (scans_select hk "Vec" "vec_").2 _ _ hfuncs⟩

end Bindery
