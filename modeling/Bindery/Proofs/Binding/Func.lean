import Bindery.Proofs.Generic.Specialize

/-! What binding a function keeps of its declaration, and the instances that it records. -/

namespace Bindery

variable {r : Registry}

def argBindings (args : List FuncArg) : List GenericBinding :=
  args.flatMap (·.type.bindings)

/-- The instances that a function uses, in its arguments and in its result. -/
def CFunction.bindings (f : CFunction) : List GenericBinding :=
  argBindings f.args ++ f.result.bindings

def argNames (args : List FuncArg) : List String :=
  args.map (·.name)

def argRecords (args : List FuncArg) : List RecordUse :=
  args.flatMap (·.type.records)

/-- The arguments in which uses of generics are bound. In a method of a generic these are neither
the receiver nor the ones that are marked. -/
def CFunction.openArgs (kind : FuncKind) (f : CFunction) : List FuncArg :=
  match kind with
  | .generic markers => (f.args.drop 1).filter fun a => !markers.args.contains a.name
  | _ => f.args

/-- The records at which a function that is exposed in some way is bound to instances. -/
def CFunction.records (kind : FuncKind) (f : CFunction) : List RecordUse :=
  argRecords (f.openArgs kind) ++ if kind.markers.any (·.result) then [] else f.result.records

theorem argBindings_append (as bs : List FuncArg) :
    argBindings (as ++ bs) = argBindings as ++ argBindings bs :=
  List.flatMap_append

theorem argNames_append (as bs : List FuncArg) :
    argNames (as ++ bs) = argNames as ++ argNames bs :=
  List.map_append

theorem argRecords_append (as bs : List FuncArg) :
    argRecords (as ++ bs) = argRecords as ++ argRecords bs :=
  List.flatMap_append

theorem argBindings_take_drop {n : Nat} {args : List FuncArg} (h : argBindings args = []) :
    argBindings (args.take n) = [] ∧ argBindings (args.drop n) = [] := by
  rw [← List.take_append_drop n args, argBindings_append] at h
  exact List.append_eq_nil_iff.mp h

theorem Decl.bindings_of_classify {d : Decl} {t : CType} (h : d.classify = .ok t) :
    t.bindings = [] := by
  cases ht : d.type with
  | none => simp [Decl.classify, ht] at h
  | some raw =>
    simp only [Decl.classify, ht] at h
    exact RawType.bindings_of_classify (mapError_ok h)

theorem funcArgs_of_mapM {ds : List Decl} {args : List FuncArg}
    (h : ds.mapM FuncArg.ofDecl = .ok args) :
    argNames args = ds.map (·.name) ∧ argBindings args = [] := by
  induction ds generalizing args with
  | nil =>
    cases h
    exact ⟨rfl, rfl⟩
  | cons d ds ih =>
    rw [List.mapM_cons] at h
    obtain ⟨a, ha, h⟩ := except_bind_ok h
    obtain ⟨as, has, he⟩ := except_bind_ok h
    obtain ⟨t, ht, hat⟩ := except_bind_ok ha
    cases he
    cases hat
    obtain ⟨hn, hb⟩ := ih has
    have htb := Decl.bindings_of_classify ht
    exact ⟨by simp [argNames, ← hn], by simp [argBindings, htb]; simpa [argBindings] using hb⟩

/-- Which declaration a function comes from. -/
structure CFunction.Declares (d : Decl) (f : CFunction) : Prop where
  name : f.name = d.name
  decl : f.decl = d
  args : argNames f.args = d.params.map (·.name)

theorem CFunction.declares_of_ofDecl {d : Decl} {f : CFunction} (h : CFunction.ofDecl d = .ok f) :
    f.Declares d ∧ f.bindings = [] := by
  unfold CFunction.ofDecl at h
  split at h
  · obtain ⟨result, hr, h⟩ := except_bind_ok h
    obtain ⟨args, ha, he⟩ := except_bind_ok h
    cases he
    obtain ⟨hn, hb⟩ := funcArgs_of_mapM ha
    have hrb := RawType.bindings_of_classify (mapError_ok hr)
    exact ⟨⟨rfl, rfl, hn⟩, by simp [CFunction.bindings, hb, hrb]⟩
  · cases h

theorem withDefault_eq {name value : String} {args args' : List FuncArg}
    (h : withDefault name value args = some args') :
    argNames args' = argNames args ∧ argBindings args' = argBindings args := by
  induction args generalizing args' with
  | nil => cases h
  | cons a as ih =>
    by_cases hn : a.name = name
    · simp only [withDefault, hn, beq_self_eq_true, if_true, Option.some.injEq] at h
      subst h hn
      exact ⟨rfl, rfl⟩
    · simp only [withDefault, beq_eq_false_iff_ne.mpr hn, Bool.false_eq_true, if_false,
        Option.map_eq_some_iff] at h
      obtain ⟨as', has, rfl⟩ := h
      obtain ⟨hh, hb⟩ := ih has
      exact ⟨congrArg (a.name :: ·) hh, congrArg (a.type.bindings ++ ·) hb⟩

theorem CFunction.withDefaults_ok {d : Decl} {f f' : CFunction} {defaults : List (String × String)}
    (hd : f.Declares d) (hf : f.bindings = []) (h : f.withDefaults defaults = .ok f') :
    f'.Declares d ∧ f'.bindings = [] := by
  induction defaults generalizing f with
  | nil =>
    cases h
    exact ⟨hd, hf⟩
  | cons e rest ih =>
    obtain ⟨name, value⟩ := e
    cases hw : withDefault name value f.args with
    | none => simp [CFunction.withDefaults, hw] at h
    | some args =>
      obtain ⟨hn, hb⟩ := withDefault_eq hw
      simp only [CFunction.withDefaults, hw] at h
      refine ih (f := { f with args := args }) ⟨hd.name, hd.decl, hn.trans hd.args⟩ ?_ h
      simpa only [CFunction.bindings, hb] using hf

theorem specializeFuncArgs_records (source : SourceMap) {skip : FuncArg → Bool}
    (hskip : ∀ a t, skip { a with type := t } = skip a) (args : List FuncArg)
    (h : argBindings args = []) :
    Records r (specializeFuncArgs source skip args) fun args' uses =>
      uses = argBindings args' ∧ argNames args' = argNames args ∧
        r.Annotated (argRecords (args'.filter fun a => !skip a)) := by
  induction args generalizing r with
  | nil => exact .pure ⟨rfl, rfl, .nil⟩
  | cons a args ih =>
    obtain ⟨ha, hrest⟩ : a.type.bindings = [] ∧ argBindings args = [] :=
      List.append_eq_nil_iff.mp h
    have hstep : ∀ a', a'.name = a.name → r.Annotated (argRecords ([a'].filter fun a => !skip a)) →
        Records (r.recordAll a'.type.bindings)
          (do pure (a' :: (← specializeFuncArgs source skip args))) fun args' uses =>
            a'.type.bindings ++ uses = argBindings args' ∧ argNames args' = argNames (a :: args) ∧
              r.Annotated (argRecords (args'.filter fun a => !skip a)) := by
      intro a' hn hopen
      apply (ih hrest).bind
      rintro args' _ ⟨rfl, hns, hopen'⟩
      refine .pure ⟨by simp [argBindings], by simpa [argNames, hn] using hns, ?_⟩
      rw [← List.singleton_append, List.filter_append, argRecords_append]
      exact hopen.append hopen'.of_recordAll
    by_cases hs : skip a
    · simp only [specializeFuncArgs, hs, if_true]
      have hh := hstep a rfl (by simp [hs, argRecords, Registry.Annotated.nil])
      rw [ha] at hh
      exact hh
    · simp only [specializeFuncArgs, hs, if_false, Bool.false_eq_true]
      apply (Decl.specializeType_records r source a.decl ha).bind
      rintro t _ ⟨rfl, ht⟩
      exact hstep { a with type := t } rfl (by simpa [hskip, hs, argRecords] using ht)

/-- Binding the types of a function records the instances that they become bound to, in one order
or another, and leaves no record of a generic without one. -/
theorem CFunction.specialize_records (source : SourceMap) (d : Decl) (f : CFunction)
    (kind : FuncKind) (hd : f.Declares d) (h : f.bindings = []) :
    Records r (f.specialize source kind) fun f' uses =>
      uses.Perm f'.bindings ∧ f'.Declares d ∧ r.Annotated (f'.records kind) := by
  obtain ⟨hargs, hresult⟩ := List.append_eq_nil_iff.mp h
  have hplain : Records r (do
      let args ← specializeFuncArgs source (fun _ => false) f.args
      let result ← f.decl.specializeType source f.result
      pure { f with result := result, args := args }) fun f' uses =>
        uses.Perm f'.bindings ∧ f'.Declares d ∧
          r.Annotated (argRecords f'.args ++ f'.result.records) := by
    apply (specializeFuncArgs_records source (fun _ _ => rfl) f.args hargs).bind
    rintro args _ ⟨rfl, hn, ha⟩
    apply (Decl.specializeType_records _ source f.decl hresult).bind
    rintro result _ ⟨rfl, hr⟩
    refine .pure ⟨by simp [CFunction.bindings], ⟨hd.name, hd.decl, hn.trans hd.args⟩, ?_⟩
    simpa using ha.append hr.of_recordAll
  cases kind with
  | constructor => exact hplain
  | destructor => exact hplain
  | method => exact hplain
  | static => exact hplain
  | generic markers =>
    simp only [CFunction.specialize]
    cases (f.unknownMarks markers).head? with
    | some name => exact .throw _ _
    | none =>
      obtain ⟨htake, hdrop⟩ := argBindings_take_drop (n := 1) hargs
      -- the receiver stays as it is, and the others come behind the result
      have hbehind : ∀ result : CType,
          r.Annotated (if markers.result then [] else result.records) →
          Records (r.recordAll result.bindings) (do
            let args ← specializeFuncArgs source (markers.args.contains ·.name) (f.args.drop 1)
            pure { f with result := result, args := f.args.take 1 ++ args }) fun f' uses =>
              (result.bindings ++ uses).Perm f'.bindings ∧ f'.Declares d ∧
                r.Annotated (f'.records (.generic markers)) := by
        intro result hres
        apply (specializeFuncArgs_records source (fun _ _ => rfl) _ hdrop).bind
        rintro args _ ⟨rfl, hn, ha⟩
        refine .pure ⟨?_, ⟨hd.name, hd.decl, ?_⟩, ?_⟩
        · simp only [CFunction.bindings, argBindings_append, htake, List.append_nil,
            List.nil_append]
          exact List.perm_append_comm
        · rw [argNames_append, hn, ← argNames_append, List.take_append_drop, hd.args]
        · have hopen : (f.args.take 1 ++ args).drop 1 = args := by
            cases hf : f.args with
            | nil =>
              obtain rfl : args = [] := by simpa [hf, argNames] using hn
              rfl
            | cons a as => rfl
          rw [CFunction.records, CFunction.openArgs, hopen]
          exact ha.of_recordAll.append hres
      cases hm : markers.result with
      | true =>
        have hh := hbehind f.result (by simp [hm, Registry.Annotated.nil])
        rw [hresult] at hh
        exact hh
      | false =>
        apply (Decl.specializeType_records r source f.decl hresult).bind
        rintro result _ ⟨rfl, hr⟩
        exact hbehind result (by simpa [hm] using hr)

/-- What binding a declaration gives: the function of the declaration, exposed as asked for, with a
parameter for the receiver where the kind needs one. -/
structure Func.Binds (d : Decl) (kind : FuncKind) (f : Func) : Prop where
  declares : f.function.Declares d
  exposed : f.kind = kind
  receiver : kind.elidesReceiver → d.params ≠ []

theorem Func.bind_records (source : SourceMap) (d : Decl) (kind : FuncKind)
    (options : FuncOptions) : Records r (Func.bind source d kind options) fun f uses =>
      uses.Perm f.function.bindings ∧ f.Binds d kind ∧
        r.Annotated (f.function.records f.kind) := by
  unfold Func.bind
  apply (Records.ofExcept _).bind
  rintro f _ ⟨hf, rfl⟩
  obtain ⟨hd, hb⟩ := CFunction.declares_of_ofDecl hf
  apply (Records.ofExcept _).bind
  rintro f' _ ⟨hf', rfl⟩
  obtain ⟨hd', hb'⟩ := CFunction.withDefaults_ok hd hb hf'
  by_cases hr : kind.elidesReceiver && f'.args.isEmpty
  · simp only [hr, if_true]
    exact .throw _ _
  · simp only [hr, if_false, Bool.false_eq_true]
    have hparams : kind.elidesReceiver → d.params ≠ [] := by
      intro he hp
      have hargs : f'.args = [] := by simpa [hp, argNames] using hd'.args
      simp [he, hargs] at hr
    apply (CFunction.specialize_records source d f' kind hd' hb').bind
    rintro f'' uses ⟨hu, hd'', ha⟩
    apply (Records.ofExcept _).bind
    rintro _ _ ⟨_, rfl⟩
    exact .pure ⟨by simpa using hu, ⟨hd'', rfl, hparams⟩, ha⟩

end Bindery
