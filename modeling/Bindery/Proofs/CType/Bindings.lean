import Bindery.CType.Basic
import Bindery.Proofs.Result

/-! The records in a classified type, and the instances of generics that it is bound to. Classifying
a type binds none. -/

namespace Bindery

mutual

def CType.bindings : CType → List GenericBinding
  | ⟨kind, _, _⟩ => kind.bindings

def CKind.bindings : CKind → List GenericBinding
  | .primitive _ => []
  | .pointer pointee => pointee.bindings
  | .array element _ => element.bindings
  | .typedef _ canonical _ => canonical.bindings
  | .record _ _ binding => binding.toList
  | .function result args _ _ => result.bindings ++ CType.bindingsList args

def CType.bindingsList : List CType → List GenericBinding
  | [] => []
  | t :: ts => t.bindings ++ CType.bindingsList ts

end

mutual

/-- The records in a type that are bound to instances of generics: behind pointers and typedefs, and
in results and arguments of functions. What stands in an array is left alone. -/
def CType.records : CType → List RecordUse
  | ⟨kind, _, _⟩ => kind.records

def CKind.records : CKind → List RecordUse
  | .primitive _ => []
  | .pointer pointee => pointee.records
  | .array _ _ => []
  | .typedef _ canonical _ => canonical.records
  | .record tag isUnion binding => [⟨tag, isUnion, binding⟩]
  | .function result args _ _ => result.records ++ CType.recordsList args

def CType.recordsList : List CType → List RecordUse
  | [] => []
  | t :: ts => t.records ++ CType.recordsList ts

end

/-- A property of types that is handed on by each way to classify a type without typedefs. -/
structure CType.Lasting (P : CType → Prop) : Prop where
  primitive : ∀ p spelling isConst, P ⟨.primitive p, spelling, isConst⟩
  pointer : ∀ pointee spelling isConst, P pointee → P ⟨.pointer pointee, spelling, isConst⟩
  array : ∀ element count spelling isConst, P element → P ⟨.array element count, spelling, isConst⟩
  record : ∀ tag isUnion spelling isConst, P ⟨.record tag isUnion none, spelling, isConst⟩
  function : ∀ result args variadic spelling isConst, P result → (∀ a ∈ args, P a) →
    P ⟨.function result args none variadic, spelling, isConst⟩
  respelled : ∀ t spelling isConst, P t → P ⟨t.kind, spelling, isConst⟩

section

variable {P : CType → Prop} {meaning : RawType → Except BindError CType}

mutual

theorem RawType.classifyWith_lasting (hP : CType.Lasting P)
    (hm : ∀ name t c decl spelling isConst, meaning t = .ok c →
      P ⟨.typedef name c decl, spelling, isConst⟩)
    (t : RawType) {c : CType} (h : t.classifyWith meaning = .ok c) : P c := by
  obtain ⟨kind, spelling, isConst⟩ := t
  exact RawKind.classifyWith_lasting hP hm kind h

theorem RawKind.classifyWith_lasting (hP : CType.Lasting P)
    (hm : ∀ name t c decl spelling isConst, meaning t = .ok c →
      P ⟨.typedef name c decl, spelling, isConst⟩)
    (kind : RawKind) {spelling : String} {isConst : Bool} {c : CType}
    (h : kind.classifyWith meaning spelling isConst = .ok c) : P c := by
  cases kind with
  | builtin p => cases h; exact hP.primitive p _ _
  | enum name => cases h; exact hP.primitive .enum _ _
  | record name isUnion => cases h; exact hP.record _ isUnion _ _
  | unexposed text => cases h
  | elaborated inner =>
    obtain ⟨c', hc', rfl⟩ := except_bind_pure_iff.mp h
    exact hP.respelled c' _ _ (RawType.classifyWith_lasting hP hm inner hc')
  | pointer pointee =>
    obtain ⟨c', hc', rfl⟩ := except_bind_pure_iff.mp h
    exact hP.pointer c' _ _ (RawType.classifyWith_lasting hP hm pointee hc')
  | constantArray element n =>
    obtain ⟨c', hc', rfl⟩ := except_bind_pure_iff.mp h
    exact hP.array c' (some n) _ _ (RawType.classifyWith_lasting hP hm element hc')
  | incompleteArray element =>
    obtain ⟨c', hc', rfl⟩ := except_bind_pure_iff.mp h
    exact hP.array c' none _ _ (RawType.classifyWith_lasting hP hm element hc')
  | typedef name underlying decl =>
    obtain ⟨c', hc', rfl⟩ := except_bind_pure_iff.mp h
    exact hm name _ c' decl _ _ hc'
  | function result args variadic =>
    obtain ⟨r, hr, h⟩ := except_bind_ok h
    obtain ⟨as, has, he⟩ := except_bind_ok h
    cases he
    exact hP.function r as variadic _ _ (RawType.classifyWith_lasting hP hm result hr)
      (RawType.classifyListWith_lasting hP hm args has)

theorem RawType.classifyListWith_lasting (hP : CType.Lasting P)
    (hm : ∀ name t c decl spelling isConst, meaning t = .ok c →
      P ⟨.typedef name c decl, spelling, isConst⟩)
    (ts : List RawType) {cs : List CType} (h : RawType.classifyListWith meaning ts = .ok cs) :
    ∀ c ∈ cs, P c := by
  cases ts with
  | nil =>
    cases h
    exact nofun
  | cons t ts =>
    obtain ⟨c, hc, h⟩ := except_bind_ok h
    obtain ⟨cs, hcs, he⟩ := except_bind_ok h
    cases he
    have hrest := RawType.classifyListWith_lasting hP hm ts hcs
    exact List.forall_mem_cons.mpr ⟨RawType.classifyWith_lasting hP hm t hc, hrest⟩

end

theorem RawType.classifySugarless_lasting (hP : CType.Lasting P) {t : RawType} {c : CType}
    (h : t.classifySugarless = .ok c) : P c :=
  RawType.classifyWith_lasting hP (fun _ _ _ _ _ _ hmeaning => by cases hmeaning) t h

theorem RawType.classify_lasting (hP : CType.Lasting P)
    (htypedef : ∀ name canonical decl spelling isConst, P canonical →
      P ⟨.typedef name canonical decl, spelling, isConst⟩)
    {t : RawType} {c : CType} (h : t.classify = .ok c) : P c :=
  RawType.classifyWith_lasting hP (fun name _ c decl spelling isConst hc =>
    htypedef name c decl spelling isConst (classifySugarless_lasting hP hc)) t h

end

theorem CType.bindingsList_eq_nil {ts : List CType} (h : ∀ t ∈ ts, t.bindings = []) :
    bindingsList ts = [] := by
  induction ts with
  | nil => rfl
  | cons t ts ih =>
    obtain ⟨ht, hts⟩ := List.forall_mem_cons.mp h
    rw [bindingsList, ht, ih hts, List.append_nil]

theorem CType.bindings_lasting : Lasting fun t => t.bindings = [] where
  primitive _ _ _ := rfl
  pointer _ _ _ h := h
  array _ _ _ _ h := h
  record _ _ _ _ := rfl
  function _ _ _ _ _ hresult hargs :=
    List.append_eq_nil_iff.mpr ⟨hresult, bindingsList_eq_nil hargs⟩
  respelled := fun ⟨_, _, _⟩ _ _ h => h

theorem RawType.bindings_of_classify {t : RawType} {c : CType} (h : t.classify = .ok c) :
    c.bindings = [] :=
  classify_lasting CType.bindings_lasting (fun _ _ _ _ _ h => h) h

end Bindery
