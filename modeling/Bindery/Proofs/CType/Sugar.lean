import Bindery.Proofs.CType.Bindings
import Bindery.Proofs.CType.Erased

/-! Classifying a type and taking its sugar off can be done in either order. -/

namespace Bindery

mutual

/-- Everything in the type has structure, also under typedefs. -/
def RawType.isExposed : RawType → Bool
  | ⟨kind, _, _⟩ => kind.isExposed

def RawKind.isExposed : RawKind → Bool
  | .builtin _ => true
  | .elaborated inner => inner.isExposed
  | .pointer pointee => pointee.isExposed
  | .constantArray element _ => element.isExposed
  | .incompleteArray element => element.isExposed
  | .typedef _ underlying _ => underlying.isExposed
  | .record _ _ => true
  | .enum _ => true
  | .function result args _ => result.isExposed && RawType.areExposed args
  | .unexposed _ => false

def RawType.areExposed : List RawType → Bool
  | [] => true
  | t :: ts => t.isExposed && RawType.areExposed ts

end

mutual

/-- The keywords `struct` and `union` stand before records only, as they do in types that are built. -/
def RawType.keywordsFit : RawType → Bool
  | ⟨kind, _, _⟩ => kind.keywordsFit

def RawKind.keywordsFit : RawKind → Bool
  | .elaborated ⟨.record _ _, _, _⟩ => true
  | .elaborated _ => false
  | .pointer pointee => pointee.keywordsFit
  | .constantArray element _ => element.keywordsFit
  | .incompleteArray element => element.keywordsFit
  | .typedef _ underlying _ => underlying.keywordsFit
  | .function result args _ => result.keywordsFit && RawType.allKeywordsFit args
  | .builtin _ => true
  | .record _ _ => true
  | .enum _ => true
  | .unexposed _ => true

def RawType.allKeywordsFit : List RawType → Bool
  | [] => true
  | t :: ts => t.keywordsFit && RawType.allKeywordsFit ts

end

/-- The tag in the name of a record. -/
def bareTag (name : String) : String :=
  if name.startsWith "const " then (name.drop 6).toString else name

mutual

/-- What a type is without sugar and spellings, unless a part of it has no structure. A level is const
if it is written so or if any of the sugar around it is; `outer` is the flag of the sugar around the
type. -/
def RawType.collapsed (outer : Bool) : RawType → Option CType
  | ⟨kind, _, isConst⟩ => kind.collapsed (outer || isConst)

def RawKind.collapsed (isConst : Bool) : RawKind → Option CType
  | .builtin p => some ⟨.primitive p, "", isConst⟩
  | .enum _ => some ⟨.primitive .enum, "", isConst⟩
  | .record name isUnion => some ⟨.record (bareTag name) isUnion none, "", isConst⟩
  | .elaborated inner => inner.collapsed isConst
  | .typedef _ underlying _ => underlying.collapsed isConst
  | .pointer pointee => (pointee.collapsed false).map fun t => ⟨.pointer t, "", isConst⟩
  | .constantArray element n =>
    (element.collapsed false).map fun t => ⟨.array t (some n), "", isConst⟩
  | .incompleteArray element =>
    (element.collapsed false).map fun t => ⟨.array t none, "", isConst⟩
  | .function result args variadic => do
    let result ← result.collapsed false
    let args ← RawType.collapsedList args
    some ⟨.function result args none variadic, "", isConst⟩
  | .unexposed _ => none

def RawType.collapsedList : List RawType → Option (List CType)
  | [] => some []
  | t :: ts => do
    let t ← t.collapsed false
    let ts ← RawType.collapsedList ts
    some (t :: ts)

end

mutual

/-- The type with each typedef replaced by the type that it stands for. -/
def CType.expanded : CType → CType
  | ⟨kind, spelling, isConst⟩ => kind.expanded spelling isConst

def CKind.expanded : CKind → String → Bool → CType
  | .typedef _ canonical _, _, _ => canonical
  | .pointer pointee, spelling, isConst => ⟨.pointer pointee.expanded, spelling, isConst⟩
  | .array element count, spelling, isConst => ⟨.array element.expanded count, spelling, isConst⟩
  | .function result args argNames variadic, spelling, isConst =>
    ⟨.function result.expanded (CType.expandedList args) argNames variadic, spelling, isConst⟩
  | .primitive p, spelling, isConst => ⟨.primitive p, spelling, isConst⟩
  | .record tag isUnion binding, spelling, isConst =>
    ⟨.record tag isUnion binding, spelling, isConst⟩

def CType.expandedList : List CType → List CType
  | [] => []
  | t :: ts => t.expanded :: CType.expandedList ts

end

mutual

/-- What the typedefs at all levels stand for. -/
def CType.canonicals : CType → List CType
  | ⟨kind, _, _⟩ => kind.canonicals

def CKind.canonicals : CKind → List CType
  | .typedef _ canonical _ => canonical :: canonical.canonicals
  | .pointer pointee => pointee.canonicals
  | .array element _ => element.canonicals
  | .function result args _ _ => result.canonicals ++ CType.canonicalsList args
  | .primitive _ => []
  | .record _ _ _ => []

def CType.canonicalsList : List CType → List CType
  | [] => []
  | t :: ts => t.canonicals ++ CType.canonicalsList ts

end

section

variable {ε α α' β β' γ δ : Type}

/-- A view of what is built from one part, made from the view of the part. -/
theorem toOption_bind_view (x : Except ε α) {f : α → γ} {part : α → β} {whole : γ → δ} {g : β → δ}
    (hf : ∀ a, whole (f a) = g (part a)) :
    (x >>= fun a => pure (f a)).toOption.map whole = (x.toOption.map part).map g := by
  cases x with
  | error e => rfl
  | ok a => exact congrArg some (hf a)

theorem toOption_bind_views (x : Except ε α) (y : Except ε α') {f : α → α' → γ} {first : α → β}
    {second : α' → β'} {whole : γ → δ} {g : β → β' → δ}
    (hf : ∀ a b, whole (f a b) = g (first a) (second b)) :
    (x >>= fun a => y >>= fun b => pure (f a b)).toOption.map whole =
      (x.toOption.map first).bind fun a => (y.toOption.map second).bind fun b => some (g a b) := by
  cases x with
  | error e => rfl
  | ok a =>
    cases y with
    | error e => rfl
    | ok b => exact congrArg some (hf a b)

end

theorem isSome_toOption_iff {ε α : Type} (x : Except ε α) :
    x.toOption.isSome ↔ ∃ a, x = .ok a := by
  cases x <;> simp [Except.toOption]

namespace RawType

/-- The type with the const flag of sugar that stood around it. -/
def constIf (outer : Bool) (t : RawType) : RawType :=
  if outer then t.constant else t

theorem constant_constant (t : RawType) : t.constant.constant = t.constant := by
  have hconst : t.constant.isConst = true := by
    rw [constant]
    split
    · assumption
    · split <;> rfl
  rw [constant, if_pos hconst]

theorem constIf_constIf (a b : Bool) (t : RawType) :
    (t.constIf b).constIf a = t.constIf (a || b) := by
  cases a <;> cases b <;> simp [constIf, constant_constant]

theorem constIf_eq (outer : Bool) (kind : RawKind) (spelling : String) (isConst : Bool) :
    ∃ spelling', (⟨kind, spelling, isConst⟩ : RawType).constIf outer =
      ⟨kind, spelling', outer || isConst⟩ := by
  cases outer with
  | false => exact ⟨spelling, by simp [constIf]⟩
  | true =>
    cases isConst with
    | true => exact ⟨spelling, by simp [constIf, constant]⟩
    | false => cases kind <;> exact ⟨_, rfl⟩

theorem desugared_constIf (outer : Bool) (kind : RawKind) (spelling : String) (isConst : Bool) :
    (⟨kind, spelling, isConst⟩ : RawType).desugared.constIf outer =
      (desugaredKind kind spelling isConst).constIf (outer || isConst) := by
  rw [← constIf_constIf, constIf, constIf, constIf, desugared]

section

variable (meaning : RawType → Except BindError CType)

mutual

/-- A desugared type is classified in the same way whatever typedefs mean. -/
theorem desugared_collapsed (outer : Bool) (t : RawType) :
    ((t.desugared.constIf outer).classifyWith meaning).toOption.map CType.erased =
      t.collapsed outer := by
  obtain ⟨kind, spelling, isConst⟩ := t
  have hconst : (outer || isConst || isConst) = (outer || isConst) := by cases isConst <;> simp
  rw [desugared_constIf, collapsed]
  exact desugaredKind_collapsed kind spelling hconst

theorem desugaredKind_collapsed (kind : RawKind) (spelling : String) {isConst c : Bool}
    (hconst : (c || isConst) = c) :
    (((desugaredKind kind spelling isConst).constIf c).classifyWith meaning).toOption.map
      CType.erased = kind.collapsed c := by
  cases kind with
  | elaborated inner => exact desugared_collapsed c inner
  | typedef name underlying decl => exact desugared_collapsed c underlying
  | builtin p =>
    obtain ⟨written, hbelow⟩ := constIf_eq c (.builtin p) spelling isConst
    rw [desugaredKind, hbelow, hconst]
    rfl
  | enum name =>
    obtain ⟨written, hbelow⟩ := constIf_eq c (.enum name) spelling isConst
    rw [desugaredKind, hbelow, hconst]
    rfl
  | record name isUnion =>
    obtain ⟨written, hbelow⟩ := constIf_eq c (.record name isUnion) spelling isConst
    rw [desugaredKind, hbelow, hconst]
    rfl
  | unexposed text =>
    obtain ⟨written, hbelow⟩ := constIf_eq c (.unexposed text) spelling isConst
    rw [desugaredKind, hbelow, hconst]
    rfl
  | pointer pointee =>
    have hpointee := desugared_collapsed false pointee
    obtain ⟨written, hbelow⟩ := constIf_eq c (.pointer pointee.desugared) spelling false
    rw [desugaredKind, ofKind, hbelow, Bool.or_false, RawKind.collapsed, ← hpointee]
    exact toOption_bind_view _ fun _ => rfl
  | constantArray element n =>
    have helement := desugared_collapsed false element
    obtain ⟨written, hbelow⟩ := constIf_eq c (.constantArray element.desugared n) spelling false
    rw [desugaredKind, ofKind, hbelow, Bool.or_false, RawKind.collapsed, ← helement]
    exact toOption_bind_view _ fun _ => rfl
  | incompleteArray element =>
    have helement := desugared_collapsed false element
    obtain ⟨written, hbelow⟩ := constIf_eq c (.incompleteArray element.desugared) spelling false
    rw [desugaredKind, ofKind, hbelow, Bool.or_false, RawKind.collapsed, ← helement]
    exact toOption_bind_view _ fun _ => rfl
  | function result args variadic =>
    have hresult := desugared_collapsed false result
    have hargs := desugaredList_classified args
    obtain ⟨written, hbelow⟩ :=
      constIf_eq c (.function result.desugared (desugaredList args) variadic) spelling false
    rw [desugaredKind, ofKind, hbelow, Bool.or_false, RawKind.collapsed, ← hresult, ← hargs]
    exact toOption_bind_views _ _ fun _ _ => rfl

theorem desugaredList_classified (ts : List RawType) :
    (classifyListWith meaning (desugaredList ts)).toOption.map CType.erasedList =
      collapsedList ts := by
  cases ts with
  | nil => rfl
  | cons t ts =>
    have ht := desugared_collapsed false t
    have hts := desugaredList_classified ts
    rw [collapsedList, ← ht, ← hts]
    exact toOption_bind_views _ _ fun _ _ => rfl

end

end

mutual

/-- A classified type is the type without sugar where typedefs are replaced by what they stand for. -/
theorem classify_expanded (t : RawType) (h : t.keywordsFit) :
    t.classify.toOption.map (fun c => c.expanded.erased) = t.collapsed false := by
  obtain ⟨kind, spelling, isConst⟩ := t
  cases kind with
  | builtin p => rfl
  | enum name => rfl
  | record name isUnion => rfl
  | unexposed text => rfl
  | elaborated inner =>
    obtain ⟨kind, _, c⟩ := inner
    cases kind with
    | record name isUnion =>
      rw [collapsed, Bool.false_or, RawKind.collapsed, collapsed, RawKind.collapsed, Bool.or_comm]
      rfl
    | _ => cases h
  | typedef name underlying decl =>
    have hunderlying : (underlying.desugared.constIf isConst).classifySugarless.toOption.map
        CType.erased = underlying.collapsed isConst := desugared_collapsed _ isConst underlying
    have hstands : (⟨.typedef name underlying decl, spelling, isConst⟩ : RawType).classify =
        (underlying.desugared.constIf isConst).classifySugarless >>=
          fun c => pure ⟨.typedef name c decl, spelling, isConst⟩ := rfl
    rw [collapsed, Bool.false_or, RawKind.collapsed, ← hunderlying, hstands]
    cases (underlying.desugared.constIf isConst).classifySugarless <;> rfl
  | pointer pointee =>
    rw [collapsed, RawKind.collapsed, ← classify_expanded pointee h]
    exact toOption_bind_view _ fun _ => rfl
  | constantArray element n =>
    rw [collapsed, RawKind.collapsed, ← classify_expanded element h]
    exact toOption_bind_view _ fun _ => rfl
  | incompleteArray element =>
    rw [collapsed, RawKind.collapsed, ← classify_expanded element h]
    exact toOption_bind_view _ fun _ => rfl
  | function result args variadic =>
    obtain ⟨hresult, hargs⟩ := Bool.and_eq_true_iff.mp h
    rw [collapsed, RawKind.collapsed, ← classify_expanded result hresult,
      ← classifyList_expanded args hargs]
    exact toOption_bind_views _ _ fun _ _ => rfl

theorem classifyList_expanded (ts : List RawType) (h : allKeywordsFit ts) :
    (classifyListWith (fun t => t.desugared.classifySugarless) ts).toOption.map
      (fun cs => CType.erasedList (CType.expandedList cs)) = collapsedList ts := by
  cases ts with
  | nil => rfl
  | cons t ts =>
    obtain ⟨ht, hts⟩ := Bool.and_eq_true_iff.mp h
    rw [collapsedList, ← classify_expanded t ht, ← classifyList_expanded ts hts]
    exact toOption_bind_views _ _ fun _ _ => rfl

end

end RawType

mutual

theorem RawType.isSome_collapsed (outer : Bool) (t : RawType) :
    (t.collapsed outer).isSome = t.isExposed := by
  obtain ⟨kind, spelling, isConst⟩ := t
  exact kind.isSome_collapsed (outer || isConst)

theorem RawKind.isSome_collapsed (isConst : Bool) (kind : RawKind) :
    (kind.collapsed isConst).isSome = kind.isExposed := by
  cases kind with
  | builtin p => rfl
  | enum name => rfl
  | record name isUnion => rfl
  | unexposed text => rfl
  | elaborated inner => exact inner.isSome_collapsed isConst
  | typedef name underlying decl => exact underlying.isSome_collapsed isConst
  | pointer pointee => 
    rw [RawKind.collapsed, Option.isSome_map, pointee.isSome_collapsed, RawKind.isExposed]
  | constantArray element n =>
    rw [RawKind.collapsed, Option.isSome_map, element.isSome_collapsed, RawKind.isExposed]
  | incompleteArray element =>
    rw [RawKind.collapsed, Option.isSome_map, element.isSome_collapsed, RawKind.isExposed]
  | function result args variadic =>
    rw [RawKind.collapsed, RawKind.isExposed, ← result.isSome_collapsed false,
      ← RawType.isSome_collapsedList args]
    cases result.collapsed false <;> cases RawType.collapsedList args <;> rfl

theorem RawType.isSome_collapsedList (ts : List RawType) :
    (RawType.collapsedList ts).isSome = RawType.areExposed ts := by
  cases ts with
  | nil => rfl
  | cons t ts =>
    rw [RawType.collapsedList, RawType.areExposed, ← t.isSome_collapsed false,
      ← RawType.isSome_collapsedList ts]
    cases t.collapsed false <;> cases RawType.collapsedList ts <;> rfl

end

theorem CType.canonicalsList_eq_nil {ts : List CType} (h : ∀ t ∈ ts, t.canonicals = []) :
    canonicalsList ts = [] := by
  induction ts with
  | nil => rfl
  | cons t ts ih =>
    obtain ⟨ht, hts⟩ := List.forall_mem_cons.mp h
    rw [canonicalsList, ht, ih hts, List.append_nil]

theorem CType.canonicals_lasting : Lasting fun t => t.canonicals = [] where
  primitive _ _ _ := rfl
  pointer _ _ _ h := h
  array _ _ _ _ h := h
  record _ _ _ _ := rfl
  function _ _ _ _ _ hresult hargs :=
    List.append_eq_nil_iff.mpr ⟨hresult, canonicalsList_eq_nil hargs⟩
  respelled := fun ⟨_, _, _⟩ _ _ h => h

/-- No typedef stands behind another one. -/
theorem CType.flat_lasting : Lasting fun t => ∀ k ∈ t.canonicals, k.canonicals = [] where
  primitive _ _ _ := nofun
  pointer _ _ _ h := h
  array _ _ _ _ h := h
  record _ _ _ _ := nofun
  function _ args _ _ _ hresult hargs := by
    have hlist : ∀ k ∈ canonicalsList args, k.canonicals = [] := by
      induction args with
      | nil => exact nofun
      | cons t ts ih =>
        obtain ⟨ht, hts⟩ := List.forall_mem_cons.mp hargs
        exact List.forall_mem_append.mpr ⟨ht, ih hts⟩
    exact List.forall_mem_append.mpr ⟨hresult, hlist⟩
  respelled := fun ⟨_, _, _⟩ _ _ h => h

namespace RawType

theorem canonicals_of_classify {t : RawType} {c : CType} (h : t.classify = .ok c) :
    ∀ k ∈ c.canonicals, k.canonicals = [] := by
  refine classifyWith_lasting CType.flat_lasting (fun name t k decl spelling isConst hk => ?_) t h
  have hflat : k.canonicals = [] := classifySugarless_lasting CType.canonicals_lasting hk
  rw [CType.canonicals, CKind.canonicals, hflat]
  exact List.forall_mem_singleton.mpr hflat

/-- A type and its desugared form can both be classified if, and only if, everything in the type has
structure. Then they are classified alike up to spellings, once each typedef is replaced by what it
stands for, and no typedef stands for a type with a typedef in it. -/
theorem classify_desugared {t : RawType} (h : t.keywordsFit) :
    ((∃ c, t.classify = .ok c) ↔ t.isExposed) ∧
    ((∃ c, t.desugared.classify = .ok c) ↔ t.isExposed) ∧
    ∀ c, t.classify = .ok c →
      (∃ e, t.desugared.classify = .ok e ∧ c.expanded.erased = e.erased ∧
        t.collapsed false = some e.erased) ∧
      ∀ k ∈ c.canonicals, k.canonicals = [] := by
  have hsugared := classify_expanded t h
  have hdesugared : t.desugared.classify.toOption.map CType.erased = t.collapsed false :=
    desugared_collapsed _ false t
  have hexposed := t.isSome_collapsed false
  refine ⟨?_, ?_, fun c hc => ⟨?_, canonicals_of_classify hc⟩⟩
  · rw [← isSome_toOption_iff, ← hexposed, ← hsugared, Option.isSome_map]
  · rw [← isSome_toOption_iff, ← hexposed, ← hdesugared, Option.isSome_map]
  · rw [hc] at hsugared
    have hcollapsed : t.collapsed false = some c.expanded.erased := hsugared.symm
    rw [hcollapsed] at hdesugared
    cases he : t.desugared.classify with
    | error e =>
      rw [he] at hdesugared
      cases hdesugared
    | ok e =>
      rw [he] at hdesugared
      have hsame : e.erased = c.expanded.erased := Option.some.inj hdesugared
      exact ⟨e, rfl, hsame.symm, hsame ▸ hcollapsed⟩

/-- The type `const Link *(Link, int)` where `Link` stands for `const Node` and `Node` for a struct. -/
def follow : RawType :=
  let named (name : String) (t : RawType) : RawType := .typedef name t none
  let link := named "Link" (named "Node" (.struct "node")).constant
  .function (.pointer link.constant) [link, .builtin .int] false

/-- Each of the two uses of `Link` stands for a struct that is const. -/
theorem follow_desugared : follow.keywordsFit ∧ ∃ c e, follow.classify = .ok c ∧
    follow.desugared.classify = .ok e ∧ c.expanded.erased = e.erased ∧
      ∀ k ∈ c.canonicals, k.canonicals = [] := by
  have hfit : follow.keywordsFit := by decide
  obtain ⟨hexposed, -, halike⟩ := classify_desugared hfit
  obtain ⟨c, hc⟩ := hexposed.mpr (by decide)
  obtain ⟨⟨e, he, hsame, -⟩, hflat⟩ := halike c hc
  exact ⟨hfit, c, e, hc, he, hsame, hflat⟩

end RawType

end Bindery
