import Bindery.Proofs.QualType.RoundTrip

/-! The declarations at which a comment on a type may stand. -/

namespace Bindery

/-- The types that a type is made of. -/
def RawKind.parts : RawKind → List RawType
  | .elaborated inner => [inner]
  | .pointer pointee => [pointee]
  | .constantArray element _ => [element]
  | .incompleteArray element => [element]
  | .typedef _ underlying _ => [underlying]
  | .function result args _ => result :: args
  | .builtin _ => []
  | .record _ _ => []
  | .enum _ => []
  | .unexposed _ => []

/-- The declaration of the typedef that a type is, if it is one and that is known. -/
def RawKind.declared? : RawKind → Option Decl
  | .typedef _ _ decl => decl
  | _ => none

mutual

inductive Decl.Site : Decl → Decl → Prop where
  | self (d : Decl) : Decl.Site d d
  | member {d c e : Decl} (hc : c ∈ d.children) (he : Decl.Site c e) : Decl.Site d e
  | typed {d e : Decl} {t : RawType} (ht : d.type = some t) (he : RawType.Site t e) :
    Decl.Site d e

inductive RawType.Site : RawType → Decl → Prop where
  | part {t p : RawType} {e : Decl} (hp : p ∈ t.kind.parts) (he : RawType.Site p e) :
    RawType.Site t e
  | declared {t : RawType} {d e : Decl} (hd : t.kind.declared? = some d) (he : Decl.Site d e) :
    RawType.Site t e

end

section

variable {P Q : Decl → Prop}

def Decl.Throughout (P : Decl → Prop) (d : Decl) : Prop :=
  ∀ e, d.Site e → P e

def RawType.Throughout (P : Decl → Prop) (t : RawType) : Prop :=
  ∀ e, t.Site e → P e

theorem Decl.throughout_iff {d : Decl} : d.Throughout P ↔
    P d ∧ (∀ c ∈ d.children, c.Throughout P) ∧ ∀ t, d.type = some t → t.Throughout P := by
  refine ⟨fun h => ⟨h d (.self d), fun c hc e he => h e (.member hc he),
    fun t ht e he => h e (.typed ht he)⟩, ?_⟩
  rintro ⟨hself, hmember, htyped⟩ e he
  cases he with
  | self => exact hself
  | member hc he => exact hmember _ hc e he
  | typed ht he => exact htyped _ ht e he

theorem RawType.throughout_iff {t : RawType} : t.Throughout P ↔
    (∀ p ∈ t.kind.parts, p.Throughout P) ∧ ∀ d, t.kind.declared? = some d → d.Throughout P := by
  refine ⟨fun h => ⟨fun p hp e he => h e (.part hp he), fun d hd e he => h e (.declared hd he)⟩, ?_⟩
  rintro ⟨hpart, hdeclared⟩ e he
  cases he with
  | part hp he => exact hpart _ hp e he
  | declared hd he => exact hdeclared _ hd e he

theorem Decl.Throughout.imp {d : Decl} (h : d.Throughout P) (hi : ∀ e, P e → Q e) :
    d.Throughout Q :=
  fun e he => hi e (h e he)

theorem RawType.Throughout.imp {t : RawType} (h : t.Throughout P) (hi : ∀ e, P e → Q e) :
    t.Throughout Q :=
  fun e he => hi e (h e he)

/-- What is found in a type does not depend on its spelling and its const flag. -/
theorem RawType.Throughout.of_kind {t u : RawType} (h : t.Throughout P) (hkind : u.kind = t.kind) :
    u.Throughout P := by
  rw [throughout_iff, hkind, ← throughout_iff]
  exact h

theorem RawType.throughout_plain {kind : RawKind} (spelling : String) (isConst : Bool)
    (hparts : kind.parts = []) (hdeclared : kind.declared? = none) :
    RawType.Throughout P ⟨kind, spelling, isConst⟩ :=
  throughout_iff.mpr ⟨by simp [hparts], by simp [hdeclared]⟩

/-- All that typedef names stand for. -/
def TypedefLookup.Throughout (P : Decl → Prop) (typedefs : TypedefLookup) : Prop :=
  ∀ name underlying decl, typedefs name = some (underlying, decl) →
    underlying.Throughout P ∧ ∀ d, decl = some d → d.Throughout P

namespace QualType

namespace Form

variable {typedefs : TypedefLookup}

mutual

theorem throughout_resolved (h : typedefs.Throughout P) :
    ∀ f : Form, (f.raw.resolved typedefs).Throughout P
  | .words ws p isConst => by
    rw [raw, resolved_made]
    exact RawType.throughout_plain _ _ rfl rfl
  | .tagged tag isUnion isConst => by
    rw [raw, RawType.tagged, resolved_made]
    have hrecord : RawType.Throughout P ⟨.record tag isUnion, tag, false⟩ :=
      RawType.throughout_plain _ _ rfl rfl
    exact RawType.throughout_iff.mpr ⟨List.forall_mem_singleton.mpr hrecord, nofun⟩
  | .enum name isConst => by
    rw [raw, RawType.enum, resolved_made]
    exact RawType.throughout_plain _ _ rfl rfl
  | .named name isConst => by
    rw [raw, resolved_made, RawKind.resolved]
    split
    · next underlying decl hname =>
      obtain ⟨hunderlying, hdecl⟩ := h _ _ _ hname
      exact RawType.throughout_iff.mpr ⟨List.forall_mem_singleton.mpr hunderlying, hdecl⟩
    · exact RawType.throughout_plain _ _ rfl rfl
  | .pointer pointee isConst => by
    rw [raw, RawType.pointer, resolved_made]
    have hpointee := throughout_resolved h pointee
    exact RawType.throughout_iff.mpr ⟨List.forall_mem_singleton.mpr hpointee, nofun⟩
  | .array element count => by
    have helement := throughout_resolved h element
    cases count <;>
      exact RawType.throughout_iff.mpr ⟨List.forall_mem_singleton.mpr helement, nofun⟩
  | .function result args variadic => by
    have hresult := throughout_resolved h result
    exact RawType.throughout_iff.mpr
      ⟨List.forall_mem_cons.mpr ⟨hresult, throughout_resolvedList h args⟩, nofun⟩

theorem throughout_resolvedList (h : typedefs.Throughout P) :
    ∀ fs : List Form, ∀ t ∈ RawType.resolvedList typedefs (rawList fs), t.Throughout P
  | [] => nofun
  | f :: fs => List.forall_mem_cons.mpr ⟨throughout_resolved h f, throughout_resolvedList h fs⟩

end

end Form

/-- The typedefs in a type that is read are among those that the names in it stand for. -/
theorem throughout_parse {names : TypeNames} (h : names.typedefs.Throughout P) (text : String) :
    (parse names text).Throughout P := by
  unfold parse
  cases hread : tryParse names text with
  | error e => exact RawType.throughout_plain _ _ rfl rfl
  | ok t =>
    obtain ⟨f, _, _, _, _, rfl⟩ := form_of_tryParse hread
    exact (f.throughout_resolved h).of_kind rfl

end QualType

end

end Bindery
