import Bindery.Proofs.CType.Returned
import Bindery.Proofs.Generic.Bound

/-! What stands in an array is not bound, which matters where a generic or a function is in it. -/

namespace Bindery

open RegistryM (outcome outcome_bind_ok outcome_map outcome_map_ok_iff)

/-- There is nothing in the type that is bound or named: no record of a generic and no function. -/
structure CType.Idle (r : Registry) (t : CType) : Prop where
  functions : t.functions = []
  records : ∀ u ∈ t.records, r.forStruct? u.tag = none

section

variable {r : Registry} {source : SourceMap}

theorem CType.outcome_of_idle (sites : List Decl) :
    ∀ t : CType, t.Idle r → outcome (t.specialize source sites) r = (.ok t, r)
  | ⟨.primitive _, _, _⟩, _ => rfl
  | ⟨.array _ _, _, _⟩, _ => rfl
  | ⟨.record tag isUnion binding, spelling, isConst⟩, h => by
    have hnone : r.forStruct? tag = none := h.records _ (List.mem_singleton.mpr rfl)
    rw [CType.specialize_record, outcome_map, outcome_bindRecord hnone]
    rfl
  | ⟨.pointer pointee, spelling, isConst⟩, h => by
    have hpointee := outcome_of_idle sites pointee ⟨h.functions, h.records⟩
    rw [CType.specialize_pointer, outcome_map, hpointee]
    rfl
  | ⟨.typedef name canonical decl, spelling, isConst⟩, h => by
    have hcanonical := outcome_of_idle (sites ++ typedefSites canonical decl) canonical
      ⟨h.functions, h.records⟩
    rw [CType.specialize_typedef, outcome_map, hcanonical]
    rfl
  | ⟨.function _ _ _ _, _, _⟩, h => by cases h.functions

/-- A type that is bound to nothing and comes out the same had nothing in it to be bound. -/
theorem CType.idle_of_outcome {sites : List Decl} {t : CType} (hu : t.unbound = t) (hs : sites ≠ [])
    (h : outcome (t.specialize source sites) r = (.ok t, r)) : t.Idle r := by
  obtain ⟨uses, -, -, hspecialized⟩ := t.specialize_specializes r source hs
  obtain ⟨-, hrebinds, hnamed⟩ := hspecialized t (congrArg Prod.fst h)
  have hunfilled : Unfilled t.records t.functions := hu ▸ t.unbound_unfilled
  constructor
  · refine List.eq_nil_iff_forall_not_mem.mpr fun f hf => ?_
    have hnone : f.argNames = none := hunfilled.argNames f hf
    have hlength := hnamed f hf
    rw [FunctionUse.Named, hnone] at hlength
    cases hlength
  · intro u hmem
    have hnone : u.binding = none := hunfilled.binding u hmem
    have hbinding := (List.forall₂_same.mp hrebinds u hmem).binding
    cases hg : r.forStruct? u.tag with
    | none => rfl
    | some g =>
      rw [hg] at hbinding
      obtain ⟨key, hkey, -⟩ := hbinding
      rw [hnone] at hkey
      cases hkey

/-- A record is refused where no declaration is at hand, if it is one of a generic. -/
theorem CType.idle_of_record {t : CType} (hrecord : t.kind.record?.isSome)
    (h : outcome (t.specialize source []) r = (.ok t, r)) : t.Idle r := by
  obtain ⟨kind, spelling, isConst⟩ := t
  cases kind with
  | record tag isUnion binding =>
    rw [CType.specialize_record] at h
    obtain ⟨found, _, hfound, -⟩ := outcome_bind_ok (congrArg Prod.fst h)
    have hnone := forStruct?_of_outcome (List.forall_mem_nil _) (congrArg Prod.fst hfound)
    exact ⟨rfl, List.forall_mem_singleton.mpr hnone⟩
  | _ => cases hrecord

theorem CType.idle_of_end {t : CType} (hend : t.isEnd) (hu : t.unbound = t)
    (h : outcome (t.specialize source []) r = (.ok t, r)) : t.Idle r := by
  obtain ⟨kind, spelling, isConst⟩ := t
  cases kind with
  | primitive p => exact ⟨rfl, nofun⟩
  | array element count => exact ⟨rfl, nofun⟩
  | record tag isUnion binding => exact idle_of_record rfl h
  | pointer pointee => cases hend
  | function result args argNames variadic => cases hend
  | typedef name canonical decl =>
    cases decl with
    | none => cases hend
    | some d =>
      have hcanonical : canonical.unbound = canonical := (CKind.typedef.inj (CType.mk.inj hu).1).2.1
      rw [CType.specialize_typedef, List.nil_append, typedefSites] at h
      have hself := (outcome_map_ok_iff fun _ _ h => (CKind.typedef.inj (CType.mk.inj h).1).2.1).mp h
      -- a typedef of a record adds no place, every other one adds its declaration
      have hidle : canonical.Idle r := by
        split at hself
        next hrecord => exact idle_of_record hrecord hself
        next => exact idle_of_outcome hcanonical (List.cons_ne_nil d []) hself
      exact ⟨hidle.functions, hidle.records⟩

/-- Without a declaration functions are passed over, and only the end of the way along the results is
looked at. -/
theorem CType.outcome_unsited_iff {t : CType} (hu : t.unbound = t) :
    outcome (t.specialize source []) r = (.ok t, r) ↔ t.returnEnd.Idle r := by
  induction t using CType.results_induction with
  | ending t hend =>
    rw [(CType.ends_of_isEnd hend).1]
    exact ⟨CType.idle_of_end hend hu, CType.outcome_of_idle [] t⟩
  | pointer pointee spelling isConst ih =>
    rw [CType.specialize_pointer]
    exact (outcome_map_ok_iff fun _ _ h => CKind.pointer.inj (CType.mk.inj h).1).trans
      (ih (CKind.pointer.inj (CType.mk.inj hu).1))
  | undeclared name canonical spelling isConst ih =>
    rw [CType.specialize_undeclared]
    exact (outcome_map_ok_iff fun _ _ h => (CKind.typedef.inj (CType.mk.inj h).1).2.1).trans
      (ih (CKind.typedef.inj (CType.mk.inj hu).1).2.1)
  | function result args argNames variadic spelling isConst ih =>
    rw [CType.specialize_function_unsited]
    exact (outcome_map_ok_iff fun _ _ h => (CKind.function.inj (CType.mk.inj h).1).1).trans
      (ih (CKind.function.inj (CType.mk.inj hu).1).1)

/-- Binding an array does to its element what binding the element alone does if, and only if, there is
nothing in the element to be bound; without a declaration only the end of its results counts. -/
theorem CType.specialize_array_iff {raw : RawType} {t : CType} (h : raw.classify = .ok t)
    (r : Registry) (source : SourceMap) (sites : List Decl) (count : Option Nat) (spelling : String)
    (isConst : Bool) :
    let whole := outcome (CType.specialize source sites ⟨.array t count, spelling, isConst⟩) r
    let alone := outcome (t.specialize source sites) r
    whole = (alone.1.map fun t' => ⟨.array t' count, spelling, isConst⟩, alone.2) ↔
      (if sites.isEmpty then t.returnEnd else t).Idle r := by
  intro whole alone
  have hu : t.unbound = t := RawType.unbound_of_classify h
  have hself : whole = (alone.1.map fun t' => ⟨.array t' count, spelling, isConst⟩, alone.2) ↔
      alone = (.ok t, r) := by
    have hinj : Function.Injective fun t' => CType.mk (.array t' count) spelling isConst :=
      fun _ _ h => (CKind.array.inj (CType.mk.inj h).1).1
    rw [← outcome_map_ok_iff hinj, outcome_map]
    exact eq_comm
  rw [hself]
  cases sites with
  | nil => exact CType.outcome_unsited_iff hu
  | cons d ds =>
    exact ⟨CType.idle_of_outcome hu (List.cons_ne_nil d ds), CType.outcome_of_idle (d :: ds) t⟩

end

def boxSource : SourceMap :=
  ⟨[("box.h", "struct box { List /*<int *>*/ *items[4]; };\n")]⟩

def boxField : Decl :=
  { Decl.bare .field "items" ⟨"box.h", 1, 32, 31⟩ with typeStart := some ⟨"box.h", 1, 14, 13⟩ }

/-- An array of pointers to a struct that is no generic. -/
theorem pointers_as_elements :
    let raw : RawType :=
      ⟨.pointer ⟨.record "box" false, "struct box", false⟩, "struct box *", false⟩
    let t : CType :=
      ⟨.pointer ⟨.record "box" false none, "struct box", false⟩, "struct box *", false⟩
    let alone := outcome (t.specialize boxSource [boxField]) listRegistry
    raw.classify = .ok t ∧
      outcome (CType.specialize boxSource [boxField] ⟨.array t (some 4), "", false⟩) listRegistry =
        (alone.1.map fun t' => ⟨.array t' (some 4), "", false⟩, alone.2) := by
  intro raw t alone
  have h : raw.classify = .ok t := by
    have htag : "box".startsWith "const " = false := by decide
    simp only [raw, RawType.classify, RawType.classifyWith, RawKind.classifyWith, htag]
    rfl
  refine ⟨h, ?_⟩
  apply (CType.specialize_array_iff h listRegistry boxSource [boxField] (some 4) "" false).mpr
  refine ⟨rfl, fun u hu => ?_⟩
  obtain rfl := List.mem_singleton.mp hu
  decide

/-- A list of pointers in an array keeps its comment to itself: the same pointer alone is bound. -/
theorem items_unbound :
    let t : CType :=
      ⟨.pointer ⟨.record "list" false none, "struct list", false⟩, "struct list *", false⟩
    let alone := outcome (t.specialize boxSource [boxField]) listRegistry
    outcome (CType.specialize boxSource [boxField] ⟨.array t (some 4), "", false⟩) listRegistry ≠
      (alone.1.map fun t' => ⟨.array t' (some 4), "", false⟩, alone.2) := by
  intro t alone h
  have hkeys := congrArg (fun ended => (ended.2.get? "List").map (·.specializations)) h
  have halone : (alone.2.get? "List").map (·.specializations) = some ["int"] := by decide +kernel
  rw [halone] at hkeys
  cases hkeys

end Bindery
