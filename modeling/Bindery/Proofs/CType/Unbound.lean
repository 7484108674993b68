import Bindery.Proofs.CType.Bindings

/-! What a type is without the instances and the names of arguments that are filled in later. -/

namespace Bindery

/-- A function type, told by the number of its arguments and their names as far as they are known. -/
structure FunctionUse where
  arity : Nat
  argNames : Option (List String)
  deriving DecidableEq, Repr

def FunctionUse.Named (f : FunctionUse) : Prop :=
  f.argNames.map List.length = some f.arity

mutual

/-- The functions among the types in which records are bound to instances. -/
def CType.functions : CType → List FunctionUse
  | ⟨kind, _, _⟩ => kind.functions

def CKind.functions : CKind → List FunctionUse
  | .primitive _ => []
  | .pointer pointee => pointee.functions
  | .array _ _ => []
  | .typedef _ canonical _ => canonical.functions
  | .record _ _ _ => []
  | .function result args argNames _ =>
    ⟨args.length, argNames⟩ :: (result.functions ++ CType.functionsList args)

def CType.functionsList : List CType → List FunctionUse
  | [] => []
  | t :: ts => t.functions ++ CType.functionsList ts

end

mutual

/-- The type with its records bound to nothing and the arguments of its functions unnamed. -/
def CType.unbound : CType → CType
  | ⟨kind, spelling, isConst⟩ => ⟨kind.unbound, spelling, isConst⟩

def CKind.unbound : CKind → CKind
  | .primitive p => .primitive p
  | .pointer pointee => .pointer pointee.unbound
  | .array element count => .array element count
  | .typedef name canonical decl => .typedef name canonical.unbound decl
  | .record tag isUnion _ => .record tag isUnion none
  | .function result args _ variadic =>
    .function result.unbound (CType.unboundList args) none variadic

def CType.unboundList : List CType → List CType
  | [] => []
  | t :: ts => t.unbound :: CType.unboundList ts

end

theorem CType.length_unboundList (ts : List CType) : (unboundList ts).length = ts.length := by
  induction ts with
  | nil => rfl
  | cons t ts ih => simp [unboundList, ih]

/-- No more has been filled in than there was at first. -/
theorem CType.length_eq_of_unboundList {ts ts' : List CType}
    (h : unboundList ts' = unboundList ts) : ts'.length = ts.length := by
  rw [← length_unboundList ts', h, length_unboundList]

/-- No record is bound and no argument is named. -/
structure Unfilled (records : List RecordUse) (functions : List FunctionUse) : Prop where
  binding : ∀ u ∈ records, u.binding = none
  argNames : ∀ f ∈ functions, f.argNames = none

namespace Unfilled

variable {records records' : List RecordUse} {functions functions' : List FunctionUse}

theorem nil : Unfilled [] [] :=
  ⟨nofun, nofun⟩

theorem append (h : Unfilled records functions) (h' : Unfilled records' functions') :
    Unfilled (records ++ records') (functions ++ functions') := by
  constructor
  · intro u hu
    exact (List.mem_append.mp hu).elim (h.binding u) (h'.binding u)
  · intro f hf
    exact (List.mem_append.mp hf).elim (h.argNames f) (h'.argNames f)

theorem unnamed (h : Unfilled records functions) (arity : Nat) :
    Unfilled records (⟨arity, none⟩ :: functions) :=
  ⟨h.binding, List.forall_mem_cons.mpr ⟨rfl, h.argNames⟩⟩

end Unfilled

mutual

theorem CType.unbound_unfilled (t : CType) : Unfilled t.unbound.records t.unbound.functions := by
  obtain ⟨kind, spelling, isConst⟩ := t
  exact kind.unbound_unfilled

theorem CKind.unbound_unfilled (kind : CKind) :
    Unfilled kind.unbound.records kind.unbound.functions := by
  cases kind with
  | primitive p => exact .nil
  | array element count => exact .nil
  | pointer pointee => exact pointee.unbound_unfilled
  | typedef name canonical decl => exact canonical.unbound_unfilled
  | record tag isUnion binding => exact ⟨List.forall_mem_singleton.mpr rfl, nofun⟩
  | function result args argNames variadic =>
    exact (result.unbound_unfilled.append (CType.unboundList_unfilled args)).unnamed _

theorem CType.unboundList_unfilled (ts : List CType) :
    Unfilled (CType.recordsList (CType.unboundList ts))
      (CType.functionsList (CType.unboundList ts)) := by
  cases ts with
  | nil => exact .nil
  | cons t ts => exact t.unbound_unfilled.append (CType.unboundList_unfilled ts)

end

theorem CType.unboundList_eq_self {ts : List CType} (h : ∀ t ∈ ts, t.unbound = t) :
    unboundList ts = ts := by
  induction ts with
  | nil => rfl
  | cons t ts ih =>
    obtain ⟨ht, hts⟩ := List.forall_mem_cons.mp h
    rw [unboundList, ht, ih hts]

theorem CType.unbound_lasting : Lasting fun t => t.unbound = t where
  primitive _ _ _ := rfl
  pointer _ _ _ h := by rw [unbound, CKind.unbound, h]
  array _ _ _ _ _ := rfl
  record _ _ _ _ := rfl
  function _ _ _ _ _ hresult hargs := by
    rw [unbound, CKind.unbound, hresult, unboundList_eq_self hargs]
  respelled := fun ⟨_, _, _⟩ _ _ h => congrArg (CType.mk · _ _) (congrArg CType.kind h)

theorem RawType.unbound_of_classify {t : RawType} {c : CType} (h : t.classify = .ok c) :
    c.unbound = c :=
  classify_lasting CType.unbound_lasting
    (fun _ _ _ _ _ h => by rw [CType.unbound, CKind.unbound, h]) h

end Bindery
