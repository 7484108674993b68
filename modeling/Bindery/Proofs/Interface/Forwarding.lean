import Bindery.Interface.Function
import Bindery.Proofs.Binding.Reached
import Bindery.Proofs.CType.Frame
import Bindery.Proofs.Text.Identifier

/-! The call in a wrapper, with one argument for each parameter of the function. -/

namespace Bindery

/-- What a parameter is called in a wrapper. -/
def wrapped (name : String) : String :=
  if name == "self" then "_self" else name

theorem isIdentifier_wrapped {name : String} : isIdentifier (wrapped name) ↔ isIdentifier name := by
  by_cases h : name = "self"
  · subst h
    decide
  · simp [wrapped, h]

theorem wrapped_of_ne {name : String} (h : name ≠ "self") : wrapped name = name := by
  simp [wrapped, h]

/-- Names are told apart in a wrapper unless one is `self` and the other `_self`. -/
theorem eq_of_wrapped_eq {a b : String} (h : wrapped a = wrapped b) :
    a = b ∨ (a = "self" ∧ b = "_self") ∨ (a = "_self" ∧ b = "self") := by
  by_cases ha : a = "self"
  · by_cases hb : b = "self"
    · exact .inl (ha.trans hb.symm)
    · rw [ha, wrapped_of_ne hb] at h
      exact .inr (.inl ⟨ha, h.symm⟩)
  · rw [wrapped_of_ne ha] at h
    by_cases hb : b = "self"
    · rw [hb] at h
      exact .inr (.inr ⟨h, hb⟩)
    · rw [wrapped_of_ne hb] at h
      exact .inl h

/-- Wrapping names keeps them apart unless both `self` and `_self` are among them. -/
theorem nodup_wrapped_iff {names : List String} :
    (names.map wrapped).Nodup ↔ names.Nodup ∧ ¬("self" ∈ names ∧ "_self" ∈ names) := by
  constructor
  · intro h
    have hnd := h.of_map
    refine ⟨hnd, fun ⟨hs, hu⟩ => ?_⟩
    exact absurd ((List.nodup_map_iff_inj_on hnd).mp h _ hs _ hu rfl) (by decide)
  · rintro ⟨hnd, hno⟩
    apply (List.nodup_map_iff_inj_on hnd).mpr
    intro a ha b hb hab
    rcases eq_of_wrapped_eq hab with h | ⟨rfl, rfl⟩ | ⟨rfl, rfl⟩
    · exact h
    · exact absurd ⟨ha, hb⟩ hno
    · exact absurd ⟨hb, ha⟩ hno

namespace Func

/-- The names of the parameters of the function, without that of the receiver. -/
def paramNames (f : Func) : List String :=
  (f.function.decl.params.map (·.name)).drop (if f.kind.elidesReceiver then 1 else 0)

/-- What the call passes besides the object itself. -/
def forwarded (f : Func) : List String :=
  f.actuals.drop (if f.kind.elidesReceiver then 1 else 0)

/-- A wrapper passes its arguments on in the right way: the call passes as many as the function has
parameters, the object itself in the place of a receiver; the others are identifiers that the
parameters of the wrapper declare, each once and in the same order. -/
structure Forwards (names : RecordNames) (f : Func) : Prop where
  call : ∃ lead, f.call names =
    lead ++ (f.function.name ++ "(" ++ ", ".intercalate f.actuals ++ ");")
  length : f.actuals.length = f.function.decl.params.length
  receiver : f.kind.elidesReceiver → f.actuals.head? = some "$self"
  declared : f.parameters names = ", ".intercalate (List.zipWith (fun (a : FuncArg) actual =>
    (a.type.frame names (f.isGenericArg a) false).around actual ++
      (a.default.map (" = " ++ ·)).getD "") f.boundArgs f.forwarded)
  identifiers : ∀ actual ∈ f.forwarded, isIdentifier actual
  once : f.forwarded.Nodup

theorem call_eq (names : RecordNames) (f : Func) : ∃ lead, f.call names =
    lead ++ (f.function.name ++ "(" ++ ", ".intercalate f.actuals ++ ");") := by
  unfold call
  cases f.kind <;> exact ⟨_, rfl⟩

theorem forwarded_eq (f : Func) : f.forwarded = f.boundArgs.map FuncArg.wrapperName := by
  unfold forwarded actuals
  cases f.kind.elidesReceiver <;> simp

theorem actuals_head (f : Func) (h : f.kind.elidesReceiver) : f.actuals.head? = some "$self" := by
  simp [actuals, h]

theorem actuals_length (f : Func) : f.actuals.length =
    (if f.kind.elidesReceiver then 1 else 0) + f.forwarded.length := by
  rw [forwarded_eq]
  unfold actuals
  cases f.kind.elidesReceiver <;> simp [Nat.add_comm]

theorem paramNames_eq {d : Decl} {kind : FuncKind} {f : Func} (h : f.Binds d kind) :
    argNames f.boundArgs = f.paramNames := by
  unfold boundArgs paramNames
  rw [h.declares.decl, ← h.declares.args]
  cases f.kind.elidesReceiver
  · rfl
  · exact List.map_drop

theorem forwarded_eq_wrapped {d : Decl} {kind : FuncKind} {f : Func} (h : f.Binds d kind) :
    f.forwarded = f.paramNames.map wrapped := by
  rw [← paramNames_eq h, forwarded_eq, argNames, List.map_map]
  rfl

theorem actuals_length_eq {d : Decl} {kind : FuncKind} {f : Func} (h : f.Binds d kind) :
    f.actuals.length = f.function.decl.params.length := by
  rw [actuals_length, forwarded_eq_wrapped h, List.length_map, paramNames, List.length_drop,
    List.length_map, h.declares.decl, h.exposed]
  cases he : kind.elidesReceiver with
  | false => simp
  | true =>
    have hpos := List.length_pos_iff.mpr (h.receiver he)
    simp only [if_true]
    omega

/-- The parameters of the wrapper declare the names that the call passes on. -/
theorem parameters_eq (names : RecordNames) (f : Func) (h : ∀ a ∈ f.forwarded, a ≠ "") :
    f.parameters names = ", ".intercalate (List.zipWith (fun (a : FuncArg) actual =>
      (a.type.frame names (f.isGenericArg a) false).around actual ++
        (a.default.map (" = " ++ ·)).getD "") f.boundArgs f.forwarded) := by
  rw [forwarded_eq] at h ⊢
  rw [parameters, List.zipWith_map_right, List.zipWith_self]
  refine congrArg _ (List.map_congr_left fun a ha => ?_)
  rw [parameter, CType.declare_eq_around names a.type _ (h _ (List.mem_map_of_mem ha))]
  cases a.default <;> rfl

theorem forwards_iff {d : Decl} {kind : FuncKind} {f : Func} (h : f.Binds d kind)
    (names : RecordNames) : f.Forwards names ↔ (∀ n ∈ f.paramNames, isIdentifier n) ∧
      f.paramNames.Nodup ∧ ¬("self" ∈ f.paramNames ∧ "_self" ∈ f.paramNames) := by
  have hids : (∀ a ∈ f.forwarded, isIdentifier a) ↔ ∀ n ∈ f.paramNames, isIdentifier n := by
    simp only [forwarded_eq_wrapped h, List.forall_mem_map, isIdentifier_wrapped]
  rw [← nodup_wrapped_iff, ← forwarded_eq_wrapped h, ← hids]
  constructor
  · intro hf
    exact ⟨hf.identifiers, hf.once⟩
  · rintro ⟨hi, ho⟩
    exact ⟨f.call_eq names, actuals_length_eq h, f.actuals_head,
      f.parameters_eq names fun a ha => ne_empty_of_isIdentifier (hi a ha), hi, ho⟩

end Func

/-- A wrapper forwards its arguments exactly when the parameters behind the receiver have names, no
two the same, and not both the name `self` and the name `_self`. -/
theorem wrapper_forwards_iff (options : BindOptions) (headers : List Header)
    (calls : List (Nat × BindCall)) (f : Func)
    (hf : f ∈ ((Session.start options headers).perform calls).2.context.functions)
    (names : RecordNames) :
    f.Forwards names ↔ (∀ n ∈ f.paramNames, isIdentifier n) ∧ f.paramNames.Nodup ∧
      ¬("self" ∈ f.paramNames ∧ "_self" ∈ f.paramNames) := by
  obtain ⟨d, kind, hbinds⟩ := Session.perform_bound options headers calls f hf
  exact Func.forwards_iff hbinds names

/-- A header with a struct and a function of numbers with parameters of the given names. -/
def adderHeader (names : List String) : Header where
  name := "a.h"
  source := {}
  entries := [
    ⟨Decl.bare .struct "rz_t" .unknown, false⟩,
    ⟨{ Decl.bare .function "rz_add" .unknown with
      type := some (.function (.builtin .int) (names.map fun _ => .builtin .int) false)
      children := names.map fun n =>
        { Decl.bare .parameter n .unknown with type := some (.builtin .int) } }, false⟩]

/-- The interface with the function as a static function of the class of the struct. -/
def adderContext (names : List String) : Context :=
  ((Session.start {} [adderHeader names]).perform
    [(0, .addClass ⟨"RzT", some "rz_t", [], []⟩), (0, .addFunc "RzT" "rz_add" "add" {})]).2.context

theorem self_forwarded : ∃ f ∈ (adderContext ["a", "self"]).functions,
    f.call {} = "return rz_add(a, _self);" ∧ f.Forwards {} := by
  have hf : (adderContext ["a", "self"]).functions.map (fun f => (f.call {}, f.paramNames)) =
      [("return rz_add(a, _self);", ["a", "self"])] := by decide
  obtain ⟨f, hfs, he⟩ := List.map_eq_singleton_iff.mp hf
  obtain ⟨hcall, hnames⟩ := Prod.mk.inj he
  have hmem : f ∈ (adderContext ["a", "self"]).functions := hfs ▸ List.mem_singleton_self f
  refine ⟨f, hmem, hcall, ?_⟩
  rw [wrapper_forwards_iff {} [adderHeader ["a", "self"]] _ f hmem, hnames]
  decide

/-- Parameters without names are passed on as nothing. -/
theorem unnamed_not_forwarded : ∃ f ∈ (adderContext ["", ""]).functions,
    f.head {} "add" "rz_t" = "static int add(int, int) \x7b" ∧
      f.call {} = "return rz_add(, );" ∧ ¬f.Forwards {} := by
  have hf : (adderContext ["", ""]).functions.map (fun f =>
      (f.head {} "add" "rz_t", f.call {}, f.forwarded)) =
      [("static int add(int, int) \x7b", "return rz_add(, );", ["", ""])] := by decide
  obtain ⟨f, hfs, he⟩ := List.map_eq_singleton_iff.mp hf
  simp only [Prod.mk.injEq] at he
  refine ⟨f, hfs ▸ List.mem_singleton_self f, he.1, he.2.1, fun hforwards => ?_⟩
  have hid := hforwards.identifiers "" (by simp [he.2.2])
  exact ne_empty_of_isIdentifier hid rfl

end Bindery
