import Bindery.Proofs.Dump.Declaration
import Bindery.Proofs.Text.Integer

/-! The values of the constants of an enumeration that have neither a value nor an initializer. -/

namespace Bindery

variable {o : Origin} {F : Prop} {c : Node} {cs front run back : List Node} {d : Decl} {ds : List Decl}
  {before : Option (String × String)} {name text : String} {v : Int}

/-- The constant was not evaluated and has no initializer. -/
def Node.IsCounted (c : Node) : Prop :=
  c.firstValue = none ∧ c.children.find? (!·.kind.endsWith "Attr") = none

/-- The text of the value of one of a list of declarations. -/
def valueAt? (ds : List Decl) (i : Nat) : Option String :=
  ds[i]?.bind (·.value)

theorem valueAt?_eq (ds : List Decl) (i : Nat) : valueAt? ds i = (ds.map (·.value))[i]?.join := by
  rw [valueAt?, List.getElem?_map]
  cases ds[i]? <;> rfl

theorem Node.IsCounted.valueBehind?_eq (hc : c.IsCounted) : c.valueBehind? o before = countedValue? before := by
  obtain ⟨hvalue, hinit⟩ := hc
  simp [valueBehind?, initializer?, hvalue, hinit]

namespace ConstantsOf

/-- What follows a constant is counted from it. -/
theorem behind (h : ConstantsOf o before (front ++ c :: cs) ds) :
    ∃ text, valueAt? ds front.length = some text ∧
      ConstantsOf o (some (c.name, text)) cs (ds.drop (front.length + 1)) := by
  induction front generalizing before ds with
  | nil =>
    cases h with
    | cons _ value _ rest => exact ⟨_, value, rest⟩
  | cons _ front ih =>
    cases h with
    | cons _ _ _ rest => exact ih rest

theorem first (h : ConstantsOf o none (c :: cs) ds) (hc : c.IsCounted) :
    valueAt? ds 0 = some "0" := by
  cases h with
  | cons _ value counted _ => exact value.trans (counted.symm.trans hc.valueBehind?_eq)

/-- Along counted constants the numbers go up by one and stay below 2^63. -/
theorem along (h : ConstantsOf o (some (name, text)) (run ++ back) ds)
    (hv : integerLiteral? text = some v) (hrun : ∀ r ∈ run, r.IsCounted) {i : Nat}
    (hi : i < run.length) : v + (i + 1 : Nat) < limit63 ∧
      valueAt? ds i = some (toString (v + (i + 1 : Nat))) := by
  induction run generalizing name text v ds i with
  | nil => cases hi
  | cons r run ih =>
    obtain ⟨hr, hrun⟩ := List.forall_mem_cons.mp hrun
    cases h with
    | @cons _ _ _ d ds text' _ value counted rest =>
      obtain ⟨w, hw, rfl⟩ : ∃ w, nextInteger? v = some w ∧ toString w = text' := by
        rw [hr.valueBehind?_eq, countedValue?, hv] at counted
        exact Option.map_eq_some_iff.mp counted
      obtain ⟨hbelow, rfl⟩ := nextInteger?_eq_some_iff.mp hw
      cases i with
      | zero => exact ⟨hbelow, value⟩
      | succ i =>
        have hlow : -(limit63 : Int) ≤ v := (integerLiteral?_bounds hv).1
        have hnext := integerLiteral?_toString (by omega) hbelow
        have hsum : v + 1 + (i + 1 : Nat) = v + (i + 1 + 1 : Nat) := by omega
        rw [← hsum]
        exact ih rest hnext hrun (Nat.lt_of_succ_lt_succ hi)

end ConstantsOf

/-- An enumeration is built exactly if it and its constants have places, initializers and numbers that
fit their words. A counted constant that comes first is then 0. Behind a constant whose value is written
as the number `v`, each of the counted constants that follow has its mathematical sum with `v`, and that
is below 2^63. -/
theorem Node.enumeration_counts_iff (o : Origin) (n : Node) {m : SourceMap} (hm : o.Holds m) :
    ((∃ d m', (n.enumeration o).run m = .ok (d, m')) ↔
      n.Placeable o .enum ∧ ConstantsFit o none n.constantNodes) ∧
    ∀ d m', (n.enumeration o).run m = .ok (d, m') → d.children.map Decl.key = n.constantKeys ∧
      (∀ c cs, n.constantNodes = c :: cs → c.IsCounted → valueAt? d.children 0 = some "0") ∧
      ∀ front c run back v, n.constantNodes = front ++ c :: (run ++ back) →
        (∀ r ∈ run, r.IsCounted) →
        (valueAt? d.children front.length).bind integerLiteral? = some v →
        ∀ i < run.length, v + (i + 1 : Nat) < limit63 ∧
          valueAt? d.children (front.length + 1 + i) = some (toString (v + (i + 1 : Nat))) := by
  have hneeds := n.enumeration_needs (o := o)
  refine ⟨hneeds.succeeds_iff hm, fun d m' hrun => ?_⟩
  have hds : ConstantsOf o none n.constantNodes d.children := ((hneeds m hm).1 d m' hrun).1.2.2
  refine ⟨hds.keys, fun c cs hnodes hc => ?_, fun front c run back v hnodes hcounted hv i hi => ?_⟩
  · rw [hnodes] at hds
    exact hds.first hc
  · rw [hnodes] at hds
    obtain ⟨text, htext, hbehind⟩ := hds.behind
    rw [htext] at hv
    rw [valueAt?, ← List.getElem?_drop]
    exact hbehind.along hv hcounted hi

def levelOrigin : Origin :=
  ⟨"/src/demo.h", "", fun _ => none⟩

def levelConstant (name : String) (children : List Node) : Node :=
  ⟨"EnumConstantDecl", name, {}, {}, {}, none, false, false, none, none, none, children⟩

/-- An enumeration of a constant that was evaluated and two that are counted. -/
def levelNode (first : String) : Node :=
  let value : Node := ⟨"ConstantExpr", "", {}, {}, {}, none, false, false, none, some first, none, []⟩
  ⟨"EnumDecl", "level", {}, {}, {}, none, false, false, none, none, none,
    [levelConstant "LEVEL_LOW" [value], levelConstant "LEVEL_MIDDLE" [], levelConstant "LEVEL_HIGH" []]⟩

/-- The values of the constants of an enumeration. -/
def levelValues (first : String) : Except LoadFault (List (Option String)) :=
  (((levelNode first).enumeration levelOrigin).run {}).map fun r => r.1.children.map (·.value)

theorem level_counted : ∃ d m', ((levelNode "0x29").enumeration levelOrigin).run {} = .ok (d, m') ∧
    valueAt? d.children 2 = some "43" := by
  obtain ⟨-, hcounts⟩ := (levelNode "0x29").enumeration_counts_iff levelOrigin levelOrigin.holds_empty
  have hvalues : levelValues "0x29" = .ok [some "0x29", some "42", some "43"] := by decide
  obtain ⟨⟨d, m'⟩, hrun, hchildren⟩ := except_map_ok hvalues
  have hfirst : (valueAt? d.children 0).bind integerLiteral? = some 41 := by
    rw [valueAt?_eq, ← hchildren]
    decide
  have hcounted : ∀ r ∈ [levelConstant "LEVEL_MIDDLE" [], levelConstant "LEVEL_HIGH" []],
      r.IsCounted := by
    simp [levelConstant, Node.IsCounted, Node.firstValue, Node.firstValueOf]
  obtain ⟨-, -, hruns⟩ := hcounts d m' hrun
  exact ⟨d, m', hrun, (hruns [] _ _ [] 41 rfl hcounted hfirst 1 (by decide)).2⟩

/-- Behind the last number of 64 bits there is none to count on with. -/
theorem level_stops : levelValues "9223372036854775807" = .error .overflow := by
  decide

end Bindery
