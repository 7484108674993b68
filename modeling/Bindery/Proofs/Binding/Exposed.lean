import Bindery.Proofs.Binding.Reached

/-! The names under which a class exposes its members. They are distinct within each table of the
class. -/

namespace Bindery

variable {α : Type}

/-- The names of bound fields have been seen, each for the first time. -/
theorem FieldWishes.Walks.seen {source : SourceMap} {w w' : FieldWishes} {ds : List Decl}
    {fs : List Field} (h : FieldWishes.Walks source w ds fs w') :
    w'.seen = (fs.map (·.name)).reverse ++ w.seen ∧ (w.seen.Nodup → w'.seen.Nodup) := by
  induction h with
  | nil => exact ⟨rfl, id⟩
  | leave _ _ ih => exact ih
  | take _ fresh bound _ _ ih =>
    obtain ⟨hseen, hnodup⟩ := ih
    refine ⟨?_, fun hn => hnodup (List.nodup_cons.mpr ⟨fresh, hn⟩)⟩
    rw [hseen, List.map_cons, List.reverse_cons, List.append_assoc, bound.name]
    rfl

theorem FieldWishes.Walks.nodup {source : SourceMap} {w w' : FieldWishes} {ds : List Decl}
    {fs : List Field} (h : FieldWishes.Walks source w ds fs w') (hw : w.seen = []) :
    (fs.map (·.name)).Nodup := by
  obtain ⟨hseen, hnodup⟩ := h.seen
  rw [hw, List.append_nil] at hseen
  exact List.nodup_reverse.mp (hseen ▸ hnodup (hw ▸ List.nodup_nil))

/-- Within each table of a class the names are distinct. -/
structure Class.Tidy (k : Class) : Prop where
  funcs : (k.funcs.map (·.1)).Nodup
  methods : (k.methods.map (·.1)).Nodup
  fields : (k.allFields.map (·.name)).Nodup

theorem nodup_insert {table : List (String × α)} (hn : (table.map (·.1)).Nodup) {name : String}
    (free : table.any (·.1 == name) = false) (a : α) : ((table ++ [(name, a)]).map (·.1)).Nodup := by
  have hno := List.any_eq_false.mp free
  rw [List.map_append, List.nodup_append]
  refine ⟨hn, List.nodup_singleton _, ?_⟩
  rintro n hmem _ hone rfl
  obtain ⟨p, hp, rfl⟩ := List.mem_map.mp hmem
  obtain heq := List.mem_singleton.mp hone
  exact hno p hp (beq_iff_eq.mpr heq)

theorem Context.Distinct.changeClass_tidy {c : Context} (hd : c.Distinct)
    (ht : ∀ k ∈ c.classes, k.Tidy) {name : String} {cls : Class}
    (found : c.getClass? name = some cls) {change : Class → Class} (hc : (change cls).Tidy) :
    ∀ k ∈ (c.changeClass name change).classes, k.Tidy := by
  obtain ⟨hmem, hname⟩ := getClass?_name found
  simp only [changeClass, List.forall_mem_map]
  intro k hk
  by_cases hn : k.name = name
  · obtain rfl : k = cls := List.inj_on_of_nodup_map hd.classes hk hmem (hn.trans hname.symm)
    simpa [hn] using hc
  · simpa [hn] using ht k hk

theorem Placed.tidy {f : Func} {kind : FuncKind} {c c' : Context} (h : Placed f kind c c')
    (hd : c.Distinct) (ht : ∀ k ∈ c.classes, k.Tidy) : ∀ k ∈ c'.classes, k.Tidy := by
  have hfound : ∀ {name cls}, c.getClass? name = some cls → cls.Tidy :=
    fun found => ht _ (Context.getClass?_name found).1
  cases h with
  | generic found free => exact ht
  | constructor found free =>
    obtain ⟨hf, hm, hs⟩ := hfound found
    exact hd.changeClass_tidy ht found ⟨hf, hm, hs⟩
  | destructor found free =>
    obtain ⟨hf, hm, hs⟩ := hfound found
    exact hd.changeClass_tidy ht found ⟨hf, hm, hs⟩
  | method found free =>
    obtain ⟨hf, hm, hs⟩ := hfound found
    exact hd.changeClass_tidy ht found ⟨hf, nodup_insert hm free f, hs⟩
  | static found free =>
    obtain ⟨hf, hm, hs⟩ := hfound found
    exact hd.changeClass_tidy ht found ⟨nodup_insert hf free f, hm, hs⟩

theorem Change.tidy {ok : Bool} {c c' : Context} (h : Change ok c c') (hd : c.Distinct)
    (ht : ∀ k ∈ c.classes, k.Tidy) : ∀ k ∈ c'.classes, k.Tidy := by
  cases h with
  | aside _ hc _ => exact hc ▸ ht
  | register _ => exact ht
  | dress _ => exact ht
  | bindFunc hb hp =>
    obtain ⟨uses, rfl, _, _⟩ := (Func.bind_records _ _ _ _).ran hb
    exact hp.tidy (hd.recordAll uses) ht
  | @bindClass _ _ source spec record cls stale r _ hb =>
    obtain ⟨uses, _, _, hcls⟩ := (Class.ofRecord_records _ _ _ _).ran hb
    obtain ⟨_, hbinds, _, w, hfills⟩ := hcls _ rfl
    have hfields : (cls.allFields.map (·.name)).Nodup := hfills.walks.nodup rfl
    intro k hk
    rcases List.mem_append.mp hk with hk | hk
    · exact ht k hk
    · obtain rfl := List.mem_singleton.mp hk
      have hfuncs : k.funcs = [] := hbinds.funcs
      have hmethods : k.methods = [] := hbinds.methods
      exact ⟨by simp [hfuncs], by simp [hmethods], hfields⟩
  | loseFunc _ => exact ht
  | loseClass _ => exact ht

theorem Evolution.tidy {ok : Bool} {c c' : Context} (h : Evolution ok c c') (hd : c.Distinct)
    (ht : ∀ k ∈ c.classes, k.Tidy) : ∀ k ∈ c'.classes, k.Tidy := by
  induction h with
  | refl => exact ht
  | tail hsteps hstep ih => exact hstep.tidy (Evolution.distinct hsteps hd) ih

/-- The name under which a field is exposed. -/
def Field.exposed (f : Field) : String :=
  f.rename.getD f.name

namespace Class.Tidy

variable {k : Class}

theorem functions_nodup_iff (h : k.Tidy) : ((k.funcs ++ k.methods).map (·.1)).Nodup ↔
    ∀ p ∈ k.funcs, ∀ q ∈ k.methods, p.1 ≠ q.1 := by
  rw [List.map_append, List.nodup_append]
  simp [h.funcs, h.methods]

/-- Fields are exposed under distinct names unless one is renamed to the name of another. -/
theorem exposed_nodup_iff (h : k.Tidy) : (k.allFields.map Field.exposed).Nodup ↔
    ∀ f ∈ k.allFields, ∀ g ∈ k.allFields, f.rename = some g.exposed → f.name = g.name := by
  rw [List.nodup_map_iff_inj_on (List.Nodup.of_map _ h.fields)]
  have hinj := List.inj_on_of_nodup_map h.fields
  constructor
  · intro hex f hf g hg hr
    have heq : f.exposed = g.exposed := by rw [Field.exposed, hr, Option.getD_some]
    rw [hex f hf g hg heq]
  · intro hren f hf g hg heq
    cases hr : f.rename with
    | some n =>
      have hn : n = g.exposed := by rw [← heq, Field.exposed, hr, Option.getD_some]
      exact hinj hf hg (hren f hf g hg (hn ▸ hr))
    | none =>
      cases hr' : g.rename with
      | some n =>
        have hn : n = f.exposed := by rw [heq, Field.exposed, hr', Option.getD_some]
        exact (hinj hg hf (hren g hg f hf (hn ▸ hr'))).symm
      | none =>
        rw [Field.exposed, Field.exposed, hr, hr', Option.getD_none, Option.getD_none] at heq
        exact hinj hf hg heq

end Class.Tidy

/-- In a class that calls reach, static functions differ in their names, and so do methods and
fields. Static functions and methods together differ exactly if no method has the name of a static
function, and the exposed fields exactly if none is renamed to what another is exposed as. -/
theorem exposed_names_iff (options : BindOptions) (headers : List Header)
    (calls : List (Nat × BindCall)) {k : Class}
    (hk : k ∈ ((Session.start options headers).perform calls).2.context.classes) :
    (k.funcs.map (·.1)).Nodup ∧ (k.methods.map (·.1)).Nodup ∧ (k.allFields.map (·.name)).Nodup ∧
      (((k.funcs ++ k.methods).map (·.1)).Nodup ↔
        ∀ p ∈ k.funcs, ∀ q ∈ k.methods, p.1 ≠ q.1) ∧
      ((k.allFields.map Field.exposed).Nodup ↔
        ∀ f ∈ k.allFields, ∀ g ∈ k.allFields, f.rename = some g.exposed → f.name = g.name) := by
  have ht : k.Tidy := (Session.perform_evolves _ calls).tidy
    (Session.start_distinct options headers) nofun k hk
  exact ⟨ht.funcs, ht.methods, ht.fields, ht.functions_nodup_iff, ht.exposed_nodup_iff⟩

def vectorField (name : String) : Decl :=
  { Decl.bare .field name .unknown with type := some (.builtin .int) }

/-- A struct of two numbers, a function that takes it and one that does not. -/
def vectorHeader : Header where
  name := "vec.h"
  source := {}
  entries := [
    ⟨{ Decl.bare .struct "vec" .unknown with children := [vectorField "x", vectorField "y"] }, false⟩,
    ⟨{ Decl.bare .function "vec_len" .unknown with
      type := some (.function (.builtin .int) [.pointer (.struct "vec")] false)
      children := [{ Decl.bare .parameter "v" .unknown with
        type := some (.pointer (.struct "vec")) }] }, false⟩,
    ⟨{ Decl.bare .function "vec_dim" .unknown with
      type := some (.function (.builtin .int) [] false) }, false⟩]

/-- Binds the struct with a field renamed, one function as the method `len` and the other one as a
static function. -/
def vectorCalls (renamed : List (String × String)) (static : String) : List (Nat × BindCall) :=
  [(0, .addClass ⟨"Vec", some "vec", [], renamed⟩), (0, .addMethod "Vec" "vec_len" "len" {}),
    (0, .addFunc "Vec" "vec_dim" static {})]

def Class.tables (k : Class) : List String × List String × List (String × Option String) :=
  (k.funcs.map (·.1), k.methods.map (·.1), k.allFields.map fun f => (f.name, f.rename))

theorem vector_names_distinct :
    ∃ k ∈ ((Session.start {} [vectorHeader]).perform
        (vectorCalls [("x", "first")] "dim")).2.context.classes,
      ((k.funcs ++ k.methods).map (·.1)).Nodup ∧ (k.allFields.map Field.exposed).Nodup := by
  have hc : ((Session.start {} [vectorHeader]).perform
      (vectorCalls [("x", "first")] "dim")).2.context.classes.map Class.tables =
        [(["dim"], ["len"], [("x", some "first"), ("y", none)])] := by
    decide
  obtain ⟨k, hk, he⟩ := List.map_eq_singleton_iff.mp hc
  have hmem := hk ▸ List.mem_singleton_self k
  simp only [Class.tables, Prod.mk.injEq] at he
  obtain ⟨hfuncs, hmethods, hfields⟩ := he
  obtain ⟨_, _, _, hfunctions, hexposed⟩ := exposed_names_iff {} [vectorHeader]
    (vectorCalls [("x", "first")] "dim") hmem
  refine ⟨k, hmem, hfunctions.mpr ?_, hexposed.mpr ?_⟩
  · intro p hp q hq
    have hp' := List.mem_map_of_mem (f := (·.1)) hp
    have hq' := List.mem_map_of_mem (f := (·.1)) hq
    rw [hfuncs, List.mem_singleton] at hp'
    rw [hmethods, List.mem_singleton] at hq'
    rw [hp', hq']
    decide
  · have hof : ∀ f ∈ k.allFields, (f.name, f.rename) ∈ [("x", some "first"), ("y", none)] :=
      fun f hf => hfields ▸ List.mem_map_of_mem (f := fun f : Field => (f.name, f.rename)) hf
    intro f hf g hg hr
    have hf' := hof f hf
    have hg' := hof g hg
    simp only [List.mem_cons, Prod.mk.injEq, List.not_mem_nil, or_false] at hf' hg'
    rcases hf' with ⟨hn, hfr⟩ | ⟨_, hfr⟩ <;> rcases hg' with ⟨hn', hgr⟩ | ⟨hn', hgr⟩ <;>
      simp_all [Field.exposed]

/-- A static function takes the name of a method, and a field that of another field. -/
theorem names_shared :
    let ended := (Session.start {} [vectorHeader]).perform (vectorCalls [("x", "y")] "len")
    (∀ result ∈ ended.1, result = .ok ()) ∧ ∃ k ∈ ended.2.context.classes,
      ¬ ((k.funcs ++ k.methods).map (·.1)).Nodup ∧ ¬ (k.allFields.map Field.exposed).Nodup := by
  intro ended
  have hall : ended.1.all (·.isOk) = true := by decide
  have hc : ended.2.context.classes.map Class.tables =
      [(["len"], ["len"], [("x", some "y"), ("y", none)])] := by
    decide
  obtain ⟨k, hk, he⟩ := List.map_eq_singleton_iff.mp hc
  simp only [Class.tables, Prod.mk.injEq] at he
  obtain ⟨hfuncs, hmethods, hfields⟩ := he
  refine ⟨ok_of_all_isOk hall, k, hk ▸ List.mem_singleton_self k, ?_, ?_⟩
  · rw [List.map_append, hfuncs, hmethods]
    decide
  · have hexposed : k.allFields.map Field.exposed =
        (k.allFields.map fun f => (f.name, f.rename)).map fun p => p.2.getD p.1 := by
      rw [List.map_map]
      rfl
    rw [hexposed, hfields]
    decide

end Bindery
