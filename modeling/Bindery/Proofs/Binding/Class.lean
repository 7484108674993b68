import Bindery.Proofs.Binding.Func

/-! Binding a struct: which fields it keeps, under which names, and the instances that it records
for them. -/

namespace Bindery

variable {r : Registry}

def fieldBindings (fields : List Field) : List GenericBinding :=
  fields.flatMap (·.type.bindings)

def slotBindings (slots : List FieldSlot) : List GenericBinding :=
  fieldBindings (slots.flatMap FieldSlot.fields)

def fieldRecords (fields : List Field) : List RecordUse :=
  fields.flatMap (·.type.records)

/-- The records at which the fields are bound to instances. -/
def slotRecords (slots : List FieldSlot) : List RecordUse :=
  fieldRecords (slots.flatMap FieldSlot.fields)

theorem fieldRecords_append (fs gs : List Field) :
    fieldRecords (fs ++ gs) = fieldRecords fs ++ fieldRecords gs :=
  List.flatMap_append

theorem slotRecords_append (ss ts : List FieldSlot) :
    slotRecords (ss ++ ts) = slotRecords ss ++ slotRecords ts := by
  rw [slotRecords, List.flatMap_append, fieldRecords_append, slotRecords, slotRecords]

theorem filterMap_cons_toList {α β : Type} (f : α → Option β) (a : α) (as : List α) :
    (a :: as).filterMap f = (f a).toList ++ as.filterMap f := by
  rw [List.filterMap_cons]
  cases f a <;> rfl

/-- The fields that take a place of storage together. -/
inductive FieldGroup where
  | single (d : Decl)
  | union (members : List Decl)

namespace FieldGroup

def fields : FieldGroup → List Decl
  | .single d => [d]
  | .union members => members

/-- The place of storage of what is bound of the fields, if anything is bound. -/
def slots (bound : List Field) : FieldGroup → List FieldSlot
  | .single _ => bound.map .single
  | .union _ => if bound.isEmpty then [] else [.union bound]

theorem fields_slots (g : FieldGroup) (bound : List Field) :
    (g.slots bound).flatMap FieldSlot.fields = bound := by
  cases g with
  | single d => simp [slots, List.flatMap_map, FieldSlot.fields]
  | union members => cases bound <;> simp [slots, FieldSlot.fields]

end FieldGroup

namespace Decl

def isField (d : Decl) : Bool :=
  d.kind == .field

/-- What a member of a struct lays out: a field or those of a union without a name. -/
def fieldGroup? (d : Decl) : Option FieldGroup :=
  if d.isField then some (.single d)
  else if d.kind == .union && d.isAnonymous then some (.union (d.children.filter isField))
  else none

/-- The fields of a struct as they are laid out. -/
def fieldGroups (record : Decl) : List FieldGroup :=
  record.children.filterMap fieldGroup?

def fieldNames (record : Decl) : List String :=
  (record.fieldGroups.flatMap FieldGroup.fields).map name

end Decl

/-- The field is the declared one, with the type in the declaration bound at it. -/
structure Field.Bound (source : SourceMap) (d : Decl) (f : Field) : Prop where
  name : f.name = d.name
  location : f.location = d.location
  type : ∃ t r, d.classify = .ok t ∧ ((d.specializeType source t).run.run r).1 = .ok f.type

namespace FieldWishes

variable {source : SourceMap} {w w' w'' : FieldWishes} {ds ds' : List Decl} {fs fs' : List Field}

def leave (w : FieldWishes) (name : String) : FieldWishes :=
  { w with ignored := w.ignored.erase name }

def take (w : FieldWishes) (name : String) : FieldWishes :=
  { w with renamed := w.renamed.filter (·.1 != name), seen := name :: w.seen }

def renameOf (w : FieldWishes) (name : String) : Option String :=
  (w.renamed.find? (·.1 == name)).map (·.2)

/-- The wishes go from `w` to `w'` while the fields `fs` are bound of the declared ones. -/
inductive Walks (source : SourceMap) :
    FieldWishes → List Decl → List Field → FieldWishes → Prop where
  | nil {w : FieldWishes} : Walks source w [] [] w
  | leave {w w' : FieldWishes} {d : Decl} {ds : List Decl} {fs : List Field}
      (asked : d.name ∈ w.ignored) (rest : Walks source (w.leave d.name) ds fs w') :
      Walks source w (d :: ds) fs w'
  | take {w w' : FieldWishes} {d : Decl} {ds : List Decl} {f : Field} {fs : List Field}
      (kept : d.name ∉ w.ignored) (fresh : d.name ∉ w.seen) (bound : f.Bound source d)
      (rename : f.rename = w.renameOf d.name) (rest : Walks source (w.take d.name) ds fs w') :
      Walks source w (d :: ds) (f :: fs) w'

theorem Walks.append (h : Walks source w ds fs w') (h' : Walks source w' ds' fs' w'') :
    Walks source w (ds ++ ds') (fs ++ fs') w'' := by
  induction h with
  | nil => exact h'
  | leave asked _ ih => exact .leave asked (ih h')
  | take kept fresh bound rename _ ih => exact .take kept fresh bound rename (ih h')

/-- The wishes go from `w` to `w'` while slots are bound of groups of fields. -/
inductive Fills (source : SourceMap) :
    FieldWishes → List FieldGroup → List FieldSlot → FieldWishes → Prop where
  | nil {w : FieldWishes} : Fills source w [] [] w
  | cons {w w' w'' : FieldWishes} {g : FieldGroup} {gs : List FieldGroup} {fs : List Field}
      {slots : List FieldSlot} (first : Walks source w g.fields fs w')
      (rest : Fills source w' gs slots w'') : Fills source w (g :: gs) (g.slots fs ++ slots) w''

theorem Fills.walks {gs : List FieldGroup} {slots : List FieldSlot}
    (h : Fills source w gs slots w') :
    Walks source w (gs.flatMap FieldGroup.fields) (slots.flatMap FieldSlot.fields) w' := by
  induction h with
  | nil => exact .nil
  | @cons _ _ _ g _ fs _ first _ ih =>
    rw [List.flatMap_cons, List.flatMap_append, g.fields_slots]
    exact first.append ih

end FieldWishes

open FieldWishes (Walks Fills)

theorem bindField_records (source : SourceMap) (entity : String) (w : FieldWishes) (d : Decl) :
    Records r (bindField source entity w d) fun res uses =>
      Walks source w [d] res.1.toList res.2 ∧ uses = fieldBindings res.1.toList ∧
        r.Annotated (fieldRecords res.1.toList) := by
  unfold bindField
  by_cases hi : w.ignored.contains d.name
  · simp only [hi, if_true]
    exact .pure ⟨.leave (by simpa using hi) .nil, rfl, .nil⟩
  · by_cases hs : w.seen.contains d.name
    · simp only [hi, hs, if_true, if_false, Bool.false_eq_true]
      exact .throw _ _
    · simp only [hi, hs, if_false, Bool.false_eq_true]
      apply (Records.ofExcept _).bind
      rintro t _ ⟨ht, rfl⟩
      have hb := Decl.bindings_of_classify ht
      apply (Decl.specializeType_records _ source d hb).witnessed.bind
      rintro t' uses ⟨hrun, hu, ha⟩
      refine .pure ⟨?_, by simpa [fieldBindings] using hu,
        by simpa [fieldRecords] using ha.of_recordAll⟩
      exact .take (by simpa using hi) (by simpa using hs) ⟨rfl, rfl, t, _, ht, hrun⟩ rfl .nil

theorem bindMembers_records (source : SourceMap) (entity : String) (ds : List Decl)
    (w : FieldWishes) :
    Records r (bindMembers source entity w ds) fun res uses =>
      Walks source w (ds.filter Decl.isField) res.1 res.2 ∧ uses = fieldBindings res.1 ∧
        r.Annotated (fieldRecords res.1) := by
  induction ds generalizing r w with
  | nil => exact .pure ⟨.nil, rfl, .nil⟩
  | cons d ds ih =>
    unfold bindMembers
    by_cases hf : d.isField
    · have hkind : d.kind == .field := hf
      simp only [hkind, if_true, List.filter_cons_of_pos hf]
      apply (bindField_records source entity w d).bind
      rintro ⟨f, w'⟩ _ ⟨hwalk, rfl, ha⟩
      apply (ih w').bind
      rintro ⟨fs, w''⟩ _ ⟨hwalks, rfl, ha'⟩
      refine .pure ⟨hwalk.append hwalks, by simp [fieldBindings], ?_⟩
      rw [fieldRecords_append]
      exact ha.append ha'.of_recordAll
    · have hkind : ¬d.kind == .field := hf
      rw [List.filter_cons_of_neg hf]
      by_cases hr : d.kind.isRecord
      · simp only [hkind, hr, if_true, if_false, Bool.false_eq_true]
        exact ih w
      · simp only [hkind, hr, if_false, Bool.false_eq_true]
        exact .throw _ _

theorem bindSlots_records (source : SourceMap) (entity : String) (ds : List Decl)
    (w : FieldWishes) :
    Records r (bindSlots source entity w ds) fun res uses =>
      Fills source w (ds.filterMap Decl.fieldGroup?) res.1 res.2 ∧ uses = slotBindings res.1 ∧
        r.Annotated (slotRecords res.1) := by
  induction ds generalizing r w with
  | nil => exact .pure ⟨.nil, rfl, .nil⟩
  | cons d ds ih =>
    -- what is bound of a member is bound of its group, and the other members follow
    have hgroup : ∀ {g : FieldGroup} {fs : List Field} {w' : FieldWishes} {slots : List FieldSlot},
        d.fieldGroup? = some g → slots = g.slots fs → Walks source w g.fields fs w' →
        r.Annotated (fieldRecords fs) →
        Records (r.recordAll (fieldBindings fs)) (do
          let rest ← bindSlots source entity w' ds
          pure (slots ++ rest.1, rest.2)) fun res uses =>
            Fills source w ((d :: ds).filterMap Decl.fieldGroup?) res.1 res.2 ∧
              fieldBindings fs ++ uses = slotBindings res.1 ∧ r.Annotated (slotRecords res.1) := by
      rintro g fs w' _ hg rfl hwalk ha
      apply (ih w').bind
      rintro ⟨rest, w''⟩ _ ⟨hfills, rfl, ha'⟩
      rw [filterMap_cons_toList, hg]
      refine .pure ⟨.cons hwalk hfills, ?_, ?_⟩
      · simp [slotBindings, g.fields_slots, fieldBindings]
      · rw [slotRecords_append, slotRecords, g.fields_slots]
        exact ha.append ha'.of_recordAll
    unfold bindSlots
    by_cases hf : d.isField
    · have hkind : d.kind == .field := hf
      simp only [hkind, if_true]
      apply (bindField_records source entity w d).bind
      rintro ⟨f, w'⟩ _ ⟨hwalk, rfl, ha⟩
      have hslots : (f.map FieldSlot.single).toList = (FieldGroup.single d).slots f.toList := by
        cases f <;> rfl
      exact hgroup (if_pos hf) hslots hwalk ha
    · have hkind : ¬d.kind == .field := hf
      by_cases hu : d.kind == .union && d.isAnonymous
      · simp only [hkind, hu, if_true, if_false, Bool.false_eq_true]
        apply (bindMembers_records source entity d.children w).bind
        rintro ⟨members, w'⟩ _ ⟨hwalk, rfl, ha⟩
        have hunion : d.fieldGroup? = some (.union (d.children.filter Decl.isField)) := by
          rw [Decl.fieldGroup?, if_neg hf, if_pos hu]
        exact hgroup hunion rfl hwalk ha
      · have hnone : d.fieldGroup? = none := by rw [Decl.fieldGroup?, if_neg hf, if_neg hu]
        rw [List.filterMap_cons_none hnone]
        by_cases hr : d.kind.isRecord
        · simp only [hkind, hu, hr, if_true, if_false, Bool.false_eq_true]
          exact ih w
        · simp only [hkind, hu, hr, if_false, Bool.false_eq_true]
          exact .throw _ _

/-- What binding a struct gives: a class under the name that was asked for, without functions. -/
structure Class.Binds (spec : ClassSpec) (record : Decl) (cls : Class) : Prop where
  name : cls.name = spec.typedefName
  structName : cls.structName = if record.name.isEmpty then spec.typedefName else record.name
  funcs : cls.funcs = []
  methods : cls.methods = []
  constructor : cls.constructor = none
  destructor : cls.destructor = none

theorem Class.ofRecord_records (source : SourceMap) (spec : ClassSpec) (policy : StalePolicy)
    (record : Decl) : Records r (Class.ofRecord source spec policy record) fun res uses =>
      uses = slotBindings res.1.slots ∧ Class.Binds spec record res.1 ∧
        r.Annotated (slotRecords res.1.slots) ∧
        ∃ w, Fills source ⟨spec.ignored, spec.renamed, []⟩ record.fieldGroups res.1.slots w := by
  unfold Class.ofRecord
  apply (bindSlots_records source _ _ _).bind
  rintro ⟨slots, w⟩ _ ⟨hfills, rfl, ha⟩
  simp only
  split
  · exact .throw _ _
  · exact .pure ⟨List.append_nil _, ⟨rfl, rfl, rfl, rfl, rfl, rfl⟩, ha, w, hfills⟩

end Bindery
