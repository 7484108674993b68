import Bindery.Proofs.Binding.Backing
import Bindery.Proofs.CType.Unbound
import Bindery.Proofs.Generic.Outcome

/-! What binding the uses of generics in a type comes to, and what it leaves unchanged. -/

namespace Bindery

namespace Registry

variable {r r' r'' : Registry} {new : String → String → Prop} {b : GenericBinding}
  {uses more : List GenericBinding}

/-- The key of the use is among those of its generic and of the registered dependencies of the
generic. -/
def Holds (r : Registry) (b : GenericBinding) : Prop :=
  ∃ g, r.get? b.generic = some g ∧ b.specialization ∈ g.specializations ∧
    ∀ d ∈ g.dependencies, ∀ g', r.get? d = some g' → b.specialization ∈ g'.specializations

theorem Adds.get?_eq (h : r.Adds r' new) :
    ∃ keys : Generic → List String,
      (∀ g ∈ r.generics, ∀ k, k ∈ keys g ↔ k ∈ g.specializations ∨ new g.name k) ∧
      ∀ n, r'.get? n = (r.get? n).map fun g => g.withKeys (keys g) := by
  obtain ⟨keys, hgs, hkeys⟩ := h.generics
  refine ⟨keys, hkeys, fun n => ?_⟩
  rw [get?, hgs, List.find?_map]
  rfl

theorem Adds.holds (h : r.Adds r' new) (hb : r.Holds b) : r'.Holds b := by
  obtain ⟨g, hg, hkey, hdeps⟩ := hb
  obtain ⟨keys, hkeys, hget⟩ := h.get?_eq
  have hkept : ∀ n g, r.get? n = some g → b.specialization ∈ g.specializations →
      b.specialization ∈ keys g :=
    fun n g hg hk => (hkeys g (get?_name hg).1 _).mpr (.inl hk)
  refine ⟨g.withKeys (keys g), by rw [hget, hg, Option.map_some], hkept _ g hg hkey, ?_⟩
  intro d hd g' hg'
  rw [hget] at hg'
  obtain ⟨g₀, hg₀, rfl⟩ := Option.map_eq_some_iff.mp hg'
  exact hkept d g₀ hg₀ (hdeps d hd g₀ hg₀)

theorem record_holds {g : Generic} (hg : r.get? b.generic = some g) :
    (r.record b.generic b.specialization).Holds b := by
  obtain ⟨keys, hkeys, hget⟩ := (record_adds b.specialization hg).get?_eq
  have howed : ∀ n g', r.get? n = some g' → n = b.generic ∨ n ∈ g.dependencies →
      b.specialization ∈ keys g' := by
    intro n g' hg' hn
    obtain ⟨hmem, rfl⟩ := get?_name hg'
    exact (hkeys g' hmem _).mpr (.inr ⟨hn, rfl⟩)
  refine ⟨g.withKeys (keys g), by rw [hget, hg, Option.map_some], howed _ g hg (.inl rfl), ?_⟩
  intro d hd g' hg'
  rw [hget] at hg'
  obtain ⟨g₀, hg₀, rfl⟩ := Option.map_eq_some_iff.mp hg'
  exact howed d g₀ hg₀ (.inr hd)

/-- One registry is the other with more keys. What is pending in addition is for names that are not
registered. -/
structure Widens (r r' : Registry) : Prop where
  adds : ∃ new, r.Adds r' new
  pending : ∃ more, r'.pending = r.pending ++ more ∧ ∀ p ∈ more, p.1 ∉ r.names

namespace Widens

theorem refl (r : Registry) : r.Widens r :=
  ⟨⟨_, Adds.refl r⟩, [], by simp⟩

theorem names_eq (h : r.Widens r') : r'.names = r.names := by
  obtain ⟨new, hadds⟩ := h.adds
  exact hadds.names_eq

theorem holds (h : r.Widens r') (hb : r.Holds b) : r'.Holds b := by
  obtain ⟨new, hadds⟩ := h.adds
  exact hadds.holds hb

theorem trans (h : r.Widens r') (h' : r'.Widens r'') : r.Widens r'' := by
  obtain ⟨new, hadds⟩ := h.adds
  obtain ⟨new', hadds'⟩ := h'.adds
  obtain ⟨more, hmore, hnew⟩ := h.pending
  obtain ⟨more', hmore', hnew'⟩ := h'.pending
  refine ⟨⟨_, hadds.trans hadds'⟩, more ++ more', ?_, fun p hp => ?_⟩
  · rw [hmore', hmore, List.append_assoc]
  · rcases List.mem_append.mp hp with hp | hp
    · exact hnew p hp
    · exact h.names_eq ▸ hnew' p hp

end Widens

theorem recordOne_widens (r : Registry) (name key : String) : r.Widens (r.recordOne name key) := by
  refine ⟨⟨_, recordOne_adds r name key⟩, ?_⟩
  by_cases hreg : (r.get? name).isSome
  · exact ⟨[], by simp [recordOne, hreg, modify], nofun⟩
  · refine ⟨[(name, key)], by simp [recordOne, hreg], fun p hp => ?_⟩
    obtain rfl := List.mem_singleton.mp hp
    exact fun hn => hreg (get?_isSome_iff.mpr hn)

theorem record_widens (r : Registry) (name key : String) : r.Widens (r.record name key) := by
  cases hg : r.get? name with
  | none =>
    simp only [record, hg]
    exact .refl r
  | some g =>
    have hone : r.modify name (·.addKey key) = r.recordOne name key := by simp [recordOne, hg]
    have heach : ∀ (ds : List String) (r : Registry),
        r.Widens (ds.foldl (fun r d => r.recordOne d key) r) := by
      intro ds
      induction ds with
      | nil => exact .refl
      | cons d ds ih => exact fun r => (r.recordOne_widens d key).trans (ih _)
    simp only [record, hg, hone]
    exact (r.recordOne_widens name key).trans (heach g.dependencies _)

theorem recordAll_widens (r : Registry) (uses : List GenericBinding) :
    r.Widens (r.recordAll uses) := by
  induction uses generalizing r with
  | nil => exact .refl r
  | cons b uses ih => exact (r.record_widens b.generic b.specialization).trans (ih _)

/-- Uses that are recorded are held, whatever is recorded after them. -/
theorem recordAll_holds (hk : ∀ b ∈ uses, b.generic ∈ r.names) (hb : b ∈ uses) :
    (r.recordAll uses).Holds b := by
  obtain ⟨before, after, rfl⟩ := List.append_of_mem hb
  have hname : b.generic ∈ (r.recordAll before).names :=
    (r.recordAll_names before).symm ▸ hk b hb
  obtain ⟨g, hg⟩ := Option.isSome_iff_exists.mp (get?_isSome_iff.mpr hname)
  rw [recordAll_append]
  exact (recordAll_widens _ after).holds (record_holds hg)

/-- What becomes of a record when its type is bound and `uses` are recorded: one of a generic gets a
use of the generic, and another one keeps what it has. -/
structure Rebinds (r : Registry) (uses : List GenericBinding) (u u' : RecordUse) : Prop where
  tag : u'.tag = u.tag
  isUnion : u'.isUnion = u.isUnion
  binding :
    match (r.forStruct? u.tag).map (·.name) with
    | none => u'.binding = u.binding
    | some name => ∃ key, u'.binding = some ⟨name, key⟩ ∧ ⟨name, key⟩ ∈ uses

theorem Rebinds.mono {u u' : RecordUse} (h : r.Rebinds uses u u') (hsub : uses ⊆ more) :
    r.Rebinds more u u' := by
  refine ⟨h.tag, h.isUnion, ?_⟩
  have hb := h.binding
  split at hb
  · exact hb
  · obtain ⟨key, hkey, hmem⟩ := hb
    exact ⟨key, hkey, hsub hmem⟩

theorem Rebinds.of_recordAll {u u' : RecordUse} (h : (r.recordAll more).Rebinds uses u u') :
    r.Rebinds uses u u' := by
  refine ⟨h.tag, h.isUnion, ?_⟩
  have hb := h.binding
  rwa [forStruct?_name, recordAll_backing, ← forStruct?_name] at hb

/-- What becomes of the records of a type when it is bound, and that its functions have names then. -/
structure Specializes (r : Registry) (uses : List GenericBinding) (before after : List RecordUse)
    (functions : List FunctionUse) : Prop where
  records : List.Forall₂ (r.Rebinds uses) before after
  functions : ∀ f ∈ functions, f.Named

namespace Specializes

variable {before before' after after' : List RecordUse} {functions functions' : List FunctionUse}

theorem nil (r : Registry) : r.Specializes [] [] [] [] :=
  ⟨.nil, nofun⟩

theorem append (h : r.Specializes uses before after functions)
    (h' : (r.recordAll uses).Specializes more before' after' functions') :
    r.Specializes (uses ++ more) (before ++ before') (after ++ after') (functions ++ functions') := by
  constructor
  · have hfront := h.records.imp fun _ _ hu => hu.mono (List.subset_append_left uses more)
    have hback := h'.records.imp fun _ _ hu =>
      hu.of_recordAll.mono (List.subset_append_right uses more)
    exact List.rel_append hfront hback
  · intro f hf
    exact (List.mem_append.mp hf).elim (h.functions f) (h'.functions f)

theorem named {f : FunctionUse} (h : r.Specializes uses before after functions) (hf : f.Named) :
    r.Specializes uses before after (f :: functions) :=
  ⟨h.records, List.forall_mem_cons.mpr ⟨hf, h.functions⟩⟩

end Specializes

end Registry

open Registry (Specializes)
open RegistryM (outcome)

theorem bindRecord_specializes (r : Registry) (source : SourceMap) (sites : List Decl)
    (tag : String) (isUnion : Bool) (binding : Option GenericBinding) :
    Records r (bindRecord source sites tag) fun found uses =>
      r.Specializes uses [⟨tag, isUnion, binding⟩]
        [⟨tag, isUnion, found.orElse fun _ => binding⟩] [] := by
  apply (bindRecord_records r source sites tag).imp
  rintro found _ ⟨rfl, hfound⟩
  refine ⟨.cons ⟨rfl, rfl, ?_⟩ .nil, nofun⟩
  cases found with
  | none =>
    rw [← hfound]
    rfl
  | some b =>
    rw [← hfound]
    exact ⟨b.specialization, rfl, List.mem_singleton.mpr rfl⟩

mutual

theorem CType.specialize_specializes (r : Registry) (source : SourceMap) {sites : List Decl}
    (hs : sites ≠ []) (t : CType) :
    Records r (t.specialize source sites) fun t' uses =>
      t'.unbound = t.unbound ∧ r.Specializes uses t.records t'.records t'.functions := by
  obtain ⟨kind, spelling, isConst⟩ := t
  apply (CKind.specialize_specializes r source hs kind).bind
  rintro kind' uses ⟨hu, hb⟩
  refine .pure ⟨?_, (List.append_nil uses).symm ▸ hb⟩
  rw [CType.unbound, CType.unbound, hu]

theorem CKind.specialize_specializes (r : Registry) (source : SourceMap) {sites : List Decl}
    (hs : sites ≠ []) (kind : CKind) :
    Records r (kind.specialize source sites) fun kind' uses =>
      kind'.unbound = kind.unbound ∧
        r.Specializes uses kind.records kind'.records kind'.functions := by
  cases kind with
  | primitive p => exact .pure ⟨rfl, .nil r⟩
  | array element count => exact .pure ⟨rfl, .nil r⟩
  | pointer pointee =>
    apply (CType.specialize_specializes r source hs pointee).bind
    rintro t uses ⟨hu, hb⟩
    refine .pure ⟨?_, (List.append_nil uses).symm ▸ hb⟩
    rw [CKind.unbound, CKind.unbound, hu]
  | typedef name canonical decl =>
    rw [CKind.specialize_typedef]
    have hsites := List.append_ne_nil_of_left_ne_nil hs (typedefSites canonical decl)
    apply (CType.specialize_specializes r source hsites canonical).bind
    rintro t uses ⟨hu, hb⟩
    refine .pure ⟨?_, (List.append_nil uses).symm ▸ hb⟩
    rw [CKind.unbound, CKind.unbound, hu]
  | record tag isUnion binding =>
    apply (bindRecord_specializes r source sites tag isUnion binding).bind
    intro found uses hb
    exact .pure ⟨rfl, (List.append_nil uses).symm ▸ hb⟩
  | function result args argNames variadic =>
    apply (CType.specialize_specializes r source hs result).bind
    rintro result' uses ⟨hresult, hb⟩
    -- there is a last site, so the arguments are named or there are not as many parameters
    obtain ⟨owner, howner⟩ := Option.ne_none_iff_exists'.mp (mt List.getLast?_eq_none_iff.mp hs)
    simp only [howner]
    by_cases hlen : owner.params.length = args.length
    · simp only [hlen, if_true]
      apply (CType.specializeArgs_specializes _ source args (Nat.le_of_eq hlen.symm)).bind
      rintro args' more ⟨hargs, hbs⟩
      have hnamed : FunctionUse.Named ⟨args'.length, some (owner.params.mapIdx argName)⟩ := by
        have hsame := CType.length_eq_of_unboundList hargs
        simp [FunctionUse.Named, hlen, hsame]
      refine .pure ⟨?_, ?_⟩
      · rw [CKind.unbound, CKind.unbound, hresult, hargs]
      · rw [List.append_nil]
        exact (hb.append hbs).named hnamed
    · simp only [hlen, if_false]
      exact .throw _ _

theorem CType.specializeArgs_specializes (r : Registry) (source : SourceMap) {params : List Decl}
    (ts : List CType) (hlen : ts.length ≤ params.length) :
    Records r (CType.specializeArgs source params ts) fun ts' uses =>
      CType.unboundList ts' = CType.unboundList ts ∧
        r.Specializes uses (CType.recordsList ts) (CType.recordsList ts')
          (CType.functionsList ts') := by
  cases ts with
  | nil => exact .pure ⟨rfl, .nil r⟩
  | cons t ts =>
    cases params with
    | nil => simp at hlen
    | cons p params =>
      apply (CType.specialize_specializes r source (List.cons_ne_nil p []) t).bind
      rintro t' uses ⟨ht, hb⟩
      apply (CType.specializeArgs_specializes _ source ts (Nat.le_of_succ_le_succ hlen)).bind
      rintro ts' more ⟨hts, hbs⟩
      refine .pure ⟨?_, (List.append_nil more).symm ▸ hb.append hbs⟩
      rw [CType.unboundList, CType.unboundList, ht, hts]

end

/-- Binding a type at some declarations. If it succeeds, each record of a generic is bound to an
instance that the registry holds, all other records and the rest of the type are as before, and each
function has a name for each argument. The registry is widened even if it fails. -/
theorem CType.specialize_bound (r : Registry) (source : SourceMap) {sites : List Decl}
    (hs : sites ≠ []) (t : CType) :
    let ended := outcome (t.specialize source sites) r
    (∀ t', ended.1 = .ok t' →
      List.Forall₂ (fun u u' => u'.tag = u.tag ∧ u'.isUnion = u.isUnion ∧
        match r.forStruct? u.tag with
        | none => u'.binding = u.binding
        | some g => ∃ key, u'.binding = some ⟨g.name, key⟩ ∧ ended.2.Holds ⟨g.name, key⟩)
        t.records t'.records ∧
      (∀ f ∈ t'.functions, f.Named) ∧ t'.unbound = t.unbound) ∧
    r.Widens ended.2 := by
  intro ended
  obtain ⟨uses, hr, hk, hb⟩ := t.specialize_specializes r source hs
  have hrecorded : ended.2 = r.recordAll uses := hr
  rw [hrecorded]
  refine ⟨fun t' ht' => ?_, r.recordAll_widens uses⟩
  obtain ⟨hu, hs⟩ := hb t' ht'
  refine ⟨hs.records.imp fun u u' h => ⟨h.tag, h.isUnion, ?_⟩, hs.functions, hu⟩
  have hbinding := h.binding
  cases hg : r.forStruct? u.tag with
  | none =>
    rw [hg] at hbinding
    exact hbinding
  | some g =>
    rw [hg] at hbinding
    obtain ⟨key, hkey, hmem⟩ := hbinding
    exact ⟨key, hkey, Registry.recordAll_holds hk hmem⟩

def visitSource : SourceMap :=
  ⟨[("visit.h", "typedef List /*<int *>*/ *(*Visit)(int depth, int);\nVisit visit;\n")]⟩

def typedefAt (name : String) (location : Location) : Decl :=
  Decl.bare .typedef name location

def visitTypedef : Decl :=
  { typedefAt "Visit" ⟨"visit.h", 1, 29, 28⟩ with
    typeStart := some ⟨"visit.h", 1, 1, 0⟩
    children := [
      Decl.bare .parameter "depth" ⟨"visit.h", 1, 40, 39⟩,
      Decl.bare .parameter "" ⟨"visit.h", 1, 50, 49⟩] }

def visitField : Decl :=
  { Decl.bare .field "visit" ⟨"visit.h", 2, 7, 58⟩ with typeStart := some ⟨"visit.h", 2, 1, 52⟩ }

/-- A typedef of a pointer to a function that gives a pointer to a list. -/
def visitType : CType :=
  let int := ⟨.primitive .int, "int", false⟩
  let list := ⟨.pointer ⟨.record "list" false none, "struct list", false⟩, "List *", false⟩
  let visit := ⟨.function list [int, int] none false, "List *(int, int)", false⟩
  let pointer := ⟨.pointer visit, "List *(*)(int, int)", false⟩
  ⟨.typedef visitTypedef.name pointer (some visitTypedef), "Visit", false⟩

def listRegistry : Registry :=
  ⟨[Generic.bare "Iter" "iter" .required [], Generic.bare "List" "list" .required ["Iter"]], []⟩

/-- The comment in the typedef says which instance its function gives. -/
theorem visit_bound :
    let ended := outcome (visitType.specialize visitSource [visitField]) listRegistry
    [visitField] ≠ [] ∧ ∃ t', ended.1 = .ok t' ∧
      t'.records = [⟨"list", false, some ⟨"List", "int"⟩⟩] ∧ ended.2.Holds ⟨"List", "int"⟩ ∧
      t'.functions = [⟨2, some ["depth", "arg1"]⟩] ∧ t'.unbound = visitType.unbound := by
  intro ended
  have hs : [visitField] ≠ [] := List.cons_ne_nil _ _
  obtain ⟨hok, -⟩ := visitType.specialize_bound listRegistry visitSource hs
  have hfound : ended.1.toOption.map (fun t' => (t'.records, t'.functions)) =
      some ([⟨"list", false, some ⟨"List", "int"⟩⟩], [⟨2, some ["depth", "arg1"]⟩]) := by
    decide +kernel
  cases hended : ended.1 with
  | error e =>
    rw [hended] at hfound
    cases hfound
  | ok t' =>
    rw [hended] at hfound
    obtain ⟨hrecords, hfunctions⟩ := Prod.mk.inj (Option.some.inj hfound)
    obtain ⟨hall, -, hunbound⟩ := hok t' hended
    refine ⟨hs, t', rfl, hrecords, ?_, hfunctions, hunbound⟩
    rw [hrecords] at hall
    obtain ⟨-, -, hbinding⟩ := (List.forall₂_cons.mp hall).1
    obtain ⟨key, hkey, hholds⟩ := hbinding
    cases hkey
    exact hholds

end Bindery
