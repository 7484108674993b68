import Mathlib.Data.List.Nodup
import Mathlib.Tactic.Tauto
import Bindery.Generic.Registry

/-! Which keys a registry holds: those of a generic and those of the generics that depend on it. -/

namespace Bindery

theorem mem_insertName {name other : String} {names : List String} :
    other ∈ insertName name names ↔ other = name ∨ other ∈ names := by
  induction names with
  | nil => simp [insertName]
  | cons n ns ih =>
    by_cases hlt : name < n
    · simp [insertName, hlt]
    · by_cases heq : name = n
      · subst heq
        simp [insertName]
      · simp only [insertName, hlt, if_false, beq_eq_false_iff_ne.mpr heq, Bool.false_eq_true,
          List.mem_cons, ih]
        tauto

theorem mem_nameSet {name : String} {names : List String} : name ∈ nameSet names ↔ name ∈ names := by
  have hfold : ∀ set, name ∈ names.foldl (fun set n => insertName n set) set ↔
      name ∈ set ∨ name ∈ names := by
    induction names with
    | nil => simp
    | cons n names ih =>
      intro set
      rw [List.foldl_cons, ih, mem_insertName, List.mem_cons]
      tauto
  exact (hfold []).trans (by simp)

namespace Generic

def withKeys (g : Generic) (keys : List String) : Generic :=
  { g with specializations := keys }

theorem mem_addKeys {g : Generic} {keys : List String} {k : String} :
    k ∈ (keys.foldl (fun g key => g.addKey key) g).specializations ↔
      k ∈ g.specializations ∨ k ∈ keys := by
  induction keys generalizing g with
  | nil => simp
  | cons key keys ih =>
    rw [List.foldl_cons, ih]
    simp only [addKey, mem_insertName, List.mem_cons]
    tauto

theorem addKeys_eq_withKeys (g : Generic) (keys : List String) :
    keys.foldl (fun g key => g.addKey key) g =
      g.withKeys (keys.foldl (fun g key => g.addKey key) g).specializations := by
  induction keys generalizing g with
  | nil => rfl
  | cons key keys ih => exact ih (g.addKey key)

end Generic

namespace Registry

def names (r : Registry) : List String :=
  r.generics.map (·.name)

theorem get?_isSome_iff {r : Registry} {n : String} : (r.get? n).isSome ↔ n ∈ r.names := by
  simp [get?, names]

theorem not_mem_names {r : Registry} {n : String} : n ∉ r.names ↔ ∀ g ∈ r.generics, g.name ≠ n := by
  simp [names]

theorem get?_name {r : Registry} {n : String} {g : Generic} (h : r.get? n = some g) :
    g ∈ r.generics ∧ g.name = n :=
  ⟨List.mem_of_find?_eq_some h, by simpa using List.find?_some h⟩

/-- One registry comes from another by adding the keys that `new` says, by name of the generic.
Keys of names that are not registered are pending. -/
structure Adds (r r' : Registry) (new : String → String → Prop) : Prop where
  generics : ∃ keys : Generic → List String,
    r'.generics = r.generics.map (fun g => g.withKeys (keys g)) ∧
      ∀ g ∈ r.generics, ∀ k, k ∈ keys g ↔ k ∈ g.specializations ∨ new g.name k
  pending : ∀ n, n ∉ r.names → ∀ k, (n, k) ∈ r'.pending ↔ (n, k) ∈ r.pending ∨ new n k

theorem Adds.names_eq {r r' : Registry} {new : String → String → Prop} (h : r.Adds r' new) :
    r'.names = r.names := by
  obtain ⟨keys, hk, _⟩ := h.generics
  simp only [names, hk, List.map_map]
  rfl

theorem Adds.refl (r : Registry) : r.Adds r (fun _ _ => False) :=
  ⟨⟨(·.specializations), by simp [Generic.withKeys], by simp⟩, by simp⟩

theorem Adds.congr {r r' : Registry} {new new' : String → String → Prop} (h : r.Adds r' new)
    (hn : ∀ n k, new n k ↔ new' n k) : r.Adds r' new' := by
  obtain rfl : new = new' := funext fun n => funext fun k => propext (hn n k)
  exact h

theorem Adds.trans {r r' r'' : Registry} {new new' : String → String → Prop}
    (h : r.Adds r' new) (h' : r'.Adds r'' new') :
    r.Adds r'' (fun n k => new n k ∨ new' n k) := by
  constructor
  · obtain ⟨keys, hg, hk⟩ := h.generics
    obtain ⟨keys', hg', hk'⟩ := h'.generics
    refine ⟨fun g => keys' (g.withKeys (keys g)), ?_, ?_⟩
    · rw [hg', hg, List.map_map]
      rfl
    · intro g hm k
      have hm' : g.withKeys (keys g) ∈ r'.generics := hg ▸ List.mem_map_of_mem hm
      rw [hk' _ hm', ← or_assoc, ← hk g hm]
      rfl
  · intro n hn k
    rw [h'.pending n (h.names_eq ▸ hn), h.pending n hn, or_assoc]

theorem recordOne_adds (r : Registry) (name key : String) :
    r.Adds (r.recordOne name key) (fun n k => n = name ∧ k = key) := by
  by_cases hreg : (r.get? name).isSome
  · constructor
    · refine ⟨fun g => if g.name == name then insertName key g.specializations
        else g.specializations, ?_, ?_⟩
      · simp only [recordOne, hreg, if_true, modify]
        apply List.map_congr_left
        intro g _
        split <;> rfl
      · intro g _ k
        by_cases hn : g.name = name
        · simp only [hn, beq_self_eq_true, if_true, mem_insertName, true_and]
          tauto
        · simp [hn]
    · intro n hn k
      have hne : n ≠ name := fun he => hn (he ▸ get?_isSome_iff.mp hreg)
      simp [recordOne, hreg, modify, hne]
  · -- the key becomes pending, and no registered generic changes
    have hno : name ∉ r.names := fun hm => hreg (get?_isSome_iff.mpr hm)
    constructor
    · refine ⟨(·.specializations), by simp [recordOne, hreg, Generic.withKeys], ?_⟩
      intro g hg k
      have hne : g.name ≠ name := fun he => hno (he ▸ List.mem_map_of_mem hg)
      simp [hne]
    · intro n _ k
      simp [recordOne, hreg]

theorem recordEach_adds (ds : List String) (key : String) (r : Registry) :
    r.Adds (ds.foldl (fun r d => r.recordOne d key) r) (fun n k => n ∈ ds ∧ k = key) := by
  induction ds generalizing r with
  | nil => exact (Adds.refl r).congr (by simp)
  | cons d ds ih =>
    apply ((r.recordOne_adds d key).trans (ih (r.recordOne d key))).congr
    intro n k
    simp only [List.mem_cons]
    tauto

theorem record_adds {r : Registry} {name : String} (key : String) {g : Generic}
    (h : r.get? name = some g) :
    r.Adds (r.record name key) (fun n k => (n = name ∨ n ∈ g.dependencies) ∧ k = key) := by
  have hone : r.modify name (·.addKey key) = r.recordOne name key := by simp [recordOne, h]
  simp only [record, h, hone]
  apply ((r.recordOne_adds name key).trans (recordEach_adds _ key _)).congr
  intro n k
  tauto

/-- Whether uses `used` put the key `k` under the name `n`: a use of the name itself, or a use of a
registered generic that lists the name as a dependency. -/
def Owes (r : Registry) (used : List GenericBinding) (n k : String) : Prop :=
  ⟨n, k⟩ ∈ used ∨ ∃ h ∈ r.generics, n ∈ h.dependencies ∧ ⟨h.name, k⟩ ∈ used

/-- The registry holds the keys that the recorded uses put there, and no others. -/
structure Exact (r : Registry) (used : List GenericBinding) : Prop where
  nodup : r.names.Nodup
  known : ∀ b ∈ used, b.generic ∈ r.names
  keys : ∀ g ∈ r.generics, ∀ k, k ∈ g.specializations ↔ r.Owes used g.name k
  pending : ∀ n, n ∉ r.names → ∀ k, (n, k) ∈ r.pending ↔ r.Owes used n k

theorem Exact.empty : Exact {} [] :=
  ⟨List.nodup_nil, by simp, by simp, by simp [Owes]⟩

theorem eq_of_name_eq {r : Registry} (hnd : r.names.Nodup) {g h : Generic}
    (hg : g ∈ r.generics) (hh : h ∈ r.generics) (hn : g.name = h.name) : g = h :=
  List.inj_on_of_nodup_map hnd hg hh hn

theorem get?_of_mem {r : Registry} (hnd : r.names.Nodup) {g : Generic} (hg : g ∈ r.generics) :
    r.get? g.name = some g := by
  obtain ⟨h, hh⟩ := Option.isSome_iff_exists.mp (get?_isSome_iff.mpr (List.mem_map_of_mem hg))
  obtain ⟨hmem, hname⟩ := get?_name hh
  rw [hh, eq_of_name_eq hnd hmem hg hname]

/-- Adding keys changes no dependencies, so it changes what is owed only through the uses. -/
theorem Adds.owes_iff {r r' : Registry} {new : String → String → Prop} (h : r.Adds r' new)
    (used : List GenericBinding) (n k : String) : r'.Owes used n k ↔ r.Owes used n k := by
  obtain ⟨keys, hg, _⟩ := h.generics
  simp [Owes, hg, Generic.withKeys]

theorem owes_cons_iff {r : Registry} (hnd : r.names.Nodup) {b : GenericBinding} {g : Generic}
    (hg : r.get? b.generic = some g) (used : List GenericBinding) (n k : String) :
    r.Owes (b :: used) n k ↔
      r.Owes used n k ∨ ((n = b.generic ∨ n ∈ g.dependencies) ∧ k = b.specialization) := by
  obtain ⟨hmem, hname⟩ := get?_name hg
  obtain ⟨bg, bk⟩ := b
  constructor
  · rintro (h | ⟨h, hh, hd, hu⟩)
    · rcases List.mem_cons.mp h with he | hu
      · obtain ⟨rfl, rfl⟩ := GenericBinding.mk.inj he
        exact .inr ⟨.inl rfl, rfl⟩
      · exact .inl (.inl hu)
    · rcases List.mem_cons.mp hu with he | hu
      · obtain ⟨hn, rfl⟩ := GenericBinding.mk.inj he
        obtain rfl := eq_of_name_eq hnd hh hmem (hn.trans hname.symm)
        exact .inr ⟨.inr hd, rfl⟩
      · exact .inl (.inr ⟨h, hh, hd, hu⟩)
  · rintro ((hu | ⟨h, hh, hd, hu⟩) | ⟨rfl | hd, rfl⟩)
    · exact .inl (List.mem_cons_of_mem _ hu)
    · exact .inr ⟨h, hh, hd, List.mem_cons_of_mem _ hu⟩
    · exact .inl List.mem_cons_self
    · exact .inr ⟨g, hmem, hd, by simp [hname]⟩

/-- Recording a use of a registered generic keeps the registry exact. -/
theorem Exact.record {r : Registry} {used : List GenericBinding} (he : r.Exact used)
    {b : GenericBinding} (hb : b.generic ∈ r.names) :
    (r.record b.generic b.specialization).Exact (b :: used) := by
  obtain ⟨g, hg⟩ := Option.isSome_iff_exists.mp (get?_isSome_iff.mpr hb)
  have hadds := record_adds b.specialization hg
  have howes := owes_cons_iff he.nodup hg used
  constructor
  · rw [hadds.names_eq]
    exact he.nodup
  · intro b' hb'
    rw [hadds.names_eq]
    rcases List.mem_cons.mp hb' with rfl | hu
    · exact hb
    · exact he.known b' hu
  · intro g' hg' k
    rw [hadds.owes_iff, howes]
    obtain ⟨keys, hgs, hk⟩ := hadds.generics
    rw [hgs] at hg'
    obtain ⟨g₀, hm, rfl⟩ := List.mem_map.mp hg'
    exact (hk g₀ hm k).trans (or_congr_left (he.keys g₀ hm k))
  · intro n hn k
    rw [hadds.names_eq] at hn
    rw [hadds.owes_iff, howes, hadds.pending n hn, he.pending n hn]

/-- A generic that nothing recorded owes no keys to its dependencies. -/
theorem owes_append_iff {r : Registry} {used : List GenericBinding}
    (hk : ∀ b ∈ used, b.generic ∈ r.names) {g : Generic} (hno : g.name ∉ r.names)
    (pending : List (String × String)) (n k : String) :
    Owes ⟨r.generics ++ [g], pending⟩ used n k ↔ r.Owes used n k := by
  have hg : ⟨g.name, k⟩ ∉ used := fun hu => hno (hk _ hu)
  simp [Owes, or_and_right, exists_or, hg]

/-- What a registration does: the generic comes last, with the keys that were pending for it. -/
theorem register_ok {r r' : Registry} {g : Generic} (h : r.register g = .ok r') :
    g.name ∉ r.names ∧ ∃ keys,
      (∀ k, k ∈ keys ↔ k ∈ g.specializations ∨ (g.name, k) ∈ r.pending) ∧
      r' = ⟨r.generics ++ [g.withKeys keys], r.pending.filter (·.1 != g.name)⟩ := by
  unfold register at h
  split at h
  · simp at h
  · next hno =>
    refine ⟨fun hm => hno (get?_isSome_iff.mpr hm), _, fun k => ?_,
      (Except.ok.inj h).symm.trans (by rw [Generic.addKeys_eq_withKeys])⟩
    simp [Generic.mem_addKeys]

/-- Registering a generic keeps the registry exact: what was pending for it becomes its keys. -/
theorem Exact.register {r r' : Registry} {used : List GenericBinding} (he : r.Exact used)
    {g : Generic} (hnew : g.specializations = []) (hr : r.register g = .ok r') :
    r'.Exact used := by
  obtain ⟨hno, keys, hkeys, rfl⟩ := register_ok hr
  have howes := owes_append_iff he.known (g := g.withKeys keys) hno
  have hsub : ∀ n ∈ r.names, n ∈ names ⟨r.generics ++ [g.withKeys keys],
      r.pending.filter (·.1 != g.name)⟩ := by
    intro n hn
    simp only [names, List.map_append, List.mem_append]
    exact .inl hn
  constructor
  · simpa [names, List.nodup_append, Generic.withKeys] using ⟨he.nodup, not_mem_names.mp hno⟩
  · exact fun b hb => hsub _ (he.known b hb)
  · intro h hh k
    rw [howes]
    rcases List.mem_append.mp hh with hh | hh
    · exact he.keys h hh k
    · -- the new generic has no keys but those that were pending for it
      obtain rfl := List.mem_singleton.mp hh
      exact ((hkeys k).trans (by simp [hnew])).trans (he.pending _ hno k)
  · intro n hn k
    have hne : n ≠ g.name := by
      rintro rfl
      exact hn (List.mem_map.mpr ⟨g.withKeys keys, by simp, rfl⟩)
    rw [howes, ← he.pending n (fun hm => hn (hsub n hm))]
    simp [hne]

/-- Changes of generics that leave names, dependencies and keys alone keep the registry exact. -/
theorem Exact.map {r : Registry} {used : List GenericBinding} (he : r.Exact used)
    {f : Generic → Generic} (hf : ∀ g ∈ r.generics, (f g).name = g.name ∧
      (f g).dependencies = g.dependencies ∧ (f g).specializations = g.specializations) :
    Exact { r with generics := r.generics.map f } used := by
  have hnames : names { r with generics := r.generics.map f } = r.names := by
    simp only [names, List.map_map]
    exact List.map_congr_left fun g hg => (hf g hg).1
  have howes : ∀ n k, Owes { r with generics := r.generics.map f } used n k ↔ r.Owes used n k := by
    intro n k
    simp only [Owes, List.mem_map, exists_exists_and_eq_and]
    refine or_congr_right (exists_congr fun g => and_congr_right fun hg => ?_)
    rw [(hf g hg).1, (hf g hg).2.1]
  constructor
  · exact hnames ▸ he.nodup
  · exact hnames ▸ he.known
  · intro g' hg' k
    obtain ⟨g, hg, rfl⟩ := List.mem_map.mp hg'
    rw [howes, (hf g hg).1, (hf g hg).2.2]
    exact he.keys g hg k
  · intro n hn k
    rw [howes]
    exact he.pending n (hnames ▸ hn) k

/-- Records uses one after the other. -/
def recordAll (r : Registry) (uses : List GenericBinding) : Registry :=
  uses.foldl (fun r b => r.record b.generic b.specialization) r

theorem recordAll_append (r : Registry) (uses more : List GenericBinding) :
    r.recordAll (uses ++ more) = (r.recordAll uses).recordAll more :=
  List.foldl_append

theorem record_names (r : Registry) (name key : String) : (r.record name key).names = r.names := by
  cases h : r.get? name with
  | none => simp [record, h]
  | some g => exact (record_adds key h).names_eq

/-- Recording changes nothing of the generics but their keys. -/
theorem recordAll_map {α : Type} (r : Registry) (uses : List GenericBinding) (part : Generic → α)
    (hpart : ∀ g keys, part (g.withKeys keys) = part g) :
    (r.recordAll uses).generics.map part = r.generics.map part := by
  induction uses generalizing r with
  | nil => rfl
  | cons b uses ih =>
    have hone : (r.record b.generic b.specialization).generics.map part =
        r.generics.map part := by
      cases h : r.get? b.generic with
      | none => simp [record, h]
      | some g =>
        obtain ⟨keys, hk, _⟩ := (record_adds b.specialization h).generics
        simp [hk, hpart]
    exact (ih _).trans hone

theorem recordAll_names (r : Registry) (uses : List GenericBinding) :
    (r.recordAll uses).names = r.names :=
  r.recordAll_map uses _ fun _ _ => rfl

/-- The structs behind the generics. -/
def structs (r : Registry) : List String :=
  r.generics.map (·.structName)

theorem forStruct?_isSome_iff {r : Registry} {tag : String} :
    (r.forStruct? tag).isSome ↔ tag ∈ r.structs := by
  simp [forStruct?, structs]

theorem recordAll_structs (r : Registry) (uses : List GenericBinding) :
    (r.recordAll uses).structs = r.structs :=
  r.recordAll_map uses _ fun _ _ => rfl

theorem Exact.recordAll {r : Registry} {used uses : List GenericBinding} (he : r.Exact used)
    (hu : ∀ b ∈ uses, b.generic ∈ r.names) : (r.recordAll uses).Exact (uses.reverse ++ used) := by
  induction uses generalizing r used with
  | nil => exact he
  | cons b uses ih =>
    have hh := ih (he.record (hu b List.mem_cons_self))
      (fun b' hb' => by rw [record_names]; exact hu b' (List.mem_cons_of_mem _ hb'))
    simpa [Registry.recordAll] using hh

end Registry

end Bindery
