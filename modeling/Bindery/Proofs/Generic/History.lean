import Mathlib
import Bindery.Proofs.Generic.Record

/-! The keys of a registry after any calls, told from the calls alone. -/

namespace Bindery.Registry

inductive Call where
  | register (g : Generic)
  | record (name key : String)

/-- A registration that is refused changes nothing. -/
def call (r : Registry) : Call → Registry
  | .register g =>
    match r.register g with
    | .ok r' => r'
    | .error _ => r
  | .record name key => r.record name key

def run (calls : List Call) : Registry :=
  calls.foldl call {}

theorem run_snoc (calls : List Call) (c : Call) : run (calls ++ [c]) = (run calls).call c :=
  List.foldl_append

/-- The first call that registers the name of the generic registers the generic. -/
def Enters (calls : List Call) (g : Generic) : Prop :=
  ∃ before after, calls = before ++ .register g :: after ∧
    ∀ h, .register h ∈ before → h.name ≠ g.name

/-- The key is recorded for the generic after it was registered. -/
def Recorded (calls : List Call) (g : Generic) (k : String) : Prop :=
  ∃ before after, calls = before ++ .record g.name k :: after ∧ Enters before g

/-- The generic comes with the key, or it is recorded for the generic or for one that lists the
generic as a dependency. -/
def Gets (calls : List Call) (g : Generic) (k : String) : Prop :=
  k ∈ g.specializations ∨ Recorded calls g k ∨ ∃ h, Recorded calls h k ∧ g.name ∈ h.dependencies

theorem exists_split_snoc {α : Type} {P : List α → Prop} {xs : List α} {x c : α} :
    (∃ before after, xs ++ [c] = before ++ x :: after ∧ P before) ↔
      (∃ before after, xs = before ++ x :: after ∧ P before) ∨ (c = x ∧ P xs) := by
  constructor
  · rintro ⟨before, after, he, hp⟩
    rcases List.eq_nil_or_concat after with rfl | ⟨after, y, rfl⟩
    · obtain ⟨rfl, hc⟩ := List.append_inj' he rfl
      exact .inr ⟨List.singleton_inj.mp hc, hp⟩
    · have he : xs ++ [c] = (before ++ x :: after) ++ [y] := by simpa using he
      obtain ⟨rfl, -⟩ := List.append_inj' he rfl
      exact .inl ⟨before, after, rfl, hp⟩
  · rintro (⟨before, after, rfl, hp⟩ | ⟨rfl, hp⟩)
    · exact ⟨before, after ++ [c], by simp, hp⟩
    · exact ⟨xs, [], rfl, hp⟩

variable {calls before after : List Call} {c : Call} {g h d : Generic} {n k : String}

theorem enters_snoc : Enters (calls ++ [c]) g ↔
    Enters calls g ∨ (c = .register g ∧ ∀ h, .register h ∈ calls → h.name ≠ g.name) :=
  exists_split_snoc

theorem recorded_snoc :
    Recorded (calls ++ [c]) g k ↔ Recorded calls g k ∨ (c = .record g.name k ∧ Enters calls g) :=
  exists_split_snoc

theorem not_enters_nil : ¬ Enters [] g := by
  rintro ⟨before, after, he, -⟩
  cases before <;> cases he

theorem not_recorded_nil : ¬ Recorded [] g k := by
  rintro ⟨before, after, he, -⟩
  cases before <;> cases he

theorem Enters.mem (hg : Enters calls g) : .register g ∈ calls := by
  obtain ⟨before, after, rfl, -⟩ := hg
  simp

theorem Recorded.enters (hk : Recorded calls g k) : Enters calls g := by
  obtain ⟨before, after, rfl, front, back, rfl, hnew⟩ := hk
  exact ⟨front, back ++ .record g.name k :: after, by simp, hnew⟩

theorem enters_unique (hg : Enters calls g) (hh : Enters calls h) (hn : g.name = h.name) : g = h := by
  induction calls using List.reverseRecOn with
  | nil => exact absurd hg not_enters_nil
  | append_singleton calls c ih =>
    rcases enters_snoc.mp hg with hg | ⟨rfl, hnew⟩ <;> rcases enters_snoc.mp hh with hh | ⟨hc, hnew'⟩
    · exact ih hg hh
    · exact absurd hn (hnew' g hg.mem)
    · exact absurd hn.symm (hnew h hh.mem)
    · exact Call.register.inj hc

theorem gets_snoc_iff {P : Prop} (hk : Recorded (calls ++ [c]) g k ↔ Recorded calls g k ∨ P)
    {Q : Generic → Prop} (hd : ∀ h, Recorded (calls ++ [c]) h k ↔ Recorded calls h k ∨ Q h) :
    Gets (calls ++ [c]) g k ↔ Gets calls g k ∨ P ∨ ∃ h, Q h ∧ g.name ∈ h.dependencies := by
  simp only [Gets, hk, hd, or_and_right, exists_or]
  exact iff_of_eq (by ac_rfl)

/-- The registry is what the calls make of it. -/
structure Reflects (calls : List Call) (r : Registry) : Prop where
  nodup : r.names.Nodup
  registered : ∀ g, .register g ∈ calls → g.name ∈ r.names
  keys : ∀ g' ∈ r.generics, ∃ g, Enters calls g ∧ g.name = g'.name ∧
    g.dependencies = g'.dependencies ∧ ∀ k, k ∈ g'.specializations ↔ Gets calls g k
  pending : ∀ n, n ∉ r.names → ∀ k,
    (n, k) ∈ r.pending ↔ ∃ h, Recorded calls h k ∧ n ∈ h.dependencies

namespace Reflects

variable {r r' : Registry}

theorem start : Reflects [] {} :=
  ⟨List.nodup_nil, nofun, nofun, by simp [not_recorded_nil]⟩

theorem mem_names (hr : Reflects calls r) (hg : Enters calls g) : g.name ∈ r.names :=
  hr.registered g hg.mem

/-- A call that adds no key and no generic. -/
theorem ignore (hr : Reflects calls r) (henters : ∀ g, Enters (calls ++ [c]) g ↔ Enters calls g)
    (hrecorded : ∀ g k, Recorded (calls ++ [c]) g k ↔ Recorded calls g k)
    (hnew : ∀ g, c = .register g → g.name ∈ r.names) : Reflects (calls ++ [c]) r := by
  refine ⟨hr.nodup, fun g hg => ?_, fun g' hg' => ?_, fun n hn k => ?_⟩
  · rcases List.mem_append.mp hg with hg | hg
    · exact hr.registered g hg
    · exact hnew g (List.mem_singleton.mp hg).symm
  · obtain ⟨g, hg, hname, hdeps, hk⟩ := hr.keys g' hg'
    refine ⟨g, (henters g).mpr hg, hname, hdeps, fun k => ?_⟩
    simp only [hk, Gets, hrecorded]
  · simp only [hr.pending n hn, hrecorded]

theorem record_missing (hr : Reflects calls r) (hn : n ∉ r.names) :
    Reflects (calls ++ [.record n k]) r := by
  refine hr.ignore (fun g => ?_) (fun g k' => ?_) nofun
  · simp [enters_snoc]
  · rw [recorded_snoc]
    refine or_iff_left ?_
    rintro ⟨hc, hg⟩
    obtain ⟨rfl, -⟩ := Call.record.inj hc
    exact hn (hr.mem_names hg)

theorem record_found (hr : Reflects calls r) (hg' : r.get? n = some h) :
    Reflects (calls ++ [.record n k]) (r.record n k) := by
  have hadds := record_adds k hg'
  obtain ⟨hmem, rfl⟩ := get?_name hg'
  obtain ⟨g, hg, hname, hdeps, -⟩ := hr.keys h hmem
  have hrecorded : ∀ g₁ k₁, Recorded (calls ++ [.record h.name k]) g₁ k₁ ↔
      Recorded calls g₁ k₁ ∨ (g₁ = g ∧ k₁ = k) := by
    intro g₁ k₁
    rw [recorded_snoc]
    refine or_congr_right ⟨fun ⟨hc, hg₁⟩ => ?_, ?_⟩
    · obtain ⟨hn, rfl⟩ := Call.record.inj hc
      exact ⟨enters_unique hg₁ hg (hn.symm.trans hname.symm), rfl⟩
    · rintro ⟨rfl, rfl⟩
      exact ⟨by rw [hname], hg⟩
  refine ⟨?_, fun g₁ hg₁ => ?_, fun g' hg' => ?_, fun n hn k₁ => ?_⟩
  · rw [hadds.names_eq]
    exact hr.nodup
  · rw [hadds.names_eq]
    exact hr.registered g₁ (by simpa using hg₁)
  · obtain ⟨keys, hgs, hkeys⟩ := hadds.generics
    rw [hgs] at hg'
    obtain ⟨g₀, hmem₀, rfl⟩ := List.mem_map.mp hg'
    obtain ⟨g₁, hg₁, hname₁, hdeps₁, hk₁⟩ := hr.keys g₀ hmem₀
    refine ⟨g₁, enters_snoc.mpr (.inl hg₁), hname₁, hdeps₁, fun k₁ => ?_⟩
    have hself : g₁ = g ↔ g₀.name = h.name := by
      rw [← hname₁, ← hname]
      exact ⟨fun he => he ▸ rfl, enters_unique hg₁ hg⟩
    calc k₁ ∈ keys g₀
        ↔ Gets calls g₁ k₁ ∨ ((g₀.name = h.name ∨ g₀.name ∈ h.dependencies) ∧ k₁ = k) := by
          rw [hkeys g₀ hmem₀, hk₁]
      _ ↔ Gets calls g₁ k₁ ∨ (g₁ = g ∧ k₁ = k) ∨
            ∃ g₂, (g₂ = g ∧ k₁ = k) ∧ g₁.name ∈ g₂.dependencies := by
          simp only [and_assoc, exists_eq_left, hself, hname₁, hdeps]
          tauto
      _ ↔ Gets (calls ++ [.record h.name k]) g₁ k₁ :=
          (gets_snoc_iff (hrecorded g₁ k₁) fun g₂ => hrecorded g₂ k₁).symm
  · rw [hadds.names_eq] at hn
    have hne : n ≠ h.name := fun he => hn (he ▸ List.mem_map_of_mem hmem)
    rw [hadds.pending n hn, hr.pending n hn]
    simp only [hrecorded, or_and_right, exists_or, and_assoc, exists_eq_left, hne, false_or, hdeps,
      and_comm (a := k₁ = k)]

theorem register_refused (hr : Reflects calls r) (hn : g.name ∈ r.names) :
    Reflects (calls ++ [.register g]) r := by
  refine hr.ignore (fun g₁ => ?_) (fun g₁ k => ?_) ?_
  · rw [enters_snoc]
    refine or_iff_left ?_
    rintro ⟨hc, hnew⟩
    obtain rfl := Call.register.inj hc
    obtain ⟨g', hg', hname⟩ := List.mem_map.mp hn
    obtain ⟨g₀, hg₀, hname₀, -⟩ := hr.keys g' hg'
    exact hnew g₀ hg₀.mem (hname₀.trans hname)
  · simp [recorded_snoc]
  · rintro g₁ hc
    obtain rfl := Call.register.inj hc
    exact hn

theorem register_done (hr : Reflects calls r) (hok : r.register g = .ok r') :
    Reflects (calls ++ [.register g]) r' := by
  obtain ⟨hno, keys, hkeys, rfl⟩ := register_ok hok
  have henters : ∀ g₁, Enters (calls ++ [.register g]) g₁ ↔ Enters calls g₁ ∨ g₁ = g := by
    intro g₁
    rw [enters_snoc]
    refine or_congr_right ⟨fun ⟨hc, _⟩ => (Call.register.inj hc).symm, ?_⟩
    rintro rfl
    exact ⟨rfl, fun h hh he => hno (he ▸ hr.registered h hh)⟩
  have hrecorded : ∀ g₁ k, Recorded (calls ++ [.register g]) g₁ k ↔ Recorded calls g₁ k := by
    intro g₁ k
    simp [recorded_snoc]
  have hnames : names ⟨r.generics ++ [g.withKeys keys], r.pending.filter (·.1 != g.name)⟩ =
      r.names ++ [g.name] := by
    simp [names, Generic.withKeys]
  constructor
  · rw [hnames]
    exact hr.nodup.append (List.nodup_singleton _) (by simpa using hno)
  · intro g₁ hg₁
    rw [hnames]
    rcases List.mem_append.mp hg₁ with hg₁ | hg₁
    · exact List.mem_append_left _ (hr.registered g₁ hg₁)
    · obtain rfl := Call.register.inj (List.mem_singleton.mp hg₁)
      exact List.mem_append_right _ (.head _)
  · intro g' hg'
    rcases List.mem_append.mp hg' with hg' | hg'
    · obtain ⟨g₁, hg₁, hname, hdeps, hk⟩ := hr.keys g' hg'
      refine ⟨g₁, (henters g₁).mpr (.inl hg₁), hname, hdeps, fun k => ?_⟩
      simp only [hk, Gets, hrecorded]
    · -- no key was recorded for the new generic itself
      obtain rfl := List.mem_singleton.mp hg'
      refine ⟨g, (henters g).mpr (.inr rfl), rfl, rfl, fun k => ?_⟩
      have hown : ¬ Recorded calls g k := fun hk => hno (hr.mem_names hk.enters)
      calc k ∈ keys ↔ k ∈ g.specializations ∨ ∃ h, Recorded calls h k ∧ g.name ∈ h.dependencies := by
            rw [hkeys, hr.pending _ hno]
        _ ↔ Gets (calls ++ [.register g]) g k := by
            simp only [Gets, hrecorded, hown, false_or]
  · intro n hn k
    rw [hnames, List.mem_append, List.mem_singleton, not_or] at hn
    simp only [List.mem_filter, hr.pending n hn.1, hrecorded]
    simp [hn.2]

theorem call (hr : Reflects calls r) (c : Call) : Reflects (calls ++ [c]) (r.call c) := by
  cases c with
  | register g =>
    cases hok : r.register g with
    | ok r' =>
      simp only [Registry.call, hok]
      exact hr.register_done hok
    | error e =>
      simp only [Registry.call, hok]
      refine hr.register_refused (get?_isSome_iff.mp ?_)
      by_contra hno
      simp [register, hno] at hok
  | record n k =>
    cases hg : r.get? n with
    | none =>
      have hsame : r.record n k = r := by simp [record, hg]
      rw [Registry.call, hsame]
      refine hr.record_missing fun hn => ?_
      rw [← get?_isSome_iff, hg] at hn
      cases hn
    | some h => exact hr.record_found hg

end Reflects

theorem run_reflects (calls : List Call) : Reflects calls (run calls) := by
  induction calls using List.reverseRecOn with
  | nil => exact .start
  | append_singleton calls c ih =>
    rw [run_snoc]
    exact ih.call c

/-- The keys of a registered generic as a set. -/
def keySet? (r : Registry) (n : String) : Option (Finset String) :=
  (r.get? n).map (·.specializations.toFinset)

namespace Reflects

variable {r r' : Registry}

theorem mem_names_iff (hr : Reflects calls r) : n ∈ r.names ↔ ∃ g, Enters calls g ∧ g.name = n := by
  constructor
  · intro hn
    obtain ⟨g', hg', rfl⟩ := List.mem_map.mp hn
    obtain ⟨g, hg, hname, -⟩ := hr.keys g' hg'
    exact ⟨g, hg, hname⟩
  · rintro ⟨g, hg, rfl⟩
    exact hr.mem_names hg

theorem get? (hr : Reflects calls r) (hg : Enters calls g) :
    ∃ g', r.get? g.name = some g' ∧ ∀ k, k ∈ g'.specializations ↔ Gets calls g k := by
  obtain ⟨g', hg'⟩ := Option.isSome_iff_exists.mp (get?_isSome_iff.mpr (hr.mem_names hg))
  obtain ⟨hmem, hname⟩ := get?_name hg'
  obtain ⟨g₁, hg₁, hname₁, -, hk⟩ := hr.keys g' hmem
  obtain rfl := enters_unique hg hg₁ (hname.symm.trans hname₁.symm)
  exact ⟨g', hg', hk⟩

theorem keySet?_eq {calls' : List Call} (hr : Reflects calls r) (hr' : Reflects calls' r')
    (henters : ∀ g, Enters calls g ↔ Enters calls' g)
    (hrecorded : ∀ g k, Recorded calls g k ↔ Recorded calls' g k) (n : String) :
    r.keySet? n = r'.keySet? n := by
  by_cases hn : n ∈ r.names
  · obtain ⟨g, hg, rfl⟩ := hr.mem_names_iff.mp hn
    obtain ⟨g₁, hg₁, hk₁⟩ := hr.get? hg
    obtain ⟨g₂, hg₂, hk₂⟩ := hr'.get? ((henters g).mp hg)
    have hset : g₁.specializations.toFinset = g₂.specializations.toFinset := by
      ext k
      simp only [List.mem_toFinset, hk₁, hk₂, Gets, hrecorded]
    simp only [keySet?, hg₁, hg₂, Option.map_some, hset]
  · have hn' : n ∉ r'.names := by
      rw [hr'.mem_names_iff]
      simpa only [hr.mem_names_iff, henters] using hn
    rw [← get?_isSome_iff, Option.not_isSome_iff_eq_none] at hn hn'
    simp only [keySet?, hn, hn']

end Reflects

/-- Registering a generic of a new name anywhere enters it and changes nothing for the others. -/
theorem enters_insert (hd : ∀ g, .register g ∈ before ++ after → g.name ≠ d.name) :
    Enters (before ++ .register d :: after) g ↔ g = d ∨ Enters (before ++ after) g := by
  induction after using List.reverseRecOn with
  | nil =>
    have hnew : ∀ h, .register h ∈ before → h.name ≠ d.name := by simpa using hd
    rw [enters_snoc, List.append_nil, or_comm]
    refine or_congr_left ⟨fun ⟨hc, _⟩ => (Call.register.inj hc).symm, ?_⟩
    rintro rfl
    exact ⟨rfl, hnew⟩
  | append_singleton after c ih =>
    have hfront : ∀ x ∈ before ++ after, x ∈ before ++ (after ++ [c]) := fun x hx => by
      rw [← List.append_assoc]
      exact List.mem_append_left _ hx
    have hrest := ih fun g hg => hd g (hfront _ hg)
    have hlater : c = .register g → d.name ≠ g.name := fun hc => (hd g (by simp [hc])).symm
    have hsplit : before ++ .register d :: (after ++ [c]) =
        (before ++ .register d :: after) ++ [c] := by simp
    rw [hsplit, enters_snoc, hrest, ← List.append_assoc, enters_snoc, or_assoc]
    refine or_congr_right (or_congr_right (and_congr_right fun hc => ?_))
    constructor
    · exact fun hall h hh => hall h (by simp at hh ⊢; tauto)
    · intro hall h hh
      rcases List.mem_append.mp hh with hh | hh
      · exact hall h (List.mem_append_left _ hh)
      · rcases List.mem_cons.mp hh with hh | hh
        · obtain rfl := Call.register.inj hh
          exact hlater hc
        · exact hall h (List.mem_append_right _ hh)

theorem recorded_insert (hd : ∀ g, .register g ∈ before ++ after → g.name ≠ d.name)
    (hunused : ∀ k, .record d.name k ∉ before ++ after) :
    Recorded (before ++ .register d :: after) g k ↔ Recorded (before ++ after) g k := by
  induction after using List.reverseRecOn with
  | nil => simp [recorded_snoc]
  | append_singleton after c ih =>
    have hfront : ∀ x ∈ before ++ after, x ∈ before ++ (after ++ [c]) := fun x hx => by
      rw [← List.append_assoc]
      exact List.mem_append_left _ hx
    have hd' : ∀ g, .register g ∈ before ++ after → g.name ≠ d.name :=
      fun g hg => hd g (hfront _ hg)
    have hrest := ih hd' fun k hk => hunused k (hfront _ hk)
    have hsplit : before ++ .register d :: (after ++ [c]) =
        (before ++ .register d :: after) ++ [c] := by simp
    rw [hsplit, recorded_snoc, hrest, ← List.append_assoc, recorded_snoc]
    refine or_congr_right (and_congr_right fun hc => ?_)
    rw [enters_insert hd']
    refine or_iff_right ?_
    rintro rfl
    exact hunused k (by simp [hc])

/-- The keys of a registered generic after any calls are those that it comes with, those recorded for
it later, and those recorded for registered generics that list it as a dependency. So a generic for
which nothing is recorded directly can be registered at any time. -/
theorem registration_order_immaterial :
    (∀ calls n, (∃ g', (run calls).get? n = some g') ↔ ∃ g, Enters calls g ∧ g.name = n) ∧
    (∀ calls g, Enters calls g → ∃ g', (run calls).get? g.name = some g' ∧
      ∀ k, k ∈ g'.specializations ↔ k ∈ g.specializations ∨ Recorded calls g k ∨
        ∃ h, Recorded calls h k ∧ g.name ∈ h.dependencies) ∧
    ∀ (d : Generic) (before after before' after' : List Call), before ++ after = before' ++ after' →
      (∀ g, .register g ∈ before ++ after → g.name ≠ d.name) →
      (∀ k, .record d.name k ∉ before ++ after) →
      ∀ n, (run (before ++ .register d :: after)).keySet? n =
        (run (before' ++ .register d :: after')).keySet? n := by
  refine ⟨fun calls n => ?_, fun calls g hg => (run_reflects calls).get? hg,
    fun d before after before' after' he hd hunused n => ?_⟩
  · rw [← (run_reflects calls).mem_names_iff, ← get?_isSome_iff, Option.isSome_iff_exists]
  · have hd' := hd
    have hunused' := hunused
    rw [he] at hd' hunused'
    refine (run_reflects _).keySet?_eq (run_reflects _) (fun g => ?_) (fun g k => ?_) n
    · rw [enters_insert hd, enters_insert hd', he]
    · rw [recorded_insert hd hunused, recorded_insert hd' hunused', he]

/-- A dependency that is registered after a key was recorded has the key, as if it had been registered
before. -/
theorem late_dependency_keys :
    let list := Generic.bare "List" "list" .forbidden ["Iter"]
    let iter := Generic.bare "Iter" "iter" .forbidden []
    (run [.register list, .record "List" "int", .register iter]).keySet? "Iter" =
      (run [.register iter, .register list, .record "List" "int"]).keySet? "Iter" ∧
    (run [.register iter, .register list, .record "List" "int"]).keySet? "Iter" = some {"int"} := by
  intro list iter
  obtain ⟨-, -, hmove⟩ := registration_order_immaterial
  refine ⟨hmove iter [.register list, .record "List" "int"] [] [] _ rfl ?_ ?_ "Iter", by decide⟩
  · simp [list, iter, Generic.bare]
  · simp [iter, Generic.bare]

end Bindery.Registry
