import Bindery.Proofs.Binding.Reached

/-! The keys of a generic stand in ascending order after any calls, so each of them once. -/

namespace Bindery

theorem insertName_sorted (name : String) {names : List String} (h : names.Pairwise (· < ·)) :
    (insertName name names).Pairwise (· < ·) := by
  induction names with
  | nil => exact List.pairwise_singleton _ _
  | cons n ns ih =>
    obtain ⟨hn, hns⟩ := List.pairwise_cons.mp h
    by_cases hlt : name < n
    · simp only [insertName, hlt, if_true]
      exact .cons (List.forall_mem_cons.mpr ⟨hlt, fun m hm => String.lt_trans hlt (hn m hm)⟩) h
    · by_cases heq : name = n
      · subst heq
        simpa only [insertName, hlt, beq_self_eq_true, if_true, if_false] using h
      · simp only [insertName, hlt, if_false, beq_eq_false_iff_ne.mpr heq, Bool.false_eq_true]
        have hgt : n < name := Std.lt_of_le_of_ne (String.not_lt.mp hlt) (Ne.symm heq)
        refine .cons (fun m hm => ?_) (ih hns)
        rcases mem_insertName.mp hm with rfl | hm
        · exact hgt
        · exact hn m hm

def Registry.Sorted (r : Registry) : Prop :=
  ∀ g ∈ r.generics, g.specializations.Pairwise (· < ·)

namespace Registry.Sorted

variable {r : Registry}

theorem modify (h : r.Sorted) (name : String) {f : Generic → Generic}
    (hf : ∀ g, g.specializations.Pairwise (· < ·) → (f g).specializations.Pairwise (· < ·)) :
    (r.modify name f).Sorted := by
  intro g hg
  obtain ⟨g₀, hg₀, rfl⟩ := List.mem_map.mp hg
  by_cases hn : g₀.name = name
  · simpa [hn] using hf g₀ (h g₀ hg₀)
  · simpa [hn] using h g₀ hg₀

theorem recordOne (h : r.Sorted) (name key : String) : (r.recordOne name key).Sorted := by
  unfold Registry.recordOne
  split
  · exact h.modify name fun _ hg => insertName_sorted key hg
  · exact h

theorem record (h : r.Sorted) (name key : String) : (r.record name key).Sorted := by
  unfold Registry.record
  split
  · exact h
  · next g _ =>
    have hfold : ∀ (ds : List String) (r : Registry), r.Sorted →
        (ds.foldl (fun r d => r.recordOne d key) r).Sorted := by
      intro ds
      induction ds with
      | nil => exact fun r hr => hr
      | cons d ds ih => exact fun r hr => ih _ (hr.recordOne d key)
    exact hfold _ _ (h.modify name fun _ hg => insertName_sorted key hg)

theorem recordAll (h : r.Sorted) (uses : List GenericBinding) : (r.recordAll uses).Sorted := by
  induction uses generalizing r with
  | nil => exact h
  | cons b uses ih => exact ih (h.record b.generic b.specialization)

theorem register (h : r.Sorted) {g : Generic} {r' : Registry}
    (hg : g.specializations.Pairwise (· < ·)) (hr : r.register g = .ok r') : r'.Sorted := by
  have hfold : ∀ (keys : List String) (g : Generic), g.specializations.Pairwise (· < ·) →
      (keys.foldl (fun g key => g.addKey key) g).specializations.Pairwise (· < ·) := by
    intro keys
    induction keys with
    | nil => exact fun g hg => hg
    | cons key keys ih => exact fun g hg => ih _ (insertName_sorted key hg)
  unfold Registry.register at hr
  split at hr
  · cases hr
  · cases hr
    intro g' hg'
    rcases List.mem_append.mp hg' with hg' | hg'
    · exact h g' hg'
    · obtain rfl := List.mem_singleton.mp hg'
      exact hfold _ g hg

end Registry.Sorted

theorem Placed.sorted {f : Func} {kind : FuncKind} {c c' : Context} (h : Placed f kind c c')
    (hs : c.generics.Sorted) : c'.generics.Sorted := by
  cases h with
  | @generic _ name rename g g' markers found free =>
    obtain rfl := Generic.insertMethod_ok free
    exact hs.modify name fun _ _ => hs g (Registry.get?_name found).1
  | constructor found free => exact hs
  | destructor found free => exact hs
  | method found free => exact hs
  | static found free => exact hs

theorem Change.sorted {ok : Bool} {c c' : Context} (h : Change ok c c')
    (hs : c.generics.Sorted) : c'.generics.Sorted := by
  cases h with
  | aside hg _ _ => exact hg ▸ hs
  | register hr => exact hs.register .nil hr
  | dress hsame =>
    refine hs.modify _ fun g hg => ?_
    rw [hsame]
    exact hg
  | bindFunc hb hp =>
    obtain ⟨uses, rfl, _, _⟩ := (Func.bind_records _ _ _ _).ran hb
    exact hp.sorted (hs.recordAll uses)
  | bindClass _ hb =>
    obtain ⟨uses, rfl, _, _⟩ := (Class.ofRecord_records _ _ _ _).ran hb
    exact hs.recordAll uses
  | loseFunc hb =>
    obtain ⟨uses, rfl, _, _⟩ := (Func.bind_records _ _ _ _).ran hb
    exact hs.recordAll uses
  | loseClass hb =>
    obtain ⟨uses, rfl, _, _⟩ := (Class.ofRecord_records _ _ _ _).ran hb
    exact hs.recordAll uses

theorem Evolution.sorted {ok : Bool} {c c' : Context} (h : Evolution ok c c')
    (hs : c.generics.Sorted) : c'.generics.Sorted := by
  induction h with
  | refl => exact hs
  | tail _ hstep ih => exact hstep.sorted ih

theorem Session.perform_sorted (options : BindOptions) (headers : List Header)
    (calls : List (Nat × BindCall)) :
    ((Session.start options headers).perform calls).2.context.generics.Sorted :=
  ((Session.start options headers).perform_evolves calls).sorted nofun

end Bindery
