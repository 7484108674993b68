import Mathlib
import Bindery.Proofs.Generic.Cycle
import Bindery.Proofs.Generic.Sorted

/-! How the report of a cycle reads. It lists the generics of the cycle in the order of their names. -/

namespace Bindery

open Relation

section Ring

variable {α : Type} [LinearOrder α] {R : α → α → Prop} {first n m : α} {rest : List α}

/-- A walk that ends where it begins. -/
structure IsClosedWalk (R : α → α → Prop) (walk : List α) : Prop where
  moves : 2 ≤ walk.length
  closed : walk.head? = walk.getLast?
  steps : walk.IsChain R

/-- Gone round in ascending order, `n` is followed by `m`: the next one, or the least one if `n` is the
greatest. -/
def NextInRing (member : α → Prop) (n m : α) : Prop :=
  member n ∧ member m ∧ ∀ k, member k → if n < m then ¬ (n < k ∧ k < m) else m ≤ k ∧ k ≤ n

theorem first_le (hs : (first :: rest).Pairwise (· < ·)) (hm : m ∈ first :: rest) : first ≤ m := by
  rcases List.mem_cons.mp hm with rfl | hm
  · exact le_refl _
  · exact (List.rel_of_pairwise_cons hs hm).le

theorem nextInRing_of_neighbours (hs : (first :: rest).Pairwise (· < ·)) {before behind : List α}
    (h : first :: rest ++ [first] = before ++ n :: m :: behind) :
    NextInRing (· ∈ first :: rest) n m := by
  rcases List.eq_nil_or_concat behind with rfl | ⟨behind, x, rfl⟩
  · have hclosing : first :: rest ++ [first] = (before ++ [n]) ++ [m] := by simpa using h
    obtain ⟨hring, hfirst⟩ := List.append_inj' hclosing rfl
    obtain rfl := List.singleton_inj.mp hfirst
    have hn : n ∈ first :: rest := by simp [hring]
    refine ⟨hn, .head _, fun k hk => ?_⟩
    rw [if_neg (not_lt.mpr (first_le hs hn))]
    refine ⟨first_le hs hk, ?_⟩
    rw [hring] at hs hk
    rcases List.mem_append.mp hk with hk | hk
    · exact ((List.pairwise_append.mp hs).2.2 k hk n (.head _)).le
    · exact (List.mem_singleton.mp hk).le
  · have hwithin : first :: rest ++ [first] = (before ++ n :: m :: behind) ++ [x] := by simpa using h
    obtain ⟨hring, -⟩ := List.append_inj' hwithin rfl
    rw [hring] at hs ⊢
    obtain ⟨-, hbehind, hbefore⟩ := List.pairwise_append.mp hs
    obtain ⟨hn, hbehind⟩ := List.pairwise_cons.mp hbehind
    refine ⟨by simp, by simp, fun k hk => ?_⟩
    rw [if_pos (hn m (.head _))]
    rintro ⟨hnk, hkm⟩
    rcases List.mem_append.mp hk with hk | hk
    · exact lt_asymm hnk (hbefore k hk n (.head _))
    · rcases List.mem_cons.mp hk with rfl | hk
      · exact lt_irrefl _ hnk
      · rcases List.mem_cons.mp hk with rfl | hk
        · exact lt_irrefl _ hkm
        · exact lt_asymm hkm (List.rel_of_pairwise_cons hbehind hk)

theorem neighbours_of_nextInRing (hs : (first :: rest).Pairwise (· < ·))
    (h : NextInRing (· ∈ first :: rest) n m) :
    ∃ before behind, first :: rest ++ [first] = before ++ n :: m :: behind := by
  obtain ⟨hn, hm, hbetween⟩ := h
  obtain ⟨before, behind, hring⟩ := List.append_of_mem hn
  rw [hring] at hm
  have hs' := hs
  rw [hring] at hs'
  obtain ⟨-, hbehind, hbefore⟩ := List.pairwise_append.mp hs'
  obtain ⟨habove, hbehind⟩ := List.pairwise_cons.mp hbehind
  have hmem : ∀ k ∈ behind, k ∈ first :: rest := fun k hk => by simp [hring, hk]
  by_cases hlt : n < m
  · have hmb : m ∈ behind := by
      rcases List.mem_append.mp hm with hm | hm
      · exact absurd hlt (lt_asymm (hbefore m hm n (.head _)))
      · exact (List.mem_cons.mp hm).resolve_left hlt.ne'
    cases behind with
    | nil => cases hmb
    | cons k behind =>
      have hnext := hbetween k (hmem k (.head _))
      rw [if_pos hlt] at hnext
      rcases List.mem_cons.mp hmb with rfl | hmb
      · exact ⟨before, behind ++ [first], by simp [hring]⟩
      · exact absurd ⟨habove k (.head _), List.rel_of_pairwise_cons hbehind hmb⟩ hnext
  · have hend : behind = [] := by
      refine List.eq_nil_iff_forall_not_mem.mpr fun k hk => ?_
      have hnext := hbetween k (hmem k hk)
      rw [if_neg hlt] at hnext
      exact not_lt.mpr hnext.2 (habove k hk)
    subst hend
    have hleast := hbetween first (.head _)
    rw [if_neg hlt] at hleast
    obtain rfl : m = first := le_antisymm hleast.1 (first_le hs (hring ▸ hm))
    exact ⟨before, [], by simp [hring]⟩

theorem isClosedWalk_iff (hs : (first :: rest).Pairwise (· < ·)) :
    IsClosedWalk R (first :: rest ++ [first]) ↔
      ∀ n m, NextInRing (· ∈ first :: rest) n m → R n m := by
  constructor
  · intro h n m hnext
    obtain ⟨before, behind, he⟩ := neighbours_of_nextInRing hs hnext
    exact List.isChain_iff_forall_rel_of_append_cons_cons.mp h.steps he
  · intro h
    refine ⟨by simp, by rw [List.getLast?_concat]; rfl, List.isChain_iff_forall_rel_of_append_cons_cons.mpr ?_⟩
    intro n m before behind he
    exact h n m (nextInRing_of_neighbours hs he)

end Ring

namespace Graph

variable {α : Type} [DecidableEq α] {next : α → List α} {fresh stack : List α} {u v w : α}

/-- A step to a vertex that is not discovered. -/
def LeadsWithin (next : α → List α) (fresh : List α) (v w : α) : Prop :=
  w ∈ next v ∧ w ∈ fresh

/-- A way that meets a vertex may as well begin behind its last visit there. -/
theorem leadsWithin_past (hu : u ∈ fresh) (h : ReflTransGen (LeadsWithin next fresh) u w) (v : α) :
    w = v ∨ ∃ s, (s ∈ next v ∨ s = u ∧ s ≠ v) ∧ s ∈ fresh.erase v ∧
      ReflTransGen (LeadsWithin next (fresh.erase v)) s w := by
  induction h with
  | refl =>
    by_cases huv : u = v
    · exact .inl huv
    · exact .inr ⟨u, .inr ⟨rfl, huv⟩, (List.mem_erase_of_ne huv).mpr hu, .refl⟩
  | @tail b c _ hstep ih =>
    by_cases hcv : c = v
    · exact .inl hcv
    · have hc : c ∈ fresh.erase v := (List.mem_erase_of_ne hcv).mpr hstep.2
      rcases ih with rfl | ⟨s, hs, hfresh, hway⟩
      · exact .inr ⟨c, .inl hstep.1, hc, .refl⟩
      · exact .inr ⟨s, hs, hfresh, hway.tail ⟨hstep.1, hc⟩⟩

theorem reach_complete (hu : u ∈ stack) (hfresh : u ∈ fresh)
    (h : ReflTransGen (LeadsWithin next fresh) u w) : w ∈ reach next fresh stack := by
  fun_induction reach next fresh stack generalizing u with
  | case1 => cases hu
  | case2 fresh v rest hv ih =>
    rcases leadsWithin_past hfresh h v with rfl | ⟨s, hs, hfresh', hway⟩
    · exact .head _
    · refine .tail _ (ih (List.mem_append.mpr ?_) hfresh' hway)
      rcases hs with hs | ⟨rfl, hne⟩
      · exact .inl hs
      · exact .inr ((List.mem_cons.mp hu).resolve_left hne)
  | case3 fresh v rest hv ih =>
    refine ih ((List.mem_cons.mp hu).resolve_left ?_) hfresh h
    rintro rfl
    exact hv hfresh

/-- Where all edges stay among the vertices, a search from a vertex finds all that it leads to. -/
theorem mem_reach_iff {vertices : List α} (hnext : ∀ v, ∀ w ∈ next v, w ∈ vertices)
    (hv : v ∈ vertices) : w ∈ reach next vertices [v] ↔ ReflTransGen (Leads next) v w := by
  constructor
  · intro h
    obtain ⟨u, hu, hway⟩ := reach_sound h
    rwa [List.mem_singleton.mp hu] at hway
  · intro h
    exact reach_complete (.head _) hv (ReflTransGen.mono (fun a b hab => ⟨hab, hnext a b hab⟩) _ _ h)

theorem mem_component_iff {g : Graph α}
    (hedges : ∀ e ∈ g.edges, e.1 ∈ g.vertices ∧ e.2 ∈ g.vertices) (hv : v ∈ g.vertices) :
    w ∈ g.component v ↔
      ReflTransGen (Leads g.successors) v w ∧ ReflTransGen (Leads g.successors) w v := by
  refine ⟨component_sound, fun ⟨hforwards, hbackwards⟩ => ?_⟩
  have hswap : Function.swap (Leads g.successors) ≤ Leads g.predecessors :=
    fun a b hab => mem_predecessors.mpr (mem_successors.mp hab)
  have hf : w ∈ reach g.successors g.vertices [v] :=
    (mem_reach_iff (fun a b hab => (hedges _ (mem_successors.mp hab)).2) hv).mpr hforwards
  have hb : w ∈ reach g.predecessors g.vertices [v] :=
    (mem_reach_iff (fun a b hab => (hedges _ (mem_predecessors.mp hab)).1) hv).mpr
      (ReflTransGen.mono hswap _ _ (reflTransGen_swap.mpr hbackwards))
  have hw : w ∈ g.vertices := by
    rcases ReflTransGen.cases_tail hforwards with rfl | ⟨b, -, hstep⟩
    · exact hv
    · exact (hedges _ (mem_successors.mp hstep)).2
  simp [component, hw, hf, hb]

end Graph

theorem nameSet_sorted (names : List String) : (nameSet names).Pairwise (· < ·) := by
  have hfold : ∀ (names set : List String), set.Pairwise (· < ·) →
      (names.foldl (fun set n => insertName n set) set).Pairwise (· < ·) := by
    intro names
    induction names with
    | nil => exact fun _ h => h
    | cons n names ih => exact fun set h => ih _ (insertName_sorted n h)
  exact hfold names [] .nil

/-- A way that leaves a vertex leaves it for the last time by some step. -/
theorem transGen_leave {α : Type} {R : α → α → Prop} {n m : α} (h : TransGen R n m) (hne : n ≠ m) :
    ∃ k, k ≠ n ∧ R n k ∧ ReflTransGen R k m := by
  induction h with
  | @single m hstep => exact ⟨m, hne.symm, hstep, .refl⟩
  | @tail b c hway hstep ih =>
    by_cases hb : n = b
    · subst hb
      exact ⟨c, hne.symm, hstep, .refl⟩
    · obtain ⟨k, hk, hnk, hkb⟩ := ih hb
      exact ⟨k, hk, hnk, hkb.tail hstep⟩

namespace Registry

variable {r : Registry} {n m : String}

/-- Generics that depend on each other, directly or through others. -/
def Mutual (r : Registry) (n m : String) : Prop :=
  TransGen r.DependsOn n m ∧ TransGen r.DependsOn m n

/-- Names read in order are a closed walk along the dependencies in one of the two directions. -/
def ReadsAsCycle (r : Registry) (names : List String) : Prop :=
  IsClosedWalk r.DependsOn names ∨ IsClosedWalk (Function.swap r.DependsOn) names

theorem Mutual.symm (h : r.Mutual n m) : r.Mutual m n :=
  ⟨h.2, h.1⟩

theorem Mutual.trans {k : String} (h : r.Mutual n m) (h' : r.Mutual m k) : r.Mutual n k :=
  ⟨h.1.trans h'.1, h'.2.trans h.2⟩

theorem transGen_dependsOn_iff :
    TransGen r.DependsOn n m ↔ TransGen (Graph.Leads r.graph.successors) m n := by
  rw [r.dependsOn_eq]
  exact transGen_swap

/-- What is reported are all that depend on the generic at which no order is found, and on which it
depends. -/
theorem mem_component_iff_mutual (hcycle : TransGen (Graph.Leads r.graph.successors) n n) :
    m ∈ r.graph.component n ↔ r.Mutual n m := by
  obtain ⟨k, hk, -⟩ := TransGen.head'_iff.mp hcycle
  have hn : n ∈ r.graph.vertices := (edges_registered _ (Graph.mem_successors.mp hk)).1
  rw [Graph.mem_component_iff edges_registered hn, Mutual, transGen_dependsOn_iff,
    transGen_dependsOn_iff]
  constructor
  · exact fun ⟨hnm, hmn⟩ => ⟨TransGen.trans_right hmn hcycle, TransGen.trans_left hcycle hnm⟩
  · exact fun ⟨hmn, hnm⟩ => ⟨hnm.to_reflTransGen, hmn.to_reflTransGen⟩

/-- What lies on a way between generics that depend on each other depends on them as well. -/
theorem Mutual.between {k : String} (h : r.Mutual n m) (hnk : r.DependsOn n k)
    (hkm : ReflTransGen r.DependsOn k m) : r.Mutual n k :=
  ⟨.single hnk, TransGen.trans_right hkm h.2⟩

/-- Among no more than two that depend on each other, each depends directly on the one that follows in
the ring. -/
theorem dependsOn_of_two {first other : String}
    (htwo : ∀ n, r.Mutual first n → n = first ∨ n = other)
    (h : NextInRing (r.Mutual first) n m) : r.DependsOn n m := by
  obtain ⟨hn, hm, hbetween⟩ := h
  have hnm : r.Mutual n m := hn.symm.trans hm
  by_cases hne : n = m
  · subst hne
    obtain ⟨k, hnk, hkn⟩ := TransGen.head'_iff.mp hnm.1
    have hk := hbetween k (hn.trans (hnm.between hnk hkn))
    rw [if_neg (lt_irrefl n)] at hk
    exact le_antisymm hk.1 hk.2 ▸ hnk
  · obtain ⟨k, hkn, hnk, hkm⟩ := transGen_leave hnm.1 hne
    have hk := htwo k (hn.trans (hnm.between hnk hkm))
    have heq : k = m := by
      rcases htwo n hn with rfl | rfl
      · exact (hk.resolve_left hkn).trans ((htwo m hm).resolve_left (Ne.symm hne)).symm
      · exact (hk.resolve_right hkn).trans ((htwo m hm).resolve_right (Ne.symm hne)).symm
    exact heq ▸ hnk

/-- Where no order is found, all generics are reported that depend on one of them and on which it
depends, in ascending order and the first one again. This reads as a cycle exactly if each depends on
the one that follows in the ring of names, or each on the one before it; among no more than two it
always does. -/
theorem reported_cycle_iff {e : BindError} (hnd : r.names.Nodup) (h : r.dependencyOrder = .error e) :
    ∃ names first, e = .dependencyCycle names ∧ (∀ n, n ∈ names ↔ r.Mutual first n) ∧
      names.head? = some first ∧ names.getLast? = some first ∧
      names.dropLast.Pairwise (· < ·) ∧
      (r.ReadsAsCycle names ↔
        (∀ n m, NextInRing (r.Mutual first) n m → r.DependsOn n m) ∨
          ∀ n m, NextInRing (r.Mutual first) n m → r.DependsOn m n) ∧
      ∀ other, (∀ n, r.Mutual first n → n = first ∨ n = other) → r.ReadsAsCycle names := by
  cases ht : r.graph.topologicalOrder with
  | ok order => simp [dependencyOrder, ht] at h
  | error v =>
    have hcycle := Graph.topologicalOrder_error hnd (fun e he => (edges_registered e he).2) ht
    obtain rfl : e = .dependencyCycle (closedWalk (r.graph.component v)) := by
      simpa [dependencyOrder, ht] using h.symm
    have hsorted := nameSet_sorted (r.graph.component v)
    have hmem : ∀ n, n ∈ nameSet (r.graph.component v) ↔ r.Mutual v n := fun n =>
      mem_nameSet.trans (mem_component_iff_mutual hcycle)
    have hself : v ∈ nameSet (r.graph.component v) := by
      rw [hmem]
      exact ⟨transGen_dependsOn_iff.mpr hcycle, transGen_dependsOn_iff.mpr hcycle⟩
    unfold closedWalk
    dsimp only
    generalize nameSet (r.graph.component v) = ring at hsorted hmem hself
    obtain ⟨first, rest, rfl⟩ := List.exists_cons_of_ne_nil (List.ne_nil_of_mem hself)
    have hfirst : r.Mutual v first := (hmem first).mp (.head _)
    have hmem' : ∀ n, n ∈ first :: rest ↔ r.Mutual first n := fun n =>
      (hmem n).trans ⟨hfirst.symm.trans, hfirst.trans⟩
    have hring : (· ∈ first :: rest) = r.Mutual first := by
      funext n
      exact propext (hmem' n)
    have hwalk : ∀ R : String → String → Prop, IsClosedWalk R (first :: rest ++ [first]) ↔
        ∀ n m, NextInRing (r.Mutual first) n m → R n m := by
      intro R
      rw [← hring]
      exact isClosedWalk_iff hsorted
    refine ⟨first :: rest ++ [first], first, rfl, ?_, rfl, List.getLast?_concat .., ?_, ?_, ?_⟩
    · intro n
      rw [← hmem' n, List.mem_append, List.mem_singleton]
      exact ⟨fun hn => hn.elim id fun he => he ▸ .head _, .inl⟩
    · rwa [List.dropLast_concat]
    · exact or_congr (hwalk _) (hwalk _)
    · intro other htwo
      exact .inl ((hwalk _).mpr fun n m => dependsOn_of_two htwo)

theorem ring_reads_as_cycle : ring.names.Nodup ∧
    ring.dependencyOrder = .error (.dependencyCycle ["A", "B", "A"]) ∧
    ring.ReadsAsCycle ["A", "B", "A"] := by
  have hnd : ring.names.Nodup := by decide
  have hrefused : ring.dependencyOrder = .error (.dependencyCycle ["A", "B", "A"]) := by cbv
  obtain ⟨names, first, he, hmem, hfirst, -, -, -, htwo⟩ := reported_cycle_iff hnd hrefused
  obtain rfl := BindError.dependencyCycle.inj he
  obtain rfl := Option.some.inj hfirst
  refine ⟨hnd, hrefused, htwo "B" fun n hn => ?_⟩
  have hn : n = "A" ∨ n = "B" ∨ n = "A" := by simpa using (hmem n).mpr hn
  exact hn.elim .inl fun hn => hn.symm

/-- Four generics that depend on each other in a ring, which does not go in the order of their names. -/
def crossedRing : Registry where
  generics := [.bare "A" "a" .forbidden ["C"], .bare "B" "b" .forbidden ["D"],
    .bare "C" "c" .forbidden ["B"], .bare "D" "d" .forbidden ["A"]]

theorem crossedRing_misreported :
    crossedRing.names.Nodup ∧ IsClosedWalk crossedRing.DependsOn ["A", "C", "B", "D", "A"] ∧
      crossedRing.dependencyOrder = .error (.dependencyCycle ["A", "B", "C", "D", "A"]) ∧
      ¬ crossedRing.ReadsAsCycle ["A", "B", "C", "D", "A"] := by
  have hforwards : ¬ crossedRing.DependsOn "A" "B" := by
    simp [DependsOn, crossedRing, Generic.bare]
  have hbackwards : ¬ crossedRing.DependsOn "B" "A" := by
    simp [DependsOn, crossedRing, Generic.bare]
  refine ⟨by decide, ⟨by decide, rfl, ?_⟩, by cbv, ?_⟩
  · simp [DependsOn, crossedRing, Generic.bare, names]
  · rintro (h | h)
    · exact hforwards (List.isChain_cons_cons.mp h.steps).1
    · exact hbackwards (List.isChain_cons_cons.mp h.steps).1

end Registry

end Bindery
