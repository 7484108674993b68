import Bindery.Proofs.Generic.Record
import Bindery.Proofs.Result

/-! What the search for an order gives: every vertex once, with all edges going forwards. -/

namespace Bindery

namespace Graph

variable {α : Type} [DecidableEq α] {next : α → List α}

/-- How far a search has come: every vertex is undiscovered, on the stack or done, and none is done
twice. -/
structure Underway (vertices fresh stack done : List α) : Prop where
  fresh_nodup : fresh.Nodup
  done_nodup : done.Nodup
  apart : ∀ v ∈ done, v ∉ fresh
  all : ∀ v, v ∈ vertices ↔ v ∈ fresh ∨ v ∈ stack ∨ v ∈ done

omit [DecidableEq α] in
theorem Underway.start {vertices : List α} (h : vertices.Nodup) :
    Underway vertices vertices [] [] :=
  ⟨h, List.nodup_nil, nofun, by simp⟩

theorem Underway.discover {vertices fresh rest done : List α} {v : α}
    (h : Underway vertices fresh (v :: rest) done) :
    Underway vertices (fresh.erase v)
      (((next v).filter (fresh.erase v).contains).reverse ++ v :: rest) done := by
  refine ⟨h.fresh_nodup.erase v, h.done_nodup, fun w hw hf => ?_, fun w => ?_⟩
  · exact h.apart w hw (List.mem_of_mem_erase hf)
  · rw [h.all, h.fresh_nodup.mem_erase_iff]
    simp only [List.mem_append, List.mem_reverse, List.mem_filter, List.mem_cons,
      List.contains_iff_mem, h.fresh_nodup.mem_erase_iff]
    by_cases hw : w = v <;> grind

theorem Underway.pop {vertices fresh rest done : List α} {v : α}
    (h : Underway vertices fresh (v :: rest) done) (hv : v ∉ fresh) :
    Underway vertices fresh rest (if done.contains v then done else v :: done) := by
  by_cases hd : v ∈ done
  · simp only [List.contains_iff_mem.mpr hd, if_true]
    refine ⟨h.fresh_nodup, h.done_nodup, h.apart, fun w => ?_⟩
    rw [h.all, List.mem_cons]
    by_cases hw : w = v <;> grind
  · simp only [List.contains_iff_mem, hd, if_false]
    refine ⟨h.fresh_nodup, List.nodup_cons.mpr ⟨hd, h.done_nodup⟩, ?_, fun w => ?_⟩
    · intro w hw
      rcases List.mem_cons.mp hw with rfl | hw
      · exact hv
      · exact h.apart w hw
    · rw [h.all, List.mem_cons, List.mem_cons]
      grind

omit [DecidableEq α] in
theorem Underway.push {vertices fresh done : List α} {v : α} (h : Underway vertices fresh [] done)
    (hv : v ∈ fresh) : Underway vertices fresh [v] done := by
  refine ⟨h.fresh_nodup, h.done_nodup, h.apart, fun w => ?_⟩
  have hall := h.all w
  have hin := (h.all v).mpr (.inl hv)
  by_cases hw : w = v <;> grind

/-- A search ends with an empty stack. It leaves undiscovered what it did not reach; what it reached
has no edge to itself. -/
theorem finish_underway {vertices fresh stack done fresh' done' : List α}
    (h : Underway vertices fresh stack done)
    (hok : finish next fresh stack done = .ok (fresh', done')) :
    Underway vertices fresh' [] done' ∧ (∀ v ∈ fresh', v ∈ fresh ∧ v ∉ stack) ∧
      ∀ v ∈ fresh, v ∉ fresh' → v ∉ next v := by
  fun_induction finish next fresh stack done with
  | case1 fresh done =>
    cases hok
    exact ⟨h, fun v hv => ⟨hv, List.not_mem_nil⟩, fun v hv hn => absurd hv hn⟩
  | case2 fresh done v rest hv hloop => cases hok
  | case3 fresh done v rest hv hloop pushed ih =>
    obtain ⟨hend, hleft, hloops⟩ := ih h.discover hok
    refine ⟨hend, fun w hw => ?_, fun w hw hn => ?_⟩
    · obtain ⟨hf, hs⟩ := hleft w hw
      exact ⟨List.mem_of_mem_erase hf, fun hm => hs (List.mem_append_right _ hm)⟩
    · by_cases hwv : w = v
      · subst hwv
        simpa using hloop
      · exact hloops w (h.fresh_nodup.mem_erase_iff.mpr ⟨hwv, hw⟩) hn
  | case4 fresh done v rest hv ih =>
    obtain ⟨hend, hleft, hloops⟩ := ih (h.pop hv) hok
    refine ⟨hend, fun w hw => ?_, hloops⟩
    obtain ⟨hf, hs⟩ := hleft w hw
    refine ⟨hf, fun hm => ?_⟩
    rcases List.mem_cons.mp hm with rfl | hm
    · exact hv hf
    · exact hs hm

/-- Finishing all vertices gives each of them once; none has an edge to itself. -/
theorem finishAll_ok {vertices fresh done vs order : List α}
    (h : Underway vertices fresh [] done) (hvs : ∀ v ∈ fresh, v ∈ vs)
    (hok : finishAll next fresh done vs = .ok order) :
    order.Nodup ∧ (∀ v, v ∈ order ↔ v ∈ vertices) ∧ ∀ v ∈ fresh, v ∉ next v := by
  induction vs generalizing fresh done with
  | nil =>
    cases hok
    have hfresh : ∀ v, v ∉ fresh := fun v hv => List.not_mem_nil (hvs v hv)
    exact ⟨h.done_nodup, fun v => by simp [h.all, hfresh], fun v hv => absurd hv (hfresh v)⟩
  | cons v vs ih =>
    by_cases hv : v ∈ fresh
    · simp only [finishAll, List.contains_iff_mem.mpr hv, if_true] at hok
      cases hf : finish next fresh [v] done with
      | error c => simp [hf] at hok
      | ok res =>
        obtain ⟨fresh', done'⟩ := res
        simp only [hf] at hok
        obtain ⟨hend, hleft, hloops⟩ := finish_underway (h.push hv) hf
        have hrest : ∀ w ∈ fresh', w ∈ vs := fun w hw => by
          obtain ⟨hwf, hwv⟩ := hleft w hw
          exact (List.mem_cons.mp (hvs w hwf)).resolve_left fun he => hwv (by simp [he])
        obtain ⟨hnd, hall, hno⟩ := ih hend hrest hok
        refine ⟨hnd, hall, fun w hw => ?_⟩
        by_cases hw' : w ∈ fresh'
        · exact hno w hw'
        · exact hloops w hw hw'
    · simp only [finishAll, List.contains_iff_mem, hv, if_false] at hok
      refine ih h (fun w hw => ?_) hok
      exact (List.mem_cons.mp (hvs w hw)).resolve_left fun he => hv (he ▸ hw)

/-- A search that may discover one vertex succeeds only if all that this vertex leads to is
discovered already. -/
theorem discoverOne_ok {fresh fresh' : List α} {v : α} (hv : v ∈ fresh)
    (hok : discoverOne next fresh [v] false = .ok fresh') :
    fresh' = fresh.erase v ∧ ∀ w ∈ next v, w ∉ fresh.erase v := by
  have hrest : ∀ stack, discoverOne next (fresh.erase v) stack true = .ok fresh' →
      fresh' = fresh.erase v ∧ ∀ w ∈ stack, w ∉ fresh.erase v := by
    intro stack hstack
    induction stack with
    | nil =>
      rw [discoverOne] at hstack
      cases hstack
      exact ⟨rfl, List.forall_mem_nil _⟩
    | cons w stack ih =>
      rw [discoverOne] at hstack
      by_cases hw : w ∈ fresh.erase v
      · simp [hw] at hstack
      · simp only [hw, dif_neg, not_false_eq_true] at hstack
        obtain ⟨he, hno⟩ := ih hstack
        exact ⟨he, List.forall_mem_cons.mpr ⟨hw, hno⟩⟩
  rw [discoverOne] at hok
  simp only [hv, dif_pos, Bool.false_eq_true, if_false] at hok
  obtain ⟨he, hno⟩ := hrest _ hok
  refine ⟨he, fun w hw hf => hno w ?_ hf⟩
  simp [hw, hf]

/-- In an order that passes the check no vertex leads to an earlier one. -/
theorem checkOrder_ok {fresh order : List α} (hfresh : fresh.Nodup) (hnd : order.Nodup)
    (hin : ∀ v ∈ order, v ∈ fresh) (hok : checkOrder next fresh order = .ok ()) :
    order.Pairwise fun v w => w ∉ next v := by
  induction order generalizing fresh with
  | nil => exact .nil
  | cons v order ih =>
    cases hd : discoverOne next fresh [v] false with
    | error c => simp [checkOrder, hd] at hok
    | ok fresh' =>
      simp only [checkOrder, hd] at hok
      obtain ⟨rfl, hno⟩ := discoverOne_ok (hin v List.mem_cons_self) hd
      obtain ⟨hv, hnd'⟩ := List.nodup_cons.mp hnd
      have hin' : ∀ w ∈ order, w ∈ fresh.erase v := fun w hw =>
        hfresh.mem_erase_iff.mpr ⟨fun he => hv (he ▸ hw), hin w (List.mem_cons_of_mem _ hw)⟩
      exact .cons (fun w hw hn => hno w hn (hin' w hw)) (ih (hfresh.erase v) hnd' hin' hok)

/-- An order that is found holds every vertex once; every edge goes forwards in it, and none leads
from a vertex to itself. -/
theorem topologicalOrder_ok {g : Graph α} {order : List α} (hnd : g.vertices.Nodup)
    (h : g.topologicalOrder = .ok order) :
    order.Perm g.vertices ∧ order.Pairwise (fun u v => (v, u) ∉ g.edges) ∧
      ∀ v ∈ g.vertices, (v, v) ∉ g.edges := by
  obtain ⟨found, hf, h⟩ := except_bind_ok h
  obtain ⟨_, hc, he⟩ := except_bind_ok h
  cases he
  obtain ⟨hno, hall, hloops⟩ := finishAll_ok (.start hnd) (fun _ hv => hv) hf
  have hback := checkOrder_ok hnd hno (fun v hv => (hall v).mp hv) hc
  refine ⟨(List.perm_ext_iff_of_nodup hno hnd).mpr hall, hback.imp ?_, fun v hv he => ?_⟩
  · intro u v hv he
    exact hv (by simpa [predecessors] using he)
  · exact hloops v hv (by simpa [successors] using he)

end Graph

namespace Registry

theorem mem_edges {r : Registry} {g : Generic} (hg : g ∈ r.generics) {d : String}
    (hd : d ∈ g.dependencies) (hr : d ∈ r.names) : (d, g.name) ∈ r.graph.edges :=
  List.mem_flatMap.mpr ⟨g, hg, List.mem_map_of_mem
    (List.mem_filter.mpr ⟨hd, get?_isSome_iff.mpr hr⟩)⟩

theorem map_name_filterMap_get? {r : Registry} {names : List String}
    (h : ∀ n ∈ names, n ∈ r.names) : (names.filterMap r.get?).map (·.name) = names := by
  induction names with
  | nil => rfl
  | cons n names ih =>
    obtain ⟨g, hg⟩ := Option.isSome_iff_exists.mp (get?_isSome_iff.mpr (h n List.mem_cons_self))
    rw [List.filterMap_cons_some hg, List.map_cons, (get?_name hg).2,
      ih fun m hm => h m (List.mem_cons_of_mem _ hm)]

/-- An order of generics in which each has its dependencies before it. -/
structure InOrder (r : Registry) (order : List Generic) : Prop where
  perm : order.Perm r.generics
  distinct : order.Pairwise fun g h => g.name ≠ h.name
  forwards : order.Pairwise fun g h => h.name ∉ g.dependencies
  irreflexive : ∀ g ∈ order, g.name ∉ g.dependencies

theorem dependencyOrder_inOrder {r : Registry} (hnd : r.names.Nodup) {order : List String}
    (h : r.dependencyOrder = .ok order) : r.InOrder (order.filterMap r.get?) := by
  cases ht : r.graph.topologicalOrder with
  | error v => simp [dependencyOrder, ht] at h
  | ok found =>
    simp only [dependencyOrder, ht, Except.ok.injEq] at h
    subst h
    obtain ⟨hperm, hforwards, hloops⟩ := Graph.topologicalOrder_ok hnd ht
    have hnames := map_name_filterMap_get? fun n hn => hperm.mem_iff.mp hn
    have hdistinct : ((found.filterMap r.get?).map (·.name)).Nodup := by
      rw [hnames]
      exact hperm.nodup_iff.mpr hnd
    have hmem : ∀ g, g ∈ found.filterMap r.get? ↔ g ∈ r.generics := by
      intro g
      rw [List.mem_filterMap]
      constructor
      · rintro ⟨n, _, hg⟩
        exact (get?_name hg).1
      · intro hg
        exact ⟨g.name, hperm.mem_iff.mpr (List.mem_map_of_mem hg), get?_of_mem hnd hg⟩
    have hregistered : ∀ g ∈ found.filterMap r.get?, g.name ∈ r.names :=
      fun g hg => List.mem_map_of_mem ((hmem g).mp hg)
    rw [← hnames, List.pairwise_map] at hforwards
    constructor
    · exact (List.perm_ext_iff_of_nodup hdistinct.of_map (hnd.of_map)).mpr hmem
    · exact List.pairwise_map.mp hdistinct
    · refine hforwards.imp_of_mem fun {g h} hg hh hno hd => hno ?_
      exact mem_edges ((hmem g).mp hg) hd (hregistered h hh)
    · intro g hg hd
      exact hloops _ (hregistered g hg) (mem_edges ((hmem g).mp hg) hd (hregistered g hg))

theorem checkDependencies_ok {r : Registry} {g : Generic} {ds : List String}
    (h : r.checkDependencies g ds = .ok ()) : ∀ d ∈ ds, d ∈ r.names := by
  induction ds with
  | nil => exact nofun
  | cons d ds ih =>
    by_cases hd : (r.get? d).isSome
    · simp only [checkDependencies, hd, if_true] at h
      exact List.forall_mem_cons.mpr ⟨get?_isSome_iff.mp hd, ih h⟩
    · simp [checkDependencies, hd] at h

theorem checkExtensions_ok {g : Generic} {es : List (String × List String)}
    (h : checkExtensions g es = .ok ()) : ∀ e ∈ es, e.1 ∈ g.specializations := by
  induction es with
  | nil => exact nofun
  | cons e es ih =>
    by_cases he : e.1 ∈ g.specializations
    · simp only [checkExtensions, List.contains_iff_mem.mpr he, if_true] at h
      exact List.forall_mem_cons.mpr ⟨he, ih h⟩
    · simp [checkExtensions, he] at h

/-- What is checked of the generics: dependencies are registered, extensions are of instances, and
there is an order. -/
theorem validate_ok {r : Registry} (h : r.validate = .ok ()) :
    (∀ g ∈ r.generics, (∀ d ∈ g.dependencies, d ∈ r.names) ∧
      ∀ e ∈ g.extensions, e.1 ∈ g.specializations) ∧ ∃ order, r.dependencyOrder = .ok order := by
  obtain ⟨_, hall, h⟩ := except_bind_ok h
  obtain ⟨order, ho, _⟩ := except_bind_ok h
  refine ⟨fun g hg => ?_, order, ho⟩
  obtain ⟨_, hd, he⟩ := except_bind_ok (except_forM_ok hall g hg)
  exact ⟨checkDependencies_ok hd, checkExtensions_ok he⟩

end Registry

end Bindery
