import Mathlib
import Bindery.Proofs.Generic.Order

/-! Why an order is refused. An order is found exactly if no generic depends on itself. -/

namespace Bindery

open Relation

namespace Graph

variable {α : Type} [DecidableEq α] {next : α → List α} {vertices fresh stack rest done : List α}
  {v w : α}

def Leads (next : α → List α) (v w : α) : Prop :=
  w ∈ next v

/-- The part of a stack above the topmost place of a vertex. -/
def above (v : α) (stack : List α) : List α :=
  stack.takeWhile (· != v)

@[simp] theorem above_self (v : α) (stack : List α) : above v (v :: stack) = [] := by
  simp [above]

theorem above_append (h : v ∉ stack) (rest : List α) :
    above v (stack ++ rest) = stack ++ above v rest := by
  apply List.takeWhile_append_of_pos
  intro u hu
  exact bne_iff_ne.mpr fun he => h (he ▸ hu)

theorem above_cons (h : w ≠ v) (rest : List α) : above v (w :: rest) = w :: above v rest := by
  have hout : v ∉ [w] := by simpa using h.symm
  exact above_append hout rest

/-- A vertex on the stack that is discovered and not done. -/
structure Open (fresh stack done : List α) (v : α) : Prop where
  mem : v ∈ stack
  discovered : v ∉ fresh
  unfinished : v ∉ done

/-- What a search keeps. Above an open vertex the stack holds only what it leads to, among it
everything that it leads to in one step and that is not discovered. A vertex is done after all that it
leads to, unless that leads back to it. -/
structure Ancestral (next : α → List α) (vertices fresh stack done : List α) : Prop where
  underway : Underway vertices fresh stack done
  pending : ∀ v, Open fresh stack done v → ∀ w ∈ next v, w ∈ fresh → w ∈ above v stack
  reaches : ∀ v, Open fresh stack done v → ∀ w ∈ above v stack, TransGen (Leads next) v w
  finished : ∀ after v before, done = after ++ v :: before →
    ∀ w ∈ next v, w ∈ vertices → w ∈ before ∨ TransGen (Leads next) w v

namespace Ancestral

theorem of_empty (hu : Underway vertices fresh [] done)
    (hf : ∀ after v before, done = after ++ v :: before →
      ∀ w ∈ next v, w ∈ vertices → w ∈ before ∨ TransGen (Leads next) w v) :
    Ancestral next vertices fresh [] done :=
  ⟨hu, fun _ ho => absurd ho.mem List.not_mem_nil, fun _ ho => absurd ho.mem List.not_mem_nil, hf⟩

theorem discover (h : Ancestral next vertices fresh (v :: rest) done) (hv : v ∈ fresh) :
    Ancestral next vertices (fresh.erase v)
      (((next v).filter (fresh.erase v).contains).reverse ++ v :: rest) done := by
  have hunder := h.underway
  generalize hp : ((next v).filter (fresh.erase v).contains).reverse = pushed
  have hmem : ∀ u, u ∈ pushed ↔ u ∈ next v ∧ u ∈ fresh.erase v := by simp [← hp]
  have hself : v ∉ pushed := fun hm => hunder.fresh_nodup.not_mem_erase ((hmem v).mp hm).2
  -- an open vertex other than the one that is discovered was open before, below that one
  have hold : ∀ w, w ≠ v → Open (fresh.erase v) (pushed ++ v :: rest) done w →
      Open fresh (v :: rest) done w ∧
        above w (pushed ++ v :: rest) = pushed ++ above w (v :: rest) := by
    intro w hne ho
    have hnot : w ∉ pushed := fun hm => ho.discovered ((hmem w).mp hm).2
    have hstack : w ∈ v :: rest := (List.mem_append.mp ho.mem).resolve_left hnot
    have hfresh : w ∉ fresh := fun hm => ho.discovered ((List.mem_erase_of_ne hne).mpr hm)
    exact ⟨⟨hstack, hfresh, ho.unfinished⟩, above_append hnot _⟩
  refine ⟨hp ▸ hunder.discover, fun w ho u hu hfresh => ?_, fun w ho u hu => ?_, h.finished⟩
  · by_cases hne : w = v
    · subst hne
      rw [above_append hself]
      exact List.mem_append_left _ ((hmem u).mpr ⟨hu, hfresh⟩)
    · obtain ⟨ho', habove⟩ := hold w hne ho
      rw [habove]
      exact List.mem_append_right _ (h.pending w ho' u hu (List.mem_of_mem_erase hfresh))
  · by_cases hne : w = v
    · subst hne
      rw [above_append hself, above_self, List.append_nil] at hu
      exact .single ((hmem u).mp hu).1
    · obtain ⟨ho', habove⟩ := hold w hne ho
      have hvw : v ∈ above w (v :: rest) := by
        rw [above_cons (Ne.symm hne)]
        exact .head _
      rw [habove] at hu
      rcases List.mem_append.mp hu with hu | hu
      · exact (h.reaches w ho' v hvw).tail ((hmem u).mp hu).1
      · exact h.reaches w ho' u hu

/-- What the vertex on top leads to is done, or it is open and leads to that vertex. -/
theorem done_or_reaches (h : Ancestral next vertices fresh (v :: rest) done)
    (ho : Open fresh (v :: rest) done v) (hw : w ∈ next v) (hin : w ∈ vertices) :
    w ∈ done ∨ TransGen (Leads next) w v := by
  have hfresh : w ∉ fresh := fun hf => by simpa using h.pending v ho w hw hf
  rcases (h.underway.all w).mp hin with hf | hstack | hdone
  · exact absurd hf hfresh
  · by_cases hne : w = v
    · subst hne
      exact .inr (.single hw)
    · by_cases hdone : w ∈ done
      · exact .inl hdone
      · right
        apply h.reaches w ⟨hstack, hfresh, hdone⟩
        rw [above_cons (Ne.symm hne)]
        exact .head _
  · exact .inl hdone

theorem pop (h : Ancestral next vertices fresh (v :: rest) done) (hv : v ∉ fresh) :
    Ancestral next vertices fresh rest (if done.contains v then done else v :: done) := by
  have hdone : ∀ w, w ∈ (if done.contains v then done else v :: done) ↔ w = v ∨ w ∈ done := by
    intro w
    by_cases hd : v ∈ done
    · simp only [List.contains_iff_mem.mpr hd, if_true]
      exact ⟨.inr, fun hw => hw.elim (· ▸ hd) id⟩
    · simp [hd]
  have hold : ∀ w, Open fresh rest (if done.contains v then done else v :: done) w →
      Open fresh (v :: rest) done w ∧ above w (v :: rest) = v :: above w rest := by
    intro w ho
    have hno : ¬ (w = v ∨ w ∈ done) := fun hm => ho.unfinished ((hdone w).mpr hm)
    obtain ⟨hne, hd⟩ := not_or.mp hno
    exact ⟨⟨.tail _ ho.mem, ho.discovered, hd⟩, above_cons (Ne.symm hne) _⟩
  refine ⟨h.underway.pop hv, fun w ho u hu hfresh => ?_, fun w ho u hu => ?_, ?_⟩
  · obtain ⟨ho', habove⟩ := hold w ho
    have hm := h.pending w ho' u hu hfresh
    rw [habove] at hm
    exact (List.mem_cons.mp hm).resolve_left fun he => hv (he ▸ hfresh)
  · obtain ⟨ho', habove⟩ := hold w ho
    exact h.reaches w ho' u (habove ▸ .tail _ hu)
  · intro after w before he u hu hin
    by_cases hd : v ∈ done
    · simp only [List.contains_iff_mem.mpr hd, if_true] at he
      exact h.finished after w before he u hu hin
    · simp only [List.contains_iff_mem, hd, if_false] at he
      cases after with
      | nil =>
        obtain ⟨rfl, rfl⟩ := List.cons.inj he
        exact h.done_or_reaches ⟨.head _, hv, hd⟩ hu hin
      | cons x after =>
        obtain ⟨rfl, rfl⟩ := List.cons.inj he
        exact h.finished after w before rfl u hu hin

theorem finish {fresh' done' : List α} (h : Ancestral next vertices fresh stack done)
    (hok : finish next fresh stack done = .ok (fresh', done')) :
    Ancestral next vertices fresh' [] done' := by
  fun_induction Graph.finish next fresh stack done with
  | case1 fresh done =>
    cases hok
    exact h
  | case2 fresh done v rest hv hloop => cases hok
  | case3 fresh done v rest hv hloop pushed ih => exact ih (h.discover hv) hok
  | case4 fresh done v rest hv ih => exact ih (h.pop hv) hok

theorem push (h : Ancestral next vertices fresh [] done) (hv : v ∈ fresh) :
    Ancestral next vertices fresh [v] done := by
  have hno : ∀ w, ¬ Open fresh [v] done w := fun w ho =>
    ho.discovered ((List.mem_singleton.mp ho.mem) ▸ hv)
  exact ⟨h.underway.push hv, fun w ho => absurd ho (hno w), fun w ho => absurd ho (hno w), h.finished⟩

theorem finishAll {vs order : List α} (h : Ancestral next vertices fresh [] done)
    (hok : finishAll next fresh done vs = .ok order) :
    ∃ fresh', Ancestral next vertices fresh' [] order := by
  induction vs generalizing fresh done with
  | nil =>
    cases hok
    exact ⟨fresh, h⟩
  | cons v vs ih =>
    by_cases hv : v ∈ fresh
    · simp only [Graph.finishAll, List.contains_iff_mem.mpr hv, if_true] at hok
      cases hf : Graph.finish next fresh [v] done with
      | error c => simp [hf] at hok
      | ok res =>
        simp only [hf] at hok
        exact ih ((h.push hv).finish hf) hok
    · simp only [Graph.finishAll, List.contains_iff_mem, hv, if_false] at hok
      exact ih h hok

end Ancestral

theorem finish_error (herr : finish next fresh stack done = .error v) : v ∈ next v := by
  fun_induction finish next fresh stack done with
  | case1 => cases herr
  | case2 fresh done v rest hv hloop =>
    cases herr
    exact List.contains_iff_mem.mp hloop
  | case3 fresh done v rest hv hloop pushed ih => exact ih herr
  | case4 fresh done v rest hv ih => exact ih herr

theorem finishAll_error {vs : List α} (herr : finishAll next fresh done vs = .error v) :
    v ∈ next v := by
  induction vs generalizing fresh done with
  | nil => cases herr
  | cons u vs ih =>
    rw [finishAll] at herr
    split at herr
    · split at herr
      · next hf =>
        cases herr
        exact finish_error hf
      · exact ih herr
    · exact ih herr

theorem discoverOne_error (hv : v ∈ fresh) (herr : discoverOne next fresh [v] false = .error w) :
    w ∈ next v ∧ w ∈ fresh.erase v := by
  have hrest : ∀ stack, discoverOne next (fresh.erase v) stack true = .error w →
      w ∈ stack ∧ w ∈ fresh.erase v := by
    intro stack hstack
    induction stack with
    | nil =>
      rw [discoverOne] at hstack
      cases hstack
    | cons u stack ih =>
      rw [discoverOne] at hstack
      by_cases hu : u ∈ fresh.erase v
      · simp only [hu, dif_pos, if_true, Except.error.injEq] at hstack
        subst hstack
        exact ⟨.head _, hu⟩
      · simp only [hu, dif_neg, not_false_eq_true] at hstack
        exact ⟨.tail _ (ih hstack).1, (ih hstack).2⟩
  rw [discoverOne] at herr
  simp only [hv, dif_pos, Bool.false_eq_true, if_false] at herr
  obtain ⟨hw, hfresh⟩ := hrest _ herr
  simp only [List.append_nil, List.mem_reverse, List.mem_filter] at hw
  exact ⟨hw.1, hfresh⟩

/-- An order fails the check at a vertex that leads back over it. -/
theorem checkOrder_error {order : List α} (hfresh : fresh.Nodup) (hnd : order.Nodup)
    (hin : ∀ v, v ∈ order ↔ v ∈ fresh) (herr : checkOrder next fresh order = .error w) :
    ∃ before v after, order = before ++ v :: after ∧ w ∈ after ∧ w ∈ next v := by
  induction order generalizing fresh with
  | nil => cases herr
  | cons v order ih =>
    obtain ⟨hv, hnd'⟩ := List.nodup_cons.mp hnd
    have hmem : v ∈ fresh := (hin v).mp (.head _)
    have hin' : ∀ u, u ∈ order ↔ u ∈ fresh.erase v := by
      intro u
      rw [hfresh.mem_erase_iff, ← hin u, List.mem_cons]
      exact ⟨fun hu => ⟨fun he => hv (he ▸ hu), .inr hu⟩, fun hu => hu.2.resolve_left hu.1⟩
    rw [checkOrder] at herr
    cases hd : discoverOne next fresh [v] false with
    | error c =>
      simp only [hd, Except.error.injEq] at herr
      subst herr
      obtain ⟨hnext, hleft⟩ := discoverOne_error hmem hd
      exact ⟨[], v, order, rfl, (hin' c).mpr hleft, hnext⟩
    | ok fresh' =>
      simp only [hd] at herr
      obtain ⟨rfl, -⟩ := discoverOne_ok hmem hd
      obtain ⟨before, u, after, rfl, hw, hnext⟩ := ih (hfresh.erase v) hnd' hin' herr
      exact ⟨v :: before, u, after, rfl, hw, hnext⟩

theorem mem_successors {g : Graph α} : w ∈ g.successors v ↔ (v, w) ∈ g.edges := by
  simp [successors]

theorem mem_predecessors {g : Graph α} : w ∈ g.predecessors v ↔ (w, v) ∈ g.edges := by
  simp [predecessors]

/-- The vertex at which no order is found leads back to itself. -/
theorem topologicalOrder_error {g : Graph α} (hnd : g.vertices.Nodup)
    (hedges : ∀ e ∈ g.edges, e.2 ∈ g.vertices) (herr : g.topologicalOrder = .error v) :
    TransGen (Leads g.successors) v v := by
  unfold topologicalOrder at herr
  cases hf : finishAll g.successors g.vertices [] g.vertices with
  | error c =>
    obtain rfl : c = v := by simpa [hf, bind, Except.bind] using herr
    exact .single (finishAll_error hf)
  | ok order =>
    obtain ⟨hno, hall, -⟩ := finishAll_ok (.start hnd) (fun _ hv => hv) hf
    obtain ⟨fresh, hend⟩ := (Ancestral.of_empty (.start hnd) (by simp)).finishAll hf
    cases hc : checkOrder g.predecessors g.vertices order with
    | ok u => simp [hf, hc, bind, Except.bind, pure, Except.pure] at herr
    | error c =>
      obtain rfl : c = v := by simpa [hf, hc, bind, Except.bind] using herr
      obtain ⟨before, u, after, rfl, hafter, hpred⟩ := checkOrder_error hnd hno hall hc
      have hedge := mem_predecessors.mp hpred
      obtain ⟨front, back, rfl⟩ := List.append_of_mem hafter
      -- `c` was done before `u` although it leads to `u`, so `u` leads back to `c`
      have hfinished := hend.finished (before ++ u :: front) c back (by simp) u
        (mem_successors.mpr hedge) (hedges _ hedge)
      have hearlier : u ∉ back := by
        intro hu
        have hrest := (List.nodup_append.mp hno).2.1
        exact (List.nodup_cons.mp hrest).1 (by simp [hu])
      exact .head (mem_successors.mpr hedge) (hfinished.resolve_left hearlier)

theorem idxOf_lt_of_pairwise {R : α → α → Prop} {order : List α}
    (h : order.Pairwise fun u v => ¬ R v u) (hv : v ∈ order) (hw : w ∈ order) (hne : v ≠ w)
    (hr : R v w) : order.idxOf v < order.idxOf w := by
  have hv' := List.idxOf_lt_length_iff.mpr hv
  have hw' := List.idxOf_lt_length_iff.mpr hw
  rcases Nat.lt_trichotomy (order.idxOf v) (order.idxOf w) with hlt | heq | hgt
  · exact hlt
  · exact absurd ((List.idxOf_inj hv).mp heq) hne
  · have hno := List.pairwise_iff_getElem.mp h _ _ hw' hv' hgt
    rw [List.getElem_idxOf, List.getElem_idxOf] at hno
    exact absurd hr hno

theorem topologicalOrder_forwards {g : Graph α} {order : List α} (hnd : g.vertices.Nodup)
    (hedges : ∀ e ∈ g.edges, e.1 ∈ g.vertices ∧ e.2 ∈ g.vertices)
    (hok : g.topologicalOrder = .ok order) {u w : α} (he : (u, w) ∈ g.edges) :
    order.idxOf u < order.idxOf w := by
  obtain ⟨hperm, hforwards, hloops⟩ := topologicalOrder_ok hnd hok
  obtain ⟨hu, hw⟩ := hedges _ he
  have hne : u ≠ w := by
    rintro rfl
    exact hloops u hu he
  exact idxOf_lt_of_pairwise (R := fun a b => (a, b) ∈ g.edges) hforwards
    (hperm.mem_iff.mpr hu) (hperm.mem_iff.mpr hw) hne he

theorem topologicalOrder_acyclic {g : Graph α} {order : List α} (hnd : g.vertices.Nodup)
    (hedges : ∀ e ∈ g.edges, e.1 ∈ g.vertices ∧ e.2 ∈ g.vertices)
    (hok : g.topologicalOrder = .ok order) : ¬ TransGen (Leads g.successors) v v := by
  have hlt : ∀ u w, TransGen (Leads g.successors) u w → order.idxOf u < order.idxOf w := by
    intro u w hr
    induction hr with
    | single hl => exact topologicalOrder_forwards hnd hedges hok (mem_successors.mp hl)
    | tail _ hl ih =>
      exact Nat.lt_trans ih (topologicalOrder_forwards hnd hedges hok (mem_successors.mp hl))
  exact fun hr => Nat.lt_irrefl _ (hlt v v hr)

theorem reach_sound (h : w ∈ reach next fresh stack) :
    ∃ v ∈ stack, ReflTransGen (Leads next) v w := by
  fun_induction reach next fresh stack with
  | case1 => cases h
  | case2 fresh v rest hv ih =>
    rcases List.mem_cons.mp h with rfl | h
    · exact ⟨w, .head _, .refl⟩
    · obtain ⟨u, hu, hr⟩ := ih h
      rcases List.mem_append.mp hu with hu | hu
      · exact ⟨v, .head _, hr.head hu⟩
      · exact ⟨u, .tail _ hu, hr⟩
  | case3 fresh v rest hv ih =>
    obtain ⟨u, hu, hr⟩ := ih h
    exact ⟨u, .tail _ hu, hr⟩

theorem mem_reach_self (h : v ∈ fresh) : v ∈ reach next fresh [v] := by
  rw [reach, dif_pos h]
  exact .head _

/-- The vertices of a component lead to each other. -/
theorem component_sound {g : Graph α} (h : w ∈ g.component v) :
    ReflTransGen (Leads g.successors) v w ∧ ReflTransGen (Leads g.successors) w v := by
  simp only [component, List.mem_filter, Bool.and_eq_true, List.contains_iff_mem] at h
  obtain ⟨-, hforwards, hbackwards⟩ := h
  obtain ⟨u, hu, hr⟩ := reach_sound hforwards
  obtain ⟨u', hu', hr'⟩ := reach_sound hbackwards
  obtain rfl := List.mem_singleton.mp hu
  obtain rfl := List.mem_singleton.mp hu'
  have hswap : Leads g.predecessors ≤ Function.swap (Leads g.successors) :=
    fun a b hab => mem_successors.mpr (mem_predecessors.mp hab)
  exact ⟨hr, reflTransGen_swap.mp (ReflTransGen.mono hswap _ _ hr')⟩

theorem mem_component_self {g : Graph α} (h : v ∈ g.vertices) : v ∈ g.component v := by
  simp [component, h, mem_reach_self h]

end Graph

namespace Registry

/-- A registered generic lists another one as a dependency. -/
def DependsOn (r : Registry) (n d : String) : Prop :=
  ∃ g ∈ r.generics, g.name = n ∧ d ∈ g.dependencies ∧ d ∈ r.names

theorem dependsOn_iff {r : Registry} {n d : String} :
    r.DependsOn n d ↔ (d, n) ∈ r.graph.edges := by
  simp [DependsOn, graph, get?_isSome_iff, and_comm, and_left_comm]

theorem dependsOn_eq (r : Registry) :
    r.DependsOn = Function.swap (Graph.Leads r.graph.successors) := by
  funext n d
  exact propext (dependsOn_iff.trans Graph.mem_successors.symm)

theorem edges_registered {r : Registry} (e : String × String) (he : e ∈ r.graph.edges) :
    e.1 ∈ r.graph.vertices ∧ e.2 ∈ r.graph.vertices := by
  obtain ⟨g, hg, hn, -, hd⟩ := dependsOn_iff.mpr he
  exact ⟨hd, hn ▸ List.mem_map_of_mem hg⟩

theorem mem_closedWalk {name : String} {names : List String} :
    name ∈ closedWalk names ↔ name ∈ names := by
  refine Iff.trans ?_ mem_nameSet
  unfold closedWalk
  rw [List.mem_append, Option.mem_toList]
  exact ⟨fun h => h.elim id List.mem_of_mem_head?, .inl⟩

/-- An order of the generics is found exactly if none of them depends on itself, directly or through
others. It holds every generic once and has its dependencies before it. Otherwise generics are
reported that all depend on each other. -/
theorem dependencyOrder_correct {r : Registry} (hnd : r.names.Nodup) :
    ((∃ order, r.dependencyOrder = .ok order) ↔ ∀ n, ¬ TransGen r.DependsOn n n) ∧
    (∀ order, r.dependencyOrder = .ok order → order.Perm r.names ∧
      ∀ n d, r.DependsOn n d → order.idxOf d < order.idxOf n) ∧
    ∀ e, r.dependencyOrder = .error e → ∃ names, e = .dependencyCycle names ∧ names ≠ [] ∧
      ∀ n ∈ names, ∀ m ∈ names, TransGen r.DependsOn n m := by
  have hleads : ∀ n m, TransGen r.DependsOn n m ↔
      TransGen (Graph.Leads r.graph.successors) m n := by
    intro n m
    rw [r.dependsOn_eq]
    exact transGen_swap
  cases ht : r.graph.topologicalOrder with
  | ok order =>
    have hdep : r.dependencyOrder = .ok order := by simp [dependencyOrder, ht]
    refine ⟨iff_of_true ⟨order, hdep⟩ fun n hn => ?_, fun order' ho => ?_, fun e he => ?_⟩
    · exact Graph.topologicalOrder_acyclic hnd edges_registered ht ((hleads n n).mp hn)
    · obtain rfl : order = order' := Except.ok.inj (hdep.symm.trans ho)
      refine ⟨(Graph.topologicalOrder_ok hnd ht).1, fun n d hd => ?_⟩
      exact Graph.topologicalOrder_forwards hnd edges_registered ht (dependsOn_iff.mp hd)
    · cases hdep.symm.trans he
  | error v =>
    have hdep : r.dependencyOrder = .error (.dependencyCycle (closedWalk (r.graph.component v))) := by
      simp [dependencyOrder, ht]
    have hcycle := Graph.topologicalOrder_error hnd (fun e he => (edges_registered e he).2) ht
    refine ⟨iff_of_false ?_ fun hno => hno v ((hleads v v).mpr hcycle), fun order ho => ?_,
      fun e he => ?_⟩
    · rintro ⟨order, ho⟩
      cases hdep.symm.trans ho
    · cases hdep.symm.trans ho
    · obtain rfl := Except.error.inj (hdep.symm.trans he)
      obtain ⟨w, hw, -⟩ := TransGen.head'_iff.mp hcycle
      have hv : v ∈ r.graph.vertices := (edges_registered _ (Graph.mem_successors.mp hw)).1
      have hself : v ∈ closedWalk (r.graph.component v) :=
        mem_closedWalk.mpr (Graph.mem_component_self hv)
      refine ⟨_, rfl, List.ne_nil_of_mem hself, fun n hn m hm => (hleads n m).mpr ?_⟩
      have hn := (Graph.component_sound (mem_closedWalk.mp hn)).1
      have hm := (Graph.component_sound (mem_closedWalk.mp hm)).2
      exact (TransGen.trans_right hm hcycle).trans_left hn

/-- Two generics that depend on each other, and a third one that depends on them. -/
def ring : Registry where
  generics := [.bare "A" "a" .forbidden ["B"], .bare "B" "b" .forbidden ["A"],
    .bare "C" "c" .forbidden ["A"]]

theorem ring_refused : ring.names.Nodup ∧
    ring.dependencyOrder = .error (.dependencyCycle ["A", "B", "A"]) ∧
    TransGen ring.DependsOn "A" "A" ∧ TransGen ring.DependsOn "B" "A" := by
  have hnd : ring.names.Nodup := by decide
  have hrefused : ring.dependencyOrder = .error (.dependencyCycle ["A", "B", "A"]) := by cbv
  obtain ⟨-, -, hreported⟩ := dependencyOrder_correct hnd
  obtain ⟨names, he, -, hall⟩ := hreported _ hrefused
  obtain rfl := BindError.dependencyCycle.inj he
  exact ⟨hnd, hrefused, hall "A" (by decide) "A" (by decide), hall "B" (by decide) "A" (by decide)⟩

end Registry

end Bindery
