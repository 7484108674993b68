/-! Ordering the vertices of a finite graph so that every edge goes forwards, by depth first search.
The vertices not yet discovered are kept as a list, which every step of a search shortens. -/

namespace Bindery

/-- A finite graph with its vertices and its edges in the order in which they were added. -/
structure Graph (α : Type) where
  vertices : List α
  edges : List (α × α)

namespace Graph

variable {α : Type} [DecidableEq α]

/-- The ends of the edges that leave a vertex, the newest first. -/
def successors (g : Graph α) (v : α) : List α :=
  (g.edges.reverse.filter (·.1 == v)).map (·.2)

/-- The starts of the edges that reach a vertex, the newest first. -/
def predecessors (g : Graph α) (v : α) : List α :=
  (g.edges.reverse.filter (·.2 == v)).map (·.1)

/-- A search that notes each vertex when all that was put on the stack after it is done. `fresh` are
the undiscovered vertices and `done` the finished ones, the last one first. A vertex with an edge to
itself ends the search. -/
def finish (next : α → List α) (fresh stack done : List α) : Except α (List α × List α) :=
  match stack with
  | [] => .ok (fresh, done)
  | v :: rest =>
    if _h : v ∈ fresh then
      if (next v).contains v then .error v
      else
        let pushed := ((next v).filter (fresh.erase v).contains).reverse
        finish next (fresh.erase v) (pushed ++ v :: rest) done
    else finish next fresh rest (if done.contains v then done else v :: done)
termination_by (fresh.length, stack.length)
decreasing_by
  · have h₁ := List.length_erase_of_mem _h
    have h₂ := List.length_pos_of_mem _h
    exact Prod.Lex.left _ _ (by omega)
  · exact Prod.Lex.right _ (by simp)

/-- Finishes every vertex of a list in turn. -/
def finishAll (next : α → List α) (fresh done : List α) : List α → Except α (List α)
  | [] => .ok done
  | v :: vs =>
    if fresh.contains v then
      match finish next fresh [v] done with
      | .error c => .error c
      | .ok (fresh, done) => finishAll next fresh done vs
    else finishAll next fresh done vs

/-- A search that discovers at most one vertex; a second one is an error. -/
def discoverOne (next : α → List α) (fresh stack : List α) (found : Bool) : Except α (List α) :=
  match stack with
  | [] => .ok fresh
  | v :: rest =>
    if _h : v ∈ fresh then
      if found then .error v
      else
        let pushed := ((next v).filter (fresh.erase v).contains).reverse
        discoverOne next (fresh.erase v) (pushed ++ rest) true
    else discoverOne next fresh rest found
termination_by (fresh.length, stack.length)
decreasing_by
  · have h₁ := List.length_erase_of_mem _h
    have h₂ := List.length_pos_of_mem _h
    exact Prod.Lex.left _ _ (by omega)
  · exact Prod.Lex.right _ (by simp)

/-- Whether every vertex of an order finds all before it discovered already. -/
def checkOrder (next : α → List α) (fresh : List α) : List α → Except α Unit
  | [] => .ok ()
  | v :: vs =>
    match discoverOne next fresh [v] false with
    | .error c => .error c
    | .ok fresh => checkOrder next fresh vs

/-- An order in which every edge goes forwards, or a vertex on a cycle. -/
def topologicalOrder (g : Graph α) : Except α (List α) := do
  let order ← finishAll g.successors g.vertices [] g.vertices
  checkOrder g.predecessors g.vertices order
  pure order

/-- The vertices among `fresh` that a search from the stack discovers. -/
def reach (next : α → List α) (fresh stack : List α) : List α :=
  match stack with
  | [] => []
  | v :: rest =>
    if _h : v ∈ fresh then v :: reach next (fresh.erase v) (next v ++ rest)
    else reach next fresh rest
termination_by (fresh.length, stack.length)
decreasing_by
  · have h₁ := List.length_erase_of_mem _h
    have h₂ := List.length_pos_of_mem _h
    exact Prod.Lex.left _ _ (by omega)
  · exact Prod.Lex.right _ (by simp)

/-- The vertices from which `v` is reached and that are reached from it. -/
def component (g : Graph α) (v : α) : List α :=
  let forwards := reach g.successors g.vertices [v]
  let backwards := reach g.predecessors g.vertices [v]
  g.vertices.filter fun w => forwards.contains w && backwards.contains w

end Graph

end Bindery
