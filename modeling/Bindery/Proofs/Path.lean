import Bindery.Path

/-! Paths by the names in them. Both kinds of slashes separate names. -/

namespace Bindery.Path

def isSeparator (c : Char) : Bool :=
  c == '/' || c == '\\'

/-- Whether a piece between separators is no name. -/
def isIdlePiece (piece : List Char) : Bool :=
  piece.isEmpty || piece == ['.']

def names (path : List Char) : List (List Char) :=
  (path.splitOnP isSeparator).filter (!isIdlePiece ·)

/-- The root or the dot at the front of a path, if there is one. -/
def front (path : List Char) : List (List Char) :=
  ((path.splitOnP isSeparator).head?.filter isIdlePiece).toList

def components (path : String) : List (List Char) :=
  front path.toList ++ names path.toList

/-- One path is the end of the other. -/
def Related (p q : String) : Prop :=
  components p <:+ components q ∨ components q <:+ components p

variable {cs : List Char} {c : Char} {path name : String}

theorem names_append (hc : isSeparator c) (dir rest : List Char) :
    names (dir ++ c :: rest) = names dir ++ names rest := by
  rw [names, List.splitOnP_append_cons _ _ hc, List.filter_append]
  rfl

theorem front_append (hc : isSeparator c) (dir rest : List Char) :
    front (dir ++ c :: rest) = front dir := by
  rw [front, List.splitOnP_append_cons _ _ hc]
  obtain ⟨piece, pieces, hdir⟩ := List.exists_cons_of_ne_nil (List.splitOnP_ne_nil isSeparator dir)
  simp [front, hdir]

theorem names_segments (cs : List Char) :
    names cs = (segments cs).flatMap fun segment => names segment.toList := by
  fun_induction segments cs with
  | case1 cs h => simp
  | case2 cs c rest h ih =>
    have hcs : cs = cs.takeWhile (· != '/') ++ c :: rest := by
      rw [← h, List.takeWhile_append_dropWhile]
    have hslash : c = '/' := by
      have hstop := List.head?_dropWhile_not (· != '/') cs
      simpa [h] using hstop
    have hc : isSeparator c := by rw [hslash]; rfl
    rw [List.flatMap_cons, ← ih, String.toList_ofList, ← names_append hc, ← hcs]

theorem names_of_isIdle {segment : String} (h : isIdle segment) : names segment.toList = [] := by
  rcases Bool.or_eq_true_iff.mp h with h | h
  · rw [String.isEmpty_iff.mp h]
    rfl
  · rw [eq_of_beq h]
    rfl

theorem names_suffix (path : String) : names path.toList <:+ components path :=
  List.suffix_append _ _

/-- The front of a path and the names behind it are its parts between slashes. -/
theorem split_segments (path : String) :
    (split path).1 ++ (split path).2.reverse = segments path.toList := by
  unfold split
  split
  · split <;> simp [*]
  · simp [*]

/-- The name of a file stands at the end of its path. -/
theorem names_fileName (h : fileName? path = some name) :
    ∃ dir, names path.toList = dir ++ names name.toList := by
  have hhead : ((split path).2.dropWhile isIdle).head? = some name :=
    (Option.filter_eq_some_iff.mp h).1
  obtain ⟨more, hmore⟩ := List.head?_eq_some_iff.mp hhead
  have hsplit : (split path).2 = (split path).2.takeWhile isIdle ++ name :: more := by
    rw [← hmore, List.takeWhile_append_dropWhile]
  -- what is left out behind the name holds no names
  have hidle : ((split path).2.takeWhile isIdle).reverse.flatMap (fun s => names s.toList) = [] := by
    refine List.flatMap_eq_nil_iff.mpr fun s hs => names_of_isIdle ?_
    exact List.all_eq_true.mp List.all_takeWhile s (List.mem_reverse.mp hs)
  have hsegments : segments path.toList = ((split path).1 ++ more.reverse) ++ name ::
      ((split path).2.takeWhile isIdle).reverse := by
    have hreverse := congrArg List.reverse hsplit
    rw [← split_segments, hreverse]
    simp
  refine ⟨((split path).1 ++ more.reverse).flatMap fun s => names s.toList, ?_⟩
  rw [names_segments, hsegments, List.flatMap_append, List.flatMap_cons, hidle, List.append_nil]

end Bindery.Path
