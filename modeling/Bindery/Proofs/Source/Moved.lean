import Bindery.Proofs.Source.Parameters

/-! Recovered parameters without their places, which are the same behind other text. -/

namespace Bindery

/-- What is recovered of a parameter apart from its offsets. -/
structure Outline where
  name : String
  nested : Option (List Outline)

namespace ParamText

variable {cs rest : List Char} {offset : Nat}

mutual

def outline : ParamText → Outline
  | ⟨name, _, _, none⟩ => ⟨name, none⟩
  | ⟨name, _, _, some ps⟩ => ⟨name, some (outlines ps)⟩

def outlines : List ParamText → List Outline
  | [] => []
  | p :: ps => p.outline :: outlines ps

end

mutual

def moved (n : Nat) : ParamText → ParamText
  | ⟨name, start, nameOffset, none⟩ => ⟨name, start + n, nameOffset + n, none⟩
  | ⟨name, start, nameOffset, some ps⟩ => ⟨name, start + n, nameOffset + n, some (allMoved n ps)⟩

def allMoved (n : Nat) : List ParamText → List ParamText
  | [] => []
  | p :: ps => p.moved n :: allMoved n ps

end

theorem allMoved_eq (n : Nat) (ps : List ParamText) : allMoved n ps = ps.map (moved n) := by
  induction ps with
  | nil => rfl
  | cons p ps ih => rw [allMoved, ih, List.map_cons]

theorem moved_eq (n : Nat) (p : ParamText) : p.moved n =
    ⟨p.name, p.start + n, p.nameOffset + n, p.nested.map (allMoved n)⟩ := by
  obtain ⟨name, start, nameOffset, _ | ps⟩ := p <;> rfl

theorem outline_eq (p : ParamText) : p.outline = ⟨p.name, p.nested.map outlines⟩ := by
  obtain ⟨name, start, nameOffset, _ | ps⟩ := p <;> rfl

mutual

theorem outline_moved (n : Nat) : ∀ p : ParamText, (p.moved n).outline = p.outline
  | ⟨_, _, _, none⟩ => rfl
  | ⟨_, _, _, some ps⟩ => by
    rw [moved, outline, outline, outlines_moved n ps]

theorem outlines_moved (n : Nat) : ∀ ps : List ParamText, outlines (allMoved n ps) = outlines ps
  | [] => rfl
  | p :: ps => by
    rw [allMoved, outlines, outlines, outline_moved n p, outlines_moved n ps]

end

theorem wordsAt_moved (n offset : Nat) (cs : List Char) :
    wordsAt (offset + n) cs = (wordsAt offset cs).map fun w => (w.1, w.2 + n) := by
  fun_induction wordsAt offset cs with
  | case1 => rw [wordsAt]; rfl
  | case2 offset rest after ih => rw [wordsAt, Nat.add_right_comm, ih]
  | case3 offset rest after hg ih =>
    rw [wordsAt]
    split
    next hg' =>
      cases hg.symm.trans hg'
      rw [Nat.add_right_comm, ih]
    next hnone => cases hg.symm.trans hnone
  | case4 offset rest hg =>
    rw [wordsAt]
    split
    next hsome => cases hg.symm.trans hsome
    next => rfl
  | case5 offset c rest hopen hbracket hc name ih =>
    rw [wordsAt, if_pos hc]
    · dsimp only
      rw [Nat.add_right_comm, ih]
      rfl
    · exact hopen
    · exact hbracket
  | case6 offset c rest hopen hbracket hc ih =>
    rw [wordsAt, if_neg hc, Nat.add_right_comm, ih]
    · exact hopen
    · exact hbracket

theorem declaredName_moved (n : Nat) (body : List Char) (words : List (String × Nat)) :
    declaredName body (words.map fun w => (w.1, w.2 + n)) =
      (declaredName body words).map fun w => (w.1, w.2 + n) := by
  rw [declaredName, declaredName, ← List.map_reverse]
  rcases words.reverse with _ | ⟨last, _ | ⟨previous, more⟩⟩
  · rfl
  · rfl
  · dsimp only [List.map_cons]
    rw [apply_ite (Option.map fun w : String × Nat => (w.1, w.2 + n))]
    rfl

theorem plain_moved (n start : Nat) (body : List Char) :
    plain (start + n) body = (plain start body).moved n := by
  rw [plain, plain, wordsAt_moved, declaredName_moved]
  cases declaredName body (wordsAt start body) with
  | none =>
    dsimp only [Option.map_none, moved]
    congr 1
    omega
  | some name => rfl

theorem isVoidList_moved (n offset : Nat) (cs : List Char) (ps : List ParamText) :
    isVoidList (offset + n) cs (allMoved n ps) = isVoidList offset cs ps := by
  rcases ps with _ | ⟨p, _ | ⟨q, ps⟩⟩
  · rfl
  · have htype : typeText (offset + n) cs (p.moved n) = typeText offset cs p := by
      rw [moved_eq, typeText, Nat.add_sub_add_right, Nat.add_sub_add_right]
      rfl
    have hname : (p.moved n).name = p.name := by rw [moved_eq]
    rw [allMoved, allMoved, isVoidList, isVoidList, htype, hname]
  · rfl

def RecoverMoved (n offset : Nat) (cs : List Char) : Prop :=
  recoverFrom (offset + n) cs = (recoverFrom offset cs).map (allMoved n)

def ListedMoved (n offset : Nat) (cs : List Char) : Prop :=
  listed (offset + n) cs = allMoved n (listed offset cs)

def PieceMoved (n offset : Nat) (cs : List Char) : Prop :=
  piece (offset + n) cs = (piece offset cs).map (moved n)

theorem recoverMoved_closed {n : Nat} {inside : List Char}
    (hb : listBody cs = some (inside ++ ')' :: rest))
    (hg : afterGroup '(' ')' 0 (inside ++ ')' :: rest) = some rest)
    (ih : ListedMoved n (offset + byteLength (before cs (inside ++ ')' :: rest))) inside) :
    RecoverMoved n offset cs := by
  rw [RecoverMoved, recoverFrom_closed hb hg, recoverFrom_closed hb hg, Nat.add_right_comm, ih,
    isVoidList_moved, Option.map_some]
  congr 1
  split <;> rfl

theorem listedMoved_parted {n : Nat} {first : List Char}
    (hc : fromComma 0 (first ++ ',' :: rest) = ',' :: rest) (ihp : PieceMoved n offset first)
    (ihl : ListedMoved n (offset + byteLength first + 1) rest) :
    ListedMoved n offset (first ++ ',' :: rest) := by
  have hplace : offset + n + byteLength first + 1 = offset + byteLength first + 1 + n := by omega
  rw [ListedMoved, listed_parted hc, listed_parted hc, hplace, ihp, ihl, allMoved_eq, allMoved_eq,
    List.map_append, Option.toList_map]

theorem pieceMoved_vacant {n : Nat} (hempty : Vacant cs) : PieceMoved n offset cs := by
  rw [PieceMoved, piece_vacant hempty, piece_vacant hempty]
  rfl

theorem pieceMoved_unstarred {n : Nat} (hfull : ¬Vacant cs)
    (hs : splitStar (trimEnd (trimStart cs)) = none) : PieceMoved n offset cs := by
  rw [PieceMoved, piece_unstarred hfull hs, piece_unstarred hfull hs, Nat.add_right_comm, plain_moved,
    Option.map_some]

theorem pieceMoved_pointer {n : Nat} {head behind : List Char} (hfull : ¬Vacant cs)
    (hs : splitStar (trimEnd (trimStart cs)) = some (head, behind))
    (ih : RecoverMoved n
      (offset + byteLength (before cs (trimStart cs)) +
        byteLength (before (trimStart cs) (fromName head cs)) +
        byteLength ((fromName head cs).takeWhile isNameChar))
      ((fromName head cs).dropWhile isNameChar)) : PieceMoved n offset cs := by
  have hplace : ∀ a b c, offset + n + a + b + c = offset + a + b + c + n := fun a b c => by omega
  rw [PieceMoved, piece_pointer hfull hs, piece_pointer hfull hs]
  dsimp only
  rw [hplace, ih]
  split
  · rw [Option.map_some, moved_eq]
    dsimp only
    congr 2 <;> omega
  · rw [Option.map_some, moved_eq]
    dsimp only
    congr 2 <;> omega

theorem moves (n : Nat) : (∀ offset cs, RecoverMoved n offset cs) ∧
    (∀ offset cs, ListedMoved n offset cs) ∧ ∀ offset cs, PieceMoved n offset cs := by
  apply recover_induct
  case absent =>
    intro offset cs hb
    rw [RecoverMoved, recoverFrom_none hb, recoverFrom_none hb]
    rfl
  case unclosed =>
    intro offset cs body hb hg
    rw [RecoverMoved, recoverFrom_unclosed hb hg, recoverFrom_unclosed hb hg]
    rfl
  case closed => exact fun _ _ _ _ hb hg ih => recoverMoved_closed hb hg ih
  case single =>
    intro offset cs hc ih
    rw [ListedMoved, listed_single hc, listed_single hc, ih, allMoved_eq, Option.toList_map]
  case parted => exact fun _ _ _ hc ihp ihl => listedMoved_parted hc ihp ihl
  case vacant => exact fun _ _ hempty => pieceMoved_vacant hempty
  case unstarred => exact fun _ _ hfull hs => pieceMoved_unstarred hfull hs
  case pointer => exact fun _ _ _ _ hfull hs ih => pieceMoved_pointer hfull hs ih

theorem recoverFrom_moved (n offset : Nat) (cs : List Char) :
    recoverFrom (offset + n) cs = (recoverFrom offset cs).map (allMoved n) :=
  (moves n).1 offset cs

theorem listed_moved (n offset : Nat) (cs : List Char) :
    listed (offset + n) cs = allMoved n (listed offset cs) :=
  (moves n).2.1 offset cs

end ParamText

end Bindery
