import Bindery.Proofs.Source.Ordered

/-! The search by offsets ends without a fault behind every place between two characters. -/

namespace Bindery

namespace Search

open ParamText (Vacant before recoverFrom listed listBody listBody_opened afterGroup fromComma fromName
  isNameChar splitStar trimEnd_initial declaredName wordsAt isVoidList typeText)

variable {text cs rest body : List Char} {i stop start steps : Nat}

def RecoverRuns (offset : Nat) (cs : List Char) : Prop :=
  ∀ text steps, Cut text offset (byteLength text) cs → byteLength text < offset + steps →
    recover steps text offset = pure (recoverFrom offset cs)

/-- The parameters in the parts of a list. -/
def pieces (steps : Nat) (text : List Char) (parts : List (Nat × Nat)) : Search (List ParamText) :=
  parts.filterMapM fun part => piece (recover steps) (steps + 1) text part.1 part.2

def ListedRuns (offset : Nat) (cs : List Char) : Prop :=
  ∀ text stop steps, Cut text offset stop cs → stop < offset + steps →
    ∀ n, stop < offset + n → ∃ parts, split n text stop 0 offset offset = pure parts ∧
      pieces steps text parts = pure (listed offset cs)

def PieceRuns (offset : Nat) (cs : List Char) : Prop :=
  ∀ text stop steps, Cut text offset stop cs → stop < offset + steps →
    piece (recover steps) (steps + 1) text offset stop = pure (ParamText.piece offset cs)

theorem Cut.first {a b : List Char} (h : Cut text i stop cs) (hparts : a ++ b = cs) :
    Cut text i (i + byteLength a) a := by
  subst hparts
  exact h.head

theorem Cut.second {a b : List Char} (h : Cut text i stop cs) (hparts : a ++ b = cs) :
    Cut text (i + byteLength a) stop b := by
  subst hparts
  exact h.tail

theorem pieces_nil (steps : Nat) (text : List Char) : pieces steps text [] = pure [] :=
  List.filterMapM_nil

theorem pieces_cons {param : Option ParamText} {params : List ParamText} {parts : List (Nat × Nat)}
    (hpiece : piece (recover steps) (steps + 1) text start stop = pure param)
    (hpieces : pieces steps text parts = pure params) :
    pieces steps text ((start, stop) :: parts) = pure (param.toList ++ params) := by
  rw [pieces, List.filterMapM_cons, hpiece, pure_bind]
  cases param with
  | none => exact hpieces
  | some param =>
    dsimp only
    rw [← pieces, hpieces, pure_bind]
    rfl

theorem listedRuns_single (hc : fromComma 0 cs = []) (ih : PieceRuns i cs) : ListedRuns i cs := by
  intro text stop steps h hsteps n hn
  refine ⟨_, h.split_last hn hc, ?_⟩
  rw [pieces_cons (ih text stop steps h hsteps) (pieces_nil steps text), List.append_nil, ParamText.listed_single hc]

theorem listedRuns_parted {first : List Char} (hc : fromComma 0 (first ++ ',' :: rest) = ',' :: rest)
    (ihp : PieceRuns i first) (ihl : ListedRuns (i + byteLength first + 1) rest) :
    ListedRuns i (first ++ ',' :: rest) := by
  intro text stop steps h hsteps n hn
  obtain ⟨n, hleft, hsplit⟩ := h.split_comma hn hc i
  have hone : ','.utf8Size = 1 := utf8Size_ascii (by decide)
  have hnext := h.tail.next
  have hstop := hnext.stop_eq
  rw [hone] at hnext hstop
  have hcomma : stop - byteLength (',' :: rest) = i + byteLength first := by
    rw [byteLength, hone]
    omega
  have hrest : stop - byteLength rest = i + byteLength first + 1 := by omega
  rw [hrest] at hleft
  obtain ⟨parts, hparts, hpieces⟩ := ihl text stop steps hnext (by omega) n hleft
  rw [hcomma, hrest, hparts, pure_bind] at hsplit
  refine ⟨_, hsplit, ?_⟩
  rw [pieces_cons (ihp text _ steps h.head (by omega)) hpieces, ParamText.listed_parted hc]

theorem recoverRuns_absent (hb : listBody cs = none) : RecoverRuns i cs := by
  intro text steps h hsteps
  obtain ⟨steps, rfl, -⟩ := h.step hsteps
  rw [recover, h.listStart_eq rfl hsteps, hb, ParamText.recoverFrom_none hb]
  rfl

/-- The parenthesis that opens the list. -/
theorem cut_opening (h : Cut text i stop cs) (hb : listBody cs = some body) :
    i ≤ stop - byteLength body - 1 ∧ Cut text (stop - byteLength body - 1) stop ('(' :: body) := by
  have hcut := h.suffix (listBody_opened hb)
  have hplace : stop - byteLength ('(' :: body) = stop - byteLength body - 1 := by
    rw [byteLength, utf8Size_ascii (by decide)]
    omega
  have hlater := h.place hcut (listBody_opened hb)
  exact ⟨by omega, hplace ▸ hcut⟩

theorem recoverRuns_unclosed (hb : listBody cs = some body)
    (hg : afterGroup '(' ')' 0 body = none) : RecoverRuns i cs := by
  intro text steps h hsteps
  obtain ⟨hlater, hopening⟩ := cut_opening h hb
  obtain ⟨steps, rfl, hle⟩ := h.step hsteps
  have hleft : byteLength text < byteLength text - byteLength body - 1 + (steps + 1) := by omega
  rw [recover, h.listStart_eq rfl hsteps, hb, Option.map_some, pure_bind]
  dsimp only
  rw [hopening.matching_group rfl (.inl ⟨rfl, rfl⟩) hleft, hg, ParamText.recoverFrom_unclosed hb hg]
  rfl

theorem nil_of_byteLength (h : byteLength cs = 0) : cs = [] := by
  cases cs with
  | nil => rfl
  | cons c cs =>
    have hpos := Char.utf8Size_pos c
    rw [byteLength] at h
    omega

/-- What a text holds within a part of it is in that part. -/
theorem span_inside {part : List Char} (h : Span 0 text start cs) (hpart : Span 0 text i part)
    (hle : start ≤ i) (hend : i + byteLength part ≤ start + byteLength cs) :
    Span start cs i part := by
  obtain ⟨front, back, rfl, hfront⟩ := h
  obtain ⟨front', back', htext, hfront'⟩ := hpart
  have hfronts : front <+: front' := by
    rw [List.append_assoc, List.append_assoc] at htext
    rcases List.append_eq_append_iff.mp htext with ⟨gap, hgap, -⟩ | ⟨gap, hgap, -⟩
    · exact ⟨gap, hgap.symm⟩
    · have hlength := congrArg byteLength hgap
      rw [byteLength_append] at hlength
      have hnil : gap = [] := nil_of_byteLength (by omega)
      exact ⟨[], by rw [hgap, hnil, List.append_nil, List.append_nil]⟩
  obtain ⟨gap, rfl⟩ := hfronts
  simp only [List.append_assoc, List.append_cancel_left_eq] at htext
  rw [← List.append_assoc] at htext
  obtain ⟨behind, hbehind⟩ : gap ++ part <+: cs := by
    rcases List.append_eq_append_iff.mp htext with ⟨more, hmore, -⟩ | ⟨more, hmore, -⟩
    · have hlength := congrArg byteLength hmore
      rw [byteLength_append, byteLength_append] at hlength
      rw [byteLength_append] at hfront'
      have hnil : more = [] := nil_of_byteLength (by omega)
      exact ⟨[], by rw [hmore, hnil, List.append_nil, List.append_nil]⟩
    · exact ⟨more, hmore.symm⟩
  refine ⟨gap, behind, hbehind.symm, ?_⟩
  rw [byteLength_append] at hfront'
  omega

/-- The text of the type of a single parameter is cut out of the whole text as out of the list. -/
theorem slice_typeText {p : ParamText} (h : Cut text start stop cs)
    (hp : ParamText.InOrder text start stop [p]) :
    slice text p.start p.nameOffset = pure (typeText start cs p) := by
  obtain ⟨name, place, nameOffset, nested⟩ := p
  obtain _ | ⟨first, rest⟩ := hp
  obtain ⟨hle⟩ := rest
  obtain @⟨_, _, _, type, -, -, hstart, htype, hoffset, -, hend, -, -, -, -, -⟩ := first
  dsimp only at hstart htype hoffset hend
  have hstop := h.stop_eq
  have hinside := span_inside h.span htype hstart (by omega)
  rw [hoffset, (Cut.of_span htype).slice_eq, ParamText.typeText_span hinside]

theorem recoverRuns_closed {inside : List Char} (hb : listBody cs = some (inside ++ ')' :: rest))
    (hg : afterGroup '(' ')' 0 (inside ++ ')' :: rest) = some rest)
    (ih : ListedRuns (i + byteLength (before cs (inside ++ ')' :: rest))) inside) :
    RecoverRuns i cs := by
  intro text steps h hsteps
  rw [ParamText.recoverFrom_closed hb hg]
  obtain ⟨hlater, hopening⟩ := cut_opening h hb
  obtain ⟨steps, rfl, hle⟩ := h.step hsteps
  have hleft : byteLength text <
      byteLength text - byteLength (inside ++ ')' :: rest) - 1 + (steps + 1) := by omega
  have hbody := hopening.next
  have hplace := h.place hbody (ParamText.listBody_suffix hb)
  have hsize : '('.utf8Size = 1 := utf8Size_ascii (by decide)
  rw [hsize] at hplace hbody
  rw [hplace] at hbody
  generalize hstart : i + byteLength (before cs (inside ++ ')' :: rest)) = start at ih hplace hbody ⊢
  have hend : byteLength text = start + byteLength inside + 1 + byteLength rest := by
    have hstop := hbody.tail.stop_eq
    rw [byteLength, utf8Size_ascii (by decide)] at hstop
    omega
  have hclose : byteLength text - byteLength rest - 1 = start + byteLength inside := by omega
  have hclosed : inside ++ [')'] <+: inside ++ ')' :: rest := ⟨rest, by simp⟩
  have horder := (ParamText.inOrder text).2.1 _ _ ')' (.inr rfl) (hbody.span.initial hclosed)
  have hinner : start + byteLength inside < start + steps := by omega
  obtain ⟨parts, hparts, hpieces⟩ :=
    ih text _ steps hbody.head hinner (steps + 1) (Nat.lt_succ_of_lt hinner)
  rw [recover, h.listStart_eq rfl hsteps, hb, Option.map_some, pure_bind]
  dsimp only
  rw [hopening.matching_group rfl (.inl ⟨rfl, rfl⟩) hleft, hg, Option.map_some, pure_bind]
  dsimp only
  rw [hplace, hclose, hparts, pure_bind, ← pieces, hpieces, pure_bind]
  -- only the text of a single type is looked at
  generalize listed start inside = params at horder ⊢
  rcases params with _ | ⟨p, _ | ⟨q, params⟩⟩
  · rfl
  · dsimp only
    rw [isVoidList]
    split
    next hempty => rw [slice_typeText hbody.head horder, pure_bind, hempty, Bool.true_and]
    next hnamed => rw [(Bool.not_eq_true _).mp hnamed, Bool.false_and, if_neg Bool.false_ne_true]
  · rfl

/-- A part is trimmed in front first. -/
theorem piece_trimmed (h : Cut text i stop cs) :
    Cut text (i + byteLength (before cs (trimStart cs))) stop (trimStart cs) ∧
      minus (i + byteLength cs) (byteLength (trimStart cs)) =
        pure (i + byteLength (before cs (trimStart cs))) := by
  have htrim : trimStart cs <:+ cs := List.dropWhile_suffix isBlank
  have hlength := byteLength_before htrim
  have hcut := h.suffix htrim
  have hplace := h.place hcut htrim
  refine ⟨hplace ▸ hcut, ?_⟩
  rw [minus, if_pos (by omega)]
  congr 1
  omega

theorem pieceRuns_vacant (hempty : Vacant cs) : PieceRuns i cs := by
  intro text stop steps h hsteps
  obtain ⟨hcut, hstart⟩ := piece_trimmed h
  rw [ParamText.piece_vacant hempty]
  unfold Vacant at hempty
  rw [piece, h.slice_eq, pure_bind, hstart, pure_bind, hcut.slice_eq, pure_bind]
  dsimp only
  rw [if_pos hempty]

theorem pieceRuns_unstarred (hfull : ¬Vacant cs)
    (hs : splitStar (trimEnd (trimStart cs)) = none) : PieceRuns i cs := by
  intro text stop steps h hsteps
  obtain ⟨hcut, hstart⟩ := piece_trimmed h
  have hbody := Cut.of_span (hcut.span.initial (trimEnd_initial (trimStart cs)))
  have hwords : i + byteLength (before cs (trimStart cs)) + byteLength (trimEnd (trimStart cs)) <
      i + byteLength (before cs (trimStart cs)) + (steps + 1) := by
    have hshorter := ParamText.byteLength_le (trimEnd_initial (trimStart cs))
    have hstop := hcut.stop_eq
    omega
  rw [ParamText.piece_unstarred hfull hs, ParamText.plain]
  unfold Vacant at hfull
  rw [piece, h.slice_eq, pure_bind, hstart, pure_bind, hcut.slice_eq, pure_bind]
  dsimp only
  rw [if_neg hfull, find?_star, hs, Option.map_none]
  dsimp only
  rw [hbody.words_eq _ hwords, pure_bind]
  cases declaredName (trimEnd (trimStart cs)) (wordsAt (i + byteLength (before cs (trimStart cs)))
      (trimEnd (trimStart cs))) with
  | none => rfl
  | some name => cases name; rfl

theorem pieceRuns_pointer {head behind : List Char} (hfull : ¬Vacant cs)
    (hs : splitStar (trimEnd (trimStart cs)) = some (head, behind))
    (ih : RecoverRuns
      (i + byteLength (before cs (trimStart cs)) +
        byteLength (before (trimStart cs) (fromName head cs)) +
        byteLength ((fromName head cs).takeWhile isNameChar))
      ((fromName head cs).dropWhile isNameChar)) : PieceRuns i cs := by
  intro text stop steps h hsteps
  obtain ⟨hcut, hstart⟩ := piece_trimmed h
  have hparts : head ++ ['(', '*'] ++ (trimStart cs).drop (head.length + 2) = trimStart cs := by
    obtain ⟨blanks, hblanks⟩ := trimEnd_initial (trimStart cs)
    rw [ParamText.splitStar_eq_some hs] at hblanks
    rw [← hblanks]
    simp
  have hstar : Cut text (i + byteLength (before cs (trimStart cs)) + byteLength head + 2) stop
      ((trimStart cs).drop (head.length + 2)) := by
    have htail := hcut.second hparts
    rw [byteLength_append] at htail
    exact htail
  have hnamed : fromName head cs <:+ trimStart cs :=
    (List.dropWhile_suffix _).trans (List.drop_suffix _ _)
  have hname : (fromName head cs).takeWhile isNameChar ++ (fromName head cs).dropWhile isNameChar =
      fromName head cs := List.takeWhile_append_dropWhile
  have hfrom := hcut.suffix hnamed
  have hplace := hcut.place hfrom hnamed
  have hlate : stop < i + byteLength (before cs (trimStart cs)) + byteLength head + 2 + (steps + 1) := by
    omega
  have hskip : skipStars (steps + 1) text stop
      (i + byteLength (before cs (trimStart cs)) + byteLength head + 2) =
        pure (i + byteLength (before cs (trimStart cs)) +
          byteLength (before (trimStart cs) (fromName head cs))) := hplace ▸ hstar.skipStars_eq hlate
  rw [hplace] at hfrom
  obtain ⟨front, hfront, hlength, hupTo⟩ := (hfrom.second hname).upTo
  rw [ParamText.piece_pointer hfull hs]
  unfold Vacant at hfull
  rw [piece, h.slice_eq, pure_bind, hstart, pure_bind, hcut.slice_eq, pure_bind]
  dsimp only
  rw [if_neg hfull, find?_star, hs, Option.map_some]
  dsimp only
  rw [hskip, pure_bind, hfrom.slice_eq, pure_bind, nameLength_eq, (hfrom.first hname).slice_eq,
    pure_bind, hfront, pure_bind, ih front steps (hlength ▸ hupTo) (by omega), pure_bind]
  split
  next hempty =>
    rw [List.isEmpty_iff.mp hempty]
  next => rfl

theorem runs :
    (∀ offset cs, RecoverRuns offset cs) ∧ (∀ offset cs, ListedRuns offset cs) ∧
      ∀ offset cs, PieceRuns offset cs := by
  apply ParamText.recover_induct
  case absent => exact fun _ _ hb => recoverRuns_absent hb
  case unclosed => exact fun _ _ _ hb hg => recoverRuns_unclosed hb hg
  case closed => exact fun _ _ _ _ hb hg ih => recoverRuns_closed hb hg ih
  case single => exact fun _ _ hc ih => listedRuns_single hc ih
  case parted => exact fun _ _ _ hc ihp ihl => listedRuns_parted hc ihp ihl
  case vacant => exact fun _ _ hempty => pieceRuns_vacant hempty
  case unstarred => exact fun _ _ hfull hs => pieceRuns_unstarred hfull hs
  case pointer => exact fun _ _ _ _ hfull hs ih => pieceRuns_pointer hfull hs ih

theorem cut_of_drop (h : dropBytes? i text = some cs) : Cut text i (byteLength text) cs := by
  fun_induction dropBytes? i text with
  | case1 text =>
    cases h
    exact ⟨.whole 0 _, (Nat.zero_add _).symm⟩
  | case2 => cases h
  | case3 n c text hle ih =>
    obtain ⟨⟨front, back, htext, hfront⟩, hstop⟩ := ih h
    refine ⟨⟨c :: front, back, by rw [htext]; rfl, by rw [byteLength]; omega⟩, ?_⟩
    rw [byteLength]
    omega
  | case4 => cases h

/-- The search by offsets ends for every text and every offset: it takes no more steps than there are
bytes behind the offset, and one. It goes wrong only where it begins, at an offset that is outside the
text or inside a character. -/
theorem recover_run (text : String) (after more : Nat) :
    (recover (byteLength text.toList - after + 1 + more) text.toList after).run =
      some ((ParamText.recover text after).mapError fun _ => Fault.cut) := by
  unfold ParamText.recover
  have hsteps : byteLength text.toList - after + 1 + more = byteLength text.toList - after + more + 1 := by
    omega
  cases hdrop : dropBytes? after text.toList with
  | none =>
    have hslice : slice? after (byteLength text.toList) text.toList = none := by
      rw [slice?, hdrop, Option.bind_none, ite_self]
    rw [hsteps, recover, listStart, skipTrivia, slice, hslice]
    rfl
  | some cs =>
    have hcut := cut_of_drop hdrop
    rw [runs.1 after cs _ _ hcut (by have hle := hcut.le; omega)]
    rfl

/-- Wherever a text is cut between two characters, the search by offsets comes to an end behind the cut
without a fault, in no more steps than there are bytes, and one. It finds what the search over characters
finds, and a list that it gives is in order. -/
theorem recover_inOrder (front back : String) :
    let text := front ++ back
    let after := byteLength front.toList
    ∃ found, ParamText.recover text after = .ok found ∧
      (∀ more, (recover (byteLength back.toList + 1 + more) text.toList after).run = some (.ok found)) ∧
      ∀ ps, found = some ps → ParamText.InOrder text.toList after (byteLength text.toList) ps := by
  intro text after
  have htext : text.toList = front.toList ++ back.toList := by simp [text]
  have hdrop : dropBytes? after text.toList = some back.toList := by
    rw [htext]
    exact dropBytes?_append front.toList back.toList
  have hfound : ParamText.recover text after = .ok (recoverFrom after back.toList) := by
    rw [ParamText.recover, hdrop]
  have hback : byteLength text.toList - after = byteLength back.toList := by
    rw [htext, byteLength_append, Nat.add_sub_cancel_left]
  refine ⟨recoverFrom after back.toList, hfound, fun more => ?_, fun ps hps => ?_⟩
  · rw [← hback, recover_run, hfound]
    rfl
  · exact (ParamText.inOrder text.toList).1 after back.toList _ (cut_of_drop hdrop) ps hps

end Search

end Bindery
