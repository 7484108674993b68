import Bindery.Proofs.Source.Bytes

/-! The order of recovered parameters. Each stands in its own part of the text. -/

namespace Bindery

namespace ParamText

open Search (Cut)

variable {text cs rest : List Char} {lo lo' hi hi' i stop start : Nat} {p : ParamText}
  {ps : List ParamText}

mutual

/-- A parameter whose part of the text ends at `stop`. The part begins with the type, the name stands
behind the type, no comma of the list is in the part, and one or the closing parenthesis ends it. -/
inductive Fits (text : List Char) : Nat → Nat → ParamText → Prop where
  | intro {lo stop : Nat} {p : ParamText} {type part : List Char} {mark : Char}
      (start : lo ≤ p.start)
      (type_at : Span 0 text p.start type)
      (name_offset : p.nameOffset = p.start + byteLength type)
      (name_at : Span 0 text p.nameOffset p.name.toList)
      (name_end : p.nameOffset + byteLength p.name.toList ≤ stop)
      (part_at : Span 0 text p.start (part ++ [mark]))
      (part_end : stop = p.start + byteLength part)
      (single : fromComma 0 part = [])
      (closed : mark = ',' ∨ mark = ')')
      (nested : ∀ ps, p.nested = some ps →
        InOrder text (p.nameOffset + byteLength p.name.toList) stop ps) : Fits text lo stop p

/-- Parameters between two offsets, each behind the part of the one before it. -/
inductive InOrder (text : List Char) : Nat → Nat → List ParamText → Prop where
  | nil {lo hi : Nat} (bounds : lo ≤ hi) : InOrder text lo hi []
  | cons {lo stop hi : Nat} {p : ParamText} {ps : List ParamText} (first : Fits text lo stop p)
      (rest : InOrder text stop hi ps) : InOrder text lo hi (p :: ps)

end

theorem byteLength_le {a : List Char} (h : a <+: cs) : byteLength a ≤ byteLength cs := by
  obtain ⟨b, rfl⟩ := h
  rw [byteLength_append]
  exact Nat.le_add_right _ _

theorem span_second {a b : List Char} (h : Span 0 text i cs) (hparts : a ++ b = cs) :
    Span 0 text (i + byteLength a) b := by
  subst hparts
  exact h.tail

theorem Fits.behind (h : Fits text lo stop p) (hle : lo' ≤ lo) : Fits text lo' stop p := by
  obtain ⟨start, htype, hoffset, hname, hend, hpart, hstop, hsingle, hclosed, hnested⟩ := h
  exact ⟨hle.trans start, htype, hoffset, hname, hend, hpart, hstop, hsingle, hclosed, hnested⟩

theorem InOrder.behind (h : InOrder text lo hi ps) (hle : lo' ≤ lo) : InOrder text lo' hi ps := by
  cases h with
  | nil bounds => exact .nil (hle.trans bounds)
  | cons first rest => exact .cons (first.behind hle) rest

theorem InOrder.upTo (h : InOrder text lo hi ps) (hle : hi ≤ hi') : InOrder text lo hi' ps := by
  induction ps generalizing lo with
  | nil =>
    obtain ⟨bounds⟩ := h
    exact .nil (bounds.trans hle)
  | cons p ps ih =>
    cases h with
    | cons first rest => exact .cons first (ih rest)

/-- A comment ends in a text, or it is not closed there. -/
theorem afterBlockComment_append (cs rest : List Char) :
    afterBlockComment (cs ++ rest) = afterBlockComment cs ++ rest ∨ afterBlockComment cs = [] := by
  fun_induction afterBlockComment cs with
  | case1 cs => exact .inl rfl
  | case2 c cs hopen ih =>
    rcases cs with _ | ⟨d, cs⟩
    · exact .inr rfl
    · have hkept : afterBlockComment (c :: (d :: cs ++ rest)) =
          afterBlockComment (d :: cs ++ rest) := by
        rw [afterBlockComment]
        rintro r hc hd
        exact hopen cs hc (by rw [(List.cons.inj hd).1])
      rw [List.cons_append, hkept]
      exact ih
  | case3 => exact .inr rfl

/-- The text before a comma of the list has none of its own. -/
theorem fromComma_before (depth : Nat) (h : fromComma depth (cs ++ ',' :: rest) = ',' :: rest) :
    fromComma depth cs = [] := by
  have hcomma : ¬['*'] <+: ',' :: rest := by simp
  fun_induction fromComma depth cs with
  | case1 => rfl
  | case2 depth cs ih =>
    rcases afterBlockComment_append cs (',' :: rest) with happend | hend
    · rw [List.cons_append, List.cons_append, fromComma, happend] at h
      exact ih h
    · rw [hend, fromComma]
  | case3 depth c cs hopen hc ih =>
    rw [List.cons_append, fromComma, if_pos hc] at h
    · exact ih h
    · exact unopened_append hopen hcomma
  | case4 depth c cs hopen hc hc' ih =>
    rw [List.cons_append, fromComma, if_neg hc, if_pos hc'] at h
    · exact ih h
    · exact unopened_append hopen hcomma
  | case5 depth c cs hopen hc hc' hfound =>
    rw [List.cons_append, fromComma, if_neg hc, if_neg hc', if_pos hfound] at h
    · have hlength := congrArg List.length h
      rw [List.length_cons, List.length_append, List.length_cons] at hlength
      omega
    · exact unopened_append hopen hcomma
  | case6 depth c cs hopen hc hc' hother ih =>
    rw [List.cons_append, fromComma, if_neg hc, if_neg hc', if_neg hother] at h
    · exact ih h
    · exact unopened_append hopen hcomma

variable (text)

def RecoverInOrder (offset : Nat) (cs : List Char) : Prop :=
  ∀ stop, Cut text offset stop cs → ∀ ps, recoverFrom offset cs = some ps → InOrder text offset stop ps

def ListedInOrder (offset : Nat) (cs : List Char) : Prop :=
  ∀ mark, mark = ',' ∨ mark = ')' → Span 0 text offset (cs ++ [mark]) →
    InOrder text offset (offset + byteLength cs) (listed offset cs)

def PieceInOrder (offset : Nat) (cs : List Char) : Prop :=
  ∀ mark, mark = ',' ∨ mark = ')' → Span 0 text offset (cs ++ [mark]) → fromComma 0 cs = [] →
    ∀ p, piece offset cs = some p → Fits text offset (offset + byteLength cs) p

variable {text}

theorem recoverInOrder_closed {inside : List Char} (hb : listBody cs = some (inside ++ ')' :: rest))
    (hg : afterGroup '(' ')' 0 (inside ++ ')' :: rest) = some rest)
    (ih : ListedInOrder text (i + byteLength (before cs (inside ++ ')' :: rest))) inside) :
    RecoverInOrder text i cs := by
  intro stop h ps hps
  rw [recoverFrom_closed hb hg] at hps
  cases hps
  split
  · exact .nil h.le
  · have hspan := span_behind h.span (listBody_suffix hb)
    have hlength := Search.byteLength_before (listBody_suffix hb)
    have hstop := h.stop_eq
    have hparens : inside ++ [')'] <+: inside ++ ')' :: rest := ⟨rest, by simp⟩
    have hinner := byteLength_append inside (')' :: rest)
    have hlisted := ih ')' (.inr rfl) (hspan.initial hparens)
    exact (hlisted.upTo (by omega)).behind (Nat.le_add_right _ _)

theorem listedInOrder_single (hc : fromComma 0 cs = []) (ih : PieceInOrder text i cs) :
    ListedInOrder text i cs := by
  intro mark hmark h
  rw [listed_single hc]
  cases hp : piece i cs with
  | none => exact .nil (Nat.le_add_right _ _)
  | some p => exact .cons (ih mark hmark h hc p hp) (.nil (Nat.le_refl _))

theorem listedInOrder_parted {first : List Char} (hc : fromComma 0 (first ++ ',' :: rest) = ',' :: rest)
    (ihp : PieceInOrder text i first) (ihl : ListedInOrder text (i + byteLength first + 1) rest) :
    ListedInOrder text i (first ++ ',' :: rest) := by
  intro mark hmark h
  have hone : ','.utf8Size = 1 := Search.utf8Size_ascii (by decide)
  have hlength : i + byteLength (first ++ ',' :: rest) =
      i + byteLength first + 1 + byteLength rest := by
    rw [byteLength_append, byteLength, hone]
    omega
  have hfirst : Span 0 text i (first ++ [',']) := h.initial ⟨rest ++ [mark], by simp⟩
  have hnext : Span 0 text (i + byteLength first + 1) (rest ++ [mark]) := by
    have htail : Span 0 text i ((first ++ [',']) ++ (rest ++ [mark])) := by simpa using h
    have hplace := htail.tail
    rwa [byteLength_append, byteLength, byteLength, hone, ← Nat.add_assoc] at hplace
  have hrest := ihl mark hmark hnext
  rw [listed_parted hc, hlength]
  cases hp : piece i first with
  | none => exact hrest.behind (by omega)
  | some p =>
    exact .cons (ihp ',' (.inl rfl) hfirst (fromComma_before 0 hc) p hp)
      (hrest.behind (Nat.le_add_right _ _))

theorem fromComma_trimStart (cs : List Char) : fromComma 0 (trimStart cs) = fromComma 0 cs := by
  have hblank : Passes 0 (cs.takeWhile isBlank) :=
    .plain fun c hc => isPlain_of_isBlank (List.all_eq_true.mp List.all_takeWhile c hc)
  have hpass := hblank.fromComma_eq 0 (Nat.le_refl 0) (trimStart cs)
  rw [trimStart, List.takeWhile_append_dropWhile] at hpass
  exact hpass.symm

/-- A parameter fits where its type and its name begin the text without blanks in front. -/
theorem Fits.of_trimmed {type : List Char} {mark : Char} (hmark : mark = ',' ∨ mark = ')')
    (h : Span 0 text i (cs ++ [mark])) (hsingle : fromComma 0 cs = [])
    (hstart : p.start = i + byteLength (before cs (trimStart cs)))
    (hwritten : type ++ p.name.toList <+: trimStart cs)
    (hoffset : p.nameOffset = p.start + byteLength type)
    (hnested : ∀ ps, p.nested = some ps →
      InOrder text (p.nameOffset + byteLength p.name.toList) (i + byteLength cs) ps) :
    Fits text i (i + byteLength cs) p := by
  have htrim : trimStart cs <:+ cs := List.dropWhile_suffix isBlank
  have hlength := Search.byteLength_before htrim
  have hpart : Span 0 text p.start (trimStart cs ++ [mark]) := by
    have hparts : before cs (trimStart cs) ++ (trimStart cs ++ [mark]) = cs ++ [mark] := by
      rw [← List.append_assoc, before_append htrim]
    rw [← hparts] at h
    rw [hstart]
    exact h.tail
  have hspan := hpart.head.initial hwritten
  have hend : byteLength type + byteLength p.name.toList ≤ byteLength (trimStart cs) := by
    obtain ⟨behind, hbehind⟩ := hwritten
    rw [← hbehind, byteLength_append, byteLength_append]
    omega
  refine .intro (by omega) hspan.head hoffset (hoffset ▸ hspan.tail) (by omega) hpart (by omega)
    (by rw [fromComma_trimStart, hsingle]) hmark hnested

theorem pieceInOrder_vacant (hempty : Vacant cs) : PieceInOrder text i cs := by
  intro mark hmark h hsingle p hp
  rw [piece_vacant hempty] at hp
  cases hp

theorem pieceInOrder_unstarred (hfull : ¬Vacant cs)
    (hs : splitStar (trimEnd (trimStart cs)) = none) : PieceInOrder text i cs := by
  intro mark hmark h hsingle p hp
  rw [piece_unstarred hfull hs] at hp
  cases hp
  unfold plain
  split
  · next name place hname =>
    obtain ⟨gap, hgap, hplace⟩ := wordsAt_place (declaredName_mem hname)
    exact .of_trimmed hmark h hsingle rfl (hgap.trans (trimEnd_initial _)) hplace nofun
  · have hbody : trimEnd (trimStart cs) ++ "".toList <+: trimStart cs := by
      rw [String.toList_empty, List.append_nil]
      exact trimEnd_initial _
    exact .of_trimmed hmark h hsingle rfl hbody rfl nofun

theorem pieceInOrder_pointer {head behind : List Char} (hfull : ¬Vacant cs)
    (hs : splitStar (trimEnd (trimStart cs)) = some (head, behind))
    (ih : RecoverInOrder text
      (i + byteLength (before cs (trimStart cs)) +
        byteLength (before (trimStart cs) (fromName head cs)) +
        byteLength ((fromName head cs).takeWhile isNameChar))
      ((fromName head cs).dropWhile isNameChar)) : PieceInOrder text i cs := by
  intro mark hmark h hsingle p hp
  have hnamed : fromName head cs <:+ trimStart cs :=
    (List.dropWhile_suffix _).trans (List.drop_suffix _ _)
  have hname : (fromName head cs).takeWhile isNameChar ++ (fromName head cs).dropWhile isNameChar =
      fromName head cs := List.takeWhile_append_dropWhile
  have hwritten : before (trimStart cs) (fromName head cs) ++ (fromName head cs).takeWhile isNameChar <+:
      trimStart cs := by
    refine ⟨(fromName head cs).dropWhile isNameChar, ?_⟩
    rw [List.append_assoc, hname, before_append hnamed]
  have hhead : head ++ "".toList <+: trimStart cs := by
    rw [String.toList_empty, List.append_nil]
    exact (splitStar_initial hs).trans (trimEnd_initial _)
  have htrim : trimStart cs <:+ cs := List.dropWhile_suffix isBlank
  have htype : head <+: before (trimStart cs) (fromName head cs) := by
    have hlength : (fromName head cs).length ≤ (trimStart cs).length - (head.length + 2) := by
      rw [← List.length_drop]
      exact length_dropWhile_le _ _
    have hlong : head.length + 2 ≤ (trimStart cs).length := by
      have hbody := (trimEnd_initial (trimStart cs)).length_le
      rw [splitStar_eq_some hs, List.length_append, List.length_cons, List.length_cons] at hbody
      omega
    refine List.prefix_of_prefix_length_le ((splitStar_initial hs).trans (trimEnd_initial _))
      (List.take_prefix _ _) ?_
    rw [before, List.length_take]
    omega
  have hlonger := byteLength_le htype
  have hfound := span_behind (span_behind h.head htrim) hnamed
  have hcut : Cut text
      (i + byteLength (before cs (trimStart cs)) +
        byteLength (before (trimStart cs) (fromName head cs)) +
        byteLength ((fromName head cs).takeWhile isNameChar)) (i + byteLength cs)
      ((fromName head cs).dropWhile isNameChar) := by
    have htrimmed := Search.byteLength_before htrim
    have hbefore := Search.byteLength_before hnamed
    have hlength := congrArg byteLength hname
    rw [byteLength_append] at hlength
    exact ⟨span_second hfound hname, by omega⟩
  have hnested := ih _ hcut
  rw [piece_pointer hfull hs] at hp
  dsimp only at hp
  split at hp
  · next hempty =>
    cases hp
    refine .of_trimmed hmark h hsingle rfl hhead rfl fun ps hps => ?_
    exact (hnested ps hps).behind (by rw [String.toList_empty, byteLength]; dsimp only; omega)
  · cases hp
    have hlist : (String.ofList ((fromName head cs).takeWhile isNameChar)).toList =
        (fromName head cs).takeWhile isNameChar := String.toList_ofList
    rw [← hlist] at hwritten
    refine .of_trimmed hmark h hsingle rfl hwritten rfl fun ps hps => ?_
    have hinner := hnested ps hps
    rw [← hlist] at hinner
    exact hinner

theorem inOrder (text : List Char) :
    (∀ offset cs, RecoverInOrder text offset cs) ∧ (∀ offset cs, ListedInOrder text offset cs) ∧
      ∀ offset cs, PieceInOrder text offset cs := by
  apply recover_induct
  case absent =>
    intro offset cs hb stop _ ps hps
    cases (recoverFrom_none hb).symm.trans hps
  case unclosed =>
    intro offset cs body hb hg stop _ ps hps
    cases (recoverFrom_unclosed hb hg).symm.trans hps
  case closed => exact fun _ _ _ _ hb hg ih => recoverInOrder_closed hb hg ih
  case single => exact fun _ _ hc ih => listedInOrder_single hc ih
  case parted => exact fun _ _ _ hc ihp ihl => listedInOrder_parted hc ihp ihl
  case vacant => exact fun _ _ hempty => pieceInOrder_vacant hempty
  case unstarred => exact fun _ _ hfull hs => pieceInOrder_unstarred hfull hs
  case pointer => exact fun _ _ _ _ hfull hs ih => pieceInOrder_pointer hfull hs ih

end ParamText

end Bindery
