import Bindery.Source.Parameters

/-! Where recovered parameters stand. All offsets that are found are between characters. -/

namespace Bindery

variable {base : Nat} {text cs rest a b : List Char} {start offset : Nat}

theorem takeBytes?_append (a b : List Char) : takeBytes? (byteLength a) (a ++ b) = some a := by
  induction a with
  | nil => simp [byteLength, takeBytes?]
  | cons c a ih =>
    have hc := Char.utf8Size_pos c
    obtain ⟨n, hn⟩ : ∃ n, c.utf8Size + byteLength a = n + 1 :=
      ⟨c.utf8Size + byteLength a - 1, by omega⟩
    have hsub : n + 1 - c.utf8Size = byteLength a := by omega
    rw [List.cons_append, byteLength, hn, takeBytes?, if_pos (by omega), hsub, ih, Option.map_some]

/-- A text that begins at the offset `base` holds `cs` at the offset `start`. -/
def Span (base : Nat) (text : List Char) (start : Nat) (cs : List Char) : Prop :=
  ∃ front back, text = front ++ cs ++ back ∧ start = base + byteLength front

namespace Span

theorem whole (base : Nat) (text : List Char) : Span base text base text :=
  ⟨[], [], by simp, rfl⟩

theorem of_drop (h : dropBytes? start text = some cs) : Span 0 text start cs := by
  fun_induction dropBytes? start text with
  | case1 =>
    cases h
    exact whole 0 _
  | case2 => cases h
  | case3 n c text hle ih =>
    obtain ⟨front, back, rfl, hfront⟩ := ih h
    exact ⟨c :: front, back, rfl, by rw [byteLength]; omega⟩
  | case4 => cases h

theorem head (h : Span base text start (a ++ b)) : Span base text start a := by
  obtain ⟨front, back, rfl, hfront⟩ := h
  exact ⟨front, b ++ back, by simp, hfront⟩

theorem tail (h : Span base text start (a ++ b)) : Span base text (start + byteLength a) b := by
  obtain ⟨front, back, rfl, hfront⟩ := h
  exact ⟨front ++ a, back, by simp, by rw [byteLength_append, hfront, Nat.add_assoc]⟩

theorem initial (h : Span base text start cs) (ha : a <+: cs) : Span base text start a := by
  obtain ⟨b, rfl⟩ := ha
  exact h.head

theorem base_le (h : Span base text start cs) : base ≤ start := by
  obtain ⟨front, back, -, hfront⟩ := h
  omega

theorem slice (h : Span base text start cs) :
    slice? (start - base) (start - base + byteLength cs) text = some cs := by
  obtain ⟨front, back, rfl, rfl⟩ := h
  rw [slice?, if_pos (Nat.le_add_right _ _), Nat.add_sub_cancel_left, Nat.add_sub_cancel_left,
    List.append_assoc, dropBytes?_append]
  exact takeBytes?_append cs back

end Span

namespace ParamText

theorem before_append (h : rest <:+ cs) : before cs rest ++ rest = cs := by
  obtain ⟨gap, rfl⟩ := h
  simp [before]

/-- What the text holds before a character and the rest behind it. -/
theorem take_before (cs : List Char) (c : Char) (rest : List Char) :
    (cs ++ c :: rest).take ((cs ++ c :: rest).length - rest.length - 1) = cs := by
  have hlength : (cs ++ c :: rest).length - rest.length - 1 = cs.length := by
    rw [List.length_append, List.length_cons]
    omega
  rw [hlength, List.take_left]

theorem span_behind (h : Span base text start cs) (hr : rest <:+ cs) :
    Span base text (start + byteLength (before cs rest)) rest := by
  rw [← before_append hr] at h
  exact h.tail

theorem afterBlockComment_suffix (cs : List Char) : afterBlockComment cs <:+ cs := by
  fun_induction afterBlockComment cs with
  | case1 cs => exact (List.suffix_cons _ _).trans (List.suffix_cons _ _)
  | case2 c cs _ ih => exact ih.trans (List.suffix_cons _ _)
  | case3 => exact List.suffix_refl _

theorem afterLine_suffix (cs : List Char) : afterLine cs <:+ cs := by
  fun_induction afterLine cs with
  | case1 cs => exact List.suffix_cons _ _
  | case2 c cs _ ih => exact ih.trans (List.suffix_cons _ _)
  | case3 => exact List.suffix_refl _

theorem skipTrivia_suffix (cs : List Char) : skipTrivia cs <:+ cs := by
  fun_induction skipTrivia cs with
  | case1 cs rest h ih =>
    have hrest : '*' :: rest <:+ cs :=
      (List.suffix_cons '/' _).trans (h ▸ List.dropWhile_suffix isBlank)
    exact ih.trans ((afterBlockComment_suffix _).trans hrest)
  | case2 cs rest h ih =>
    have hrest : rest <:+ cs :=
      ((List.suffix_cons '/' _).trans (List.suffix_cons '/' _)).trans
        (h ▸ List.dropWhile_suffix isBlank)
    exact ih.trans ((afterLine_suffix _).trans hrest)
  | case3 cs => exact List.dropWhile_suffix isBlank

theorem afterGroup_closed {opening closing : Char} {depth : Nat}
    (h : afterGroup opening closing depth cs = some rest) : closing :: rest <:+ cs := by
  fun_induction afterGroup opening closing depth cs with
  | case1 => cases h
  | case2 depth cs ih =>
    have hcomment := (ih h).trans (afterBlockComment_suffix cs)
    exact hcomment.trans ((List.suffix_cons '*' _).trans (List.suffix_cons '/' _))
  | case4 c cs _ _ hc =>
    cases h
    exact beq_iff_eq.mp hc ▸ List.suffix_refl _
  | case3 depth c cs _ _ ih => exact (ih h).trans (List.suffix_cons _ _)
  | case5 c cs _ _ _ depth ih => exact (ih h).trans (List.suffix_cons _ _)
  | case6 depth c cs _ _ _ ih => exact (ih h).trans (List.suffix_cons _ _)

theorem afterGroup_suffix {opening closing : Char} {depth : Nat}
    (h : afterGroup opening closing depth cs = some rest) : rest <:+ cs :=
  (List.suffix_cons closing rest).trans (afterGroup_closed h)

theorem listBody_opened (h : listBody cs = some rest) : '(' :: rest <:+ cs := by
  fun_induction listBody cs with
  | case1 cs r hs ih =>
    have hr : r <:+ cs := (List.suffix_cons _ _).trans (hs ▸ skipTrivia_suffix cs)
    exact (ih h).trans hr
  | case2 cs r hs r' hg ih =>
    have hr : r <:+ cs := (List.suffix_cons _ _).trans (hs ▸ skipTrivia_suffix cs)
    exact (ih h).trans ((afterGroup_suffix hg).trans hr)
  | case3 => cases h
  | case4 cs r hs =>
    cases h
    exact hs ▸ skipTrivia_suffix cs
  | case5 => cases h

theorem listBody_suffix (h : listBody cs = some rest) : rest <:+ cs :=
  (List.suffix_cons '(' rest).trans (listBody_opened h)

theorem fromComma_suffix (depth : Nat) (cs : List Char) : fromComma depth cs <:+ cs := by
  fun_induction fromComma depth cs with
  | case1 => exact List.suffix_refl _
  | case2 depth cs ih =>
    have hcomment := ih.trans (afterBlockComment_suffix cs)
    exact hcomment.trans ((List.suffix_cons '*' _).trans (List.suffix_cons '/' _))
  | case5 => exact List.suffix_refl _
  | case3 depth c cs _ _ ih => exact ih.trans (List.suffix_cons _ _)
  | case4 depth c cs _ _ _ ih => exact ih.trans (List.suffix_cons _ _)
  | case6 depth c cs _ _ _ _ ih => exact ih.trans (List.suffix_cons _ _)

theorem fromComma_head {depth : Nat} {c : Char} (h : fromComma depth cs = c :: rest) : c = ',' := by
  fun_induction fromComma depth cs with
  | case5 depth d cs _ _ _ hcomma =>
    cases h
    simp only [Bool.and_eq_true, beq_iff_eq] at hcomma
    exact hcomma.1
  | case1 => cases h
  | _ => simp_all

theorem typeText_span {name : String}
    {nested : Option (List ParamText)} (h : Span base text start cs) :
    typeText base text ⟨name, start, start + byteLength cs, nested⟩ = cs := by
  have hbase := h.base_le
  have hplace : start + byteLength cs - base = start - base + byteLength cs := by omega
  rw [typeText, hplace, h.slice]
  rfl

theorem place_behind {passed word : List Char} {place : Nat}
    (h : ∃ gap, gap ++ word <+: rest ∧ place = offset + byteLength passed + byteLength gap) :
    ∃ gap, gap ++ word <+: passed ++ rest ∧ place = offset + byteLength gap := by
  obtain ⟨gap, hgap, hplace⟩ := h
  refine ⟨passed ++ gap, ?_, by rw [hplace, byteLength_append, Nat.add_assoc]⟩
  rw [List.append_assoc]
  exact (List.prefix_append_right_inj passed).mpr hgap

theorem wordsAt_place {word : String × Nat} (h : word ∈ wordsAt offset cs) :
    ∃ gap, gap ++ word.1.toList <+: cs ∧ word.2 = offset + byteLength gap := by
  fun_induction wordsAt offset cs with
  | case1 => cases h
  | case2 offset rest after ih =>
    have hafter : after <:+ '/' :: '*' :: rest := (afterBlockComment_suffix rest).trans
      ((List.suffix_cons '*' _).trans (List.suffix_cons '/' _))
    rw [← before_append hafter]
    exact place_behind (ih h)
  | case3 offset rest after hg ih =>
    have hafter : after <:+ '[' :: rest := (afterGroup_suffix hg).trans (List.suffix_cons _ _)
    rw [← before_append hafter]
    exact place_behind (ih h)
  | case4 => cases h
  | case5 offset c rest _ _ _ name ih =>
    have hname : name ++ rest.dropWhile isNameChar = c :: rest := by
      rw [List.cons_append, List.takeWhile_append_dropWhile]
    rw [← hname]
    rcases List.mem_cons.mp h with rfl | h
    · exact ⟨[], by simp, rfl⟩
    · exact place_behind (ih h)
  | case6 offset c rest _ _ _ ih =>
    rw [← List.singleton_append]
    exact place_behind (ih h)

/-- The offsets of a parameter and of those nested in it cut a text that begins at `base` between
characters: around the text of the type, and around the name. -/
inductive Within (base : Nat) (text : List Char) : ParamText → Prop where
  | intro {p : ParamText} (start : base ≤ p.start)
      (type : (slice? (p.start - base) (p.nameOffset - base) text).isSome)
      (name : slice? (p.nameOffset - base) (p.nameOffset - base + byteLength p.name.toList) text =
        some p.name.toList)
      (nested : ∀ ps, p.nested = some ps → ∀ q ∈ ps, q.Within base text) : Within base text p

theorem Within.of_span {p : ParamText} {type : List Char}
    (h : Span base text p.start (type ++ p.name.toList))
    (ho : p.nameOffset = p.start + byteLength type)
    (hn : ∀ ps, p.nested = some ps → ∀ q ∈ ps, q.Within base text) : p.Within base text := by
  have hbase : base ≤ p.start := h.base_le
  have htype := h.head.slice
  have hname := h.tail.slice
  have hoffset : p.nameOffset - base = p.start - base + byteLength type := by omega
  rw [← hoffset] at htype
  rw [← ho] at hname
  exact .intro hbase (by simp [htype]) hname hn

/-- A word that is taken for a name is one of the words. -/
theorem declaredName_mem {words : List (String × Nat)} {word : String × Nat}
    (h : declaredName cs words = some word) : word ∈ words := by
  unfold declaredName at h
  split at h
  · next last _ _ hwords =>
    have hlast : last ∈ words.reverse := by simp [hwords]
    split at h
    · cases h
    · cases h
      exact List.mem_reverse.mp hlast
  · cases h

theorem plain_within (h : Span base text start cs) : (plain start cs).Within base text := by
  unfold plain
  split
  · next name place hname =>
    obtain ⟨gap, ⟨rest, hrest⟩, hplace⟩ := wordsAt_place (declaredName_mem hname)
    rw [← hrest] at h
    exact .of_span h.head hplace nofun
  · have hbody : cs ++ "".toList = cs := List.append_nil cs
    exact .of_span (hbody.symm ▸ h) rfl nofun

variable (base text)

def RecoverWithin (offset : Nat) (cs : List Char) : Prop :=
  Span base text offset cs → ∀ ps, recoverFrom offset cs = some ps → ∀ p ∈ ps, p.Within base text

def ListedWithin (offset : Nat) (cs : List Char) : Prop :=
  Span base text offset cs → ∀ p ∈ listed offset cs, p.Within base text

def PieceWithin (offset : Nat) (cs : List Char) : Prop :=
  Span base text offset cs → ∀ p, piece offset cs = some p → p.Within base text

variable {base text}

theorem recoverFrom_none (hb : listBody cs = none) : recoverFrom offset cs = none := by
  rw [recoverFrom]
  split
  next => rfl
  next hbody => cases hb.symm.trans hbody

theorem recoverFrom_unclosed {body : List Char} (hb : listBody cs = some body)
    (hg : afterGroup '(' ')' 0 body = none) : recoverFrom offset cs = none := by
  rw [recoverFrom]
  split
  next => rfl
  next hbody =>
    cases hb.symm.trans hbody
    split
    next => rfl
    next hgroup => cases hg.symm.trans hgroup

/-- What is between the parentheses is read, and what stands behind them is not. -/
theorem recoverFrom_closed {inside : List Char} (hb : listBody cs = some (inside ++ ')' :: rest))
    (hg : afterGroup '(' ')' 0 (inside ++ ')' :: rest) = some rest) :
    let start := offset + byteLength (before cs (inside ++ ')' :: rest))
    recoverFrom offset cs = some (if isVoidList start inside (listed start inside) then []
      else listed start inside) := by
  intro start
  rw [recoverFrom]
  split
  next hnone => cases hb.symm.trans hnone
  next hbody =>
    cases hb.symm.trans hbody
    split
    next hnone => cases hg.symm.trans hnone
    next hgroup =>
      cases hg.symm.trans hgroup
      rw [take_before]

theorem listed_single (hc : fromComma 0 cs = []) : listed offset cs = (piece offset cs).toList := by
  rw [listed]
  split
  next => rfl
  next hcomma => cases hc.symm.trans hcomma

theorem listed_parted {first : List Char} (hc : fromComma 0 (first ++ ',' :: rest) = ',' :: rest) :
    listed offset (first ++ ',' :: rest) =
      (piece offset first).toList ++ listed (offset + byteLength first + 1) rest := by
  rw [listed]
  split
  next hend => cases hc.symm.trans hend
  next hcomma =>
    cases hc.symm.trans hcomma
    rw [take_before]

/-- Nothing, or an ellipsis. -/
def Vacant (cs : List Char) : Prop :=
  (trimEnd (trimStart cs)).isEmpty || trimEnd (trimStart cs) == ['.', '.', '.']

theorem piece_vacant (h : Vacant cs) : piece offset cs = none := by
  unfold Vacant at h
  rw [piece, if_pos h]

theorem piece_unstarred (hfull : ¬Vacant cs) (hs : splitStar (trimEnd (trimStart cs)) = none) :
    piece offset cs =
      some (plain (offset + byteLength (before cs (trimStart cs))) (trimEnd (trimStart cs))) := by
  unfold Vacant at hfull
  rw [piece, if_neg hfull]
  split
  next => rfl
  next hstar => cases hs.symm.trans hstar

/-- The part of a piece from the name of a pointer to a function on. -/
def fromName (head : List Char) (cs : List Char) : List Char :=
  ((trimStart cs).drop (head.length + 2)).dropWhile fun c => c == '*' || isAsciiBlank c

theorem piece_pointer {head behind : List Char} (hfull : ¬Vacant cs)
    (hs : splitStar (trimEnd (trimStart cs)) = some (head, behind)) :
    piece offset cs =
      let start := offset + byteLength (before cs (trimStart cs))
      let name := (fromName head cs).takeWhile isNameChar
      let place := start + byteLength (before (trimStart cs) (fromName head cs))
      let nested := recoverFrom (place + byteLength name) ((fromName head cs).dropWhile isNameChar)
      if name.isEmpty then some ⟨"", start, start + byteLength head, nested⟩
      else some ⟨String.ofList name, start, place, nested⟩ := by
  unfold Vacant at hfull
  rw [piece, if_neg hfull]
  split
  next hnone => cases hs.symm.trans hnone
  next hstar =>
    cases hs.symm.trans hstar
    rfl

/-- Induction on the way parameters are read: a list behind a name from what is between its parentheses,
that from its parts, and a part that points to a function from the list behind its name. -/
theorem recover_induct {recovers lists reads : Nat → List Char → Prop}
    (absent : ∀ offset cs, listBody cs = none → recovers offset cs)
    (unclosed : ∀ offset cs body, listBody cs = some body → afterGroup '(' ')' 0 body = none →
      recovers offset cs)
    (closed : ∀ offset cs inside rest, listBody cs = some (inside ++ ')' :: rest) →
      afterGroup '(' ')' 0 (inside ++ ')' :: rest) = some rest →
      lists (offset + byteLength (before cs (inside ++ ')' :: rest))) inside → recovers offset cs)
    (single : ∀ offset cs, fromComma 0 cs = [] → reads offset cs → lists offset cs)
    (parted : ∀ offset first rest, fromComma 0 (first ++ ',' :: rest) = ',' :: rest →
      reads offset first → lists (offset + byteLength first + 1) rest →
      lists offset (first ++ ',' :: rest))
    (vacant : ∀ offset cs, Vacant cs → reads offset cs)
    (unstarred : ∀ offset cs, ¬Vacant cs → splitStar (trimEnd (trimStart cs)) = none → reads offset cs)
    (pointer : ∀ offset cs head behind, ¬Vacant cs →
      splitStar (trimEnd (trimStart cs)) = some (head, behind) →
      recovers (offset + byteLength (before cs (trimStart cs)) +
        byteLength (before (trimStart cs) (fromName head cs)) +
        byteLength ((fromName head cs).takeWhile isNameChar))
        ((fromName head cs).dropWhile isNameChar) → reads offset cs) :
    (∀ offset cs, recovers offset cs) ∧ (∀ offset cs, lists offset cs) ∧
      ∀ offset cs, reads offset cs := by
  refine recoverFrom.mutual_induct recovers lists reads absent unclosed ?some single ?comma vacant
    unstarred ?unnamed ?named
  case some =>
    intro offset cs body hb rest hg part start ih
    obtain ⟨inside, rfl⟩ := afterGroup_closed hg
    have hpart : part = inside := take_before inside ')' rest
    rw [hpart] at ih
    exact closed offset cs inside rest hb hg ih
  case comma =>
    intro offset cs c rest hc part ihp ihl
    obtain rfl := fromComma_head hc
    obtain ⟨first, rfl⟩ : ',' :: rest <:+ cs := hc ▸ fromComma_suffix 0 cs
    have hpart : part = first := take_before first ',' rest
    rw [hpart] at ihp ihl
    exact parted offset first rest hc ihp ihl
  case unnamed => exact fun offset cs hfull head behind hs _ ih => pointer offset cs head behind hfull hs ih
  case named => exact fun offset cs hfull head behind hs _ ih => pointer offset cs head behind hfull hs ih

theorem recoverWithin_closed {inside : List Char} (hb : listBody cs = some (inside ++ ')' :: rest))
    (hg : afterGroup '(' ')' 0 (inside ++ ')' :: rest) = some rest)
    (ih : ListedWithin base text (offset + byteLength (before cs (inside ++ ')' :: rest))) inside) :
    RecoverWithin base text offset cs := by
  intro h ps hps
  have hlisted := ih (span_behind h (listBody_suffix hb)).head
  rw [recoverFrom_closed hb hg] at hps
  cases hps
  split
  · exact List.forall_mem_nil _
  · exact hlisted

theorem listedWithin_single (hc : fromComma 0 cs = []) (ih : PieceWithin base text offset cs) :
    ListedWithin base text offset cs := by
  intro h p hp
  rw [listed_single hc] at hp
  exact ih h p (by simpa using hp)

theorem listedWithin_parted {first : List Char} (hc : fromComma 0 (first ++ ',' :: rest) = ',' :: rest)
    (ihp : PieceWithin base text offset first)
    (ihl : ListedWithin base text (offset + byteLength first + 1) rest) :
    ListedWithin base text offset (first ++ ',' :: rest) := by
  intro h p hp
  have hrest : Span base text (offset + byteLength first + byteLength [',']) rest := Span.tail h.tail
  rw [listed_parted hc] at hp
  rcases List.mem_append.mp hp with hp | hp
  · exact ihp h.head p (by simpa using hp)
  · exact ihl hrest p hp

theorem trimEnd_initial (cs : List Char) : trimEnd cs <+: cs := by
  have h := List.reverse_prefix.mpr (List.dropWhile_suffix isBlank (l := cs.reverse))
  simpa [trimEnd] using h

theorem splitStar_eq_some {head behind : List Char} (h : splitStar cs = some (head, behind)) :
    cs = head ++ '(' :: '*' :: behind := by
  fun_induction splitStar cs generalizing head with
  | case1 cs =>
    cases h
    rfl
  | case2 c cs _ ih =>
    obtain ⟨⟨inner, rest⟩, hp, he⟩ := Option.map_eq_some_iff.mp h
    cases he
    rw [ih hp]
    rfl
  | case3 => cases h

theorem splitStar_initial {head behind : List Char} (h : splitStar cs = some (head, behind)) :
    head <+: cs :=
  ⟨_, (splitStar_eq_some h).symm⟩

theorem pieceWithin_vacant (hempty : Vacant cs) : PieceWithin base text offset cs := by
  intro _ p hp
  rw [piece_vacant hempty] at hp
  cases hp

theorem span_trimmed (h : Span base text offset cs) :
    Span base text (offset + byteLength (before cs (trimStart cs))) (trimStart cs) :=
  span_behind h (List.dropWhile_suffix isBlank)

theorem pieceWithin_unstarred (hfull : ¬Vacant cs) (hs : splitStar (trimEnd (trimStart cs)) = none) :
    PieceWithin base text offset cs := by
  intro h p hp
  rw [piece_unstarred hfull hs] at hp
  cases hp
  exact plain_within ((span_trimmed h).initial (trimEnd_initial _))

theorem pieceWithin_pointer {head behind : List Char} (hfull : ¬Vacant cs)
    (hs : splitStar (trimEnd (trimStart cs)) = some (head, behind))
    (ih : RecoverWithin base text
      (offset + byteLength (before cs (trimStart cs)) +
        byteLength (before (trimStart cs) (fromName head cs)) +
        byteLength ((fromName head cs).takeWhile isNameChar))
      ((fromName head cs).dropWhile isNameChar)) : PieceWithin base text offset cs := by
  intro h p hp
  have hpiece := span_trimmed h
  have hnamed : fromName head cs <:+ trimStart cs :=
    (List.dropWhile_suffix _).trans (List.drop_suffix _ _)
  have hname : (fromName head cs).takeWhile isNameChar ++ (fromName head cs).dropWhile isNameChar =
      fromName head cs := List.takeWhile_append_dropWhile
  have hnested := ih (Span.tail (hname.symm ▸ span_behind hpiece hnamed))
  have htype : Span base text (offset + byteLength (before cs (trimStart cs)))
      (before (trimStart cs) (fromName head cs) ++ (fromName head cs).takeWhile isNameChar) := by
    refine hpiece.initial ⟨(fromName head cs).dropWhile isNameChar, ?_⟩
    rw [List.append_assoc, hname, before_append hnamed]
  have hhead : Span base text (offset + byteLength (before cs (trimStart cs))) (head ++ "".toList) := by
    have hbody : head ++ "".toList = head := List.append_nil head
    exact hbody.symm ▸ hpiece.initial ((splitStar_initial hs).trans (trimEnd_initial _))
  rw [piece_pointer hfull hs] at hp
  dsimp only at hp
  split at hp
  · cases hp
    exact .of_span hhead rfl hnested
  · cases hp
    exact .of_span (by simpa using htype) rfl hnested

theorem within_of_span (base : Nat) (text : List Char) :
    (∀ offset cs, RecoverWithin base text offset cs) ∧
      (∀ offset cs, ListedWithin base text offset cs) ∧
        ∀ offset cs, PieceWithin base text offset cs := by
  apply recover_induct
  case absent =>
    intro offset cs hb _ ps hps
    cases (recoverFrom_none hb).symm.trans hps
  case unclosed =>
    intro offset cs body hb hg _ ps hps
    cases (recoverFrom_unclosed hb hg).symm.trans hps
  case closed => exact fun _ _ _ _ hb hg ih => recoverWithin_closed hb hg ih
  case single => exact fun _ _ hc ih => listedWithin_single hc ih
  case parted => exact fun _ _ _ hc ihp ihl => listedWithin_parted hc ihp ihl
  case vacant => exact fun _ _ hempty => pieceWithin_vacant hempty
  case unstarred => exact fun _ _ hfull hs => pieceWithin_unstarred hfull hs
  case pointer => exact fun _ _ _ _ hfull hs ih => pieceWithin_pointer hfull hs ih

/-- Where the search for parameters can begin, it cuts the text nowhere but between characters. -/
theorem recover_within {text : String} {after : Nat} {ps : List ParamText}
    (h : recover text after = .ok (some ps)) : ∀ p ∈ ps, p.Within 0 text.toList := by
  unfold recover at h
  split at h
  · cases h
  · next cs hdrop => exact (within_of_span 0 _).1 _ _ (.of_drop hdrop) ps (Except.ok.inj h)

end ParamText

end Bindery
