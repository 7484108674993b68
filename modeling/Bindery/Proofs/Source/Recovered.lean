import Bindery.Proofs.Source.Paired
import Bindery.Proofs.Source.Piece

/-! Reading a written list of parameters gives one entry for each of them. -/

namespace Bindery

namespace Written

open ParamText (wordsAt plain piece listed recoverFrom recover before before_left take_before listBody
  afterGroup fromComma isVoidList typeText typeText_span Passes)
open QualType (EndsWord)

section

variable {cs rest : List Char} {offset : Nat}

theorem listed_last (h : Passes 0 cs) : listed offset cs = (piece offset cs).toList := by
  have hend := h.fromComma_eq 0 (Nat.le_refl 0) []
  rw [List.append_nil, fromComma] at hend
  exact ParamText.listed_single hend

theorem listed_comma (h : Passes 0 cs) : listed offset (cs ++ ',' :: rest) =
    (piece offset cs).toList ++ listed (offset + byteLength cs + 1) rest := by
  have hcomma : fromComma 0 (cs ++ ',' :: rest) = ',' :: rest := by
    rw [h.fromComma_eq 0 (Nat.le_refl 0)]
    simp [ParamText.fromComma_cons]
  exact ParamText.listed_parted hcomma

/-- A list is found behind whatever may stand before it, and ends at the parenthesis that closes it. -/
theorem recoverFrom_lead {lead : List Char} (hlead : Lead lead) (h : Passes 1 cs) (back : List Char) :
    recoverFrom offset (lead ++ '(' :: (cs ++ ')' :: back)) =
      some (if isVoidList (offset + byteLength lead + 1) cs
          (listed (offset + byteLength lead + 1) cs) then []
        else listed (offset + byteLength lead + 1) cs) := by
  have hbody : listBody (lead ++ '(' :: (cs ++ ')' :: back)) = some (cs ++ ')' :: back) := by
    rw [hlead.listBody_eq, ParamText.listBody_opening]
  have hgroup : afterGroup '(' ')' 0 (cs ++ ')' :: back) = some back := by
    rw [h.afterGroup_eq, ParamText.afterGroup_cons (by decide)]
    rfl
  have hbefore : before (lead ++ '(' :: (cs ++ ')' :: back)) (cs ++ ')' :: back) = lead ++ ['('] := by
    have hleft := before_left (lead ++ ['(']) (cs ++ ')' :: back)
    rwa [List.append_assoc] at hleft
  rw [ParamText.recoverFrom_closed hbody hgroup, hbefore, byteLength_append, ← Nat.add_assoc]
  rfl

theorem recoverFrom_list (h : Passes 1 cs) (back : List Char) :
    recoverFrom offset (')' :: '(' :: cs ++ ')' :: back) =
      some (if isVoidList (offset + 2) cs (listed (offset + 2) cs) then []
        else listed (offset + 2) cs) :=
  recoverFrom_lead (.closing .nil) h back

end

theorem trim_solid {c : Char} (hc : isBlank c = false) (hend : EndsSolid (c :: cs)) :
    trim (c :: cs) = c :: cs := by
  have hkept : trimStart (c :: cs) = c :: cs := List.dropWhile_cons_of_neg (by simp [hc])
  have hgap := trimEnd_gap ⟨[], nofun⟩ hend
  rw [List.append_nil] at hgap
  rw [trim, hkept, hgap]

theorem Param.isVoidList_entry (p : Param) {base start : Nat} {text : List Char}
    (h : Span base text start p.chars) : isVoidList base text [p.entry start] = false := by
  have hnamed : ∀ w : Word, w.text.isEmpty = false := fun w => by simpa using w.text_ne_empty
  cases p with
  | named p => simp [isVoidList, Param.entry, hnamed]
  | callback result gap name list => simp [isVoidList, Param.entry, hnamed]
  | pointer type starred =>
    obtain ⟨c, cs, hchars, hc⟩ := type.exists_start
    have hsolid := type.endsSolid_starred starred
    have htrim : trim type.chars = type.chars := by
      rw [hchars] at hsolid ⊢
      exact trim_solid (not_isBlank_of_isWordStart hc) hsolid
    have hvoid : type.chars ≠ "void".toList := by
      obtain ⟨front, hfront⟩ := type.ends_starred starred
      intro he
      have hstar : '*' ∈ "void".toList := by rw [← he, hfront]; simp
      exact absurd hstar (by decide)
    have hspan : Span base text start type.chars := h
    simp only [isVoidList, Param.entry, typeText_span hspan, htrim]
    simpa using hvoid

theorem Params.isVoidList_entries (ps : Params) (base : Nat) :
    isVoidList base ps.chars (ps.entries base) = false := by
  have hwhole : Span base ps.chars base ps.chars := .whole base ps.chars
  cases ps with
  | last before p after => exact p.isVoidList_entry hwhole.head.tail
  | variadic before p after front back => exact p.isVoidList_entry hwhole.head.head.tail
  | cons before p after rest => cases rest <;> rfl

theorem plain_void (start : Nat) : plain start voidWord.chars =
    ⟨"", start, start + byteLength voidWord.chars, none⟩ := by
  have hend : EndsWord [] := nofun
  have hwords := voidWord.wordsAt_chars hend start
  rw [List.append_nil, wordsAt] at hwords
  rw [plain, hwords]
  rfl

theorem listed_void (g g' : Gap) (offset : Nat) :
    let start := offset + byteLength g.chars
    listed offset (g.chars ++ voidWord.chars ++ g'.chars) =
      [⟨"", start, start + byteLength voidWord.chars, none⟩] := by
  intro start
  obtain ⟨c, cs, hchars, hc⟩ := voidWord.exists_start
  have hsolid := endsSolid_word voidWord
  have hstar := voidWord.unstarred.splitStar_eq
  have hplain := plain_void start
  rw [hchars] at hsolid hstar hplain ⊢
  rw [listed_last (hchars ▸ (g.passes.append voidWord.passes).append g'.passes),
    piece_plain g g' hc hsolid hstar, hplain]
  rfl

mutual

theorem Param.piece_eq (p : Param) (g g' : Gap) (offset : Nat) :
    piece offset (g.chars ++ p.chars ++ g'.chars) =
      some (p.entry (offset + byteLength g.chars)) := by
  cases p with
  | named p =>
    obtain ⟨c, cs, hchars, hc⟩ := p.exists_start
    have hsolid := p.endsSolid
    have hplain := p.plain_chars (offset + byteLength g.chars)
    have hstar := p.unstarred.splitStar_eq
    rw [hchars] at hsolid hplain hstar
    rw [Param.chars, hchars, piece_plain g g' hc hsolid hstar, hplain, Param.entry]
  | pointer type starred =>
    obtain ⟨c, cs, hchars, hc⟩ := type.exists_start
    have hsolid := type.endsSolid_starred starred
    have hplain := type.plain_chars starred (offset + byteLength g.chars)
    have hstar := type.unstarred.splitStar_eq
    rw [hchars] at hsolid hplain hstar
    rw [Param.chars, hchars, piece_plain g g' hc hsolid hstar, hplain, Param.entry, hchars]
  | callback result gap name list =>
    exact piece_callback result gap name list (fun offset back => list.recoverFrom_eq offset back)
      g g' offset

theorem Params.listed_eq (ps : Params) (offset : Nat) :
    listed offset ps.chars = ps.entries offset := by
  cases ps with
  | last before p after =>
    have hfirst := (before.passes.append p.passes).append after.passes
    rw [Params.chars, listed_last hfirst, p.piece_eq, Params.entries]
    rfl
  | variadic before p after front back =>
    have hfirst := (before.passes.append p.passes).append after.passes
    have hlast := (front.passes.append passes_dots).append back.passes
    rw [Params.chars, listed_comma hfirst, listed_last hlast, piece_ellipsis, p.piece_eq,
      Params.entries]
    rfl
  | cons before p after rest =>
    have hfirst := (before.passes.append p.passes).append after.passes
    rw [Params.chars, listed_comma hfirst, p.piece_eq, rest.listed_eq, Params.entries]
    rfl

theorem ParamList.recoverFrom_eq (list : ParamList) (offset : Nat) (back : List Char) :
    recoverFrom offset (')' :: '(' :: list.chars ++ ')' :: back) =
      some (list.entries (offset + 2)) := by
  rw [recoverFrom_list list.passes]
  cases list with
  | empty gap =>
    rw [ParamList.chars, listed_last gap.passes, piece_blank]
    rfl
  | void before after =>
    have hspan : Span (offset + 2) (before.chars ++ voidWord.chars ++ after.chars)
        (offset + 2 + byteLength before.chars) voidWord.chars := (Span.whole _ _).head.tail
    have hvoid : isVoidList (offset + 2) (before.chars ++ voidWord.chars ++ after.chars)
        (listed (offset + 2) (before.chars ++ voidWord.chars ++ after.chars)) = true := by
      rw [listed_void, isVoidList, typeText_span hspan]
      rfl
    exact congrArg some (if_pos hvoid)
  | ellipsis before after =>
    rw [ParamList.chars, listed_last ((before.passes.append passes_dots).append after.passes),
      piece_ellipsis]
    rfl
  | some params =>
    rw [ParamList.chars, params.listed_eq, params.isVoidList_entries, if_neg Bool.false_ne_true,
      ParamList.entries]

end

section

variable {text : List Char}

mutual

theorem Param.readAs_entry (p : Param) {start : Nat} (h : Span 0 text start p.chars) :
    p.ReadAs text (p.entry start) := by
  cases p with
  | named p =>
    refine ⟨rfl, ?_, rfl⟩
    have htype : Span 0 text start p.typeChars := Span.head h
    exact htype.slice
  | pointer type starred => exact ⟨rfl, Span.slice h, rfl⟩
  | callback result gap name list =>
    have htype : Span 0 text start (resultChars result gap) := Span.head h
    have hname : Span 0 text (start + byteLength (resultChars result gap))
        (name.chars ++ (')' :: '(' :: list.chars ++ [')'])) := Span.tail h
    have hlist : Span 0 text
        (start + byteLength (resultChars result gap) + byteLength name.chars + 2) list.chars := by
      have hbehind : Span 0 text
          (start + byteLength (resultChars result gap) + byteLength name.chars)
          ([')', '('] ++ (list.chars ++ [')'])) := hname.tail
      exact hbehind.tail.head
    exact ⟨rfl, htype.slice, _, rfl, list.readAs_entries hlist⟩

theorem Params.readAs_entries (ps : Params) {offset : Nat} (h : Span 0 text offset ps.chars) :
    ps.ReadAs text (ps.entries offset) := by
  cases ps with
  | last before p after => exact ⟨_, rfl, p.readAs_entry (Span.tail (Span.head h))⟩
  | variadic before p after front back =>
    exact ⟨_, rfl, p.readAs_entry (Span.tail (Span.head (Span.head h)))⟩
  | cons before p after rest =>
    have hfirst : Span 0 text offset (before.chars ++ p.chars ++ after.chars) := Span.head h
    have hcomma : Span 0 text (offset + byteLength (before.chars ++ p.chars ++ after.chars))
        ([','] ++ rest.chars) := Span.tail h
    exact ⟨_, _, rfl, p.readAs_entry hfirst.head.tail, rest.readAs_entries hcomma.tail⟩

theorem ParamList.readAs_entries (list : ParamList) {offset : Nat}
    (h : Span 0 text offset list.chars) : list.ReadAs text (list.entries offset) := by
  cases list with
  | empty gap => exact rfl
  | void before after => exact rfl
  | ellipsis before after => exact rfl
  | some params => exact params.readAs_entries h

end

end

/-- A list of parameters that is written behind a declared name, at the end of `front`, and the
parenthesis that closes the declarator of the name is recovered as it was written: there is one entry
for each parameter, in the order of the parameters. -/
theorem recover_written (front back : String) (list : ParamList) :
    let text := front ++ ")(" ++ String.ofList list.chars ++ ")" ++ back
    ∃ es, recover text (byteLength front.toList) = .ok (some es) ∧ list.ReadAs text.toList es := by
  intro text
  have htext : text.toList =
      front.toList ++ (')' :: '(' :: list.chars ++ ')' :: back.toList) := by
    simp [text]
  have hdrop := dropBytes?_append front.toList (')' :: '(' :: list.chars ++ ')' :: back.toList)
  have hspan : Span 0 text.toList (byteLength front.toList + 2) list.chars := by
    refine ⟨front.toList ++ [')', '('], ')' :: back.toList, by simp [htext], ?_⟩
    rw [byteLength_append, Nat.zero_add]
    rfl
  refine ⟨list.entries (byteLength front.toList + 2), ?_, list.readAs_entries hspan⟩
  rw [recover, htext, hdrop]
  dsimp only
  rw [list.recoverFrom_eq]

def noGap : Gap :=
  ⟨[], nofun⟩

def space : Gap :=
  ⟨[' '], List.forall_mem_singleton.mpr rfl⟩

/-- The list `List /*<int>*/ *items[4], void (*visit)(int depth), ...`. -/
def visitorList : ParamList :=
  let intType : TypeText := ⟨⟨"int", rfl⟩, [], none, []⟩
  let voidType : TypeText := ⟨voidWord, [], none, []⟩
  let note : Note := ⟨"int".toList, by decide, by decide⟩
  let items : NamedParam :=
    { type := ⟨⟨"List", rfl⟩, [], some (space, note), [space]⟩
      gap := noGap
      name := ⟨"items", rfl⟩
      bounds := [⟨noGap, ['4'], List.forall_mem_singleton.mpr rfl⟩]
      complete := by decide
      free := by decide
      apart := by decide }
  let depth : NamedParam :=
    { type := intType
      gap := space
      name := ⟨"depth", rfl⟩
      bounds := []
      complete := by decide
      free := by decide
      apart := by decide }
  let visit : Param := .callback voidType space ⟨"visit", rfl⟩ (.some (.last noGap (.named depth) noGap))
  .some (.cons noGap (.named items) noGap (.variadic space visit noGap space noGap))

example : String.ofList visitorList.chars =
    "List /*<int>*/ *items[4], void (*visit)(int depth), ..." := by
  decide

end Written

end Bindery
