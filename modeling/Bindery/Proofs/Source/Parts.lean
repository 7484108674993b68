import Bindery.Proofs.Source.Outline
import Mathlib.Data.List.Forall2

/-! The parameters of a list, one for each of its parts. -/

namespace Bindery

namespace ParamText

variable {cs first rest text : List Char} {offset base : Nat} {c : Char}

/-- The texts between the commas of a list. -/
def parts (cs : List Char) : List (List Char) :=
  match _h : fromComma 0 cs with
  | [] => [cs]
  | _ :: rest => cs.take (cs.length - rest.length - 1) :: parts rest
termination_by cs.length
decreasing_by
  have := fromComma_length 0 cs
  simp only [_h, List.length_cons] at this
  omega

theorem parts_single (h : fromComma 0 cs = []) : parts cs = [cs] := by
  rw [parts]
  split
  next => rfl
  next hcomma => cases h.symm.trans hcomma

theorem parts_comma (h : fromComma 0 (first ++ ',' :: rest) = ',' :: rest) :
    parts (first ++ ',' :: rest) = first :: parts rest := by
  rw [parts]
  split
  next hnone => cases h.symm.trans hnone
  next hcomma =>
    cases h.symm.trans hcomma
    rw [take_before]

instance : DecidablePred Vacant := fun _ => inferInstanceAs (Decidable (_ = true))

/-- The parts in which a parameter stands. -/
def filled (ps : List (List Char)) : List (List Char) :=
  ps.filter fun part => ¬Vacant part

theorem filled_append (ps ps' : List (List Char)) : filled (ps ++ ps') = filled ps ++ filled ps' :=
  List.filter_append ..

theorem filled_single (hfull : ¬Vacant cs) : filled [cs] = [cs] :=
  List.filter_cons_of_pos (by simpa using hfull)

/-- The entry for a part of a list that is written at `base`. -/
def Entry (base : Nat) (text part : List Char) (e : ParamText) : Prop :=
  ∃ offset, EntryOf part offset e ∧ Span base text offset part

theorem piece_entries (hspan : Span base text offset cs) :
    List.Forall₂ (Entry base text) (filled [cs]) (piece offset cs).toList := by
  by_cases hempty : Vacant cs
  · have hnone : filled [cs] = [] := List.filter_cons_of_neg (by simpa using hempty)
    rw [hnone, piece_vacant hempty]
    exact .nil
  · obtain ⟨e, hpiece, hentry⟩ := piece_entry hempty offset
    rw [filled_single hempty, hpiece]
    exact .cons ⟨offset, hentry, hspan⟩ .nil

theorem listed_entries (hspan : Span base text offset cs) :
    List.Forall₂ (Entry base text) (filled (parts cs)) (listed offset cs) := by
  induction hn : cs.length using Nat.strongRecOn generalizing offset cs with
  | ind n ih =>
    cases hcomma : fromComma 0 cs with
    | nil =>
      rw [parts_single hcomma, listed_single hcomma]
      exact piece_entries hspan
    | cons c rest =>
      obtain rfl := fromComma_head hcomma
      obtain ⟨first, rfl⟩ : ',' :: rest <:+ cs := hcomma ▸ fromComma_suffix 0 cs
      have hrest : Span base text (offset + byteLength first + byteLength [',']) rest :=
        Span.tail hspan.tail
      rw [parts_comma hcomma, listed_parted hcomma, ← List.singleton_append, filled_append]
      exact List.rel_append (piece_entries hspan.head) (ih _ (by simp [← hn]; omega) hrest rfl)

/-- Whether all that a list has is a part for `void`. -/
def isVoidParts : List (List Char) → Bool
  | [part] => isVoidPart part
  | _ => false

theorem isVoidList_parts {ps : List (List Char)} {es : List ParamText}
    (h : List.Forall₂ (Entry base text) ps es) : isVoidList base text es = isVoidParts ps := by
  rcases h with _ | ⟨⟨offset, hentry, hspan⟩, _ | ⟨hentry', hmore⟩⟩
  · rfl
  · exact hentry.isVoidList_eq hspan
  · rfl

theorem outlines_parts {ps : List (List Char)} {es : List ParamText}
    (h : List.Forall₂ (Entry base text) ps es) : outlines es = ps.map outlineOf := by
  induction h with
  | nil => rfl
  | cons hentry hmore ih =>
    obtain ⟨offset, hentry, -⟩ := hentry
    rw [outlines, ih, hentry.outline_eq, List.map_cons]

/-- What a list holds, by the texts of its parts. -/
theorem outlines_listing_eq (cs : List Char) : outlines (listing 0 cs) =
    if isVoidParts (filled (parts cs)) then [] else (filled (parts cs)).map outlineOf := by
  have hentries := listed_entries (Span.whole 0 cs)
  rw [listing, isVoidList_parts hentries, apply_ite outlines, outlines_parts hentries, outlines]

/-- A part makes no difference to a list but by what it is read as. -/
theorem outlines_listing_congr {cs' part part' : List Char} {ps ps' : List (List Char)}
    (hfull : ¬Vacant part) (hfull' : ¬Vacant part') (hcs : parts cs = ps ++ part :: ps')
    (hcs' : parts cs' = ps ++ part' :: ps') (houtline : outlineOf part = outlineOf part')
    (hvoid : isVoidPart part = isVoidPart part') :
    outlines (listing 0 cs) = outlines (listing 0 cs') := by
  have hfilled : filled (parts cs) = filled ps ++ part :: filled ps' := by
    rw [hcs, filled_append, ← List.singleton_append, filled_append, filled_single hfull]
    rfl
  have hfilled' : filled (parts cs') = filled ps ++ part' :: filled ps' := by
    rw [hcs', filled_append, ← List.singleton_append, filled_append, filled_single hfull']
    rfl
  have hparts : isVoidParts (filled ps ++ part :: filled ps') =
      isVoidParts (filled ps ++ part' :: filled ps') := by
    rcases filled ps with _ | ⟨_, _ | ⟨_, _⟩⟩
    · rcases filled ps' with _ | ⟨_, _⟩
      · exact hvoid
      · rfl
    · rfl
    · rfl
  rw [outlines_listing_eq, outlines_listing_eq, hfilled, hfilled', hparts, List.map_append,
    List.map_append, List.map_cons, List.map_cons, houtline]

theorem outlinesBehind_single (hcs : Paired false cs) (hfull : ¬Vacant cs) (hvoid : isVoidPart cs = false)
    (rest : List Char) : outlinesBehind ('(' :: (cs ++ ')' :: rest)) = some [outlineOf cs] := by
  have hclosed : afterGroup '(' ')' 0 (cs ++ ')' :: rest) = some rest := by
    rw [hcs.afterGroup_eq (.inl ⟨rfl, rfl⟩), afterGroup_cons (by decide)]
    rfl
  have hsingle := hcs.fromComma_eq 0 (Nat.zero_le 0) []
  rw [List.append_nil, fromComma] at hsingle
  have hparts : filled (parts cs) = [cs] := by rw [parts_single hsingle, filled_single hfull]
  have hvoids : isVoidParts [cs] = false := hvoid
  rw [outlinesBehind_closed (listBody_opening _) hclosed, outlines_listing_eq, hparts, hvoids]
  rfl

end ParamText

end Bindery
