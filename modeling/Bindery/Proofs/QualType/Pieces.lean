import Bindery.Proofs.QualType.Form
import Bindery.Proofs.QualType.Lexing

/-! Pieces of text with known tokens, by what may stand before and behind them. -/

namespace Bindery

namespace QualType

def Opens (text : String) (ts : List Token) : Prop :=
  ∀ cs us, tokenize cs = .ok us → tokenize (text.toList ++ cs) = .ok (ts ++ us)

def Spells (text : String) (ts : List Token) : Prop :=
  ∀ cs us, EndsWord cs → tokenize cs = .ok us → tokenize (text.toList ++ cs) = .ok (ts ++ us)

theorem Opens.spells {text : String} {ts : List Token} (h : Opens text ts) : Spells text ts :=
  fun cs us _ hus => h cs us hus

theorem Opens.append {a b : String} {ta tb : List Token} (ha : Opens a ta) (hb : Opens b tb) :
    Opens (a ++ b) (ta ++ tb) := by
  intro cs us hus
  rw [String.toList_append, List.append_assoc, List.append_assoc]
  exact ha _ _ (hb cs us hus)

theorem Opens.append_spells {a b : String} {ta tb : List Token} (ha : Opens a ta)
    (hb : Spells b tb) : Spells (a ++ b) (ta ++ tb) := by
  intro cs us hends hus
  rw [String.toList_append, List.append_assoc, List.append_assoc]
  exact ha _ _ (hb cs us hends hus)

theorem Spells.append_opens {a b : String} {ta tb : List Token} (ha : Spells a ta)
    (hb : Opens b tb) (hends : ∀ cs, EndsWord (b.toList ++ cs)) : Opens (a ++ b) (ta ++ tb) := by
  intro cs us hus
  rw [String.toList_append, List.append_assoc, List.append_assoc]
  exact ha _ _ (hends cs) (hb cs us hus)

theorem Spells.tokenize_eq {text : String} {ts : List Token} (h : Spells text ts) :
    tokenize text.toList = .ok ts := by
  have hh := h [] [] nofun (by rw [tokenize])
  simpa using hh

theorem opens_empty : Opens "" [] :=
  fun _ _ h => h

theorem opens_blank : Opens " " [] := by
  intro cs us h
  exact (tokenize_blank (by decide) cs).trans h

theorem opens_ellipsis : Opens "..." [.ellipsis] := by
  intro cs us h
  exact (tokenize_ellipsis cs).trans (by rw [h]; rfl)

theorem opens_punctuation {c : Char} {t : Token} (h : Token.ofPunctuation? c = some t) :
    Opens (String.singleton c) [t] := by
  intro cs us hus
  rw [String.toList_singleton, List.singleton_append, tokenize_punctuation h, hus]
  rfl

theorem endsWord_cons {c : Char} (h : isWordChar c = false) (cs : List Char) :
    EndsWord (c :: cs) := by
  intro x hx
  obtain rfl := Option.mem_some_iff.mp hx
  exact h

/-- Text behind a name: no word goes on in it. -/
def Closes (text : String) (ts : List Token) : Prop :=
  ∀ cs us, EndsWord cs → tokenize cs = .ok us →
    EndsWord (text.toList ++ cs) ∧ tokenize (text.toList ++ cs) = .ok (ts ++ us)

theorem closes_empty : Closes "" [] :=
  fun _ _ hends hus => ⟨hends, hus⟩

theorem Closes.append {a b : String} {ta tb : List Token} (ha : Closes a ta) (hb : Closes b tb) :
    Closes (a ++ b) (ta ++ tb) := by
  intro cs us hends hus
  obtain ⟨hends', hus'⟩ := hb cs us hends hus
  rw [String.toList_append, List.append_assoc, List.append_assoc]
  exact ha _ _ hends' hus'

theorem Spells.append_closes {a b : String} {ta tb : List Token} (ha : Spells a ta)
    (hb : Closes b tb) : Spells (a ++ b) (ta ++ tb) := by
  intro cs us hends hus
  obtain ⟨hends', hus'⟩ := hb cs us hends hus
  rw [String.toList_append, List.append_assoc, List.append_assoc]
  exact ha _ _ hends' hus'

theorem Closes.spells {text : String} {ts : List Token} (h : Closes text ts) : Spells text ts :=
  fun cs us hends hus => (h cs us hends hus).2

theorem not_isWordChar_of_punctuation {c : Char} {t : Token}
    (h : Token.ofPunctuation? c = some t) : isWordChar c = false := by
  have hmem := ofPunctuation?_mem h
  simp only [List.mem_cons, List.not_mem_nil, or_false] at hmem
  rcases hmem with rfl | rfl | rfl | rfl | rfl | rfl <;> rfl

theorem closes_punctuation {c : Char} {t : Token} (h : Token.ofPunctuation? c = some t) :
    Closes (String.singleton c) [t] := by
  intro cs us _ hus
  refine ⟨?_, opens_punctuation h cs us hus⟩
  rw [String.toList_singleton]
  exact endsWord_cons (not_isWordChar_of_punctuation h) cs

/-- Brackets of any kind around a text. -/
theorem Spells.enclosed {o c : Char} {ot ct : Token} {text : String} {ts : List Token}
    (h : Spells text ts) (ho : Token.ofPunctuation? o = some ot)
    (hc : Token.ofPunctuation? c = some ct) :
    Closes (String.singleton o ++ text ++ String.singleton c) (ot :: (ts ++ [ct])) := by
  have hbehind := h.append_opens (opens_punctuation hc) fun cs => by
    rw [String.toList_singleton]
    exact endsWord_cons (not_isWordChar_of_punctuation hc) cs
  have hall := (opens_punctuation ho).append hbehind
  intro cs us _ hus
  rw [String.append_assoc]
  refine ⟨?_, hall cs us hus⟩
  rw [String.toList_append, String.toList_singleton, List.append_assoc]
  exact endsWord_cons (not_isWordChar_of_punctuation ho) _

theorem Spells.blank {text : String} {ts : List Token} (h : Spells text ts) :
    Opens (text ++ " ") ts := by
  have hh := h.append_opens opens_blank fun cs => endsWord_cons (by decide) cs
  rwa [List.append_nil] at hh

theorem spells_word {w : String} (h : isIdentifier w) (hplain : isTag w = false) :
    Spells w [.word w] := by
  obtain ⟨c, cs, hw, hc, hcs⟩ := isIdentifier_iff.mp h
  have hof : String.ofList (c :: cs) = w := by rw [← hw, String.ofList_toList]
  intro rest us hends hus
  rw [hw, tokenize_word hc hcs hends (by rwa [hof]), hus, hof]
  rfl

theorem trimStart_word {w : String} (h : isIdentifier w) (cs : List Char) :
    ∃ c rest, trimStart (' ' :: w.toList ++ cs) = c :: rest ∧ isWordStart c = true := by
  obtain ⟨c, rest, hw, hc, _⟩ := isIdentifier_iff.mp h
  refine ⟨c, rest ++ cs, ?_, hc⟩
  have hb : isBlank c = false := (Bool.not_eq_true _).mp fun hb => by
    have hword := not_isWordChar_of_isBlank hb
    rw [isWordChar_of_isWordStart hc] at hword
    cases hword
  rw [hw, trimStart, List.cons_append, List.dropWhile_cons_of_pos (by decide), List.cons_append,
    List.dropWhile_cons_of_neg (by simp [hb])]

/-- A tag keyword and the tag. -/
theorem spells_tagged {keyword tag : String} (hk : isIdentifier keyword)
    (hkeyword : isTag keyword = true) (ht : isIdentifier tag) (hplain : isTag tag = false) :
    Spells (keyword ++ " " ++ tag) [.word keyword, .word tag] := by
  obtain ⟨c, cs, hw, hc, hcs⟩ := isIdentifier_iff.mp hk
  have hof : String.ofList (c :: cs) = keyword := by rw [← hw, String.ofList_toList]
  intro rest us hends hus
  have hrest := spells_word ht hplain rest us hends hus
  obtain ⟨x, behind, htrim, hx⟩ := trimStart_word ht rest
  have hdescribed : described (' ' :: tag.toList ++ rest) = .ok none := by
    unfold described
    rw [htrim]
    split
    · next h =>
      obtain rfl := (List.cons.inj h).1
      exact absurd hx (by decide)
    · rfl
  have htext : (keyword ++ " " ++ tag).toList ++ rest = c :: cs ++ (' ' :: tag.toList ++ rest) := by
    simp [hw]
  have hblank : EndsWord (' ' :: tag.toList ++ rest) := endsWord_cons (by decide) _
  rw [htext, tokenize_tag hc hcs hblank (by rwa [hof]), hdescribed]
  simp only [List.cons_append]
  rw [tokenize_blank (by decide), hrest, hof]
  rfl

theorem decimalValue_append_digit (cs : List Char) (c : Char) :
    decimalValue (cs ++ [c]) = 10 * decimalValue cs + (c.toNat - '0'.toNat) := by
  simp [decimalValue, List.foldl_append]

theorem decimalValue_toDigits (n : Nat) : decimalValue (Nat.toDigits 10 n) = n := by
  induction n using Nat.strongRecOn with
  | ind n ih =>
    by_cases hn : n < 10
    · rw [Nat.toDigits_of_lt_base hn]
      exact (decimalValue_append_digit [] _).trans (by
        simpa [decimalValue] using Nat.toNat_digitChar_sub_48_of_lt_ten hn)
    · have hdigit := Nat.toNat_digitChar_sub_48_of_lt_ten (Nat.mod_lt n (by decide : 0 < 10))
      rw [Nat.toDigits_of_base_le (by decide) (Nat.le_of_not_lt hn), decimalValue_append_digit,
        ih (n / 10) (by omega)]
      have hzero : '0'.toNat = 48 := rfl
      rw [hzero, hdigit]
      omega

theorem spells_number {n : Nat} (h : n < limit64) : Spells (toString n) [.number n] := by
  have hdigits : ∀ x ∈ Nat.toDigits 10 n, x.isDigit = true := fun x hx =>
    Nat.isDigit_of_mem_toDigits (by decide) (by decide) hx
  have htext : (toString n).toList = Nat.toDigits 10 n := by
    rw [Nat.toString_eq_repr, Nat.toList_repr]
  intro rest us hends hus
  rw [htext]
  have hvalue := decimalValue_toDigits n
  rcases hd : Nat.toDigits 10 n with _ | ⟨c, cs⟩
  · exact absurd hd Nat.toDigits_ne_nil
  · rw [hd] at hdigits hvalue
    have hrest : ∀ x ∈ rest.head?, x.isDigit = false := fun x hx =>
      (Bool.not_eq_true _).mp fun hxd => by
        have hword := hends x hx
        rw [isWordChar_of_isDigit hxd] at hword
        cases hword
    rw [tokenize_number (hdigits c List.mem_cons_self)
      (fun x hx => hdigits x (List.mem_cons_of_mem c hx)) hrest, hvalue, if_pos h, hus]
    rfl

/-- Words with blanks between them. -/
theorem spells_words {ws : List String} (h : ∀ w ∈ ws, isIdentifier w ∧ isTag w = false) :
    Spells (" ".intercalate ws) (ws.map Token.word) := by
  induction ws with
  | nil => exact opens_empty.spells
  | cons w ws ih =>
    obtain ⟨hw, hplain⟩ := h w List.mem_cons_self
    have hrest := ih fun x hx => h x (List.mem_cons_of_mem w hx)
    cases ws with
    | nil => simpa using spells_word hw hplain
    | cons x ws =>
      rw [String.intercalate_cons_cons, String.append_assoc, ← String.append_assoc]
      exact (spells_word hw hplain).blank.append_spells hrest

theorem spells_list {texts : List String} {parts : List (List Token)}
    (h : List.Forall₂ Spells texts parts) :
    Spells (", ".intercalate texts) (commaJoined parts) := by
  induction h with
  | nil => exact opens_empty.spells
  | @cons text ts texts parts hhead htail ih =>
    cases htail with
    | nil => simpa [commaJoined] using hhead
    | @cons text' ts' texts parts hhead' htail' =>
      have hcomma : Opens ", " [.comma] := (opens_punctuation (c := ',') rfl).append opens_blank
      rw [String.intercalate_cons_cons, commaJoined]
      have hh := (hhead.append_opens hcomma fun cs => endsWord_cons (by decide) cs).append_spells ih
      simpa using hh

end QualType

end Bindery
