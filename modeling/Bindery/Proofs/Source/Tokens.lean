import Bindery.Proofs.Source.Lexical
import Bindery.Source.Definitions
import Mathlib.Data.List.Find

/-! The tokens of a line of C without comments: the longest pieces that can be taken from the front. -/

namespace Bindery

namespace Lexical

open ParamText (span_append)

variable {cs front back rest : List Char} {b c quote : Char}

/-- The words that may stand right before a literal. -/
def encodings : List (List Char) :=
  ["", "L", "u", "U", "u8"].map String.toList

/-- Punctuation of more than one character, longer pieces first. -/
def punctuators : List (List Char) :=
  ["%:%:", "...", "<<=", ">>=", "->", "++", "--", "<<", ">>", "<=", ">=", "==", "!=", "&&", "||",
    "*=", "/=", "%=", "+=", "-=", "&=", "^=", "|=", "##", "<:", ":>", "<%", "%>", "%:"].map
    String.toList

/-- The length of a literal at the front of a text. -/
def literalLength? (cs : List Char) : Option Nat :=
  match cs.dropWhile isWordCharacter with
  | [] => none
  | quote :: rest =>
    if isQuote quote && encodings.contains (cs.takeWhile isWordCharacter) then
      (afterQuote quote rest).map fun behind => cs.length - behind.length
    else none

def startsNumber : List Char → Bool
  | '.' :: c :: _ => c.isDigit
  | c :: _ => c.isDigit
  | [] => false

def isExponentMark (c : Char) : Bool :=
  c == 'e' || c == 'E' || c == 'p' || c == 'P'

/-- How far a number goes on. A sign is part of it behind the mark of an exponent. -/
def numberLength : List Char → Nat
  | [] => 0
  | [c] => if isWordCharacter c || c == '.' then 1 else 0
  | c :: d :: cs =>
    if isExponentMark c && (d == '+' || d == '-') then numberLength cs + 2
    else if isWordCharacter c || c == '.' then numberLength (d :: cs) + 1
    else 0

def punctuatorLength (cs : List Char) : Nat :=
  ((punctuators.find? (·.isPrefixOf cs)).map List.length).getD 1

/-- The length of the token at the front of a text that begins with no blank. -/
def tokenLength (cs : List Char) : Nat :=
  (literalLength? cs).getD
    (if startsNumber cs then numberLength cs
    else if (cs.takeWhile isWordCharacter).isEmpty then punctuatorLength cs
    else (cs.takeWhile isWordCharacter).length)

/-- The tokens of a text behind its first `n` characters. -/
def tokensBehind : Nat → List Char → List (List Char)
  | _, [] => []
  | n + 1, _ :: cs => tokensBehind n cs
  | 0, c :: cs =>
    if isBlank c then tokensBehind 0 cs
    else (c :: cs).take (tokenLength (c :: cs)) ::
      tokensBehind (tokenLength (c :: cs) - 1) cs

def tokens (cs : List Char) : List (List Char) :=
  tokensBehind 0 cs

example : tokens "1   + 2.5e-3 /=u8\"a'\\\"\" x_".toList =
    ["1", "+", "2.5e-3", "/=", "u8\"a'\\\"\"", "x_"].map String.toList := by decide

/-- The blanks beyond ASCII. -/
def wideBlanks : List Nat :=
  [0x85, 0xA0, 0x1680, 0x2028, 0x2029, 0x202F, 0x205F, 0x3000] ++ List.range' 0x2000 11

theorem wordRanges_wideBlanks :
    ∀ n ∈ wideBlanks, (wordRanges.any fun (lo, hi) => lo ≤ n && n ≤ hi) = false := by
  decide +kernel

theorem isBlank_cases (h : isBlank c) : c.toNat < 0x80 ∨ c.toNat ∈ wideBlanks := by
  simp only [isBlank, Bool.or_eq_true, Bool.and_eq_true, decide_eq_true_eq, beq_iff_eq] at h
  simp only [wideBlanks, List.mem_append, List.mem_cons, List.mem_range'_1, List.not_mem_nil]
  omega

theorem not_isWordCharacter_of_isBlank (h : isBlank c) : isWordCharacter c = false := by
  have hword := QualType.not_isWordChar_of_isBlank h
  rw [QualType.isWordChar] at hword
  rw [isWordCharacter, hword, Bool.false_or]
  rcases isBlank_cases h with hascii | hwide
  · rw [decide_eq_false (by omega), Bool.false_and]
  · rw [wordRanges_wideBlanks c.toNat hwide, Bool.and_false]

theorem ne_of_isBlank (h : isBlank b) (hc : isBlank c = false) : b ≠ c := by
  rintro rfl
  rw [hc] at h
  cases h

theorem not_isQuote_of_isWordCharacter (h : isWordCharacter c) : isQuote c = false := by
  rw [← Bool.not_eq_true, isQuote_iff]
  rintro (rfl | rfl) <;> cases h

/-- A blank ends the word in front of it. -/
theorem word_append_blank (hb : isBlank b) (cs back : List Char) :
    (cs ++ b :: back).takeWhile isWordCharacter = cs.takeWhile isWordCharacter ∧
      (cs ++ b :: back).dropWhile isWordCharacter = cs.dropWhile isWordCharacter ++ b :: back := by
  refine span_append fun _ => ?_
  rintro _ ⟨⟩
  exact not_isWordCharacter_of_isBlank hb

theorem numberLength_blank (hb : isBlank b) (back : List Char) : numberLength (b :: back) = 0 := by
  have hword := not_isWordCharacter_of_isBlank hb
  have hdot : b ≠ '.' := ne_of_isBlank hb rfl
  have hmark : isExponentMark b = false := by
    rw [← Bool.not_eq_true]
    intro hmark
    simp only [isExponentMark, Bool.or_eq_true, beq_iff_eq] at hmark
    rcases hmark with ((rfl | rfl) | rfl) | rfl <;> cases hb
  cases back <;> simp [numberLength, hword, hdot, hmark]

theorem numberLength_append (hb : isBlank b) (cs back : List Char) :
    numberLength (cs ++ b :: back) = numberLength cs := by
  have hplus : b ≠ '+' := ne_of_isBlank hb rfl
  have hminus : b ≠ '-' := ne_of_isBlank hb rfl
  fun_induction numberLength cs with
  | case1 => exact numberLength_blank hb back
  | case2 c hc => simp [numberLength, hplus, hminus, hc, numberLength_blank hb]
  | case3 c hc => simp [numberLength, hplus, hminus, hc]
  | case4 c d cs hsign ih =>
    rw [List.cons_append, List.cons_append, numberLength, if_pos hsign, ih]
  | case5 c d cs hsign hc ih =>
    rw [List.cons_append, List.cons_append, numberLength, if_neg hsign, if_pos hc, ← ih]
    rfl
  | case6 c d cs hsign hc =>
    rw [List.cons_append, List.cons_append, numberLength, if_neg hsign, if_neg hc]

theorem numberLength_le (cs : List Char) : numberLength cs ≤ cs.length := by
  fun_induction numberLength cs with
  | case1 => exact Nat.le_refl 0
  | case2 => exact Nat.le_refl 1
  | case3 => exact Nat.zero_le _
  | case4 c d cs hsign ih => exact Nat.add_le_add_right ih 2
  | case5 c d cs hsign hc ih => exact Nat.succ_le_succ ih
  | case6 => exact Nat.zero_le _

theorem numberLength_unquoted (cs : List Char) :
    ∀ c ∈ cs.take (numberLength cs), isQuote c = false := by
  have hpart {c : Char} (hc : (isWordCharacter c || c == '.') = true) : isQuote c = false := by
    rcases (Bool.or_eq_true _ _).mp hc with hword | hdot
    · exact not_isQuote_of_isWordCharacter hword
    · rw [beq_iff_eq.mp hdot]
      rfl
  fun_induction numberLength cs with
  | case1 => exact List.forall_mem_nil _
  | case2 c hc => simpa using hpart hc
  | case3 c hc => simp
  | case4 c d cs hsign ih =>
    obtain ⟨hmark, hd⟩ := (Bool.and_eq_true _ _).mp hsign
    have hc : isQuote c = false := by
      simp only [isExponentMark, Bool.or_eq_true, beq_iff_eq] at hmark
      rcases hmark with ((rfl | rfl) | rfl) | rfl <;> rfl
    have hdq : isQuote d = false := by
      simp only [Bool.or_eq_true, beq_iff_eq] at hd
      rcases hd with rfl | rfl <;> rfl
    exact List.forall_mem_cons.mpr ⟨hc, List.forall_mem_cons.mpr ⟨hdq, ih⟩⟩
  | case5 c d cs hsign hc ih => exact List.forall_mem_cons.mpr ⟨hpart hc, ih⟩
  | case6 c d cs hsign hc => simp

theorem startsNumber_append (hb : isBlank b) (c : Char) (cs back : List Char) :
    startsNumber (c :: cs ++ b :: back) = startsNumber (c :: cs) := by
  have hdigit : b.isDigit = false := by
    rw [← Bool.not_eq_true]
    intro hdigit
    have hword := not_isWordCharacter_of_isBlank hb
    simp [isWordCharacter, Char.isAlphanum, hdigit] at hword
  by_cases hdot : c = '.'
  · subst hdot
    cases cs with
    | nil => exact hdigit
    | cons d cs => rfl
  · simp [startsNumber, hdot]

theorem numberLength_pos (h : startsNumber cs) : 0 < numberLength cs := by
  cases cs with
  | nil => cases h
  | cons c cs =>
    have hpart : (isWordCharacter c || c == '.') = true := by
      by_cases hdot : c = '.'
      · simp [hdot]
      · have hdigit : c.isDigit = true := by simpa [startsNumber, hdot] using h
        simp [isWordCharacter, Char.isAlphanum, hdigit]
    cases cs with
    | nil => rw [numberLength, if_pos hpart]; exact Nat.one_pos
    | cons d cs =>
      rw [numberLength]
      split
      · exact Nat.succ_pos _
      · exact Nat.succ_pos _

theorem punctuators_bare {p : List Char} (hp : p ∈ punctuators) :
    0 < p.length ∧ ∀ c ∈ p, isQuote c = false ∧ isBlank c = false := by
  have hall : punctuators.all fun p => decide (0 < p.length) &&
      p.all fun c => !isQuote c && !isBlank c := by decide +kernel
  have hbare := List.all_eq_true.mp hall p hp
  simpa using hbare

theorem punctuatorLength_append (hb : isBlank b) (cs back : List Char) :
    punctuatorLength (cs ++ b :: back) = punctuatorLength cs := by
  rw [punctuatorLength, punctuatorLength]
  congr 2
  refine List.find?_congr fun p hp => ?_
  rw [Bool.eq_iff_iff, List.isPrefixOf_iff_prefix, List.isPrefixOf_iff_prefix]
  refine ⟨fun hprefix => ?_, fun hprefix => hprefix.trans (List.prefix_append cs _)⟩
  -- a piece that reached the blank would hold it
  have hnot : ¬ cs ++ [b] <+: p := fun hlong => by
    have hmem : b ∈ p := hlong.subset (List.mem_append_right cs List.mem_cons_self)
    have hblank := ((punctuators_bare hp).2 b hmem).2
    rw [hb] at hblank
    cases hblank
  have hsame : cs ++ [b] <+: cs ++ b :: back := ⟨back, by simp⟩
  have hpart := (List.prefix_or_prefix_of_prefix hprefix hsame).resolve_right hnot
  exact (List.prefix_concat_iff.mp hpart).resolve_left fun he => hnot (he ▸ List.prefix_refl _)

/-- How much of a text its first token takes, when it is no literal. -/
structure Takes (cs : List Char) (n : Nat) : Prop where
  pos : 0 < n
  le : n ≤ cs.length
  unquoted : ∀ c ∈ cs.take n, isQuote c = false

theorem takes_punctuator (hc : isQuote c = false) (cs : List Char) :
    Takes (c :: cs) (punctuatorLength (c :: cs)) := by
  rw [punctuatorLength]
  cases hfind : punctuators.find? (·.isPrefixOf (c :: cs)) with
  | none => exact ⟨Nat.one_pos, Nat.succ_pos _, List.forall_mem_singleton.mpr hc⟩
  | some p =>
    obtain ⟨hpos, hbare⟩ := punctuators_bare (List.mem_of_find?_eq_some hfind)
    have hfound := List.find?_some hfind
    have hprefix := List.isPrefixOf_iff_prefix.mp hfound
    refine ⟨hpos, hprefix.length_le, ?_⟩
    rw [Option.map_some, Option.getD_some, ← List.prefix_iff_eq_take.mp hprefix]
    exact fun d hd => (hbare d hd).1

theorem takes_word (h : cs.takeWhile isWordCharacter ≠ []) :
    Takes cs (cs.takeWhile isWordCharacter).length := by
  have hprefix := List.takeWhile_prefix isWordCharacter (l := cs)
  refine ⟨List.length_pos_of_ne_nil h, hprefix.length_le, ?_⟩
  rw [← List.prefix_iff_eq_take.mp hprefix]
  exact fun d hd => not_isQuote_of_isWordCharacter (List.all_eq_true.mp List.all_takeWhile d hd)

section

variable {ok : Char → List Char → Prop} (h : CommentFree ok rest cs)
include h

/-- A literal behind a word is closed. -/
theorem exists_literal {quoted : List Char} (hquoted : cs.dropWhile isWordCharacter = quote :: quoted)
    (hquote : isQuote quote) : ∃ front behind, cs = front ++ behind ∧ 0 < front.length ∧
      CommentFree ok rest behind ∧
      ∀ back, afterQuote quote (quoted ++ back) = some (behind ++ back) := by
  have hcs := List.takeWhile_append_dropWhile (p := isWordCharacter) (l := cs)
  rw [hquoted] at hcs
  have hliteral : CommentFree ok rest (quote :: quoted) :=
    CommentFree.behind (hcs ▸ h) fun c hc =>
      not_isQuote_of_isWordCharacter (List.all_eq_true.mp List.all_takeWhile c hc)
  obtain ⟨body, behind, rfl, hclosed, -, hmore⟩ := hliteral.literal_of_cons hquote
  refine ⟨cs.takeWhile isWordCharacter ++ quote :: (body ++ [quote]), behind, ?_, ?_, hmore, ?_⟩
  · simpa using hcs.symm
  · rw [List.length_append]
    exact Nat.add_pos_right _ (Nat.succ_pos _)
  · intro back
    rw [List.append_assoc]
    exact afterQuote_append hquote hclosed (behind ++ back)

/-- A literal at the front of a text is closed in it. -/
theorem literal_taken {n : Nat} (hn : literalLength? cs = some n) :
    0 < n ∧ n ≤ cs.length ∧ CommentFree ok rest (cs.drop n) := by
  rw [literalLength?] at hn
  split at hn
  · cases hn
  · next quote quoted hquoted =>
    split at hn
    · next hopen =>
      have hquote : isQuote quote := ((Bool.and_eq_true _ _).mp hopen).1
      obtain ⟨front, behind, rfl, hpos, hmore, hafter⟩ := exists_literal h hquoted hquote
      have hclosed : afterQuote quote quoted = some behind := by simpa using hafter []
      simp only [hclosed, Option.map_some, List.length_append, Nat.add_sub_cancel,
        Option.some.injEq] at hn
      subst hn
      refine ⟨hpos, ?_, ?_⟩
      · rw [List.length_append]
        exact Nat.le_add_right _ _
      · rwa [List.drop_left]
    · cases hn

theorem literalLength?_append (hb : isBlank b) (back : List Char) :
    literalLength? (cs ++ b :: back) = literalLength? cs := by
  obtain ⟨htake, hdrop⟩ := word_append_blank hb cs back
  rw [literalLength?, literalLength?, htake, hdrop]
  cases hquoted : cs.dropWhile isWordCharacter with
  | nil => simp [not_isQuote_of_isBlank hb]
  | cons quote quoted =>
    by_cases hquote : isQuote quote = true
    · obtain ⟨front, behind, -, -, -, hafter⟩ := exists_literal h hquoted hquote
      have hclosed : afterQuote quote quoted = some behind := by simpa using hafter []
      have hlength : (cs ++ b :: back).length - (behind ++ b :: back).length =
          cs.length - behind.length := by
        simp only [List.length_append, Nat.add_sub_add_right]
      simp only [List.cons_append, hafter, hclosed, Option.map_some, hlength]
    · simp [hquote]

end

/-- What begins with a quote is a literal. -/
theorem unquoted_of_literalLength? {ok : Char → List Char → Prop} (h : CommentFree ok rest (c :: cs))
    (hn : literalLength? (c :: cs) = none) : isQuote c = false := by
  rw [← Bool.not_eq_true]
  intro hquote
  obtain ⟨body, behind, rfl, hclosed, -, -⟩ := h.literal_of_cons hquote
  have hword : isWordCharacter c = false := by
    rw [← Bool.not_eq_true]
    intro hword
    rw [not_isQuote_of_isWordCharacter hword] at hquote
    cases hquote
  have hempty : [] ∈ encodings := by decide
  simp [literalLength?, hword, hquote, hempty, afterQuote_append hquote hclosed] at hn

theorem tokenLength_append {ok : Char → List Char → Prop} (h : CommentFree ok rest (c :: cs))
    (hb : isBlank b) (back : List Char) :
    tokenLength (c :: cs ++ b :: back) = tokenLength (c :: cs) := by
  rw [tokenLength, tokenLength, literalLength?_append h hb, startsNumber_append hb,
    numberLength_append hb, punctuatorLength_append hb, (word_append_blank hb _ back).1]

theorem tokenLength_taken {ok : Char → List Char → Prop} (h : CommentFree ok rest (c :: cs)) :
    0 < tokenLength (c :: cs) ∧ tokenLength (c :: cs) ≤ (c :: cs).length ∧
      CommentFree ok rest ((c :: cs).drop (tokenLength (c :: cs))) := by
  rw [tokenLength]
  cases hn : literalLength? (c :: cs) with
  | some n => exact literal_taken h hn
  | none =>
    have htakes {n : Nat} (ht : Takes (c :: cs) n) :
        0 < n ∧ n ≤ (c :: cs).length ∧ CommentFree ok rest ((c :: cs).drop n) := by
      refine ⟨ht.pos, ht.le, CommentFree.behind ?_ ht.unquoted⟩
      rwa [List.take_append_drop]
    rw [Option.getD_none]
    split
    · next hnumber =>
      exact htakes ⟨numberLength_pos hnumber, numberLength_le _, numberLength_unquoted _⟩
    · split
      · exact htakes (takes_punctuator (unquoted_of_literalLength? h hn) cs)
      · next hword => exact htakes (takes_word (by simpa using hword))

theorem tokensBehind_eq (n : Nat) (cs : List Char) : tokensBehind n cs = tokens (cs.drop n) := by
  induction n generalizing cs with
  | zero => rfl
  | succ n ih =>
    cases cs with
    | nil => rfl
    | cons c cs => exact ih cs

theorem tokens_blank (hb : isBlank b) (cs : List Char) : tokens (b :: cs) = tokens cs := by
  rw [tokens, tokensBehind, if_pos hb]
  rfl

theorem tokens_cons (hc : isBlank c = false) (hpos : 0 < tokenLength (c :: cs)) :
    tokens (c :: cs) = (c :: cs).take (tokenLength (c :: cs)) ::
      tokens ((c :: cs).drop (tokenLength (c :: cs))) := by
  obtain ⟨n, hn⟩ := Nat.exists_eq_succ_of_ne_zero hpos.ne'
  rw [tokens, tokensBehind, if_neg (by simp [hc]), tokensBehind_eq, hn]
  rfl

theorem tokens_eq_nil_iff : tokens cs = [] ↔ ∀ c ∈ cs, isBlank c := by
  induction cs with
  | nil => exact iff_of_true rfl (List.forall_mem_nil _)
  | cons c cs ih =>
    by_cases hc : isBlank c = true
    · rw [tokens_blank hc, ih, List.forall_mem_cons, and_iff_right hc]
    · rw [tokens, tokensBehind, if_neg hc, List.forall_mem_cons]
      exact iff_of_false (List.cons_ne_nil _ _) fun h => hc h.1

/-- The tokens of a text end where a blank follows. -/
theorem tokens_append_blank {ok : Char → List Char → Prop} (h : CommentFree ok rest cs)
    (hb : isBlank b) (back : List Char) :
    tokens (cs ++ b :: back) = tokens cs ++ tokens back := by
  induction hn : cs.length using Nat.strongRecOn generalizing cs with
  | ind n ih =>
    cases cs with
    | nil => exact tokens_blank hb back
    | cons c cs =>
      by_cases hc : isBlank c = true
      · have hmore := (h.unquoted_of_cons (not_isQuote_of_isBlank hc)).2
        rw [List.cons_append, tokens_blank hc, tokens_blank hc]
        exact ih cs.length (hn ▸ Nat.lt_succ_self _) hmore rfl
      · rw [Bool.not_eq_true] at hc
        obtain ⟨hpos, hle, hmore⟩ := tokenLength_taken h
        have hsame := tokenLength_append h hb back
        have hrest := ih _ (by rw [List.length_drop]; omega) hmore rfl
        have hfirst : tokens (c :: cs ++ b :: back) =
            (c :: cs).take (tokenLength (c :: cs)) ::
              tokens ((c :: cs).drop (tokenLength (c :: cs)) ++ b :: back) := by
          rw [← List.take_append_of_le_length hle, ← List.drop_append_of_le_length hle, ← hsame]
          exact tokens_cons hc (hsame ▸ hpos)
        rw [hfirst, hrest, tokens_cons hc hpos]
        rfl

theorem tokens_trim (h : Plain cs) : tokens (trim cs) = tokens cs := by
  obtain ⟨front, back, hcs, hfront, hback⟩ := trim_parts cs
  have hstart (text : List Char) : tokens (front ++ text) = tokens text := by
    clear hcs
    induction front with
    | nil => rfl
    | cons b front ih =>
      obtain ⟨hb, hmore⟩ := List.forall_mem_cons.mp hfront
      exact (tokens_blank hb _).trans (ih hmore)
  have hstop : tokens (trim cs ++ back) = tokens (trim cs) := by
    cases back with
    | nil => rw [List.append_nil]
    | cons b back =>
      obtain ⟨hb, hmore⟩ := List.forall_mem_cons.mp hback
      rw [tokens_append_blank h.trim hb, tokens_eq_nil_iff.mpr hmore, List.append_nil]
  have hall := congrArg tokens hcs
  rw [hstart, hstop] at hall
  exact hall.symm

end Lexical

end Bindery
