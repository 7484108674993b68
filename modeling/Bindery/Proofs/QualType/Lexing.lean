import Mathlib.Data.List.Induction
import Mathlib.Data.List.TakeWhile
import Mathlib.Tactic.Tauto
import Bindery.Proofs.Result
import Bindery.Proofs.Text.Identifier

/-! The tokens of a text. Blanks around a text have none, and a text may be cut where a token
ends. -/

namespace Bindery

namespace QualType

theorem span_eq {p : Char → Bool} {w cs : List Char} (hw : ∀ x ∈ w, p x = true)
    (hcs : ∀ x ∈ cs.head?, p x = false) :
    (w ++ cs).takeWhile p = w ∧ (w ++ cs).dropWhile p = cs := by
  induction w with
  | nil =>
    cases cs with
    | nil => exact ⟨rfl, rfl⟩
    | cons c cs =>
      have hc := hcs c rfl
      simp [hc]
  | cons c w ih =>
    have hc := hw c List.mem_cons_self
    obtain ⟨ht, hd⟩ := ih fun x hx => hw x (List.mem_cons_of_mem c hx)
    simp [hc, ht, hd]

theorem isDigit_code {c : Char} (h : c.isDigit = true) : 48 ≤ c.toNat ∧ c.toNat ≤ 57 := by
  simp only [Char.isDigit, Bool.and_eq_true, decide_eq_true_eq, UInt32.le_iff_toNat_le,
    ge_iff_le] at h
  exact h

theorem isWordStart_code {c : Char} (h : isWordStart c = true) :
    (65 ≤ c.toNat ∧ c.toNat ≤ 90) ∨ c.toNat = 95 ∨ (97 ≤ c.toNat ∧ c.toNat ≤ 122) := by
  simp only [isWordStart, Bool.or_eq_true, beq_iff_eq] at h
  rcases h with h | rfl
  · have hletter : (c.isUpper || c.isLower) = true := h
    rcases (Bool.or_eq_true _ _).mp hletter with hupper | hlower
    · have hcase : c.val ≥ 'A'.val ∧ c.val ≤ 'Z'.val := of_decide_eq_true hupper
      exact .inl hcase
    · have hcase : (decide (c.val ≥ 'a'.val) && decide (c.val ≤ 'z'.val)) = true := hlower
      obtain ⟨hleast, hlast⟩ := (Bool.and_eq_true _ _).mp hcase
      exact .inr (.inr ⟨of_decide_eq_true hleast, of_decide_eq_true hlast⟩)
  · decide

theorem isWordChar_iff {c : Char} :
    isWordChar c = true ↔ isWordStart c = true ∨ c.isDigit = true := by
  simp only [isWordStart, isWordChar, Char.isAlphanum, Bool.or_eq_true]
  tauto

theorem isBlank_code {c : Char} (h : isBlank c = true) : c.toNat ≤ 32 ∨ 133 ≤ c.toNat := by
  simp only [isBlank, Bool.or_eq_true, Bool.and_eq_true, decide_eq_true_eq, beq_iff_eq] at h
  omega

theorem not_isWordChar_of_isBlank {c : Char} (h : isBlank c = true) : isWordChar c = false := by
  have hb := isBlank_code h
  apply (Bool.not_eq_true _).mp
  intro hc
  rcases isWordChar_iff.mp hc with hs | hd
  · have hw := isWordStart_code hs
    omega
  · have hw := isDigit_code hd
    omega

theorem isWordChar_of_isWordStart {c : Char} (h : isWordStart c = true) : isWordChar c = true :=
  isWordChar_iff.mpr (.inl h)

theorem isWordChar_of_isDigit {c : Char} (h : c.isDigit = true) : isWordChar c = true :=
  isWordChar_iff.mpr (.inr h)

theorem not_isWordStart_of_isDigit {c : Char} (h : c.isDigit = true) : isWordStart c = false := by
  have hd := isDigit_code h
  apply (Bool.not_eq_true _).mp
  intro hs
  have hw := isWordStart_code hs
  omega

theorem ofPunctuation?_mem {c : Char} {t : Token} (h : Token.ofPunctuation? c = some t) :
    c ∈ ['*', '(', ')', '[', ']', ','] := by
  unfold Token.ofPunctuation? at h
  repeat' split at h
  all_goals simp_all

/-- Characters at which a word ends. -/
def EndsWord (cs : List Char) : Prop :=
  ∀ c ∈ cs.head?, isWordChar c = false

theorem tokenize_blank {c : Char} (h : isAsciiBlank c = true) (cs : List Char) :
    tokenize (c :: cs) = tokenize cs := by
  rw [tokenize]
  · simp [h]
  · rintro rest rfl
    simp [isAsciiBlank] at h

theorem tokenize_blanks {bl : List Char} (h : ∀ c ∈ bl, isAsciiBlank c = true) (cs : List Char) :
    tokenize (bl ++ cs) = tokenize cs := by
  induction bl with
  | nil => rfl
  | cons c bl ih =>
    rw [List.cons_append, tokenize_blank (h c List.mem_cons_self)]
    exact ih fun x hx => h x (List.mem_cons_of_mem c hx)

theorem not_isAsciiBlank_of_isWordChar {c : Char} (h : isWordChar c = true) :
    isAsciiBlank c = false := by
  apply (Bool.not_eq_true _).mp
  intro hb
  rw [not_isWordChar_of_isBlank (isBlank_of_isAsciiBlank hb)] at h
  cases h

theorem tokenize_word {c : Char} {w cs : List Char} (hc : isWordStart c = true)
    (hw : ∀ x ∈ w, isWordChar x = true) (hcs : EndsWord cs)
    (hplain : isTag (String.ofList (c :: w)) = false) :
    tokenize (c :: w ++ cs) = (tokenize cs).map (.word (String.ofList (c :: w)) :: ·) := by
  obtain ⟨ht, hd⟩ := span_eq hw hcs
  rw [List.cons_append, tokenize]
  · simp only [not_isAsciiBlank_of_isWordChar (isWordChar_of_isWordStart hc), hc, ht, hd, hplain,
      if_true, if_false, Bool.false_eq_true]
  · rintro rest rfl
    exact absurd hc (by decide)

theorem tokenize_number {c : Char} {w cs : List Char} (hc : c.isDigit = true)
    (hw : ∀ x ∈ w, x.isDigit = true) (hcs : ∀ x ∈ cs.head?, x.isDigit = false) :
    tokenize (c :: w ++ cs) =
      if decimalValue (c :: w) < limit64 then
        (tokenize cs).map (.number (decimalValue (c :: w)) :: ·)
      else .error (.unexpectedChar c) := by
  obtain ⟨ht, hd⟩ := span_eq hw hcs
  have hstart := not_isWordStart_of_isDigit hc
  have hblank := not_isAsciiBlank_of_isWordChar (isWordChar_of_isDigit hc)
  rw [List.cons_append, tokenize]
  · simp only [hblank, hstart, hc, ht, hd, if_true, if_false, Bool.false_eq_true]
  · rintro rest rfl
    exact absurd hc (by decide)

theorem tokenize_punctuation {c : Char} {t : Token} (h : Token.ofPunctuation? c = some t)
    (cs : List Char) : tokenize (c :: cs) = (tokenize cs).map (t :: ·) := by
  have hmem := ofPunctuation?_mem h
  have hplain : isAsciiBlank c = false ∧ isWordStart c = false ∧ c.isDigit = false := by
    simp only [List.mem_cons, List.not_mem_nil, or_false] at hmem
    rcases hmem with rfl | rfl | rfl | rfl | rfl | rfl <;> decide
  obtain ⟨hblank, hstart, hdigit⟩ := hplain
  rw [tokenize]
  · simp only [hblank, hstart, hdigit, h, if_false, Bool.false_eq_true]
  · rintro rest rfl
    cases h

theorem tokenize_ellipsis (cs : List Char) :
    tokenize ('.' :: '.' :: '.' :: cs) = (tokenize cs).map (.ellipsis :: ·) := by
  rw [tokenize]

/-- The description behind a tag keyword with the text that follows it. -/
def described (cs : List Char) : Except QualTypeError (Option (String × List Char)) :=
  match trimStart cs with
  | '(' :: inner =>
    match splitParens inner with
    | none => .error .unbalanced
    | some (inside, rest) => .ok (some (String.ofList inside, rest))
  | _ => .ok none

theorem anonymousGroup_eq (cs : List Char) :
    (anonymousGroup cs).map (Option.map fun p => (p.1, p.2.1)) = described cs := by
  unfold anonymousGroup described
  split
  · next inner h =>
    simp only [h]
    split
    · next hg => simp [hg, Except.map]
    · next inside rest hg => simp [hg, Except.map]
  · next hno =>
    split
    · next inner h => exact absurd h (hno inner)
    · rfl

theorem tokenize_tag {c : Char} {w cs : List Char} (hc : isWordStart c = true)
    (hw : ∀ x ∈ w, isWordChar x = true) (hcs : EndsWord cs)
    (htag : isTag (String.ofList (c :: w)) = true) :
    tokenize (c :: w ++ cs) =
      match described cs with
      | .error e => .error e
      | .ok none => (tokenize cs).map (.word (String.ofList (c :: w)) :: ·)
      | .ok (some (key, behind)) =>
        (tokenize behind).map fun ts => .word (String.ofList (c :: w)) :: .anonymous key :: ts := by
  obtain ⟨ht, hd⟩ := span_eq hw hcs
  have hgroup := anonymousGroup_eq ((w ++ cs).dropWhile isWordChar)
  rw [show described cs = described ((w ++ cs).dropWhile isWordChar) by rw [hd], ← hgroup,
    List.cons_append, tokenize]
  · simp only [not_isAsciiBlank_of_isWordChar (isWordChar_of_isWordStart hc), hc, ht, htag, if_true,
      if_false, Bool.false_eq_true]
    rcases hg : anonymousGroup ((w ++ cs).dropWhile isWordChar) with e | _ | ⟨key, behind, hlen⟩
    · rfl
    · simp only [Except.map, Option.map, hd]
    · rfl
  · rintro rest rfl
    exact absurd hc (by decide)

/-- What a text begins with. -/
inductive Cut : List Char → Prop where
  | nil : Cut []
  | ellipsis (rest : List Char) : Cut ('.' :: '.' :: '.' :: rest)
  | blank {c : Char} (h : isAsciiBlank c = true) (rest : List Char) : Cut (c :: rest)
  | word {c : Char} {w rest : List Char} (hc : isWordStart c = true)
      (hw : ∀ x ∈ w, isWordChar x = true) (hrest : EndsWord rest) : Cut (c :: w ++ rest)
  | number {c : Char} {w rest : List Char} (hc : c.isDigit = true)
      (hw : ∀ x ∈ w, x.isDigit = true) (hrest : ∀ x ∈ rest.head?, x.isDigit = false) :
      Cut (c :: w ++ rest)
  | punctuation {c : Char} {t : Token} (h : Token.ofPunctuation? c = some t) (rest : List Char) :
      Cut (c :: rest)
  | stray {c : Char} {rest : List Char} (hblank : isAsciiBlank c = false)
      (hstart : isWordStart c = false) (hdigit : c.isDigit = false)
      (hpunctuation : Token.ofPunctuation? c = none)
      (hdots : ∀ r, c = '.' → rest ≠ '.' :: '.' :: r) : Cut (c :: rest)

theorem takeWhile_all (p : Char → Bool) (cs : List Char) : ∀ x ∈ cs.takeWhile p, p x = true :=
  List.all_eq_true.mp List.all_takeWhile

theorem dropWhile_head? (p : Char → Bool) (cs : List Char) :
    ∀ x ∈ (cs.dropWhile p).head?, p x = false := by
  have h := List.head?_dropWhile_not p cs
  intro x hx
  rw [Option.mem_def.mp hx] at h
  exact h

theorem cut (cs : List Char) : Cut cs := by
  cases cs with
  | nil => exact .nil
  | cons c rest =>
    by_cases hdots : ∃ r, c = '.' ∧ rest = '.' :: '.' :: r
    · obtain ⟨r, rfl, rfl⟩ := hdots
      exact .ellipsis r
    · cases hblank : isAsciiBlank c with
      | true => exact .blank hblank rest
      | false =>
        cases hstart : isWordStart c with
        | true =>
          have h := Cut.word hstart (takeWhile_all isWordChar rest) (dropWhile_head? isWordChar rest)
          simpa using h
        | false =>
          cases hdigit : c.isDigit with
          | true =>
            have h := Cut.number hdigit (takeWhile_all Char.isDigit rest)
              (dropWhile_head? Char.isDigit rest)
            simpa using h
          | false =>
            cases hp : Token.ofPunctuation? c with
            | some t => exact .punctuation hp rest
            | none => exact .stray hblank hstart hdigit hp fun r hc hr => hdots ⟨r, hc, hr⟩

theorem tokenize_stray {c : Char} {rest : List Char} (hblank : isAsciiBlank c = false)
    (hstart : isWordStart c = false) (hdigit : c.isDigit = false)
    (hpunctuation : Token.ofPunctuation? c = none)
    (hdots : ∀ r, c = '.' → rest ≠ '.' :: '.' :: r) :
    tokenize (c :: rest) = .error (.unexpectedChar (leadByte c)) := by
  rw [tokenize]
  · simp only [hblank, hstart, hdigit, hpunctuation, if_false, Bool.false_eq_true]
  · exact hdots

theorem splitGroup_append {opens closes : Char → Bool} {bl : List Char}
    (hbl : ∀ x ∈ bl, closes x = false) (depth : Nat) (cs : List Char) :
    splitGroup opens closes depth (cs ++ bl) =
      (splitGroup opens closes depth cs).map fun p => (p.1, p.2 ++ bl) := by
  induction cs generalizing depth with
  | nil =>
    rw [List.nil_append, splitGroup, Option.map_none]
    induction bl generalizing depth with
    | nil => rfl
    | cons x bl ih =>
      have hx := hbl x List.mem_cons_self
      simp [splitGroup, hx, ih fun y hy => hbl y (List.mem_cons_of_mem x hy)]
  | cons c cs ih =>
    rw [List.cons_append, splitGroup, splitGroup]
    split
    · rfl
    · simp only [ih]
      cases splitGroup opens closes _ cs <;> rfl

theorem described_append {bl : List Char} (hbl : ∀ c ∈ bl, isAsciiBlank c = true)
    (cs : List Char) :
    described (cs ++ bl) = (described cs).map (Option.map fun p => (p.1, p.2 ++ bl)) := by
  have htrim : bl.dropWhile isBlank = [] :=
    List.dropWhile_eq_nil_iff.mpr fun c hc => isBlank_of_isAsciiBlank (hbl c hc)
  have hclose : ∀ x ∈ bl, (x == ')') = false := by
    intro x hx
    apply beq_eq_false_iff_ne.mpr
    rintro rfl
    exact absurd (hbl _ hx) (by decide)
  simp only [described, trimStart, List.dropWhile_append]
  cases hcs : cs.dropWhile isBlank with
  | nil => simp [htrim, Except.map]
  | cons c inner =>
    by_cases hc : c = '('
    · subst hc
      simp only [List.isEmpty_cons, Bool.false_eq_true, if_false, List.cons_append, splitParens,
        splitGroup_append hclose]
      cases splitGroup (· == '(') (· == ')') 0 inner <;> rfl
    · simp only [List.isEmpty_cons, Bool.false_eq_true, if_false, List.cons_append]
      split
      · next h => exact absurd (List.cons.inj h).1 hc
      · split
        · next h => exact absurd (List.cons.inj h).1 hc
        · rfl

theorem described_length {cs behind : List Char} {key : String}
    (h : described cs = .ok (some (key, behind))) : behind.length < cs.length := by
  have htrim := length_dropWhile_le isBlank cs
  unfold described at h
  split at h
  · next inner hcs =>
    rw [trimStart] at hcs
    rw [hcs, List.length_cons] at htrim
    split at h
    · cases h
    · next inside rest hg =>
      cases h
      have hlen := splitGroup_length hg
      omega
  · cases h

theorem head?_append_blanks {p : Char → Bool} {bl : List Char} (hp : ∀ c ∈ bl, p c = false)
    {cs : List Char} (hcs : ∀ c ∈ cs.head?, p c = false) : ∀ c ∈ (cs ++ bl).head?, p c = false := by
  cases cs with
  | nil => exact fun c hc => hp c (List.mem_of_head? hc)
  | cons c cs => exact hcs

theorem dots_of_append {bl rest r : List Char} (hbl : '.' ∉ bl)
    (h : rest ++ bl = '.' :: '.' :: r) : ∃ r', rest = '.' :: '.' :: r' := by
  rcases rest with _ | ⟨a, _ | ⟨b, rest⟩⟩
  · have hb : bl = '.' :: '.' :: r := h
    exact absurd (by simp [hb]) hbl
  · obtain ⟨_, hb⟩ : a = '.' ∧ bl = '.' :: r := List.cons.inj h
    exact absurd (by simp [hb]) hbl
  · obtain ⟨rfl, hb⟩ := List.cons.inj h
    obtain ⟨rfl, _⟩ := List.cons.inj hb
    exact ⟨rest, rfl⟩

/-- Blanks behind a text change nothing. -/
theorem tokenize_append_blanks {bl : List Char} (hbl : ∀ c ∈ bl, isAsciiBlank c = true)
    (cs : List Char) : tokenize (cs ++ bl) = tokenize cs := by
  have hword : ∀ c ∈ bl, isWordChar c = false := fun c hc =>
    not_isWordChar_of_isBlank (isBlank_of_isAsciiBlank (hbl c hc))
  have hdigit : ∀ c ∈ bl, c.isDigit = false := fun c hc =>
    (Bool.not_eq_true _).mp fun hd => by
      have hw := hword c hc
      rw [isWordChar_of_isDigit hd] at hw
      cases hw
  -- on the length: behind a tag keyword a whole description may be skipped at once
  induction hn : cs.length using Nat.strongRecOn generalizing cs with
  | ind n ih =>
    subst hn
    cases cut cs with
    | nil => simpa using tokenize_blanks hbl []
    | ellipsis rest =>
      have hrest := ih rest.length (by simp only [List.length_cons]; omega) rest rfl
      simp only [List.cons_append, tokenize_ellipsis, hrest]
    | blank h rest =>
      have hrest := ih rest.length (by simp only [List.length_cons]; omega) rest rfl
      simp only [List.cons_append, tokenize_blank h, hrest]
    | @word c w rest hc hw hends =>
      have hends' : EndsWord (rest ++ bl) := head?_append_blanks hword hends
      have hlen : rest.length < (c :: w ++ rest).length := by
        simp only [List.cons_append, List.length_cons, List.length_append]
        omega
      rw [List.append_assoc]
      cases htag : isTag (String.ofList (c :: w)) with
      | false =>
        rw [tokenize_word hc hw hends' htag, tokenize_word hc hw hends htag,
          ih rest.length hlen rest rfl]
      | true =>
        rw [tokenize_tag hc hw hends' htag, tokenize_tag hc hw hends htag,
          described_append hbl]
        rcases hd : described rest with e | _ | ⟨key, behind⟩
        · rfl
        · simp only [Except.map, Option.map]
          rw [ih rest.length hlen rest rfl]
        · have hlen' := described_length hd
          simp only [Except.map, Option.map]
          rw [ih behind.length (hlen'.trans hlen) behind rfl]
    | @number c w rest hc hw hends =>
      have hends' := head?_append_blanks hdigit hends
      have hlen : rest.length < (c :: w ++ rest).length := by
        simp only [List.cons_append, List.length_cons, List.length_append]
        omega
      rw [List.append_assoc]
      rw [tokenize_number hc hw hends', tokenize_number hc hw hends, ih rest.length hlen rest rfl]
    | punctuation h rest =>
      have hrest := ih rest.length (by simp only [List.length_cons]; omega) rest rfl
      simp only [List.cons_append, tokenize_punctuation h, hrest]
    | @stray c rest hblank hstart hdigit hpunctuation hdots =>
      -- a point is stray unless two more follow it, and blanks cannot supply these
      rw [List.cons_append, tokenize_stray hblank hstart hdigit hpunctuation hdots]
      apply tokenize_stray hblank hstart hdigit hpunctuation
      intro r hc hr
      obtain ⟨r', rfl⟩ := dots_of_append (fun hm => absurd (hbl '.' hm) (by decide)) hr
      exact hdots r' hc rfl

theorem splitGroup_eq {α : Type} {opens closes : α → Bool} {depth : Nat}
    {cs inside rest : List α} (h : splitGroup opens closes depth cs = some (inside, rest)) :
    ∃ c, closes c = true ∧ cs = inside ++ c :: rest := by
  induction cs generalizing depth inside with
  | nil => cases h
  | cons c cs ih =>
    rw [splitGroup] at h
    split at h
    · next hc =>
      cases h
      exact ⟨c, ((Bool.and_eq_true _ _).mp hc).1, rfl⟩
    · obtain ⟨⟨inside', rest'⟩, hp, he⟩ := Option.map_eq_some_iff.mp h
      obtain ⟨rfl, rfl⟩ := Prod.mk.inj he
      obtain ⟨x, hx, hcs⟩ := ih hp
      exact ⟨x, hx, by rw [hcs]; rfl⟩

theorem described_eq {cs behind : List Char} {key : String}
    (h : described cs = .ok (some (key, behind))) : ∃ before, cs = before ++ ')' :: behind := by
  unfold described at h
  split at h
  · next inner hcs =>
    split at h
    · cases h
    · next inside rest hg =>
      cases h
      obtain ⟨c, hc, rfl⟩ := splitGroup_eq hg
      obtain rfl := beq_iff_eq.mp hc
      refine ⟨cs.takeWhile isBlank ++ '(' :: inside, ?_⟩
      rw [List.append_assoc, List.cons_append, ← hcs, trimStart, List.takeWhile_append_dropWhile]
  · cases h

/-- The only blanks at which a text that has tokens ends are those between tokens. -/
def EndsPlain (cs : List Char) : Prop :=
  ∀ c ∈ cs.getLast?, isBlank c = true → isAsciiBlank c = true

theorem EndsPlain.append {before behind : List Char} (hbehind : EndsPlain behind)
    (hbefore : EndsPlain before) : EndsPlain (before ++ behind) := by
  intro c hc
  rw [List.getLast?_append] at hc
  rcases hb : behind.getLast? with _ | last
  · rw [hb] at hc
    exact hbefore c hc
  · rw [hb] at hc
    exact hbehind c (hb.trans hc)

theorem endsPlain_of_last {cs : List Char} {c : Char} (h : isBlank c = false) :
    EndsPlain (cs ++ [c]) := by
  intro x hx hb
  rw [List.getLast?_concat] at hx
  obtain rfl := Option.mem_some_iff.mp hx
  rw [h] at hb
  cases hb

theorem endsPlain_word {c : Char} {w : List Char} (hc : isWordChar c = true)
    (hw : ∀ x ∈ w, isWordChar x = true) : EndsPlain (c :: w) := by
  intro x hx hb
  have hmem : x ∈ c :: w := List.mem_of_getLast? hx
  have hx' : isWordChar x = true := by
    rcases List.mem_cons.mp hmem with rfl | hm
    · exact hc
    · exact hw x hm
  rw [not_isWordChar_of_isBlank hb] at hx'
  cases hx'

/-- How the tokens of a text come about, piece by piece. -/
inductive Lexes : List Char → List Token → Prop where
  | nil : Lexes [] []
  | ellipsis {rest : List Char} {ts : List Token} (h : Lexes rest ts) :
      Lexes ('.' :: '.' :: '.' :: rest) (.ellipsis :: ts)
  | blank {c : Char} {rest : List Char} {ts : List Token} (hc : isAsciiBlank c = true)
      (h : Lexes rest ts) : Lexes (c :: rest) ts
  | word {c : Char} {w rest : List Char} {ts : List Token} (hc : isWordStart c = true)
      (hw : ∀ x ∈ w, isWordChar x = true) (h : Lexes rest ts) :
      Lexes (c :: w ++ rest) (.word (String.ofList (c :: w)) :: ts)
  | described {c : Char} {w before behind : List Char} {key : String} {ts : List Token}
      (hc : isWordStart c = true) (hw : ∀ x ∈ w, isWordChar x = true) (h : Lexes behind ts) :
      Lexes (c :: w ++ (before ++ ')' :: behind))
        (.word (String.ofList (c :: w)) :: .anonymous key :: ts)
  | number {c : Char} {w rest : List Char} {ts : List Token} (hc : c.isDigit = true)
      (hw : ∀ x ∈ w, x.isDigit = true) (hlt : decimalValue (c :: w) < limit64)
      (h : Lexes rest ts) : Lexes (c :: w ++ rest) (.number (decimalValue (c :: w)) :: ts)
  | punctuation {c : Char} {t : Token} {rest : List Char} {ts : List Token}
      (hc : Token.ofPunctuation? c = some t) (h : Lexes rest ts) : Lexes (c :: rest) (t :: ts)

theorem lexes_of_tokenize {cs : List Char} {ts : List Token} (h : tokenize cs = .ok ts) :
    Lexes cs ts := by
  induction hn : cs.length using Nat.strongRecOn generalizing cs ts with
  | ind n ih =>
    subst hn
    cases cut cs with
    | nil =>
      rw [tokenize] at h
      cases h
      exact .nil
    | ellipsis rest =>
      rw [tokenize_ellipsis] at h
      obtain ⟨us, hus, rfl⟩ := except_map_ok h
      exact .ellipsis (ih _ (by simp only [List.length_cons]; omega) hus rfl)
    | blank hc rest =>
      rw [tokenize_blank hc] at h
      exact .blank hc (ih _ (by simp only [List.length_cons]; omega) h rfl)
    | @word c w rest hc hw hends =>
      have hlen : rest.length < (c :: w ++ rest).length := by
        simp only [List.cons_append, List.length_cons, List.length_append]
        omega
      cases htag : isTag (String.ofList (c :: w)) with
      | false =>
        rw [tokenize_word hc hw hends htag] at h
        obtain ⟨us, hus, rfl⟩ := except_map_ok h
        exact .word hc hw (ih _ hlen hus rfl)
      | true =>
        rw [tokenize_tag hc hw hends htag] at h
        rcases hd : described rest with e | _ | ⟨key, behind⟩
        · rw [hd] at h
          cases h
        · rw [hd] at h
          obtain ⟨us, hus, rfl⟩ := except_map_ok h
          exact .word hc hw (ih _ hlen hus rfl)
        · rw [hd] at h
          obtain ⟨us, hus, rfl⟩ := except_map_ok h
          have hbehind := ih _ ((described_length hd).trans hlen) hus rfl
          obtain ⟨before, rfl⟩ := described_eq hd
          exact .described hc hw hbehind
    | @number c w rest hc hw hends =>
      rw [tokenize_number hc hw hends] at h
      split at h
      · next hlt =>
        obtain ⟨us, hus, rfl⟩ := except_map_ok h
        refine .number hc hw hlt (ih _ ?_ hus rfl)
        simp only [List.cons_append, List.length_cons, List.length_append]
        omega
      · cases h
    | punctuation hc rest =>
      rw [tokenize_punctuation hc] at h
      obtain ⟨us, hus, rfl⟩ := except_map_ok h
      exact .punctuation hc (ih _ (by simp only [List.length_cons]; omega) hus rfl)
    | stray hblank hstart hdigit hpunctuation hdots =>
      rw [tokenize_stray hblank hstart hdigit hpunctuation hdots] at h
      cases h

theorem Lexes.endsPlain {cs : List Char} {ts : List Token} (h : Lexes cs ts) : EndsPlain cs := by
  induction h with
  | nil => exact nofun
  | @ellipsis rest _ _ ih =>
    have hdots : EndsPlain (['.', '.'] ++ ['.']) := endsPlain_of_last (by decide)
    exact ih.append hdots
  | @blank c rest _ hc _ ih =>
    have hone : EndsPlain [c] := by
      intro x hx _
      obtain rfl := Option.mem_some_iff.mp hx
      exact hc
    exact ih.append hone
  | word hc hw _ ih => exact ih.append (endsPlain_word (isWordChar_of_isWordStart hc) hw)
  | @described c w before behind _ _ _ _ _ ih =>
    have hparen : EndsPlain (c :: w ++ before ++ [')']) := endsPlain_of_last (by decide)
    have hall := ih.append hparen
    simpa using hall
  | number hc hw _ _ ih =>
    exact ih.append (endsPlain_word (isWordChar_of_isDigit hc) fun x hx =>
      isWordChar_of_isDigit (hw x hx))
  | @punctuation c t rest _ hc _ ih =>
    have hone : EndsPlain ([] ++ [c]) := by
      apply endsPlain_of_last
      have hmem := ofPunctuation?_mem hc
      simp only [List.mem_cons, List.not_mem_nil, or_false] at hmem
      rcases hmem with rfl | rfl | rfl | rfl | rfl | rfl <;> decide
    exact ih.append hone

/-- What the tokens of a text are like. -/
def Token.Sound : Token → Prop
  | .word text => isIdentifier text
  | .number n => n < limit64
  | _ => True

theorem sound_word {c : Char} {w : List Char} (hc : isWordStart c = true)
    (hw : ∀ x ∈ w, isWordChar x = true) : (Token.word (String.ofList (c :: w))).Sound :=
  isIdentifier_iff.mpr ⟨c, w, String.toList_ofList, hc, hw⟩

theorem Lexes.sound {cs : List Char} {ts : List Token} (h : Lexes cs ts) : ∀ t ∈ ts, t.Sound := by
  induction h with
  | nil => exact nofun
  | ellipsis _ ih => exact List.forall_mem_cons.mpr ⟨trivial, ih⟩
  | blank _ _ ih => exact ih
  | word hc hw _ ih => exact List.forall_mem_cons.mpr ⟨sound_word hc hw, ih⟩
  | described hc hw _ ih =>
    exact List.forall_mem_cons.mpr ⟨sound_word hc hw, List.forall_mem_cons.mpr ⟨trivial, ih⟩⟩
  | number _ _ hlt _ ih => exact List.forall_mem_cons.mpr ⟨hlt, ih⟩
  | @punctuation c t _ _ hc _ ih =>
    refine List.forall_mem_cons.mpr ⟨?_, ih⟩
    have hmem := ofPunctuation?_mem hc
    simp only [List.mem_cons, List.not_mem_nil, or_false] at hmem
    rcases hmem with rfl | rfl | rfl | rfl | rfl | rfl <;> cases hc <;> trivial

theorem isAsciiBlank_of_tokenize {c : Char} {cs : List Char} {ts : List Token}
    (h : tokenize (c :: cs) = .ok ts) (hb : isBlank c = true) : isAsciiBlank c = true := by
  cases hc : isAsciiBlank c with
  | true => rfl
  | false =>
    have hword := not_isWordChar_of_isBlank hb
    have hstart : isWordStart c = false := (Bool.not_eq_true _).mp fun hs => by
      rw [isWordChar_of_isWordStart hs] at hword
      cases hword
    have hdigit : c.isDigit = false := (Bool.not_eq_true _).mp fun hd => by
      rw [isWordChar_of_isDigit hd] at hword
      cases hword
    have hpunctuation : Token.ofPunctuation? c = none := by
      apply Option.eq_none_iff_forall_not_mem.mpr
      intro t ht
      have hmem := ofPunctuation?_mem ht
      simp only [List.mem_cons, List.not_mem_nil, or_false] at hmem
      rcases hmem with rfl | rfl | rfl | rfl | rfl | rfl <;> exact absurd hb (by decide)
    rw [tokenize_stray hc hstart hdigit hpunctuation] at h
    · cases h
    · rintro r rfl
      exact absurd hb (by decide)

theorem tokenize_trimStart {cs : List Char} {ts : List Token} (h : tokenize cs = .ok ts) :
    tokenize (trimStart cs) = .ok ts := by
  induction cs with
  | nil => exact h
  | cons c cs ih =>
    cases hb : isBlank c with
    | false => rwa [trimStart, List.dropWhile_cons_of_neg (by simp [hb])]
    | true =>
      have hc := isAsciiBlank_of_tokenize h hb
      rw [tokenize_blank hc] at h
      rw [trimStart, List.dropWhile_cons_of_pos hb]
      exact ih h

theorem tokenize_trimEnd {cs : List Char} {ts : List Token} (h : tokenize cs = .ok ts) :
    tokenize (trimEnd cs) = .ok ts := by
  induction cs using List.reverseRecOn with
  | nil => exact h
  | append_singleton cs c ih =>
    cases hb : isBlank c with
    | false => simpa [trimEnd, List.dropWhile_cons, hb] using h
    | true =>
      have hc := (lexes_of_tokenize h).endsPlain c (by simp) hb
      rw [tokenize_append_blanks (by simpa using hc)] at h
      simpa [trimEnd, List.dropWhile_cons, hb] using ih h

/-- A text without the blanks around it has the same tokens. -/
theorem tokenize_trim {cs : List Char} {ts : List Token} (h : tokenize cs = .ok ts) :
    tokenize (trim cs) = .ok ts :=
  tokenize_trimEnd (tokenize_trimStart h)

end QualType

end Bindery
