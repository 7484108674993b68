import Bindery.Proofs.QualType.Lexing
import Bindery.Proofs.QualType.Positions
import Bindery.Proofs.Source.Bytes

/-! The tokens of a text between offsets. Every offset at which the text is cut is between two
characters. -/

namespace Bindery

namespace QualType

open Search (byte bytes char minus minus_succ class_eq utf8Size_ascii bytes_cons length_bytes)

section Groups

variable {α : Type} {opens closes : α → Bool} {width : α → Nat} {size : List α → Nat}
  (hapart : ∀ x, opens x = true → closes x = false)
  (hnil : size [] = 0) (hcons : ∀ x xs, size (x :: xs) = width x + size xs)

include hcons in
/-- What is passed on the way counts by its width. -/
theorem map_passed (i : Nat) (x : α) (found : Option (List α × List α)) :
    (found.map fun p => i + width x + size p.1) =
      (found.map fun p => (x :: p.1, p.2)).map fun p => i + size p.1 := by
  cases found with
  | none => rfl
  | some p => simp [hcons, Nat.add_assoc]

include hapart hnil hcons

/-- Inside a group, the count of the groups that are open does not fall below zero. -/
theorem groupEnd_inside (depth i : Nat) (xs : List α) :
    groupEnd opens closes width (depth + 1) i xs =
      pure ((splitGroup opens closes depth xs).map fun p => i + size p.1) := by
  induction xs generalizing depth i with
  | nil => rfl
  | cons x xs ih =>
    rw [groupEnd, splitGroup]
    cases hopen : opens x with
    | true =>
      simp only [hapart x hopen, Bool.false_and, Bool.false_eq_true, if_true, if_false, ih,
        map_passed hcons]
    | false =>
      cases hclose : closes x with
      | false => simp only [Bool.false_and, Bool.false_eq_true, if_false, ih, map_passed hcons]
      | true =>
        simp only [Bool.true_and, Bool.false_eq_true, if_true, if_false, minus_succ, pure_bind]
        cases depth with
        | zero => simp [hnil]
        | succ depth =>
          simp only [beq_iff_eq, Nat.succ_ne_zero, if_false, Nat.add_sub_cancel, ih, map_passed hcons]

theorem groupEnd_opened {x : α} (hx : opens x = true) (i : Nat) (xs : List α) :
    groupEnd opens closes width 0 i (x :: xs) =
      pure ((splitGroup opens closes 0 xs).map fun p => i + width x + size p.1) := by
  rw [groupEnd, if_pos hx, groupEnd_inside hapart hnil hcons]

end Groups

variable {text cs rest : List Char} {c : Char} {i stop steps : Nat}

theorem matchingParen_eq (h : Search.Cut text i stop ('(' :: cs)) (hstop : stop = byteLength text) :
    matchingParen text i = pure ((splitParens cs).map fun p => i + 1 + byteLength p.1) := by
  have hapart : ∀ c : Char, (c == '(') = true → (c == ')') = false := by
    intro c hc
    rw [beq_iff_eq.mp hc]
    rfl
  have hcons : ∀ c cs, byteLength (c :: cs) = c.utf8Size + byteLength cs := fun _ _ => rfl
  rw [matchingParen, ← hstop, h.slice_eq, pure_bind, groupEnd_opened hapart rfl hcons rfl,
    utf8Size_ascii (by decide), splitParens]

theorem leadByte_ascii (h : c.toNat < 128) : leadByte c = c :=
  if_pos h

/-- The first byte of a character. -/
theorem encode_lead (c : Char) :
    ∃ x xs, String.utf8EncodeChar c = x :: xs ∧ Search.char x = leadByte c := by
  have hchar : ∀ n, n < 256 → Search.char (UInt8.ofNat n) = Char.ofNat n := by
    intro n hn
    rw [Search.char, UInt8.toNat_ofNat', Nat.mod_eq_of_lt hn]
  have hcode : c.val.toNat = c.toNat := rfl
  have hvalid : c.toNat < 0x110000 := by
    rcases c.valid with hlow | ⟨-, hhigh⟩ <;> omega
  have hlead : ∀ n m (xs : List UInt8), n = m → n < 256 →
      ∃ y ys, UInt8.ofNat n :: xs = y :: ys ∧ Search.char y = Char.ofNat m := by
    rintro n m xs rfl hn
    exact ⟨_, _, rfl, hchar n hn⟩
  rw [String.utf8EncodeChar, leadByte]
  rw [hcode]
  by_cases h1 : c.toNat < 0x80
  · rw [if_pos (show c.toNat ≤ 0x7f by omega), if_pos h1]
    have hfirst := hlead c.toNat c.toNat [] rfl (by omega)
    rwa [Char.ofNat_toNat] at hfirst
  · rw [if_neg (show ¬c.toNat ≤ 0x7f by omega), if_neg h1]
    by_cases h2 : c.toNat < 0x800
    · rw [if_pos (show c.toNat ≤ 0x7ff by omega), if_pos h2]
      exact hlead _ _ _ (by omega) (by omega)
    · rw [if_neg (show ¬c.toNat ≤ 0x7ff by omega), if_neg h2]
      by_cases h3 : c.toNat < 0x10000
      · rw [if_pos (show c.toNat ≤ 0xffff by omega), if_pos h3]
        exact hlead _ _ _ (by omega) (by omega)
      · rw [if_neg (show ¬c.toNat ≤ 0xffff by omega), if_neg h3]
        exact hlead _ _ _ (by omega) (by omega)

/-- A loop over bytes reads the first byte of a character where the character stands. -/
theorem byte_lead (h : Search.Cut text i stop (c :: cs)) :
    ∃ x ∈ String.utf8EncodeChar c, byte text i = pure x ∧ Search.char x = leadByte c := by
  obtain ⟨back, hback⟩ := h.drop_bytes
  obtain ⟨x, xs, hx, hlead⟩ := encode_lead c
  have hfirst : (bytes text)[i]? = some x := by
    rw [← Nat.add_zero i, ← List.getElem?_drop, hback, bytes_cons, hx]
    rfl
  exact ⟨x, by rw [hx]; exact List.mem_cons_self, by rw [byte, hfirst]; rfl, hlead⟩

theorem runEnd_eq {belongs : Char → Bool} (hhigh : ∀ d : Char, 128 ≤ d.toNat → belongs d = false)
    (h : Search.Cut text i stop cs) (hstop : stop = byteLength text) (hsteps : stop < i + steps) :
    runEnd belongs steps text i = pure (i + byteLength (cs.takeWhile belongs)) := by
  have hend : (bytes text).length = stop := by rw [length_bytes, hstop]
  induction cs generalizing i steps with
  | nil =>
    obtain ⟨steps, rfl, -⟩ := h.step hsteps
    have hstart := h.stop_eq
    rw [byteLength, Nat.add_zero] at hstart
    rw [runEnd, hend, hstart, if_neg (Nat.lt_irrefl i)]
    rfl
  | cons c cs ih =>
    obtain ⟨steps, rfl, hle⟩ := h.step hsteps
    obtain ⟨x, hx, hbyte, -⟩ := byte_lead h
    rw [runEnd, hend, if_pos h.start_lt, hbyte, pure_bind, class_eq hhigh hx, List.takeWhile_cons]
    split
    next hbelongs =>
      have hsize : c.utf8Size = 1 := by
        refine utf8Size_ascii (Nat.lt_of_not_le fun hc => ?_)
        rw [hhigh c hc] at hbelongs
        cases hbelongs
      have hnext := h.next
      rw [hsize] at hnext
      rw [ih hnext (Search.later hle Nat.one_pos), byteLength, hsize, Nat.add_assoc]
    next => rfl

/-- A run of what belongs together, cut out of the text. -/
theorem run_cut {belongs : Char → Bool} {w : List Char}
    (hhigh : ∀ d : Char, 128 ≤ d.toNat → belongs d = false)
    (hw : ∀ x ∈ w, belongs x = true) (hrest : ∀ x ∈ rest.head?, belongs x = false)
    (h : Search.Cut text i stop (w ++ rest)) (hstop : stop = byteLength text) (hsteps : stop < i + steps) :
    runEnd belongs steps text i = pure (i + byteLength w) ∧
      Search.slice text i (i + byteLength w) = pure w ∧
      Search.Cut text (i + byteLength w) stop rest := by
  refine ⟨?_, h.head.slice_eq, h.tail⟩
  rw [runEnd_eq hhigh h hstop hsteps, (span_eq hw hrest).1]

theorem settled_map {α β : Type} (f : α → β) (x : Except QualTypeError α) :
    (settled x >>= fun a => pure (f a)) = settled (x.map f) := by
  cases x <;> rfl

/-- The description behind a tag keyword is found between characters. -/
theorem descriptionAt_eq (h : Search.Cut text i stop rest) (hstop : stop = byteLength text) :
    descriptionAt text i =
      settled ((described rest).map (Option.map fun p => (p.1, stop - byteLength p.2))) := by
  have hcut := h.suffix (List.dropWhile_suffix isBlank)
  rw [← trimStart] at hcut
  have hlength := hcut.stop_eq
  rw [descriptionAt, described, ← hstop, h.slice_eq, liftM_pure, pure_bind]
  cases htrim : trimStart rest with
  | nil => rfl
  | cons d inner =>
    rw [htrim] at hcut hlength
    by_cases hd : d = '('
    · subst hd
      have hminus : minus stop (byteLength ('(' :: inner)) = pure (stop - byteLength ('(' :: inner)) :=
        if_pos (by omega)
      have hinner := hcut.next
      rw [utf8Size_ascii (by decide)] at hinner
      simp only [List.head?_cons, beq_self_eq_true, if_true, hminus, liftM_pure, pure_bind,
        matchingParen_eq hcut hstop]
      cases hsplit : splitParens inner with
      | none => rfl
      | some found =>
        obtain ⟨inside, behind⟩ := found
        obtain ⟨x, hx, rfl⟩ := splitGroup_eq hsplit
        obtain rfl := beq_iff_eq.mp hx
        have hend := hinner.tail.next.stop_eq
        rw [utf8Size_ascii (by decide)] at hend
        simp only [Option.map_some, hinner.head.slice_eq, liftM_pure, pure_bind]
        have hplace : stop - byteLength ('(' :: (inside ++ ')' :: behind)) + 1 + byteLength inside + 1 =
            stop - byteLength behind := by omega
        rw [hplace]
        rfl
    · have hopen : ((d :: inner).head? == some '(') = false := by
        rw [List.head?_cons, beq_eq_false_iff_ne]
        exact fun he => hd (Option.some.inj he)
      simp only [hopen, Bool.false_eq_true, if_false]
      split
      next he => exact absurd (List.cons.inj he).1 hd
      next => rfl

theorem isWordChar_high (d : Char) (h : 128 ≤ d.toNat) : isWordChar d = false :=
  Search.isNameChar_high d h

theorem isDigit_high (d : Char) (h : 128 ≤ d.toNat) : d.isDigit = false := by
  apply (Bool.not_eq_true _).mp
  intro hd
  have hcode := isDigit_code hd
  omega

theorem isAsciiBlank_high (d : Char) (h : 128 ≤ d.toNat) : isAsciiBlank d = false := by
  apply (Bool.not_eq_true _).mp
  intro hd
  simp only [isAsciiBlank, Bool.or_eq_true, beq_iff_eq] at hd
  rcases hd with (((rfl | rfl) | rfl) | rfl) | rfl <;> exact absurd h (by decide)

theorem ofPunctuation?_high (d : Char) (h : 128 ≤ d.toNat) : (Token.ofPunctuation? d).isSome = false := by
  apply (Bool.not_eq_true _).mp
  intro hd
  obtain ⟨t, ht⟩ := Option.isSome_iff_exists.mp hd
  have hmem := ofPunctuation?_mem ht
  simp only [List.mem_cons, List.not_mem_nil, or_false] at hmem
  rcases hmem with rfl | rfl | rfl | rfl | rfl | rfl <;> exact absurd h (by decide)

/-- What only ASCII characters are is seen in the first byte of a character. -/
theorem leadByte_class {p : Char → Bool} (hp : ∀ d : Char, 128 ≤ d.toNat → p d = false) (c : Char) :
    p (leadByte c) = p c := by
  obtain ⟨x, xs, hx, hlead⟩ := encode_lead c
  rw [← hlead]
  exact class_eq hp (by rw [hx]; exact List.mem_cons_self)

theorem ascii_of_class {p : Char → Bool} (hp : ∀ d : Char, 128 ≤ d.toNat → p d = false)
    (hc : p c = true) : c.toNat < 128 := by
  refine Nat.lt_of_not_le fun hhigh => ?_
  rw [hp c hhigh] at hc
  cases hc

/-- One round of the loop, and what stands behind it. -/
inductive Round (cs : List Char) (stop : Nat) : Reading (List Token × Nat) → Prop where
  | refused {e : QualTypeError} (h : tokenize cs = .error e) : Round cs stop (throw e)
  | found {ts : List Token} {rest : List Char} (h : tokenize cs = (tokenize rest).map (ts ++ ·))
      (hrest : rest <:+ cs) (hlength : rest.length < cs.length) :
      Round cs stop (pure (ts, stop - byteLength rest))

/-- A single character of one byte. -/
theorem Round.single {ts : List Token} {j : Nat} (h : Search.Cut text i stop (c :: rest)) (hc : c.toNat < 128)
    (hj : j = i + 1) (ht : tokenize (c :: rest) = (tokenize rest).map (ts ++ ·)) :
    Round (c :: rest) stop (pure (ts, j)) := by
  have hend := h.next.stop_eq
  rw [utf8Size_ascii hc] at hend
  have hplace : j = stop - byteLength rest := by omega
  rw [hplace]
  exact .found ht (List.suffix_cons _ _) (Nat.lt_succ_self _)

/-- Several characters that belong together. -/
theorem Round.run {w : List Char} {ts : List Token} (h : Search.Cut text i stop (c :: w ++ rest))
    (ht : tokenize (c :: w ++ rest) = (tokenize rest).map (ts ++ ·)) :
    Round (c :: w ++ rest) stop (pure (ts, i + byteLength (c :: w))) := by
  have hend := h.tail.stop_eq
  have hplace : i + byteLength (c :: w) = stop - byteLength rest := by omega
  rw [hplace]
  refine .found ht (List.suffix_append _ _) ?_
  rw [List.length_append, List.length_cons]
  omega

theorem round_blank (h : Search.Cut text i stop (c :: rest)) (hblank : isAsciiBlank c = true) :
    Round (c :: rest) stop (nextAt steps text i) := by
  have hascii := ascii_of_class isAsciiBlank_high hblank
  obtain ⟨x, -, hbyte, hchar⟩ := byte_lead h
  rw [nextAt, hbyte, liftM_pure, pure_bind, hchar, leadByte_ascii hascii]
  simp only [hblank, if_true]
  refine .single h hascii rfl ?_
  rw [tokenize_blank hblank]
  cases tokenize rest <;> rfl

theorem round_word {w : List Char} (h : Search.Cut text i stop (c :: w ++ rest))
    (hstop : stop = byteLength text) (hsteps : stop < i + steps) (hc : isWordStart c = true)
    (hw : ∀ x ∈ w, isWordChar x = true) (hrest : EndsWord rest) :
    Round (c :: w ++ rest) stop (nextAt steps text i) := by
  have hascii := ascii_of_class Search.isWordStart_high hc
  have hword : ∀ x ∈ c :: w, isWordChar x = true :=
    List.forall_mem_cons.mpr ⟨isWordChar_of_isWordStart hc, hw⟩
  have hblank := not_isAsciiBlank_of_isWordChar (isWordChar_of_isWordStart hc)
  obtain ⟨x, -, hbyte, hchar⟩ := byte_lead h
  obtain ⟨hrun, hslice, hbehind⟩ := run_cut isWordChar_high hword hrest h hstop hsteps
  rw [nextAt, hbyte, liftM_pure, pure_bind, hchar, leadByte_ascii hascii]
  simp only [hblank, hc, Bool.false_eq_true, if_true, if_false, hrun, hslice, liftM_pure, pure_bind]
  cases htag : isTag (String.ofList (c :: w)) with
  | false =>
    simp only [Bool.false_eq_true, if_false]
    refine .run h ?_
    exact tokenize_word hc hw hrest htag
  | true =>
    rw [if_pos rfl, descriptionAt_eq hbehind hstop]
    have htokens := tokenize_tag hc hw hrest htag
    cases hd : described rest with
    | error e =>
      rw [hd] at htokens
      exact .refused htokens
    | ok found =>
      rw [hd] at htokens
      cases found with
      | none => exact .run h htokens
      | some found =>
        obtain ⟨key, behind⟩ := found
        have hlength := described_length hd
        have hbehind : behind <:+ rest := by
          obtain ⟨before, rfl⟩ := described_eq hd
          exact (List.suffix_cons _ _).trans (List.suffix_append _ _)
        refine .found htokens (hbehind.trans (List.suffix_append _ _)) ?_
        have hall := (List.suffix_append (c :: w) rest).length_le
        exact Nat.lt_of_lt_of_le hlength hall

theorem round_number {w : List Char} (h : Search.Cut text i stop (c :: w ++ rest))
    (hstop : stop = byteLength text) (hsteps : stop < i + steps) (hc : c.isDigit = true)
    (hw : ∀ x ∈ w, x.isDigit = true) (hrest : ∀ x ∈ rest.head?, x.isDigit = false) :
    Round (c :: w ++ rest) stop (nextAt steps text i) := by
  have hdigits : ∀ x ∈ c :: w, x.isDigit = true := List.forall_mem_cons.mpr ⟨hc, hw⟩
  have hblank := not_isAsciiBlank_of_isWordChar (isWordChar_of_isDigit hc)
  have hstart := not_isWordStart_of_isDigit hc
  have htokens := tokenize_number hc hw hrest
  obtain ⟨x, -, hbyte, hchar⟩ := byte_lead h
  obtain ⟨hrun, hslice, -⟩ := run_cut isDigit_high hdigits hrest h hstop hsteps
  rw [nextAt, hbyte, liftM_pure, pure_bind, hchar, leadByte_ascii (ascii_of_class isDigit_high hc)]
  simp only [hblank, hstart, hc, Bool.false_eq_true, if_true, if_false, hrun, hslice, liftM_pure, pure_bind]
  split
  next hlt =>
    rw [if_pos hlt] at htokens
    exact .run h htokens
  next hlarge =>
    rw [if_neg hlarge] at htokens
    exact .refused htokens

theorem dots_iff (c : Char) (rest : List Char) :
    ['.', '.', '.'].isPrefixOf (c :: rest) = true ↔ ∃ r, c = '.' ∧ rest = '.' :: '.' :: r := by
  rw [List.isPrefixOf_iff_prefix]
  constructor
  · rintro ⟨r, hr⟩
    obtain ⟨rfl, rfl⟩ := List.cons.inj hr
    exact ⟨r, rfl, rfl⟩
  · rintro ⟨r, rfl, rfl⟩
    exact ⟨r, rfl⟩

theorem round_ellipsis (h : Search.Cut text i stop ('.' :: '.' :: '.' :: rest))
    (hstop : stop = byteLength text) :
    Round ('.' :: '.' :: '.' :: rest) stop (nextAt steps text i) := by
  have hdots : ['.', '.', '.'].isPrefixOf ('.' :: '.' :: '.' :: rest) = true :=
    (dots_iff _ _).mpr ⟨rest, rfl, rfl⟩
  have hplain : isAsciiBlank '.' = false ∧ isWordStart '.' = false ∧ '.'.isDigit = false := by decide
  obtain ⟨hblank, hstart, hdigit⟩ := hplain
  obtain ⟨x, -, hbyte, hchar⟩ := byte_lead h
  rw [nextAt, hbyte, liftM_pure, pure_bind, hchar, leadByte_ascii (by decide), ← hstop, h.slice_eq]
  simp only [hblank, hstart, hdigit, hdots, Bool.false_eq_true, if_true, if_false, liftM_pure, pure_bind]
  exact Round.run (w := ['.', '.']) h (tokenize_ellipsis rest)

theorem round_punctuation {t : Token} (h : Search.Cut text i stop (c :: rest)) (hstop : stop = byteLength text)
    (ht : Token.ofPunctuation? c = some t) : Round (c :: rest) stop (nextAt steps text i) := by
  have hascii := ascii_of_class ofPunctuation?_high (Option.isSome_iff_exists.mpr ⟨t, ht⟩)
  have hplain : isAsciiBlank c = false ∧ isWordStart c = false ∧ c.isDigit = false ∧
      ['.', '.', '.'].isPrefixOf (c :: rest) = false := by
    have hmem := ofPunctuation?_mem ht
    simp only [List.mem_cons, List.not_mem_nil, or_false] at hmem
    rcases hmem with rfl | rfl | rfl | rfl | rfl | rfl <;> exact ⟨by decide, by decide, by decide, rfl⟩
  obtain ⟨hblank, hstart, hdigit, hdots⟩ := hplain
  obtain ⟨x, -, hbyte, hchar⟩ := byte_lead h
  rw [nextAt, hbyte, liftM_pure, pure_bind, hchar, leadByte_ascii hascii, ← hstop, h.slice_eq]
  simp only [hblank, hstart, hdigit, hdots, ht, Bool.false_eq_true, if_false, liftM_pure, pure_bind]
  exact .single h hascii rfl (tokenize_punctuation ht rest)

theorem round_stray (h : Search.Cut text i stop (c :: rest)) (hstop : stop = byteLength text)
    (hblank : isAsciiBlank c = false) (hstart : isWordStart c = false) (hdigit : c.isDigit = false)
    (hpunctuation : Token.ofPunctuation? c = none)
    (hdots : ∀ r, c = '.' → rest ≠ '.' :: '.' :: r) :
    Round (c :: rest) stop (nextAt steps text i) := by
  have hnone : Token.ofPunctuation? (leadByte c) = none := by
    have hclass := leadByte_class ofPunctuation?_high c
    rwa [hpunctuation, Option.isSome_none, Option.isSome_eq_false_iff, Option.isNone_iff_eq_none] at hclass
  have hprefix : ['.', '.', '.'].isPrefixOf (c :: rest) = false := by
    apply (Bool.not_eq_true _).mp
    intro hthree
    obtain ⟨r, hc, hr⟩ := (dots_iff c rest).mp hthree
    exact hdots r hc hr
  obtain ⟨x, -, hbyte, hchar⟩ := byte_lead h
  rw [nextAt, hbyte, liftM_pure, pure_bind, hchar, ← hstop, h.slice_eq]
  simp only [leadByte_class isAsciiBlank_high, leadByte_class Search.isWordStart_high,
    leadByte_class isDigit_high, hblank, hstart, hdigit, hprefix, hnone, Bool.false_eq_true, if_false,
    liftM_pure, pure_bind]
  exact .refused (tokenize_stray hblank hstart hdigit hpunctuation hdots)

theorem round (h : Search.Cut text i stop cs) (hstop : stop = byteLength text) (hsteps : stop < i + steps)
    (hcs : cs ≠ []) : Round cs stop (nextAt steps text i) := by
  cases cut cs with
  | nil => exact absurd rfl hcs
  | ellipsis rest => exact round_ellipsis h hstop
  | blank hblank rest => exact round_blank h hblank
  | word hc hw hrest => exact round_word h hstop hsteps hc hw hrest
  | number hc hw hrest => exact round_number h hstop hsteps hc hw hrest
  | punctuation ht rest => exact round_punctuation h hstop ht
  | stray hblank hstart hdigit hpunctuation hdots =>
    exact round_stray h hstop hblank hstart hdigit hpunctuation hdots

/-- The loop over the bytes of a text finds its tokens, or refuses it as the characters are refused. -/
theorem tokensAt_eq (h : Search.Cut text i stop cs) (hstop : stop = byteLength text)
    (hsteps : stop < i + steps) : tokensAt steps text i = settled (tokenize cs) := by
  have hend : (bytes text).length = stop := by rw [length_bytes, hstop]
  -- on the length: behind a tag keyword a whole description may be skipped at once
  induction hn : cs.length using Nat.strongRecOn generalizing cs i steps with
  | ind n ih =>
    subst hn
    obtain ⟨steps, rfl, hle⟩ := h.step hsteps
    cases cs with
    | nil =>
      have hstart := h.stop_eq
      rw [byteLength, Nat.add_zero] at hstart
      rw [tokensAt, hend, hstart, if_neg (Nat.lt_irrefl i), tokenize]
      rfl
    | cons c cs =>
      have hround := round h hstop hsteps (List.cons_ne_nil c cs)
      rw [tokensAt, hend, if_pos h.start_lt]
      generalize nextAt (steps + 1) text i = next at hround
      cases hround with
      | refused he =>
        rw [he]
        rfl
      | @found ts rest ht hrest hlength =>
        have hlater := h.suffix hrest
        have hbytes : byteLength rest < byteLength (c :: cs) := by
          obtain ⟨front, hfront⟩ := hrest
          cases front with
          | nil =>
            rw [← hfront] at hlength
            exact absurd hlength (Nat.lt_irrefl _)
          | cons d front =>
            have hpos := Char.utf8Size_pos d
            rw [← hfront, byteLength_append, byteLength]
            omega
        have hstart := h.stop_eq
        have hstop' := hlater.stop_eq
        rw [pure_bind]
        dsimp only
        rw [ih rest.length hlength hlater (by omega) rfl, ht]
        exact settled_map _ _

theorem Lexes.length_le {ts : List Token} (h : Lexes cs ts) : ts.length ≤ byteLength cs := by
  have hcons : ∀ (d : Char) (ds : List Char), byteLength ds + 1 ≤ byteLength (d :: ds) := by
    intro d ds
    have hpos := Char.utf8Size_pos d
    rw [byteLength]
    omega
  induction h with
  | nil => exact Nat.zero_le _
  | @ellipsis rest _ _ ih =>
    have hlast := hcons '.' rest
    have hsecond := hcons '.' ('.' :: rest)
    have hfirst := hcons '.' ('.' :: '.' :: rest)
    rw [List.length_cons]
    omega
  | @blank c rest _ _ _ ih =>
    have hfirst := hcons c rest
    omega
  | @word c w rest _ _ _ _ ih =>
    have hfirst := hcons c w
    rw [byteLength_append, List.length_cons]
    omega
  | @described c w before behind _ _ _ _ _ ih =>
    have hfirst := hcons c w
    have hclose := hcons ')' behind
    rw [byteLength_append, byteLength_append, List.length_cons, List.length_cons]
    omega
  | @number c w rest _ _ _ _ _ ih =>
    have hfirst := hcons c w
    rw [byteLength_append, List.length_cons]
    omega
  | @punctuation c _ rest _ _ _ ih =>
    have hfirst := hcons c rest
    rw [List.length_cons]
    omega

theorem tokens_length_le {ts : List Token} (h : tokenize cs = .ok ts) : ts.length ≤ byteLength cs :=
  (lexes_of_tokenize h).length_le

end QualType

end Bindery
