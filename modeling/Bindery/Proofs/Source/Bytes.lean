import Bindery.Proofs.Source.Paired
import Bindery.Proofs.Source.Search

/-! The search by offsets over texts in UTF-8. No byte of a wide character is taken for a mark. -/

namespace Bindery

theorem Enclosing.ascii {opening closing : Char} (h : Enclosing opening closing) :
    opening.toNat < 128 ∧ closing.toNat < 128 := by
  rcases h with ⟨rfl, rfl⟩ | ⟨rfl, rfl⟩ <;> decide

namespace Search

open ParamText (before before_append afterBlockComment afterBlockComment_suffix afterLine skipTrivia_suffix
  afterGroup afterGroup_closed listBody fromComma fromComma_suffix wordsAt isNameChar splitStar)
open QualType (isWordStart)

variable {α : Type} {text cs rest a b : List Char} {c m opening closing : Char} {x : UInt8}
  {i k n stop depth start steps : Nat}

theorem bytes_cons (c : Char) (cs : List Char) :
    bytes (c :: cs) = String.utf8EncodeChar c ++ bytes cs :=
  List.flatMap_cons

theorem bytes_append (a b : List Char) : bytes (a ++ b) = bytes a ++ bytes b :=
  List.flatMap_append

theorem length_bytes (cs : List Char) : (bytes cs).length = byteLength cs := by
  induction cs with
  | nil => rfl
  | cons c cs ih => rw [bytes_cons, List.length_append, String.length_utf8EncodeChar, ih, byteLength]

theorem toNat_char (x : UInt8) : (char x).toNat = x.toNat := by
  have hx := x.toNat_lt
  have hvalid : x.toNat.isValidChar := Or.inl (by omega)
  rw [char, Char.ofNat, dif_pos hvalid]
  rfl

/-- A character of one byte is that byte, and all bytes of the other characters have high codes. -/
theorem char_of_mem (h : x ∈ String.utf8EncodeChar c) :
    char x = c ∧ c.utf8Size = 1 ∨ 128 ≤ (char x).toNat ∧ 128 ≤ c.toNat := by
  rw [toNat_char]
  have hcode : c.toNat = c.val.toNat := rfl
  by_cases hascii : c.toNat < 128
  · left
    have hsize : c.utf8Size = 1 := by
      rw [Char.utf8Size_eq_one_iff, UInt32.le_iff_toNat_le]
      exact Nat.le_of_lt_succ hascii
    rw [String.utf8EncodeChar_eq_singleton hsize, List.mem_singleton] at h
    refine ⟨?_, hsize⟩
    have hx : x.toNat = c.toNat := by
      rw [h, UInt32.toNat_toUInt8, hcode]
      omega
    rw [char, hx, Char.ofNat_toNat]
  · right
    refine ⟨?_, Nat.le_of_not_lt hascii⟩
    have hlead : ∀ n lead : Nat, n < 64 → 128 ≤ lead → n + lead < 256 →
        128 ≤ (UInt8.ofNat (n + lead)).toNat := by
      intro n lead hn hlead hbyte
      rw [UInt8.toNat_ofNat', Nat.mod_eq_of_lt hbyte]
      omega
    unfold String.utf8EncodeChar at h
    dsimp only at h
    split at h
    · omega
    · split at h
      · simp only [List.mem_cons, List.not_mem_nil, or_false] at h
        rcases h with rfl | rfl <;> exact hlead _ _ (by omega) (by omega) (by omega)
      · split at h
        · simp only [List.mem_cons, List.not_mem_nil, or_false] at h
          rcases h with rfl | rfl | rfl <;> exact hlead _ _ (by omega) (by omega) (by omega)
        · simp only [List.mem_cons, List.not_mem_nil, or_false] at h
          rcases h with rfl | rfl | rfl | rfl <;> exact hlead _ _ (by omega) (by omega) (by omega)

/-- What is looked for among ASCII characters is found in the bytes where it is in the text. -/
theorem class_eq {p : Char → Bool} (hp : ∀ d : Char, 128 ≤ d.toNat → p d = false)
    (h : x ∈ String.utf8EncodeChar c) : p (char x) = p c := by
  rcases char_of_mem h with ⟨hx, -⟩ | ⟨hx, hc⟩
  · rw [hx]
  · rw [hp _ hx, hp _ hc]

theorem mark_eq (hm : m.toNat < 128) (h : x ∈ String.utf8EncodeChar c) :
    (char x == m) = (c == m) := by
  refine class_eq (p := (· == m)) (fun d hd => ?_) h
  rw [beq_eq_false_iff_ne]
  rintro rfl
  omega

theorem byteLength_before (h : rest <:+ cs) :
    byteLength (before cs rest) + byteLength rest = byteLength cs := by
  rw [← byteLength_append, before_append h]

/-- A text holds `cs` between two offsets. -/
structure Cut (text : List Char) (start stop : Nat) (cs : List Char) : Prop where
  span : Span 0 text start cs
  stop_eq : stop = start + byteLength cs

namespace Cut

theorem of_span (h : Span 0 text start cs) : Cut text start (start + byteLength cs) cs :=
  ⟨h, rfl⟩

theorem tail (h : Cut text start stop (a ++ b)) : Cut text (start + byteLength a) stop b := by
  have hstop := h.stop_eq
  rw [byteLength_append, ← Nat.add_assoc] at hstop
  exact ⟨h.span.tail, hstop⟩

theorem head (h : Cut text start stop (a ++ b)) : Cut text start (start + byteLength a) a :=
  of_span h.span.head

theorem next (h : Cut text start stop (c :: cs)) : Cut text (start + c.utf8Size) stop cs := by
  have htail : Cut text (start + byteLength [c]) stop cs := tail h
  rwa [byteLength, byteLength, Nat.add_zero] at htail

theorem suffix (h : Cut text start stop cs) (hrest : rest <:+ cs) :
    Cut text (stop - byteLength rest) stop rest := by
  obtain ⟨front, rfl⟩ := hrest
  have hstop := h.stop_eq
  have hplace : stop - byteLength rest = start + byteLength front := by
    rw [hstop, byteLength_append]
    omega
  exact hplace ▸ h.tail

theorem place (h : Cut text i stop cs) (h' : Cut text k stop rest) (hrest : rest <:+ cs) :
    k = i + byteLength (before cs rest) := by
  have hlength := byteLength_before hrest
  have hstop := h.stop_eq
  have hstop' := h'.stop_eq
  omega

/-- The text up to the end of what it holds. -/
theorem upTo (h : Cut text start stop cs) :
    ∃ front, slice text 0 stop = pure front ∧ byteLength front = stop ∧ Cut front start stop cs := by
  obtain ⟨⟨front, back, rfl, hfront⟩, hstop⟩ := h
  have hlength : byteLength (front ++ cs) = stop := by rw [byteLength_append]; omega
  have hspan : Span 0 (front ++ cs ++ back) 0 (front ++ cs) := ⟨[], back, rfl, rfl⟩
  have hslice := hspan.slice
  rw [Nat.sub_zero, Nat.zero_add, hlength] at hslice
  refine ⟨front ++ cs, ?_, hlength, ⟨front, [], by simp, hfront⟩, hstop⟩
  rw [slice, hslice]
  rfl

theorem slice_eq (h : Cut text start stop cs) : slice text start stop = pure cs := by
  have hslice := h.span.slice
  rw [Nat.sub_zero, ← h.stop_eq] at hslice
  rw [slice, hslice]
  rfl

theorem le (h : Cut text start stop cs) : start ≤ stop := by
  have hstop := h.stop_eq
  omega

theorem lt (h : Cut text start stop (c :: cs)) (hk : k < c.utf8Size) : start + k < stop := by
  have hstop := h.stop_eq
  rw [byteLength] at hstop
  omega

theorem start_lt (h : Cut text start stop (c :: cs)) : start < stop :=
  h.lt (Char.utf8Size_pos c)

/-- There is a step for each byte that is left, and one more. -/
theorem step (h : Cut text start stop cs) (hsteps : stop < start + steps) :
    ∃ n, steps = n + 1 ∧ stop ≤ start + n := by
  have hle := h.le
  exact ⟨steps - 1, by omega, by omega⟩

/-- The steps at the bytes of a character leave enough for what stands behind it. -/
theorem steps_char (h : Cut text start stop (c :: cs)) (hsteps : stop < start + steps) :
    ∃ n, steps = n + c.utf8Size ∧ stop < start + c.utf8Size + n := by
  have hle := h.next.le
  exact ⟨steps - c.utf8Size, by omega, by omega⟩

theorem stop_le (h : Cut text start stop cs) : stop ≤ (bytes text).length := by
  obtain ⟨⟨front, back, rfl, hfront⟩, hstop⟩ := h
  rw [length_bytes, byteLength_append, byteLength_append]
  omega

theorem drop_bytes (h : Cut text start stop cs) :
    ∃ back, (bytes text).drop start = bytes cs ++ back := by
  obtain ⟨⟨front, back, rfl, rfl⟩, -⟩ := h
  refine ⟨bytes back, ?_⟩
  rw [Nat.zero_add, bytes_append, bytes_append, List.append_assoc, ← length_bytes, List.drop_left]

theorem range_eq (h : Cut text start stop cs) (hk : k ≤ byteLength cs) :
    range text (start + k) stop = pure ((bytes cs).drop k) := by
  obtain ⟨back, hback⟩ := h.drop_bytes
  have hstop := h.stop_eq
  have hlength := length_bytes cs
  have hinside : start + k ≤ stop ∧ stop ≤ (bytes text).length := ⟨by omega, h.stop_le⟩
  rw [range, if_pos hinside, ← List.drop_drop, hback, List.drop_append_of_le_length (by omega)]
  have htake : stop - (start + k) = ((bytes cs).drop k).length := by
    rw [List.length_drop]
    omega
  rw [htake, List.take_left]

/-- Each byte of a character is one of those that it is written with. -/
theorem byte_eq (h : Cut text start stop (c :: cs)) (hk : k < c.utf8Size) :
    ∃ x ∈ String.utf8EncodeChar c, (bytes text)[start + k]? = some x ∧
      byte text (start + k) = pure x := by
  obtain ⟨back, hback⟩ := h.drop_bytes
  have hlength : k < (String.utf8EncodeChar c).length := by rwa [String.length_utf8EncodeChar]
  have hx : (bytes text)[start + k]? = some (String.utf8EncodeChar c)[k] := by
    rw [← List.getElem?_drop, hback, bytes_cons, List.append_assoc,
      List.getElem?_append_left hlength, List.getElem?_eq_getElem]
  exact ⟨_, List.getElem_mem hlength, hx, by rw [byte, hx]; rfl⟩

/-- Nothing but the blanks in front is left out. -/
theorem trimmed (h : Cut text start stop cs) :
    ∃ gap, minus (byteLength cs) (byteLength (trimStart cs)) = pure gap ∧
      Cut text (start + gap) stop (trimStart cs) := by
  have hsuffix : trimStart cs <:+ cs := List.dropWhile_suffix isBlank
  have hbefore := byteLength_before hsuffix
  have hcut := h.suffix hsuffix
  have hstop := h.stop_eq
  have hplace : stop - byteLength (trimStart cs) =
      start + (byteLength cs - byteLength (trimStart cs)) := by omega
  exact ⟨_, by rw [minus, if_pos (by omega)], hplace ▸ hcut⟩

end Cut

theorem later (hle : stop ≤ i + steps) (hk : 0 < k) : stop < i + k + steps := by
  omega

theorem minus_succ (n : Nat) : minus (n + 1) 1 = pure n := by
  rw [minus, if_pos (Nat.le_add_left 1 n), Nat.add_sub_cancel]

/-- A loop that goes on at each byte of a character passes the character. -/
theorem advance {f : Nat → Nat → α}
    (h : ∀ steps k, k < m.utf8Size → f (steps + 1) (i + k) = f steps (i + k + 1)) (steps : Nat) :
    f (steps + m.utf8Size) i = f steps (i + m.utf8Size) := by
  have hpass : ∀ k ≤ m.utf8Size, f (steps + k) (i + (m.utf8Size - k)) = f steps (i + m.utf8Size) := by
    intro k hk
    induction k with
    | zero => rfl
    | succ k ih =>
      have hnext : i + (m.utf8Size - (k + 1)) + 1 = i + (m.utf8Size - k) := by omega
      rw [← Nat.add_assoc, h _ _ (by omega), hnext, ih (by omega)]
  have hall := hpass _ (Nat.le_refl _)
  rwa [Nat.sub_self, Nat.add_zero] at hall

theorem utf8Size_ascii (h : c.toNat < 128) : c.utf8Size = 1 := by
  rw [Char.utf8Size_eq_one_iff, UInt32.le_iff_toNat_le]
  exact Nat.le_of_lt_succ h

theorem encode_ascii (h : c.toNat < 128) : ∃ x, String.utf8EncodeChar c = [x] ∧ char x = c := by
  refine ⟨_, String.utf8EncodeChar_eq_singleton (utf8Size_ascii h), ?_⟩
  have hmem : c.val.toUInt8 ∈ String.utf8EncodeChar c := by
    simp [String.utf8EncodeChar_eq_singleton (utf8Size_ascii h)]
  rcases char_of_mem hmem with ⟨hx, -⟩ | ⟨-, hhigh⟩
  · exact hx
  · omega

theorem encode_ne_nil (c : Char) : String.utf8EncodeChar c ≠ [] := by
  intro hnil
  have hlength := String.length_utf8EncodeChar c
  have hpos := Char.utf8Size_pos c
  rw [hnil, List.length_nil] at hlength
  omega

theorem find?_cons (pattern : List Char) (c : Char) (cs : List Char) :
    find? pattern (c :: cs) =
      if pattern.isPrefixOf (c :: cs) then some 0
      else (find? pattern cs).map (c.utf8Size + ·) := by
  rw [find?, find?, position?]
  split
  · rfl
  · rw [Option.map_map, Option.map_map]
    rfl

section

variable {pattern : List Char} (hm : m.toNat < 128) (hpattern : ∀ d ∈ pattern, d.toNat < 128)

include hm in
theorem not_prefix_bytes {ys : List UInt8} (hx : char x ≠ m) :
    (bytes (m :: pattern)).isPrefixOf (x :: ys) = false := by
  obtain ⟨y, hy, rfl⟩ := encode_ascii hm
  have hne : (y == x) = false := by
    rw [beq_eq_false_iff_ne]
    rintro rfl
    exact hx rfl
  rw [bytes_cons, hy, List.singleton_append, List.isPrefixOf, hne, Bool.false_and]

include hpattern in
theorem isPrefixOf_bytes (cs : List Char) :
    (bytes pattern).isPrefixOf (bytes cs) = pattern.isPrefixOf cs := by
  induction pattern generalizing cs with
  | nil => simp [bytes]
  | cons m pattern ih =>
    obtain ⟨hm, hpattern⟩ := List.forall_mem_cons.mp hpattern
    obtain ⟨x, hx, hchar⟩ := encode_ascii hm
    cases cs with
    | nil => rw [bytes_cons, hx]; rfl
    | cons c cs =>
      by_cases hc : m = c
      · subst hc
        rw [bytes_cons, bytes_cons, hx, List.singleton_append, List.singleton_append,
          List.isPrefixOf, List.isPrefixOf, ih hpattern, beq_self_eq_true, beq_self_eq_true]
      · have hne : (m == c) = false := beq_eq_false_iff_ne.mpr hc
        obtain ⟨y, ys, hy⟩ := List.exists_cons_of_ne_nil (encode_ne_nil c)
        have hother : (char y == m) = (c == m) := mark_eq hm (by simp [hy])
        rw [List.isPrefixOf, hne, Bool.false_and, bytes_cons c, hy, List.cons_append]
        refine not_prefix_bytes hm fun he => hc ?_
        rw [he, beq_self_eq_true] at hother
        exact (beq_iff_eq.mp hother.symm).symm

/-- Bytes that cannot begin what is looked for are passed. -/
theorem position?_pass {pattern xs : List UInt8} {ys : List UInt8}
    (h : ∀ k < xs.length, pattern.isPrefixOf (xs.drop k ++ ys) = false) :
    position? pattern (xs ++ ys) = (position? pattern ys).map (· + xs.length) := by
  induction xs with
  | nil => simp
  | cons x xs ih =>
    have hfirst : pattern.isPrefixOf (x :: (xs ++ ys)) = false := h 0 (Nat.zero_lt_succ _)
    have hrest := ih fun k hk => h (k + 1) (Nat.succ_lt_succ hk)
    rw [List.cons_append, position?, if_neg (by simp [hfirst]), hrest, Option.map_map]
    rfl

include hm hpattern in
/-- What is looked for is found among the bytes where it is found in the text. -/
theorem position?_bytes (cs : List Char) :
    position? (bytes (m :: pattern)) (bytes cs) = find? (m :: pattern) cs := by
  induction cs with
  | nil => rfl
  | cons c cs ih =>
    have hprefix := isPrefixOf_bytes (List.forall_mem_cons.mpr ⟨hm, hpattern⟩) (c :: cs)
    rw [bytes_cons c cs] at hprefix ⊢
    rw [find?_cons, ← hprefix, ← ih]
    split
    next hfound =>
      obtain ⟨x, xs, hx⟩ : ∃ x xs, String.utf8EncodeChar c ++ bytes cs = x :: xs := by
        refine List.exists_cons_of_ne_nil fun hnil => ?_
        exact encode_ne_nil c (List.append_eq_nil_iff.mp hnil).1
      rw [hx] at hfound ⊢
      rw [position?, if_pos hfound]
    next hother =>
      rw [position?_pass]
      · simp only [String.length_utf8EncodeChar, Nat.add_comm]
      · intro k hk
        rcases Nat.eq_zero_or_pos k with rfl | hpos
        · exact (Bool.not_eq_true _).mp hother
        · rw [List.drop_eq_getElem_cons hk, List.cons_append]
          refine not_prefix_bytes hm fun he => ?_
          have hsize := String.length_utf8EncodeChar c
          rcases char_of_mem (List.getElem_mem hk) with ⟨-, hone⟩ | ⟨hhigh, -⟩
          · omega
          · rw [he] at hhigh
            omega

end

/-- What is found behind a character at which no mark begins. -/
theorem find?_behind {mark after : List Char} {width : Nat} (h : ¬mark <+: c :: cs)
    (hcs : (find? mark cs = none ∧ after = []) ∨
      ∃ n, find? mark cs = some n ∧ byteLength cs = n + width + byteLength after) :
    (find? mark (c :: cs) = none ∧ after = []) ∨
      ∃ n, find? mark (c :: cs) = some n ∧ byteLength (c :: cs) = n + width + byteLength after := by
  rw [find?_cons, if_neg (mt List.isPrefixOf_iff_prefix.mp h)]
  rcases hcs with ⟨hnone, hafter⟩ | ⟨n, hn, hlength⟩
  · exact .inl ⟨by rw [hnone]; rfl, hafter⟩
  · exact .inr ⟨c.utf8Size + n, by rw [hn]; rfl, by rw [byteLength]; omega⟩

/-- The star and the slash that end a comment, over characters. -/
theorem find?_closing (cs : List Char) :
    (find? ['*', '/'] cs = none ∧ afterBlockComment cs = []) ∨
      ∃ n, find? ['*', '/'] cs = some n ∧ byteLength cs = n + 2 + byteLength (afterBlockComment cs) := by
  fun_induction afterBlockComment cs with
  | case1 cs =>
    refine .inr ⟨0, rfl, ?_⟩
    rw [byteLength, byteLength, utf8Size_ascii (by decide), utf8Size_ascii (by decide)]
    omega
  | case2 c cs hopen ih =>
    refine find?_behind ?_ ih
    rintro ⟨rest, hrest⟩
    cases hrest
    exact hopen rest rfl rfl
  | case3 => exact .inl ⟨rfl, rfl⟩

theorem find?_line (cs : List Char) :
    (find? ['\n'] cs = none ∧ afterLine cs = []) ∨
      ∃ n, find? ['\n'] cs = some n ∧ byteLength cs = n + 1 + byteLength (afterLine cs) := by
  fun_induction afterLine cs with
  | case1 cs =>
    refine .inr ⟨0, rfl, ?_⟩
    rw [byteLength, utf8Size_ascii (by decide)]
  | case2 c cs hline ih =>
    refine find?_behind ?_ ih
    rintro ⟨rest, hrest⟩
    cases hrest
    exact hline rfl
  | case3 => exact .inl ⟨rfl, rfl⟩

theorem ascii_opening : ∀ d ∈ ['/', '*'], d.toNat < 128 :=
  List.forall_mem_cons.mpr ⟨by decide, List.forall_mem_singleton.mpr (by decide)⟩

theorem ascii_closing : '*'.toNat < 128 ∧ ∀ d ∈ ['/'], d.toNat < 128 :=
  ⟨by decide, List.forall_mem_singleton.mpr (by decide)⟩

namespace Cut

/-- No comment stands at any byte of a character that does not begin one. -/
theorem commentLength_none (h : Cut text start stop (c :: cs))
    (hopen : ∀ r, c = '/' → cs = '*' :: r → False) (hk : k < c.utf8Size) :
    commentLength text (start + k) stop = pure none := by
  have hlength : k ≤ byteLength (c :: cs) := by rw [byteLength]; omega
  have hhead : (bytes ['/', '*']).isPrefixOf ((bytes (c :: cs)).drop k) = false := by
    rcases Nat.eq_zero_or_pos k with rfl | hpos
    · rw [List.drop_zero, isPrefixOf_bytes ascii_opening, ← Bool.not_eq_true,
        List.isPrefixOf_iff_prefix]
      rintro ⟨r, hr⟩
      cases hr
      exact hopen r rfl rfl
    · have hbytes : k < (String.utf8EncodeChar c).length := by rwa [String.length_utf8EncodeChar]
      rw [bytes_cons c cs, List.drop_append_of_le_length (Nat.le_of_lt hbytes),
        List.drop_eq_getElem_cons hbytes, List.cons_append]
      refine not_prefix_bytes (by decide) fun he => ?_
      rcases char_of_mem (List.getElem_mem hbytes) with ⟨-, hsize⟩ | ⟨hhigh, -⟩
      · omega
      · rw [he] at hhigh
        exact absurd hhigh (by decide)
  rw [commentLength, h.range_eq hlength, pure_bind, hhead]
  rfl

theorem commentLength_comment (h : Cut text start stop ('/' :: '*' :: rest)) :
    ∃ length, commentLength text start stop = pure (some length) ∧ 0 < length ∧
      Cut text (start + length) stop (afterBlockComment rest) := by
  have hstop := h.stop_eq
  have hsize : byteLength ('/' :: '*' :: rest) = 2 + byteLength rest := by
    rw [byteLength, byteLength, utf8Size_ascii (by decide), utf8Size_ascii (by decide)]
    omega
  have hhead := h.range_eq (Nat.zero_le _)
  have hcontent := h.range_eq (k := 2) (by omega)
  have hdrop : (bytes ('/' :: '*' :: rest)).drop 2 = bytes rest := rfl
  have hafter : afterBlockComment rest <:+ '/' :: '*' :: rest := (afterBlockComment_suffix rest).trans
    ((List.suffix_cons '*' _).trans (List.suffix_cons '/' _))
  have hcut := h.suffix hafter
  have hprefix : (bytes ['/', '*']).isPrefixOf (bytes ('/' :: '*' :: rest)) = true := by
    rw [isPrefixOf_bytes ascii_opening]
    rfl
  rw [Nat.add_zero, List.drop_zero] at hhead
  rw [hdrop] at hcontent
  rw [commentLength, hhead, pure_bind, hprefix, hcontent, pure_bind, position?_bytes ascii_closing.1
    ascii_closing.2]
  rcases find?_closing rest with ⟨hnone, hend⟩ | ⟨n, hn, hlength⟩
  · refine ⟨stop - start, by rw [hnone, minus, if_pos h.le]; rfl, by omega, ?_⟩
    have hplace : start + (stop - start) = stop - byteLength (afterBlockComment rest) := by
      rw [hend, byteLength]
      omega
    exact hplace ▸ hcut
  · refine ⟨n + 4, by rw [hn]; rfl, by omega, ?_⟩
    have hplace : start + (n + 4) = stop - byteLength (afterBlockComment rest) := by omega
    exact hplace ▸ hcut

theorem skipTrivia_eq (h : Cut text start stop cs) (hstop : stop = byteLength text)
    (hsteps : stop < start + steps) :
    skipTrivia steps text start = pure (stop - byteLength (ParamText.skipTrivia cs)) := by
  have hnil : ParamText.skipTrivia [] = [] := List.suffix_nil.mp (skipTrivia_suffix [])
  have hslash : '/'.utf8Size = 1 := utf8Size_ascii (by decide)
  fun_induction ParamText.skipTrivia cs generalizing start steps with
  | case1 cs rest htrim ih =>
    obtain ⟨steps, rfl, hle⟩ := h.step hsteps
    obtain ⟨gap, hgap, hcut⟩ := h.trimmed
    rw [htrim] at hgap hcut
    have hblock : ['/', '*'].isPrefixOf ('/' :: '*' :: rest) := rfl
    have hsize := hcut.stop_eq
    have hafter : afterBlockComment ('*' :: rest) <:+ '/' :: '*' :: rest :=
      (afterBlockComment_suffix _).trans (List.suffix_cons _ _)
    rw [byteLength, hslash] at hsize
    rw [skipTrivia, ← hstop, h.slice_eq, pure_bind]
    dsimp only
    rw [htrim, hgap, pure_bind, if_pos hblock, find?_cons, if_neg (by simp)]
    rcases find?_closing ('*' :: rest) with ⟨hnone, hend⟩ | ⟨n, hn, hlength⟩
    · rw [hnone, hend, hnil]
      rfl
    · have hplace : stop - byteLength (afterBlockComment ('*' :: rest)) =
          start + gap + ('/'.utf8Size + n + 2) := by omega
      rw [hn, Option.map_some]
      exact ih (hplace ▸ hcut.suffix hafter) (by omega)
  | case2 cs rest htrim ih =>
    obtain ⟨steps, rfl, hle⟩ := h.step hsteps
    obtain ⟨gap, hgap, hcut⟩ := h.trimmed
    rw [htrim] at hgap hcut
    have hline : ['/', '/'].isPrefixOf ('/' :: '/' :: rest) := rfl
    have hsize := hcut.stop_eq
    have hafter : afterLine rest <:+ '/' :: '/' :: rest := (ParamText.afterLine_suffix rest).trans
      ((List.suffix_cons _ _).trans (List.suffix_cons _ _))
    rw [byteLength, byteLength, hslash] at hsize
    rw [skipTrivia, ← hstop, h.slice_eq, pure_bind]
    dsimp only
    rw [htrim, hgap, pure_bind, if_neg (by simp), if_pos hline, find?_cons, if_neg (by simp),
      find?_cons, if_neg (by simp)]
    rcases find?_line rest with ⟨hnone, hend⟩ | ⟨n, hn, hlength⟩
    · rw [hnone, hend, hnil]
      rfl
    · have hplace : stop - byteLength (afterLine rest) =
          start + gap + ('/'.utf8Size + ('/'.utf8Size + n) + 1) := by omega
      rw [hn, Option.map_some, Option.map_some]
      exact ih (hplace ▸ hcut.suffix hafter) (by omega)
  | case3 cs hblock hline =>
    obtain ⟨steps, rfl, -⟩ := h.step hsteps
    obtain ⟨gap, hgap, hcut⟩ := h.trimmed
    have hplace : start + gap = stop - byteLength (trimStart cs) := by
      have hsize := hcut.stop_eq
      omega
    have hother : ∀ d, (∀ rest, trimStart cs = '/' :: d :: rest → False) →
        ¬['/', d].isPrefixOf (trimStart cs) := by
      intro d hd
      rw [List.isPrefixOf_iff_prefix]
      rintro ⟨rest, hrest⟩
      exact hd rest hrest.symm
    rw [skipTrivia, ← hstop, h.slice_eq, pure_bind]
    dsimp only
    rw [hgap, pure_bind, if_neg (hother _ hblock), if_neg (hother _ hline), hplace]

/-- The loop for a closing bracket at one byte of a character. -/
theorem matching_step (h : Cut text start stop (c :: cs)) (hstop : stop = byteLength text)
    (hb : Enclosing opening closing) (hopen : ∀ r, c = '/' → cs = '*' :: r → False)
    (hk : k < c.utf8Size) (steps depth : Nat) :
    matching opening closing (steps + 1) text depth (start + k) =
      if c == opening then matching opening closing steps text (depth + 1) (start + k + 1)
      else if c == closing then do
        let depth ← minus depth 1
        if depth == 0 then return some (start + k)
        else matching opening closing steps text depth (start + k + 1)
      else matching opening closing steps text depth (start + k + 1) := by
  have hend : (bytes text).length = stop := by rw [length_bytes, hstop]
  obtain ⟨x, hx, -, hbyte⟩ := h.byte_eq hk
  rw [matching, hend, if_pos (h.lt hk), h.commentLength_none hopen hk, pure_bind]
  dsimp only
  rw [hbyte, pure_bind, mark_eq hb.ascii.1 hx, mark_eq hb.ascii.2 hx]

theorem matching_eq (h : Cut text start stop cs) (hstop : stop = byteLength text)
    (hb : Enclosing opening closing) (hsteps : stop < start + steps) :
    matching opening closing steps text (depth + 1) start =
      pure ((afterGroup opening closing depth cs).map fun rest => stop - byteLength rest - 1) := by
  have hend : (bytes text).length = stop := by rw [length_bytes, hstop]
  fun_induction afterGroup opening closing depth cs generalizing start steps with
  | case1 depth =>
    obtain ⟨steps, rfl, -⟩ := h.step hsteps
    have hstart := h.stop_eq
    rw [byteLength, Nat.add_zero] at hstart
    rw [matching, hend, hstart, if_neg (Nat.lt_irrefl start)]
    rfl
  | case2 depth rest ih =>
    obtain ⟨steps, rfl, hle⟩ := h.step hsteps
    obtain ⟨length, hlength, hpos, hcut⟩ := h.commentLength_comment
    rw [matching, hend, if_pos h.start_lt, hlength, pure_bind]
    exact ih hcut (later hle hpos)
  | case3 depth c rest hopen hc ih =>
    obtain ⟨steps, rfl, hle⟩ := h.step hsteps
    have hstep := h.matching_step hstop hb hopen (Char.utf8Size_pos c) steps (depth + 1)
    have hone : c.utf8Size = 1 := by
      rw [beq_iff_eq] at hc
      exact utf8Size_ascii (hc ▸ hb.ascii.1)
    have hnext := h.next
    rw [hone] at hnext
    rw [if_pos hc] at hstep
    exact hstep.trans (ih hnext (later hle Nat.one_pos))
  | case4 c rest hopen hc hc' =>
    obtain ⟨steps, rfl, -⟩ := h.step hsteps
    have hstep := h.matching_step hstop hb hopen (Char.utf8Size_pos c) steps 1
    have hone : c.utf8Size = 1 := by
      rw [beq_iff_eq] at hc'
      exact utf8Size_ascii (hc' ▸ hb.ascii.2)
    have hplace : stop - byteLength rest - 1 = start := by
      have hsize := h.stop_eq
      rw [byteLength, hone] at hsize
      omega
    rw [if_neg hc, if_pos hc', minus_succ, pure_bind, if_pos (beq_self_eq_true 0)] at hstep
    rw [Option.map_some, hplace]
    exact hstep
  | case5 c rest hopen hc hc' d ih =>
    obtain ⟨steps, rfl, hle⟩ := h.step hsteps
    have hstep := h.matching_step hstop hb hopen (Char.utf8Size_pos c) steps (d + 2)
    have hone : c.utf8Size = 1 := by
      rw [beq_iff_eq] at hc'
      exact utf8Size_ascii (hc' ▸ hb.ascii.2)
    have hnext := h.next
    rw [hone] at hnext
    rw [if_neg hc, if_pos hc', minus_succ, pure_bind, if_neg (by simp)] at hstep
    exact hstep.trans (ih hnext (later hle Nat.one_pos))
  | case6 depth c rest hopen hc hc' ih =>
    obtain ⟨steps, rfl, hrest⟩ := h.steps_char hsteps
    rw [advance (f := fun n => matching opening closing n text (depth + 1)) (i := start)
      fun n k hk => by
        have hstep := h.matching_step hstop hb hopen hk n (depth + 1)
        rwa [if_neg hc, if_neg hc'] at hstep]
    exact ih h.next hrest

/-- The loop begins at the bracket that opens the group. -/
theorem matching_group (h : Cut text start stop (opening :: cs)) (hstop : stop = byteLength text)
    (hb : Enclosing opening closing) (hsteps : stop < start + steps) :
    matching opening closing steps text 0 start =
      pure ((afterGroup opening closing 0 cs).map fun rest => stop - byteLength rest - 1) := by
  have hopen : ∀ r, opening = '/' → cs = '*' :: r → False := by
    rintro r rfl -
    rcases hb with ⟨he, -⟩ | ⟨he, -⟩ <;> cases he
  obtain ⟨steps, rfl, hle⟩ := h.step hsteps
  have hstep := h.matching_step hstop hb hopen (Char.utf8Size_pos opening) steps 0
  have hnext := h.next
  have hlt := h.start_lt
  rw [utf8Size_ascii hb.ascii.1] at hnext
  rw [if_pos (beq_self_eq_true opening)] at hstep
  exact hstep.trans (hnext.matching_eq hstop hb (later hle Nat.one_pos))

/-- What stands behind a group is what stands behind the bracket that closes it. -/
theorem behind_group (h : Cut text start stop (opening :: cs))
    (hgroup : afterGroup opening closing 0 cs = some rest) (hb : Enclosing opening closing) :
    start < stop - byteLength rest - 1 + 1 ∧ Cut text (stop - byteLength rest - 1 + 1) stop rest := by
  have hclosed := h.suffix ((afterGroup_closed hgroup).trans (List.suffix_cons _ _))
  have hbehind := hclosed.next
  have hsize := hclosed.stop_eq
  have hinside := h.next.place hclosed (afterGroup_closed hgroup)
  have hpos := Char.utf8Size_pos opening
  have hone : closing.utf8Size = 1 := utf8Size_ascii hb.ascii.2
  have hplace : stop - byteLength (closing :: rest) + closing.utf8Size =
      stop - byteLength rest - 1 + 1 := by
    rw [byteLength, hone] at hsize ⊢
    omega
  exact ⟨by omega, hplace ▸ hbehind⟩

/-- Behind blanks and comments the loop for the list goes on by the mark that stands there. -/
theorem listStart_step (h : Cut text start stop cs) (hstop : stop = byteLength text)
    (hsteps : stop < start + (steps + 1)) (hs : ParamText.skipTrivia cs = c :: rest) :
    ∃ i, start ≤ i ∧ Cut text i stop (c :: rest) ∧ listStart (steps + 1) text start =
      if c == ')' then listStart steps text (i + 1)
      else if c == '[' then do
        match ← matching '[' ']' (steps + 1) text 0 i with
        | none => return none
        | some close => listStart steps text (close + 1)
      else if c == '(' then return some i
      else return none := by
  have hcut := h.suffix (skipTrivia_suffix cs)
  rw [hs] at hcut
  have hplace := h.place hcut (hs ▸ skipTrivia_suffix cs)
  obtain ⟨x, hx, hbyte, -⟩ := hcut.byte_eq (Char.utf8Size_pos c)
  have hloop := listStart.eq_2 text start steps
  rw [Nat.add_zero] at hbyte
  rw [h.skipTrivia_eq hstop hsteps, hs, pure_bind, hbyte] at hloop
  dsimp only at hloop
  rw [mark_eq (by decide) hx, mark_eq (by decide) hx, mark_eq (by decide) hx] at hloop
  exact ⟨_, by omega, hcut, hloop⟩

theorem listStart_eq (h : Cut text start stop cs) (hstop : stop = byteLength text)
    (hsteps : stop < start + steps) : listStart steps text start =
      pure ((listBody cs).map fun body => stop - byteLength body - 1) := by
  fun_induction listBody cs generalizing start steps with
  | case1 cs rest hs ih =>
    obtain ⟨steps, rfl, hle⟩ := h.step hsteps
    obtain ⟨i, hi, hcut, hstep⟩ := h.listStart_step hstop hsteps hs
    have hbehind := hcut.next
    rw [utf8Size_ascii (by decide)] at hbehind
    rw [hstep, if_pos (beq_self_eq_true ')')]
    exact ih hbehind (by omega)
  | case2 cs rest hs after hgroup ih =>
    obtain ⟨steps, rfl, hle⟩ := h.step hsteps
    obtain ⟨i, hi, hcut, hstep⟩ := h.listStart_step hstop hsteps hs
    have hleft : stop < i + (steps + 1) := by omega
    have hmatch := hcut.matching_group hstop (.inr ⟨rfl, rfl⟩) hleft
    obtain ⟨hlater, hbehind⟩ := hcut.behind_group hgroup (.inr ⟨rfl, rfl⟩)
    rw [hgroup, Option.map_some] at hmatch
    rw [hstep, if_neg (by decide), if_pos (beq_self_eq_true '['), hmatch, pure_bind]
    exact ih hbehind (by omega)
  | case3 cs rest hs hgroup =>
    obtain ⟨steps, rfl, -⟩ := h.step hsteps
    obtain ⟨i, hi, hcut, hstep⟩ := h.listStart_step hstop hsteps hs
    have hleft : stop < i + (steps + 1) := by omega
    have hmatch := hcut.matching_group hstop (.inr ⟨rfl, rfl⟩) hleft
    rw [hgroup] at hmatch
    rw [hstep, if_neg (by decide), if_pos (beq_self_eq_true '['), hmatch]
    rfl
  | case4 cs rest hs =>
    obtain ⟨steps, rfl, -⟩ := h.step hsteps
    obtain ⟨i, hi, hcut, hstep⟩ := h.listStart_step hstop hsteps hs
    have hplace : i = stop - byteLength rest - 1 := by
      have hsize := hcut.stop_eq
      rw [byteLength, utf8Size_ascii (by decide)] at hsize
      omega
    rw [hstep, if_neg (by decide), if_neg (by decide), if_pos (beq_self_eq_true '('), hplace,
      Option.map_some]
  | case5 cs hclosing hbracket hopening =>
    obtain ⟨steps, rfl, -⟩ := h.step hsteps
    cases hs : ParamText.skipTrivia cs with
    | nil =>
      have hend : (bytes text)[stop]? = none :=
        List.getElem?_eq_none (by rw [length_bytes, hstop])
      rw [listStart, h.skipTrivia_eq hstop hsteps, hs, pure_bind, byteLength, Nat.sub_zero, hend]
      rfl
    | cons c rest =>
      obtain ⟨i, hi, hcut, hstep⟩ := h.listStart_step hstop hsteps hs
      have hother : ∀ m : Char, (∀ r, ParamText.skipTrivia cs = m :: r → False) → ¬(c == m) := by
        intro m hm hc
        exact hm rest (by rw [hs, beq_iff_eq.mp hc])
      rw [hstep, if_neg (hother _ hclosing), if_neg (hother _ hbracket), if_neg (hother _ hopening)]
      rfl

/-- The loop over a list at one byte of a character. -/
theorem split_step (h : Cut text i stop (c :: cs)) (hopen : ∀ r, c = '/' → cs = '*' :: r → False)
    (hk : k < c.utf8Size) (steps depth start : Nat) :
    split (steps + 1) text stop depth start (i + k) =
      if c == '(' || c == '[' then split steps text stop (depth + 1) start (i + k + 1)
      else if c == ')' || c == ']' then split steps text stop (depth - 1) start (i + k + 1)
      else if c == ',' && depth == 0 then do
        return (start, i + k) :: (← split steps text stop depth (i + k + 1) (i + k + 1))
      else split steps text stop depth start (i + k + 1) := by
  obtain ⟨x, hx, -, hbyte⟩ := h.byte_eq hk
  have hmark : ∀ m : Char, m.toNat < 128 → (char x == m) = (c == m) := fun m hm => mark_eq hm hx
  rw [split, if_pos (h.lt hk), h.commentLength_none hopen hk, pure_bind]
  dsimp only
  rw [hbyte, pure_bind, hmark '(' (by decide), hmark '[' (by decide), hmark ')' (by decide),
    hmark ']' (by decide), hmark ',' (by decide)]

/-- The loop over a list comes to the next comma that ends a parameter, or to the end. -/
theorem split_to (h : Cut text i stop cs) (hsteps : stop < i + steps) (depth start : Nat) :
    ∃ n, stop < stop - byteLength (fromComma depth cs) + n ∧ split steps text stop depth start i =
      split n text stop 0 start (stop - byteLength (fromComma depth cs)) := by
  fun_induction fromComma depth cs generalizing i steps with
  | case1 depth =>
    obtain ⟨steps, rfl, -⟩ := h.step hsteps
    have hend : i = stop := by
      have hsize := h.stop_eq
      rw [byteLength] at hsize
      omega
    refine ⟨steps + 1, by rw [byteLength]; omega, ?_⟩
    rw [hend, byteLength, Nat.sub_zero, split, if_neg (Nat.lt_irrefl stop), split,
      if_neg (Nat.lt_irrefl stop)]
  | case2 depth rest ih =>
    obtain ⟨steps, rfl, hle⟩ := h.step hsteps
    obtain ⟨length, hlength, hpos, hcut⟩ := h.commentLength_comment
    obtain ⟨n, hn, hto⟩ := ih hcut (later hle hpos)
    refine ⟨n, hn, ?_⟩
    rw [← hto, split, if_pos h.start_lt, hlength, pure_bind]
  | case3 depth c rest hopen hc ih =>
    obtain ⟨steps, rfl, hle⟩ := h.step hsteps
    have hstep := h.split_step hopen (Char.utf8Size_pos c) steps depth start
    have hnext := h.next
    have hsize : c.utf8Size = 1 := by
      rcases (Bool.or_eq_true ..).mp hc with hm | hm <;> rw [beq_iff_eq.mp hm] <;> decide
    rw [hsize] at hnext
    rw [if_pos hc] at hstep
    obtain ⟨n, hn, hto⟩ := ih hnext (later hle Nat.one_pos)
    exact ⟨n, hn, hstep.trans hto⟩
  | case4 depth c rest hopen hc hc' ih =>
    obtain ⟨steps, rfl, hle⟩ := h.step hsteps
    have hstep := h.split_step hopen (Char.utf8Size_pos c) steps depth start
    have hnext := h.next
    have hsize : c.utf8Size = 1 := by
      rcases (Bool.or_eq_true ..).mp hc' with hm | hm <;> rw [beq_iff_eq.mp hm] <;> decide
    rw [hsize] at hnext
    rw [if_neg hc, if_pos hc'] at hstep
    obtain ⟨n, hn, hto⟩ := ih hnext (later hle Nat.one_pos)
    exact ⟨n, hn, hstep.trans hto⟩
  | case5 depth c rest hopen hc hc' hcomma =>
    obtain ⟨-, hdepth⟩ := (Bool.and_eq_true ..).mp hcomma
    have hplace : stop - byteLength (c :: rest) = i := by
      have hsize := h.stop_eq
      omega
    rw [hplace, beq_iff_eq.mp hdepth]
    exact ⟨steps, hsteps, rfl⟩
  | case6 depth c rest hopen hc hc' hcomma ih =>
    obtain ⟨steps, rfl, hrest⟩ := h.steps_char hsteps
    obtain ⟨n, hn, hto⟩ := ih h.next hrest
    refine ⟨n, hn, ?_⟩
    rw [← hto]
    refine advance (f := fun n => split n text stop depth start) (fun n k hk => ?_) steps
    have hstep := h.split_step hopen hk n depth start
    rwa [if_neg hc, if_neg hc', if_neg hcomma] at hstep

theorem split_last (h : Cut text i stop cs) (hsteps : stop < i + steps) (hc : fromComma 0 cs = []) :
    split steps text stop 0 start i = pure [(start, stop)] := by
  obtain ⟨n, hn, hto⟩ := h.split_to hsteps 0 start
  rw [hc, byteLength, Nat.sub_zero] at hn hto
  obtain ⟨n, rfl⟩ := Nat.exists_eq_succ_of_ne_zero (Nat.pos_of_lt_add_right hn).ne'
  rw [hto, split, if_neg (Nat.lt_irrefl stop)]

theorem split_comma (h : Cut text i stop cs) (hsteps : stop < i + steps)
    (hc : fromComma 0 cs = c :: rest) (start : Nat) :
    ∃ n, stop < stop - byteLength rest + n ∧ split steps text stop 0 start i = do
      return (start, stop - byteLength (c :: rest)) ::
        (← split n text stop 0 (stop - byteLength rest) (stop - byteLength rest)) := by
  obtain rfl := ParamText.fromComma_head hc
  have hcut := h.suffix (hc ▸ fromComma_suffix 0 cs)
  have hnext : stop - byteLength (',' :: rest) + 1 = stop - byteLength rest := by
    have hsize := hcut.next.stop_eq
    rw [utf8Size_ascii (by decide)] at hsize
    omega
  obtain ⟨n, hn, hto⟩ := h.split_to hsteps 0 start
  rw [hc] at hn hto
  obtain ⟨n, rfl, hle⟩ := hcut.step hn
  have hstep := hcut.split_step (by rintro _ ⟨⟩) (Char.utf8Size_pos ',') n 0 start
  rw [Nat.add_zero, hnext] at hstep
  exact ⟨n, by omega, hto.trans hstep⟩

end Cut

theorem isWordStart_high (d : Char) (h : 128 ≤ d.toNat) : isWordStart d = false := by
  apply (Bool.not_eq_true _).mp
  intro hd
  have hcode := QualType.isWordStart_code hd
  omega

theorem isNameChar_high (d : Char) (h : 128 ≤ d.toNat) : isNameChar d = false := by
  apply (Bool.not_eq_true _).mp
  intro hd
  rcases QualType.isWordChar_iff.mp hd with hstart | hdigit
  · rw [isWordStart_high d h] at hstart
    cases hstart
  · have hcode := QualType.isDigit_code hdigit
    omega

theorem nameLength_eq (cs : List Char) : nameLength cs = byteLength (cs.takeWhile isNameChar) := by
  induction cs with
  | nil => rfl
  | cons c cs ih =>
    have hall : ∀ x ∈ String.utf8EncodeChar c, isNameChar (char x) = isNameChar c :=
      fun x hx => class_eq isNameChar_high hx
    rw [nameLength, bytes_cons, List.takeWhile_cons]
    split
    next hname =>
      rw [List.takeWhile_append_of_pos fun x hx => (hall x hx).trans hname, List.length_append,
        String.length_utf8EncodeChar, byteLength, ← ih, nameLength]
    next hother =>
      obtain ⟨x, xs, hx⟩ := List.exists_cons_of_ne_nil (encode_ne_nil c)
      have hfirst : ¬isNameChar (char x) := by rwa [hall x (by simp [hx])]
      rw [hx, List.cons_append, List.takeWhile_cons, if_neg hfirst]
      rfl

namespace Cut

theorem words_byte (h : Cut text i stop (c :: cs)) (hk : k < c.utf8Size) :
    ∃ x, byte text (i + k) = pure x ∧ (char x == '[') = (c == '[') ∧
      ((char x).isAlpha || char x == '_') = (c.isAlpha || c == '_') := by
  obtain ⟨x, hx, -, hbyte⟩ := h.byte_eq hk
  exact ⟨x, hbyte, mark_eq (by decide) hx, class_eq isWordStart_high hx⟩

theorem words_end (steps : Nat) : words (steps + 1) text stop stop = pure [] := by
  rw [words, if_neg (Nat.lt_irrefl stop)]

/-- Outside comments the loop over words goes on by the character that it is at. -/
theorem words_step (h : Cut text i stop (c :: cs)) (hopen : ∀ r, c = '/' → cs = '*' :: r → False)
    (hk : k < c.utf8Size) (steps : Nat) :
    words (steps + 1) text stop (i + k) =
      if c == '[' then do
        match ← matching '[' ']' (steps + 1) (← slice text 0 stop) 0 (i + k) with
        | some close => words steps text stop (close + 1)
        | none => words steps text stop stop
      else if c.isAlpha || c == '_' then do
        let length := nameLength (← slice text (i + k) stop)
        let name ← slice text (i + k) (i + k + length)
        return (String.ofList name, i + k) :: (← words steps text stop (i + k + length))
      else words steps text stop (i + k + 1) := by
  obtain ⟨x, hbyte, hmark, hclass⟩ := h.words_byte hk
  have hloop := words.eq_2 text stop (i + k) steps
  rw [if_pos (h.lt hk), h.commentLength_none hopen hk, pure_bind] at hloop
  dsimp only at hloop
  rw [hbyte, pure_bind, hmark, hclass] at hloop
  exact hloop

/-- The length of an array is passed; without its closing bracket nothing is left. -/
theorem words_bracket (h : Cut text i stop ('[' :: cs)) (hsteps : stop < i + (steps + 1)) :
    words (steps + 1) text stop i =
      match afterGroup '[' ']' 0 cs with
      | some rest => words steps text stop (stop - byteLength rest - 1 + 1)
      | none => words steps text stop stop := by
  obtain ⟨front, hfront, hlength, hcut⟩ := h.upTo
  have hmatch := hcut.matching_group hlength.symm (.inr ⟨rfl, rfl⟩) hsteps
  have hstep := h.words_step (by rintro _ ⟨⟩) (Char.utf8Size_pos '[') steps
  simp only [Nat.add_zero] at hstep
  rw [if_pos (beq_self_eq_true '['), hfront, pure_bind, hmatch, pure_bind] at hstep
  rw [hstep]
  cases afterGroup '[' ']' 0 cs <;> rfl

theorem words_eq (h : Cut text i stop cs) (steps : Nat) (hsteps : stop < i + steps) :
    words steps text stop i = pure (wordsAt i cs) := by
  revert steps
  fun_induction wordsAt i cs with
  | case1 i =>
    intro steps hsteps
    obtain ⟨steps, rfl, -⟩ := h.step hsteps
    have hstart := h.stop_eq
    rw [byteLength, Nat.add_zero] at hstart
    rw [hstart, words_end]
  | case2 i rest after ih =>
    intro steps hsteps
    obtain ⟨steps, rfl, hle⟩ := h.step hsteps
    obtain ⟨length, hlength, hpos, hcut⟩ := h.commentLength_comment
    have hafter : after <:+ '/' :: '*' :: rest :=
      (afterBlockComment_suffix rest).trans ((List.suffix_cons _ _).trans (List.suffix_cons _ _))
    have hplace := h.place hcut hafter
    rw [words, if_pos h.start_lt, hlength, pure_bind]
    dsimp only
    rw [hplace]
    exact ih (hplace ▸ hcut) steps (hplace ▸ later hle hpos)
  | case3 i rest after hgroup ih =>
    intro steps hsteps
    obtain ⟨steps, rfl, hle⟩ := h.step hsteps
    obtain ⟨hlater, hbehind⟩ := h.behind_group hgroup (.inr ⟨rfl, rfl⟩)
    have hafter : after <:+ '[' :: rest :=
      ((List.suffix_cons _ _).trans (afterGroup_closed hgroup)).trans (List.suffix_cons _ _)
    have hplace := h.place hbehind hafter
    rw [h.words_bracket hsteps, hgroup]
    dsimp only
    rw [hplace] at hlater ⊢
    exact ih (hplace ▸ hbehind) steps (by omega)
  | case4 i rest hgroup =>
    intro steps hsteps
    obtain ⟨steps, rfl, hle⟩ := h.step hsteps
    have hlt := h.start_lt
    obtain ⟨n, rfl⟩ : ∃ n, steps = n + 1 := ⟨steps - 1, by omega⟩
    rw [h.words_bracket hsteps, hgroup]
    exact words_end n
  | case5 i c rest hopen hbracket hletter name ih =>
    intro steps hsteps
    obtain ⟨steps, rfl, hle⟩ := h.step hsteps
    have hc : ¬(c == '[') := fun hc => hbracket (beq_iff_eq.mp hc)
    have hname : isNameChar c := QualType.isWordChar_of_isWordStart hletter
    have hlength : nameLength (c :: rest) = byteLength name := by
      rw [nameLength_eq, List.takeWhile_cons_of_pos hname]
    have hpos : 0 < byteLength name :=
      Nat.add_pos_left (Char.utf8Size_pos c) _
    have hparts : c :: rest = name ++ rest.dropWhile isNameChar := by
      rw [List.cons_append, List.takeWhile_append_dropWhile]
    have hboth := h
    rw [hparts] at hboth
    have hstep := h.words_step hopen (Char.utf8Size_pos c) steps
    simp only [Nat.add_zero] at hstep
    rw [if_neg hc, if_pos hletter, h.slice_eq, pure_bind, hlength] at hstep
    rw [hstep, hboth.head.slice_eq, pure_bind, ih hboth.tail steps (later hle hpos), pure_bind]
  | case6 i c rest hopen hbracket hletter ih =>
    intro steps hsteps
    obtain ⟨steps, rfl, hrest⟩ := h.steps_char hsteps
    have hc : ¬(c == '[') := fun hc => hbracket (beq_iff_eq.mp hc)
    rw [advance (f := fun n => words n text stop) (i := i) fun n k hk => by
      rw [h.words_step hopen hk, if_neg hc, if_neg hletter]]
    exact ih h.next steps hrest

theorem skipStars_eq (h : Cut text i stop cs) (hsteps : stop < i + steps) :
    skipStars steps text stop i =
      pure (stop - byteLength (cs.dropWhile fun c => c == '*' || isAsciiBlank c)) := by
  induction cs generalizing i steps with
  | nil =>
    obtain ⟨steps, rfl, -⟩ := h.step hsteps
    have hstart := h.stop_eq
    rw [byteLength, Nat.add_zero] at hstart
    rw [hstart, skipStars, if_neg (Nat.lt_irrefl i)]
    rfl
  | cons c cs ih =>
    obtain ⟨steps, rfl, hle⟩ := h.step hsteps
    obtain ⟨x, hx, -, hbyte⟩ := h.byte_eq (Char.utf8Size_pos c)
    have hhigh : ∀ d : Char, 128 ≤ d.toNat → (d == '*' || isAsciiBlank d) = false := by
      intro d hd
      apply (Bool.not_eq_true _).mp
      intro hskip
      simp only [isAsciiBlank, Bool.or_eq_true, beq_iff_eq] at hskip
      rcases hskip with rfl | (((rfl | rfl) | rfl) | rfl) | rfl <;> exact absurd hd (by decide)
    have hclass : (char x == '*' || isAsciiBlank (char x)) = (c == '*' || isAsciiBlank c) :=
      class_eq hhigh hx
    rw [Nat.add_zero] at hbyte
    rw [skipStars, if_pos h.start_lt, hbyte, pure_bind]
    dsimp only
    rw [hclass, List.dropWhile_cons]
    split
    next hskip =>
      have hsize : c.utf8Size = 1 := by
        refine utf8Size_ascii (Nat.lt_of_not_le fun hc => ?_)
        rw [hhigh c hc] at hskip
        cases hskip
      have hnext := h.next
      rw [hsize] at hnext
      exact ih hnext (later hle Nat.one_pos)
    next hkeep =>
      have hplace : stop - byteLength (c :: cs) = i := by
        have hstop := h.stop_eq
        omega
      rw [hplace]

end Cut

theorem find?_star (cs : List Char) :
    find? ['(', '*'] cs = (splitStar cs).map fun p => byteLength p.1 := by
  fun_induction splitStar cs with
  | case1 cs => rfl
  | case2 c cs hopen ih =>
    have hprefix : ¬['(', '*'].isPrefixOf (c :: cs) := by
      rw [List.isPrefixOf_iff_prefix]
      rintro ⟨rest, hrest⟩
      cases hrest
      exact hopen rest rfl rfl
    rw [find?_cons, if_neg hprefix, ih, Option.map_map, Option.map_map]
    rfl
  | case3 => rfl

end Search
end Bindery
