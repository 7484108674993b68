import Bindery.Proofs.Text.Trimmed

/-! Comments and literals in a line of C. A comment stands for a blank. -/

namespace Bindery

namespace Lexical

variable {cs front back rest : List Char} {b c quote : Char}

def isQuote (c : Char) : Bool :=
  c == '"' || c == '\''

/-- Text between two quotes, which stands behind a backslash where it holds the quote. -/
def isLiteralBody (quote : Char) : List Char → Bool
  | [] => true
  | ['\\'] => false
  | '\\' :: _ :: cs => isLiteralBody quote cs
  | c :: cs => c != quote && isLiteralBody quote cs

/-- What follows a literal, given what follows its opening quote. -/
def afterQuote (quote : Char) : List Char → Option (List Char)
  | [] => none
  | ['\\'] => none
  | '\\' :: _ :: cs => afterQuote quote cs
  | c :: cs => if c == quote then some cs else afterQuote quote cs

def opensComment : List Char → Bool
  | '/' :: '/' :: _ => true
  | '/' :: '*' :: _ => true
  | _ => false

def AnyLiteral (_ : Char) (_ : List Char) : Prop :=
  True

/-- Text with its literals closed, each of them as `ok` has it, and without comments, also where it
meets `rest`. -/
inductive CommentFree (ok : Char → List Char → Prop) (rest : List Char) : List Char → Prop
  | nil : CommentFree ok rest []
  | literal {quote : Char} {body cs : List Char} (opening : isQuote quote = true)
      (closed : isLiteralBody quote body = true) (fine : ok quote body) (more : CommentFree ok rest cs) :
      CommentFree ok rest (quote :: (body ++ quote :: cs))
  | other {c : Char} {cs : List Char} (unquoted : isQuote c = false)
      (unopened : opensComment (c :: (cs ++ rest)) = false) (more : CommentFree ok rest cs) :
      CommentFree ok rest (c :: cs)

/-- Text with its literals closed and without comments. -/
def Plain (cs : List Char) : Prop :=
  CommentFree AnyLiteral [] cs

/-- The second text is the first with each comment replaced by a blank. -/
inductive Uncommented : List Char → List Char → Prop
  | plain {cs : List Char} (free : Plain cs) : Uncommented cs cs
  | line {cs : List Char} (content : List Char)
      (free : CommentFree AnyLiteral ('/' :: '/' :: content) cs) :
      Uncommented (cs ++ '/' :: '/' :: content) (cs ++ [' '])
  | block {cs rest plain : List Char} (content : List Char) (unclosed : ¬['*', '/'] <:+: content)
      (free : CommentFree AnyLiteral ('/' :: '*' :: (content ++ '*' :: '/' :: rest)) cs)
      (more : Uncommented rest plain) :
      Uncommented (cs ++ '/' :: '*' :: (content ++ '*' :: '/' :: rest)) (cs ++ ' ' :: plain)

theorem isQuote_iff : isQuote c ↔ c = '"' ∨ c = '\'' := by
  rw [isQuote, Bool.or_eq_true, beq_iff_eq, beq_iff_eq]

theorem not_isQuote_of_isBlank (h : isBlank c) : isQuote c = false := by
  rw [← Bool.not_eq_true, isQuote_iff]
  rintro (rfl | rfl) <;> cases h

theorem opensComment_iff : opensComment cs ↔
    ∃ mark more, cs = '/' :: mark :: more ∧ (mark = '/' ∨ mark = '*') := by
  constructor
  · intro h
    unfold opensComment at h
    split at h
    · exact ⟨'/', _, rfl, .inl rfl⟩
    · exact ⟨'*', _, rfl, .inr rfl⟩
    · cases h
  · rintro ⟨mark, more, rfl, rfl | rfl⟩ <;> rfl

theorem not_opensComment_of_ne (h : c ≠ '/') (cs : List Char) : opensComment (c :: cs) = false := by
  rw [← Bool.not_eq_true, opensComment_iff]
  rintro ⟨mark, more, he, -⟩
  exact h (List.cons.inj he).1

theorem opensComment_append (h : opensComment cs) (back : List Char) : opensComment (cs ++ back) := by
  obtain ⟨mark, more, rfl, hmark⟩ := opensComment_iff.mp h
  exact opensComment_iff.mpr ⟨mark, more ++ back, rfl, hmark⟩

theorem not_opensComment_of_append (h : opensComment (cs ++ back) = false) :
    opensComment cs = false := by
  rw [← Bool.not_eq_true] at h ⊢
  exact fun hopen => h (opensComment_append hopen back)

/-- Two characters decide whether a comment is opened. -/
theorem opensComment_congr (h : front.head? = back.head?) :
    opensComment (c :: front) = opensComment (c :: back) := by
  rw [Bool.eq_iff_iff, opensComment_iff, opensComment_iff]
  cases front with
  | nil =>
    cases back with
    | nil => rfl
    | cons d back => cases h
  | cons d front =>
    cases back with
    | nil => cases h
    | cons e back =>
      cases h
      simp

theorem ne_backslash_of_isQuote (h : isQuote quote) : quote ≠ '\\' := by
  rintro rfl
  cases h

theorem afterQuote_cons (h : c ≠ '\\') (cs : List Char) :
    afterQuote quote (c :: cs) = if c == quote then some cs else afterQuote quote cs := by
  rw [afterQuote]
  · rintro rfl
    exact absurd rfl h
  · rintro d more rfl
    exact absurd rfl h

/-- A literal ends at the first quote that stands behind no backslash. -/
theorem afterQuote_append (hquote : isQuote quote) (h : isLiteralBody quote cs) (rest : List Char) :
    afterQuote quote (cs ++ quote :: rest) = some rest := by
  fun_induction isLiteralBody quote cs with
  | case1 =>
    rw [List.nil_append, afterQuote_cons (ne_backslash_of_isQuote hquote), if_pos (beq_self_eq_true _)]
  | case2 => cases h
  | case3 d cs ih => exact ih h
  | case4 c cs hend hescape ih =>
    obtain ⟨hc, hcs⟩ := (Bool.and_eq_true _ _).mp h
    have hplain : c ≠ '\\' := by
      rintro rfl
      cases cs with
      | nil => exact hend rfl rfl
      | cons d cs => exact hescape d cs rfl rfl
    rw [List.cons_append, afterQuote_cons hplain, if_neg (by simpa using hc), ih hcs]

namespace CommentFree

variable {ok : Char → List Char → Prop}

theorem unquoted_of_cons (h : CommentFree ok rest (c :: cs)) (hc : isQuote c = false) :
    opensComment (c :: (cs ++ rest)) = false ∧ CommentFree ok rest cs := by
  cases h with
  | literal opening closed fine more =>
    rw [opening] at hc
    cases hc
  | other unquoted unopened more => exact ⟨unopened, more⟩

theorem literal_of_cons (h : CommentFree ok rest (quote :: cs)) (hquote : isQuote quote) :
    ∃ body behind, cs = body ++ quote :: behind ∧ isLiteralBody quote body ∧ ok quote body ∧
      CommentFree ok rest behind := by
  cases h with
  | literal opening closed fine more => exact ⟨_, _, rfl, closed, fine, more⟩
  | other unquoted unopened more =>
    rw [hquote] at unquoted
    cases unquoted

/-- Characters that are no quotes can be taken away from the front. -/
theorem behind (h : CommentFree ok rest (front ++ cs)) (hfront : ∀ c ∈ front, isQuote c = false) :
    CommentFree ok rest cs := by
  induction front with
  | nil => exact h
  | cons c front ih =>
    obtain ⟨hc, hfront⟩ := List.forall_mem_cons.mp hfront
    exact ih (h.unquoted_of_cons hc).2 hfront

theorem cons_blank (hb : isBlank b) (h : CommentFree ok rest cs) : CommentFree ok rest (b :: cs) := by
  refine .other (not_isQuote_of_isBlank hb) (not_opensComment_of_ne ?_ _) h
  rintro rfl
  cases hb

/-- Text behind a blank is joined to no text before it. -/
theorem append_blank (hb : isBlank b) (h : CommentFree ok front cs) (hrest : CommentFree ok rest back) :
    CommentFree ok rest (cs ++ b :: back) := by
  induction h with
  | nil => exact hrest.cons_blank hb
  | @literal quote body cs opening closed fine more ih =>
    have hmore : quote :: (body ++ quote :: cs) ++ b :: back =
        quote :: (body ++ quote :: (cs ++ b :: back)) := by simp
    rw [hmore]
    exact .literal opening closed fine ih
  | @other c cs unquoted unopened more ih =>
    refine .other unquoted ?_ ih
    cases cs with
    | nil =>
      rw [← Bool.not_eq_true, opensComment_iff]
      rintro ⟨mark, tail, he, hmark⟩
      have hbm : b = mark := (List.cons.inj (List.cons.inj he).2).1
      subst hbm
      rcases hmark with rfl | rfl <;> cases hb
    | cons d cs =>
      have hsame : opensComment (c :: (d :: cs ++ b :: back ++ rest)) =
          opensComment (c :: (d :: cs ++ front)) := opensComment_congr rfl
      exact hsame.trans unopened

end CommentFree

/-- Blanks at the end belong to no literal. -/
theorem Plain.initial (hback : ∀ c ∈ back, isBlank c) (h : Plain (cs ++ back)) : Plain cs := by
  generalize htext : cs ++ back = text at h
  induction h generalizing cs with
  | nil =>
    obtain ⟨rfl, -⟩ := List.append_eq_nil_iff.mp htext
    exact .nil
  | @literal quote body more opening closed fine hmore ih =>
    have hquote : quote ∉ back := fun hmem => by
      have hno := not_isQuote_of_isBlank (hback quote hmem)
      rw [opening] at hno
      cases hno
    cases cs with
    | nil =>
      rw [List.nil_append] at htext
      exact absurd (htext ▸ List.mem_cons_self) hquote
    | cons c cs =>
      obtain ⟨rfl, htail⟩ := List.cons.inj htext
      rcases List.append_eq_append_iff.mp htail with ⟨mid, -, hmid⟩ | ⟨mid, hcs, hmid⟩
      · exact absurd (hmid ▸ List.mem_append_right mid List.mem_cons_self) hquote
      · cases mid with
        | nil =>
          rw [List.nil_append] at hmid
          exact absurd (hmid ▸ List.mem_cons_self) hquote
        | cons d mid =>
          obtain ⟨rfl, hmore⟩ := List.cons.inj hmid
          rw [hcs]
          exact .literal opening closed trivial (ih hmore.symm)
  | @other c more unquoted unopened hmore ih =>
    cases cs with
    | nil => exact .nil
    | cons d cs =>
      obtain ⟨rfl, htail⟩ := List.cons.inj htext
      refine .other unquoted ?_ (ih htail)
      rw [List.append_nil, ← htail] at unopened
      rw [List.append_nil]
      exact not_opensComment_of_append unopened

theorem Plain.trim (h : Plain cs) : Plain (trim cs) := by
  obtain ⟨front, back, hcs, hfront, hback⟩ := trim_parts cs
  have hrest : Plain (Bindery.trim cs ++ back) :=
    CommentFree.behind (hcs ▸ h) fun c hc => not_isQuote_of_isBlank (hfront c hc)
  exact hrest.initial hback

theorem plain_blanks (h : ∀ c ∈ cs, isBlank c) : Plain cs := by
  induction cs with
  | nil => exact .nil
  | cons b cs ih =>
    obtain ⟨hb, hcs⟩ := List.forall_mem_cons.mp h
    exact (ih hcs).cons_blank hb

/-- A text is plain when it is without the blanks around it. -/
theorem plain_of_trim (h : Plain (Bindery.trim cs)) : Plain cs := by
  obtain ⟨front, back, hcs, hfront, hback⟩ := trim_parts cs
  have hrest : Plain (Bindery.trim cs ++ back) := by
    cases back with
    | nil => rwa [List.append_nil]
    | cons b back =>
      obtain ⟨hb, hmore⟩ := List.forall_mem_cons.mp hback
      exact h.append_blank hb (plain_blanks hmore)
  rw [hcs]
  clear hcs
  induction front with
  | nil => exact hrest
  | cons b front ih =>
    obtain ⟨hb, hmore⟩ := List.forall_mem_cons.mp hfront
    exact (ih hmore).cons_blank hb

/-- Where a comment is opened, or nothing follows. -/
def CommentOrEnd (cs : List Char) : Prop :=
  cs = [] ∨ opensComment cs

theorem getLast?_of_suffix (h : back <:+ cs) (hc : back.getLast? = some c) :
    cs.getLast? = some c := by
  obtain ⟨front, rfl⟩ := h
  rw [List.getLast?_append, hc]
  rfl

/-- There is one place where a text comes to its first comment or to its end. It is not between two
slashes. -/
theorem CommentFree.eq_of_append {ok : Char → List Char → Prop} (h : CommentFree ok rest cs)
    (hrest : CommentOrEnd rest) (hfront : Plain front) (hback : CommentOrEnd back)
    (hslash : back = [] ∨ front.getLast? ≠ some '/') (htext : cs ++ rest = front ++ back) :
    front = cs := by
  induction h generalizing front with
  | nil =>
    cases front with
    | nil => rfl
    | cons c front =>
      rcases hrest with rfl | hopen
      · cases htext
      · obtain ⟨mark, more, rfl, hmark⟩ := opensComment_iff.mp hopen
        obtain ⟨rfl, hmore⟩ := List.cons.inj htext
        obtain ⟨hplain, -⟩ := hfront.unquoted_of_cons rfl
        cases front with
        | nil =>
          rcases hslash with rfl | hne
          · cases hmore
          · exact absurd rfl hne
        | cons d front =>
          obtain ⟨rfl, -⟩ := List.cons.inj hmore
          rcases hmark with rfl | rfl <;> cases hplain
  | @literal quote body cs opening closed fine more ih =>
    cases front with
    | nil =>
      rw [List.nil_append] at htext
      subst htext
      obtain ⟨mark, tail, he, -⟩ := opensComment_iff.mp (hback.resolve_left (List.cons_ne_nil _ _))
      rw [(List.cons.inj he).1] at opening
      cases opening
    | cons c front =>
      obtain ⟨rfl, -⟩ := List.cons.inj htext
      obtain ⟨body', behind, rfl, hclosed, -, hbehind⟩ := hfront.literal_of_cons opening
      have htail : body ++ quote :: (cs ++ rest) = body' ++ quote :: (behind ++ back) := by
        simpa using htext
      -- both literals are closed by the first quote that can close them
      have hrests : cs ++ rest = behind ++ back := by
        have hafter := afterQuote_append opening closed (cs ++ rest)
        have hafter' := afterQuote_append opening hclosed (behind ++ back)
        rw [htail, hafter'] at hafter
        exact (Option.some.inj hafter).symm
      have hbodies : body = body' := List.append_cancel_right (hrests ▸ htail)
      have hsuffix : behind <:+ quote :: (body' ++ quote :: behind) :=
        ⟨quote :: (body' ++ [quote]), by simp⟩
      have hlast : back = [] ∨ behind.getLast? ≠ some '/' :=
        hslash.imp_right fun hne hend => hne (getLast?_of_suffix hsuffix hend)
      rw [hbodies, ih hbehind hlast hrests]
  | @other c cs unquoted unopened more ih =>
    cases front with
    | nil =>
      rw [List.nil_append] at htext
      subst htext
      have hopen := hback.resolve_left (List.cons_ne_nil _ _)
      rw [List.cons_append, unopened] at hopen
      cases hopen
    | cons d front =>
      obtain ⟨rfl, htail⟩ := List.cons.inj htext
      obtain ⟨-, hmore⟩ := hfront.unquoted_of_cons unquoted
      have hlast : back = [] ∨ front.getLast? ≠ some '/' :=
        hslash.imp_right fun hne hend => hne (getLast?_of_suffix (List.suffix_cons c front) hend)
      rw [ih hmore hlast htail]

/-- A text is free of comments up to the first, and goes on with a blank where that is replaced. -/
theorem Uncommented.parts {plain : List Char} (h : Uncommented cs plain) :
    ∃ free rest tail, cs = free ++ rest ∧ plain = free ++ tail ∧
      CommentFree AnyLiteral rest free ∧ CommentOrEnd rest ∧ ∀ c ∈ tail.head?, isBlank c := by
  cases h with
  | plain free => exact ⟨cs, [], [], by simp, by simp, free, .inl rfl, nofun⟩
  | line content free =>
    refine ⟨_, _, _, rfl, rfl, free, .inr rfl, ?_⟩
    rintro _ ⟨⟩
    rfl
  | block content unclosed free more =>
    refine ⟨_, _, _, rfl, rfl, free, .inr rfl, ?_⟩
    rintro _ ⟨⟩
    rfl

theorem Uncommented.isPlain {plain : List Char} (h : Uncommented cs plain) : Plain plain := by
  induction h with
  | plain free => exact free
  | line content free => exact free.append_blank rfl .nil
  | block content unclosed free more ih => exact free.append_blank rfl ih

end Lexical

end Bindery
