import Bindery.Proofs.QualType.Balanced
import Bindery.Proofs.QualType.Base
import Bindery.Proofs.QualType.Reading

/-! Declarators that are read. The levels of a type are met from the outside. -/

namespace Bindery

namespace QualType

/-- Tokens at which a type ends. -/
def Stops (rest : List Token) : Prop :=
  ∀ t ∈ rest.head?, t = .closeParen ∨ t = .comma

section

variable {anonymous : String → Option String} {ts rest : List Token}

theorem pointerQualifiers_end (t : RawType) (h : ∀ w, Token.word w ∉ ts.head?) :
    pointerQualifiers t ts = (t, ⟨ts, Nat.le_refl _⟩) := by
  unfold pointerQualifiers
  split
  · exact absurd rfl (h _)
  · rfl

theorem pointers_end (t : RawType) (h : Token.star ∉ ts.head?) :
    pointers t ts = (t, ⟨ts, Nat.le_refl _⟩) := by
  unfold pointers
  split
  · exact absurd rfl h
  · rfl

theorem pointerQualifiers_constTokens (t : RawType) (isConst : Bool)
    (h : ∀ w, Token.word w ∉ ts.head?) :
    ∃ hlen, pointerQualifiers t (constTokens isConst ++ ts) = (made isConst t, ⟨ts, hlen⟩) := by
  cases isConst with
  | false => exact ⟨Nat.le_refl _, pointerQualifiers_end t h⟩
  | true =>
    refine ⟨Nat.le_succ _, ?_⟩
    show pointerQualifiers t (.word "const" :: ts) = _
    unfold pointerQualifiers
    simp only [pointerQualifiers_end t.constant h, BEq.rfl, if_true]
    rfl

/-- After the stars a declarator is read alike, whatever stood before. -/
theorem ReadsAround.after_pointers {u u' v t : RawType} {ts' r behind : List Token}
    {hr : r.length ≤ ts.length} {hr' : r.length ≤ ts'.length}
    (hp : pointers u ts = (v, ⟨r, hr⟩)) (hp' : pointers u' ts' = (v, ⟨r, hr'⟩))
    (h : ReadsAround anonymous u ts t behind) :
    ReadsAround anonymous u' ts' t behind := by
  obtain ⟨asked, hlen, h⟩ := h
  cases hgroup : groupedTokens r with
  | none =>
    rw [declarator_plain anonymous hp hgroup] at h
    obtain ⟨⟨sfx, r', h'⟩, hsuffixes, he⟩ := except_map_ok h
    cases he
    refine ⟨sfx.flatMap Suffix.asked, Nat.le_trans h' hr', ?_⟩
    rw [declarator_plain anonymous hp' hgroup, hsuffixes]
    rfl
  | some inner =>
    have hinner := (groupedTokens_suffix hgroup).length_le
    rcases hsplit : splitTokens inner with _ | ⟨inside, after⟩
    · rw [declarator_unbalanced anonymous hp hgroup hsplit] at h
      cases h
    · have hafter := (splitTokens_suffix hsplit).length_le
      rw [declarator_grouped anonymous hp hgroup hsplit (by omega)] at h
      obtain ⟨⟨sfx, r', h'⟩, hsuffixes, h⟩ := except_bind_ok h
      obtain ⟨⟨t', asked', r'', h''⟩, hinside, h⟩ := except_bind_ok h
      simp only at h
      split at h
      · next hend =>
        cases h
        refine ⟨sfx.flatMap Suffix.asked ++ asked', by omega, ?_⟩
        rw [declarator_grouped anonymous hp' hgroup hsplit (by omega)]
        simp only [hsuffixes, hinside, hend, bind, Except.bind, if_true, pure, Except.pure]
      · cases h

/-- A star with its qualifiers is read before everything behind it. -/
theorem ReadsAround.star {u t : RawType} {isConst : Bool} {behind : List Token}
    (hts : ∀ w, Token.word w ∉ ts.head?)
    (h : ReadsAround anonymous (made isConst (.pointer u)) ts t behind) :
    ReadsAround anonymous u (.star :: (constTokens isConst ++ ts)) t behind := by
  obtain ⟨hlen, hq⟩ := pointerQualifiers_constTokens (.pointer u) isConst hts
  rcases hp : pointers (made isConst (.pointer u)) ts with ⟨v, r, hr⟩
  have hlen' : r.length ≤ (Token.star :: (constTokens isConst ++ ts)).length :=
    Nat.le_trans hr (Nat.le_succ_of_le hlen)
  have hstar : pointers u (.star :: (constTokens isConst ++ ts)) = (v, ⟨r, hlen'⟩) := by
    rw [pointers]
    generalize pointerQualifiers u.pointer (constTokens isConst ++ ts) = q at hq
    subst hq
    simp only [hp]
  exact h.after_pointers hp hstar

theorem Stops.cases (h : Stops rest) :
    rest = [] ∨ (∃ r, rest = .closeParen :: r) ∨ ∃ r, rest = .comma :: r := by
  cases rest with
  | nil => exact .inl rfl
  | cons t r =>
    rcases h t rfl with rfl | rfl
    · exact .inr (.inl ⟨r, rfl⟩)
    · exact .inr (.inr ⟨r, rfl⟩)

variable (anonymous)

/-- Suffixes, and the type they make of the one that stands before them. -/
structure Suffixed (ts : List Token) (build : RawType → RawType) : Prop where
  head : ∀ t ∈ ts.head?, t = .openParen ∨ t = .openBracket
  plain : ∀ rest, Stops rest → groupedTokens (ts ++ rest) = none
  reads : ∀ rest, Stops rest → ∃ sfx h, suffixes anonymous (ts ++ rest) = .ok (sfx, ⟨rest, h⟩) ∧
    ∀ u, applySuffixes sfx u = build u

theorem suffixed_nil : Suffixed anonymous [] id := by
  refine ⟨nofun, ?_, ?_⟩
  · intro rest hrest
    rcases hrest.cases with rfl | ⟨r, rfl⟩ | ⟨r, rfl⟩ <;> rfl
  · intro rest hrest
    refine ⟨[], Nat.le_refl _, ?_, fun u => rfl⟩
    show suffixes anonymous rest = _
    rw [suffixes.eq_def]
    rcases hrest.cases with rfl | ⟨r, rfl⟩ | ⟨r, rfl⟩ <;> rfl

variable {anonymous} {build : RawType → RawType}

theorem arraySuffix_bounds (count : Option Nat) (rest : List Token) :
    ∃ h, arraySuffix (count.toList.map .number ++ .closeBracket :: rest) =
      .ok (count, ⟨rest, h⟩) := by
  cases count with
  | none => exact ⟨Nat.lt_succ_self _, rfl⟩
  | some n => exact ⟨Nat.lt_succ_of_lt (Nat.lt_succ_self _), rfl⟩

theorem Suffixed.array (h : Suffixed anonymous ts build) (count : Option Nat) :
    Suffixed anonymous (boundsTokens count ++ ts) fun u => .array (build u) count := by
  refine ⟨?_, fun rest _ => rfl, ?_⟩
  · intro t ht
    exact .inr (Option.some.inj ht).symm
  · intro rest hrest
    obtain ⟨sfx, hlen, hsuffixes, happly⟩ := h.reads rest hrest
    obtain ⟨hlen', hcount⟩ := arraySuffix_bounds count (ts ++ rest)
    have htokens : boundsTokens count ++ ts ++ rest =
        .openBracket :: (count.toList.map .number ++ .closeBracket :: (ts ++ rest)) := by
      simp [boundsTokens]
    rw [htokens]
    refine ⟨.array count :: sfx, ?_, ?_, ?_⟩
    · simp only [List.length_cons]
      omega
    · rw [suffixes]
      simp [hcount, hsuffixes, bind, Except.bind, pure, Except.pure]
    · intro u
      exact congrArg (RawType.array · count) (happly u)

variable (anonymous)

/-- What stands in parentheses behind a function. -/
structure Lists (ts : List Token) (args : List RawType) (variadic : Bool) : Prop where
  head : ∀ t ∈ ts.head?, t ≠ .star ∧ t ≠ .openParen
  reads : ∀ rest, ∃ asked h, parameters anonymous (ts ++ .closeParen :: rest) =
    .ok (⟨args, variadic, asked⟩, ⟨rest, h⟩)

variable {anonymous}

theorem Suffixed.function (h : Suffixed anonymous ts build) {inner : List Token}
    {args : List RawType} {variadic : Bool} (hp : Lists anonymous inner args variadic) :
    Suffixed anonymous (.openParen :: (inner ++ [.closeParen]) ++ ts)
      fun u => .function (build u) args variadic := by
  have htokens : ∀ rest, .openParen :: (inner ++ [.closeParen]) ++ ts ++ rest =
      .openParen :: (inner ++ .closeParen :: (ts ++ rest)) := fun rest => by simp
  refine ⟨?_, ?_, ?_⟩
  · intro t ht
    exact .inl (Option.some.inj ht).symm
  · intro rest _
    rw [htokens]
    cases inner with
    | nil => rfl
    | cons t inner =>
      obtain ⟨hstar, hopen⟩ := hp.head t rfl
      unfold groupedTokens
      split
      · next he => exact absurd (List.cons.inj (List.cons.inj he).2).1 hstar
      · next he => exact absurd (List.cons.inj (List.cons.inj he).2).1 hopen
      · rfl
  · intro rest hrest
    obtain ⟨sfx, hlen, hsuffixes, happly⟩ := h.reads rest hrest
    obtain ⟨asked, hlen', hparams⟩ := hp.reads (ts ++ rest)
    rw [htokens]
    refine ⟨.function ⟨args, variadic, asked⟩ :: sfx, ?_, ?_, ?_⟩
    · simp only [List.length_cons]
      omega
    · rw [suffixes]
      simp [hparams, hsuffixes, bind, Except.bind, pure, Except.pure, ok_mapError]
    · intro u
      exact congrArg (RawType.function · args variadic) (happly u)

theorem Suffixed.head_append (h : Suffixed anonymous ts build) (hrest : Stops rest) :
    ∀ t ∈ (ts ++ rest).head?,
      (t = .openParen ∨ t = .openBracket) ∨ t = .closeParen ∨ t = .comma := by
  cases ts with
  | nil => exact fun t ht => .inr (hrest t ht)
  | cons t ts => exact fun x hx => .inl (h.head x hx)

theorem Suffixed.noWord (h : Suffixed anonymous ts build) (hrest : Stops rest) :
    ∀ w, Token.word w ∉ (ts ++ rest).head? := by
  intro w hw
  have hhead := h.head_append hrest _ hw
  simp at hhead

theorem Suffixed.noStar (h : Suffixed anonymous ts build) (hrest : Stops rest) :
    Token.star ∉ (ts ++ rest).head? := by
  intro hstar
  have hhead := h.head_append hrest _ hstar
  simp at hhead

/-- Suffixes are read around the type that was read before them. -/
theorem Suffixed.declarator (h : Suffixed anonymous ts build) (u : RawType) (hrest : Stops rest) :
    ReadsAround anonymous u (ts ++ rest) (build u) rest := by
  obtain ⟨sfx, hlen, hsuffixes, happly⟩ := h.reads rest hrest
  have hp := pointers_end u (h.noStar hrest)
  refine ⟨sfx.flatMap Suffix.asked, hlen, ?_⟩
  rw [declarator_plain anonymous hp (h.plain rest hrest), hsuffixes, ← happly]
  rfl

/-- A group is read around what the suffixes behind it make of the type. -/
theorem Suffixed.group (h : Suffixed anonymous ts build) {inner : List Token}
    {around : RawType → RawType} (hinner : Balanced inner) (hstar : ∃ r, inner = .star :: r)
    (hreads : ∀ u rest, Stops rest →
      ReadsAround anonymous u (inner ++ rest) (around u) rest)
    (u : RawType) (hrest : Stops rest) :
    ReadsAround anonymous u (.openParen :: (inner ++ [.closeParen]) ++ (ts ++ rest))
      (around (build u)) rest := by
  have hgroup : groupedTokens (.openParen :: (inner ++ .closeParen :: (ts ++ rest))) =
      some (inner ++ .closeParen :: (ts ++ rest)) := by
    obtain ⟨r, rfl⟩ := hstar
    rfl
  obtain ⟨sfx, hlen, hsuffixes, happly⟩ := h.reads rest hrest
  obtain ⟨asked, hlen', hinside⟩ := hreads (build u) (.closeParen :: (ts ++ rest)) (by
    intro t ht
    exact .inl (Option.some.inj ht).symm)
  have htokens : .openParen :: (inner ++ [.closeParen]) ++ (ts ++ rest) =
      .openParen :: (inner ++ .closeParen :: (ts ++ rest)) := by simp
  have hp : pointers u (.openParen :: (inner ++ .closeParen :: (ts ++ rest))) =
      (u, ⟨.openParen :: (inner ++ .closeParen :: (ts ++ rest)), Nat.le_refl _⟩) :=
    pointers_end u nofun
  have hsplit := splitTokens_group hinner (ts ++ rest)
  rw [htokens]
  refine ⟨sfx.flatMap Suffix.asked ++ asked, ?_, ?_⟩
  · simp only [List.length_cons, List.length_append] at hlen ⊢
    omega
  · rw [declarator_grouped anonymous hp hgroup hsplit (by simp; omega), hsuffixes]
    simp only [hinside, happly, bind, Except.bind, pure, Except.pure, ok_mapError,
      List.length_cons, BEq.rfl, if_true]

variable (anonymous)

/-- Tokens next to a name, and the type they make of the one that is read outside of them. -/
structure Wraps (pointing : Bool) (ts : List Token) (around : RawType → RawType) : Prop where
  noWord : ∀ w, Token.word w ∉ ts.head?
  star : pointing = true → ∃ r, ts = .star :: r
  balanced : Balanced ts
  turns : ∀ u rest, Stops rest → ReadsAround anonymous u (ts ++ rest) (around u) rest
  suffixed : pointing = false → ∀ sfx build, Suffixed anonymous sfx build → ∀ u rest, Stops rest →
    ReadsAround anonymous u (ts ++ (sfx ++ rest)) (around (build u)) rest

theorem wraps_nil : Wraps anonymous false [] id where
  noWord := nofun
  star := nofun
  balanced := balanced_nil
  turns u _ hrest := (suffixed_nil anonymous).declarator u hrest
  suffixed _ _ _ h u _ hrest := h.declarator u hrest

variable {anonymous} {around level : RawType → RawType} {pointing : Bool}

theorem Wraps.noWord_append (h : Wraps anonymous pointing ts around) (hrest : Stops rest) :
    ∀ w, Token.word w ∉ (ts ++ rest).head? := by
  cases ts with
  | nil => exact (suffixed_nil anonymous).noWord hrest
  | cons t ts => exact h.noWord

theorem Wraps.pointer (h : Wraps anonymous pointing ts around) (isConst : Bool) :
    Wraps anonymous true (.star :: (QualType.constTokens isConst ++ ts))
      fun u => around (made isConst (.pointer u)) where
  noWord := nofun
  star _ := ⟨_, rfl⟩
  balanced := ((balanced_constTokens isConst).append h.balanced).cons nofun nofun
  turns u rest hrest := by
    have hturn := h.turns (made isConst (.pointer u)) rest hrest
    have hstar := hturn.star (h.noWord_append hrest)
    simpa using hstar
  suffixed := nofun

/-- Suffixes next to the tokens of a name, in parentheses where these start with a star. -/
theorem Wraps.suffixes (h : Wraps anonymous pointing ts around) {sfx : List Token}
    (hbalanced : Balanced sfx) (hsfx : ∀ more build, Suffixed anonymous more build →
      Suffixed anonymous (sfx ++ more) fun u => level (build u)) :
    Wraps anonymous false (enclosed pointing ts ++ sfx) fun u => around (level u) := by
  have hs : ∀ more build, Suffixed anonymous more build → ∀ u rest, Stops rest →
      ReadsAround anonymous u (enclosed pointing ts ++ sfx ++ (more ++ rest))
        (around (level (build u))) rest := by
    intro more build hmore u rest hrest
    have hall := hsfx more build hmore
    cases pointing with
    | true =>
      have hgroup := hall.group h.balanced (h.star rfl) h.turns u hrest
      simpa [enclosed] using hgroup
    | false =>
      have hplain := h.suffixed rfl (sfx ++ more) _ hall u rest hrest
      simpa [enclosed] using hplain
  refine ⟨?_, nofun, (h.balanced.enclosed pointing).append hbalanced, ?_, fun _ => hs⟩
  · intro w hw
    have hnil := hsfx [] id (suffixed_nil anonymous)
    rw [List.append_nil] at hnil
    cases pointing with
    | true => cases hw
    | false =>
      cases ts with
      | nil =>
        have hhead := hnil.head _ hw
        simp at hhead
      | cons t ts => exact h.noWord w hw
  · intro u rest hrest
    exact hs [] id (suffixed_nil anonymous) u rest hrest

theorem Names.readsWrapped {base : RawType} (hn : Names anonymous ts base) {inner : List Token}
    (h : Wraps anonymous pointing inner around) (hrest : Stops rest) :
    ReadsType anonymous (ts ++ (inner ++ rest)) (around base) rest :=
  hn.readsType (h.noWord_append hrest) (h.turns base rest hrest)

end

end QualType

end Bindery
