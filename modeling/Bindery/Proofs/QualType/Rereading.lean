import Bindery.Proofs.QualType.Wrapping

/-! The tokens of a form are read as its type. -/

namespace Bindery

namespace QualType

section

variable (anonymous : String → Option String)

/-- Tokens begin with a list of parameters and the parenthesis that closes it. -/
def ReadsList (ts : List Token) (args : List RawType) (variadic : Bool) (rest : List Token) : Prop :=
  ∃ asked h, parameterList anonymous ts = .ok (⟨args, variadic, asked⟩, ⟨rest, h⟩)

/-- Tokens that are one parameter. They start with a word, as every base does. -/
structure ReadsParameter (ts : List Token) (t : RawType) : Prop where
  word : ∃ w r, ts = .word w :: r
  reads : ∀ rest, Stops rest → ReadsType anonymous (ts ++ rest) t rest

theorem readsList_ellipsis (rest : List Token) :
    ReadsList anonymous (.ellipsis :: .closeParen :: rest) [] true rest := by
  refine ⟨[], by simp only [List.length_cons]; omega, ?_⟩
  rw [parameterList]
  rfl

variable {anonymous} {part ts rest : List Token} {args : List RawType} {t : RawType}
  {variadic : Bool}

theorem ReadsParameter.no_ellipsis (h : ReadsParameter anonymous part t) :
    ((part ++ ts).head? == some .ellipsis) = false := by
  obtain ⟨w, r, rfl⟩ := h.word
  rfl

theorem ReadsParameter.last (h : ReadsParameter anonymous part t) (rest : List Token) :
    ReadsList anonymous (part ++ .closeParen :: rest) [t] false rest := by
  have hstops : Stops (.closeParen :: rest) := fun x hx => .inl (Option.some.inj hx).symm
  obtain ⟨asked, hlen, hread⟩ := h.reads (.closeParen :: rest) hstops
  refine ⟨asked, hlen, ?_⟩
  rw [parameterList]
  simp only [h.no_ellipsis, hread, Except.map, bind, Except.bind, pure, Except.pure,
    Bool.false_eq_true, if_false]

theorem ReadsParameter.cons (h : ReadsParameter anonymous part t)
    (hrest : ReadsList anonymous ts args variadic rest) :
    ReadsList anonymous (part ++ .comma :: ts) (t :: args) variadic rest := by
  have hstops : Stops (.comma :: ts) := fun x hx => .inr (Option.some.inj hx).symm
  obtain ⟨asked, hlen, hread⟩ := h.reads (.comma :: ts) hstops
  obtain ⟨asked', hlen', hothers⟩ := hrest
  refine ⟨asked ++ asked', Nat.lt_of_lt_of_le hlen' (Nat.le_of_succ_le hlen), ?_⟩
  rw [parameterList]
  simp only [h.no_ellipsis, hread, hothers, Except.map, ok_mapError, bind, Except.bind, pure,
    Except.pure, Bool.false_eq_true, if_false, Parameters.append, List.singleton_append,
    Bool.false_or]

theorem readsList_commaJoined {parts : List (List Token)}
    (h : List.Forall₂ (ReadsParameter anonymous) parts args) (variadic : Bool)
    (hne : args ≠ [] ∨ variadic = true) (rest : List Token) :
    ReadsList anonymous
      (commaJoined (parts ++ if variadic then [[.ellipsis]] else []) ++ .closeParen :: rest)
      args variadic rest := by
  induction h with
  | nil =>
    obtain rfl := hne.resolve_left (not_not_intro rfl)
    exact readsList_ellipsis anonymous rest
  | @cons part t parts args hpart hparts ih =>
    cases hmore : parts ++ (if variadic then [[.ellipsis]] else []) with
    | nil => 
      obtain ⟨rfl, hv⟩ := List.append_eq_nil_iff.mp hmore
      cases hparts
      cases variadic with
      | true => cases hv
      | false => exact hpart.last rest
    | cons us more =>
      have hlist := ih ?_
      · rw [hmore] at hlist
        rw [List.cons_append, hmore, commaJoined, List.append_assoc]
        exact hpart.cons hlist
      · cases variadic with
        | true => exact .inr rfl
        | false =>
          cases hparts with
          | nil => cases hmore
          | cons => exact .inl (List.cons_ne_nil _ _)

/-- The first token of a list of parameters is the first of a type or the ellipsis. -/
theorem commaJoined_head {parts : List (List Token)}
    (h : List.Forall₂ (ReadsParameter anonymous) parts args) (variadic : Bool)
    (hne : args ≠ [] ∨ variadic = true) :
    ∃ t r, commaJoined (parts ++ if variadic then [[.ellipsis]] else []) = t :: r ∧
      ((∃ w, t = .word w) ∨ t = .ellipsis) := by
  cases h with
  | nil =>
    obtain rfl := hne.resolve_left (not_not_intro rfl)
    exact ⟨.ellipsis, [], rfl, .inr rfl⟩
  | @cons part _ parts _ hpart _ =>
    obtain ⟨w, r, rfl⟩ := hpart.word
    rw [List.cons_append]
    cases parts ++ (if variadic then [[.ellipsis]] else []) with
    | nil => exact ⟨.word w, r, rfl, .inl ⟨w, rfl⟩⟩
    | cons us more => exact ⟨.word w, _, rfl, .inl ⟨w, rfl⟩⟩

theorem ReadsList.parameters (h : ReadsList anonymous ts args variadic rest)
    (hclose : Token.closeParen ∉ ts.head?) : ∃ asked hlen,
      parameters anonymous ts = .ok (⟨dropVoid args, variadic, asked⟩, ⟨rest, hlen⟩) := by
  obtain ⟨asked, hlen, hlist⟩ := h
  refine ⟨asked, hlen, ?_⟩
  rw [QualType.parameters.eq_def]
  split
  · exact absurd rfl hclose
  · simp only [hlist, bind, Except.bind, pure, Except.pure]

theorem lists_commaJoined {parts : List (List Token)}
    (h : List.Forall₂ (ReadsParameter anonymous) parts args) (variadic : Bool)
    (hvoid : dropVoid args = args) :
    Lists anonymous (commaJoined (parts ++ if variadic then [[.ellipsis]] else [])) args variadic := by
  by_cases hne : args ≠ [] ∨ variadic = true
  · obtain ⟨t, r, he, ht⟩ := commaJoined_head h variadic hne
    have hlist := readsList_commaJoined h variadic hne
    rw [he] at hlist ⊢
    refine ⟨?_, fun rest => ?_⟩
    · intro x hx
      obtain rfl := Option.some.inj hx
      rcases ht with ⟨w, rfl⟩ | rfl <;> exact ⟨nofun, nofun⟩
    · have hclose : Token.closeParen ∉ (t :: r ++ .closeParen :: rest).head? := by
        rcases ht with ⟨w, rfl⟩ | rfl <;> exact nofun
      have hparameters := (hlist rest).parameters hclose
      rwa [hvoid] at hparameters
  · obtain ⟨hargs, hv⟩ := not_or.mp hne
    obtain rfl := not_not.mp hargs
    obtain rfl := (Bool.not_eq_true _).mp hv
    cases h
    refine ⟨nofun, fun rest => ⟨[], Nat.lt_succ_self _, ?_⟩⟩
    exact parameters.eq_1 anonymous rest

namespace Form

theorem sides_word (f : Form) (hf : f.Valid) (pointing : Bool) :
    ∃ w r, (f.sides pointing).1 = .word w :: r := by
  cases f with
  | words ws p isConst =>
    cases isConst with
    | true => exact ⟨"const", _, rfl⟩
    | false =>
      cases ws with
      | nil => exact absurd rfl hf.1
      | cons w ws => exact ⟨w, _, rfl⟩
  | tagged tag isUnion isConst => exact ⟨recordKeyword isUnion, _, rfl⟩
  | enum name isConst => cases isConst <;> exact ⟨_, _, rfl⟩
  | named name isConst => exact ⟨name, _, rfl⟩
  | pointer pointee isConst =>
    obtain ⟨w, r, he⟩ := sides_word pointee hf true
    exact ⟨w, r ++ .star :: constTokens isConst, by rw [sides, he]; rfl⟩
  | array element count =>
    obtain ⟨w, r, he⟩ := sides_word element hf.1 false
    exact ⟨w, r ++ if pointing then [.openParen] else [], by rw [sides, he]; rfl⟩
  | function result args variadic =>
    obtain ⟨w, r, he⟩ := sides_word result hf.1 false
    exact ⟨w, r ++ if pointing then [.openParen] else [], by rw [sides, he]; rfl⟩

mutual

/-- A form is read around the tokens next to a name: outside in, while `around` grows inside out. -/
theorem readsType_sides (f : Form) (hf : f.Valid) {pointing : Bool} {inner : List Token}
    {around : RawType → RawType} (h : Wraps anonymous pointing inner around)
    (rest : List Token) (hrest : Stops rest) :
    ReadsType anonymous ((f.sides pointing).1 ++ (inner ++ ((f.sides pointing).2 ++ rest)))
      (around f.raw) rest := by
  -- each level hands its own tokens over to `inner`, until only the base is left
  cases f with
  | words ws p isConst =>
    exact (names_words anonymous isConst hf.1 hf.2.1 hf.2.2).readsWrapped h hrest
  | tagged tag isUnion isConst =>
    exact (names_tagged anonymous tag isUnion isConst).readsWrapped h hrest
  | enum name isConst => exact (names_enum anonymous name isConst).readsWrapped h hrest
  | named name isConst => exact (names_named anonymous hf isConst).readsWrapped h hrest
  | pointer pointee isConst =>
    have hpointee := readsType_sides pointee hf (h.pointer isConst) rest hrest
    simpa [sides, raw] using hpointee
  | array element count =>
    have hinner : Wraps anonymous false (enclosed pointing inner ++ boundsTokens count)
        fun u => around (.array u count) :=
      h.suffixes (balanced_boundsTokens count) fun _ _ hmore => hmore.array count
    have helement := readsType_sides element hf.1 hinner rest hrest
    cases pointing <;> simpa [sides, raw, enclosed] using helement
  | function result args variadic =>
    have hlists := lists_commaJoined (readsParameters args hf.2.1) variadic hf.2.2
    have hinner : Wraps anonymous false
        (enclosed pointing inner ++ parameterTokens (argTokens args) variadic)
        fun u => around (.function u (rawList args) variadic) :=
      h.suffixes (balanced_parameterTokens (balanced_argTokens args) variadic)
        fun _ _ hmore => hmore.function hlists
    have hresult := readsType_sides result hf.1 hinner rest hrest
    cases pointing <;> simpa [sides, raw, enclosed] using hresult

theorem readsParameters (fs : List Form) (hfs : ValidList fs) :
    List.Forall₂ (ReadsParameter anonymous) (argTokens fs) (rawList fs) := by
  cases fs with
  | nil => exact .nil
  | cons f fs =>
    refine .cons ⟨?_, fun rest hrest => ?_⟩ (readsParameters fs hfs.2)
    · obtain ⟨w, r, he⟩ := sides_word f hfs.1 false
      exact ⟨w, r ++ (f.sides false).2, by rw [he]; rfl⟩
    · have hf := readsType_sides f hfs.1 (wraps_nil anonymous) rest hrest
      simpa using hf

end

theorem readsType_tokens (f : Form) (hf : f.Valid) : ReadsType anonymous f.tokens f.raw [] := by
  have h := readsType_sides f hf (wraps_nil anonymous) [] nofun
  simpa [tokens] using h

end Form

end

end QualType

end Bindery
