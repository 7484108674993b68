import Bindery.Proofs.QualType.Form
import Bindery.Proofs.Result

/-! The base of a type: specifiers up to the first token that is none of them. -/

namespace Bindery

namespace QualType

section

variable (anonymous : String → Option String)

/-- Tokens begin with a type; `rest` is what follows it. -/
def ReadsType (ts : List Token) (t : RawType) (rest : List Token) : Prop :=
  ∃ asked h, typeName anonymous ts = .ok (t, asked, ⟨rest, h⟩)

/-- Tokens begin with a declarator that makes the type `t` of `u`. -/
def ReadsAround (u : RawType) (ts : List Token) (t : RawType) (rest : List Token) : Prop :=
  ∃ asked h, declarator anonymous u ts = .ok (t, asked, ⟨rest, h⟩)

def Specifies (s : Specifiers) (ts : List Token) (s' : Specifiers) (rest : List Token) : Prop :=
  ∃ h, specifiers anonymous s ts = .ok (s', ⟨rest, h⟩)

variable {anonymous} {s s' : Specifiers} {ts rest : List Token}

theorem specifies_end (h : ∀ w, Token.word w ∉ ts.head?) : Specifies anonymous s ts s ts := by
  refine ⟨Nat.le_refl _, ?_⟩
  unfold specifiers
  split
  · exact absurd rfl (h _)
  · rfl

theorem Specifies.const (h : Specifies anonymous { s with isConst := true } ts s' rest) :
    Specifies anonymous s (.word "const" :: ts) s' rest := by
  obtain ⟨hlen, he⟩ := h
  refine ⟨Nat.le_succ_of_le hlen, ?_⟩
  unfold specifiers
  simp [he, bind, Except.bind]

theorem Specifies.constTokens {isConst : Bool}
    (h : Specifies anonymous { s with isConst := s.isConst || isConst } ts s' rest) :
    Specifies anonymous s (constTokens isConst ++ ts) s' rest := by
  cases isConst with
  | false => simpa [QualType.constTokens] using h
  | true =>
    rw [Bool.or_true] at h
    exact h.const

theorem builtinWords_plain {w : String} (h : w ∈ builtinWords) :
    w ≠ "const" ∧ w ∉ ignoredQualifiers ∧ isTag w = false := by
  have hall : ∀ w ∈ builtinWords, w ≠ "const" ∧ w ∉ ignoredQualifiers ∧ isTag w = false := by
    decide
  exact hall w h

theorem Specifies.word {w : String} (hw : w ∈ builtinWords) (hbase : s.base = none)
    (h : Specifies anonymous { s with words := s.words ++ [w] } ts s' rest) :
    Specifies anonymous s (.word w :: ts) s' rest := by
  obtain ⟨hlen, he⟩ := h
  obtain ⟨isConst, words, base, asked⟩ := s
  subst hbase
  obtain ⟨hconst, hignored, htag⟩ := builtinWords_plain hw
  refine ⟨Nat.le_succ_of_le hlen, ?_⟩
  unfold specifiers
  simp [hconst, hignored, htag, hw, he, bind, Except.bind]

theorem Specifies.words {ws : List String} (hws : ∀ w ∈ ws, w ∈ builtinWords)
    (hbase : s.base = none)
    (h : Specifies anonymous { s with words := s.words ++ ws } ts s' rest) :
    Specifies anonymous s (ws.map .word ++ ts) s' rest := by
  induction ws generalizing s with
  | nil => simpa using h
  | cons w ws ih =>
    obtain ⟨hw, hrest⟩ := List.forall_mem_cons.mp hws
    refine Specifies.word hw hbase (ih hrest hbase ?_)
    simpa using h

theorem Specifies.tagged {keyword : String} {t : Token} {b : RawType} (hk : isTag keyword = true)
    (hb : taggedType anonymous keyword t = .ok b) (hbase : s.base = none) (hwords : s.words = [])
    (h : Specifies anonymous { s with base := some b } ts s' rest) :
    Specifies anonymous s (.word keyword :: t :: ts) s' rest := by
  obtain ⟨hlen, he⟩ := h
  obtain ⟨isConst, words, base, asked⟩ := s
  subst hbase hwords
  have hplain : keyword ≠ "const" ∧ keyword ∉ ignoredQualifiers := by
    simp only [isTag, Bool.or_eq_true, beq_iff_eq] at hk
    rcases hk with (rfl | rfl) | rfl <;> decide
  refine ⟨Nat.le_succ_of_le (Nat.le_succ_of_le hlen), ?_⟩
  unfold specifiers
  simp [hplain, hk, hb, he, bind, Except.bind]

theorem Specifies.named {name : String} (hname : PlainName name) (hbase : s.base = none)
    (hwords : s.words = [])
    (h : Specifies anonymous
      { s with base := some (.ofKind (.unexposed name) name), asked := [name] } ts s' rest) :
    Specifies anonymous s (.word name :: ts) s' rest := by
  obtain ⟨hlen, he⟩ := h
  obtain ⟨isConst, words, base, asked⟩ := s
  subst hbase hwords
  refine ⟨Nat.le_succ_of_le hlen, ?_⟩
  unfold specifiers
  simp [hname.notConst, hname.notIgnored, hname.notTag, hname.notBuiltin, he, bind, Except.bind]

variable (anonymous)

/-- Tokens that are read as the base of a type. -/
def Names (ts : List Token) (t : RawType) : Prop :=
  ∀ rest, (∀ w, Token.word w ∉ rest.head?) →
    ∃ s, Specifies anonymous {} (ts ++ rest) s rest ∧ s.type rest = .ok t

theorem names_words {ws : List String} {p : Primitive} (isConst : Bool) (hne : ws ≠ [])
    (hws : ∀ w ∈ ws, w ∈ builtinWords) (hp : primitiveOf ws = .ok p) :
    Names anonymous (constTokens isConst ++ ws.map .word) (Form.words ws p isConst).raw := by
  intro rest hrest
  refine ⟨{ isConst, words := ws }, ?_, ?_⟩
  · rw [List.append_assoc]
    refine Specifies.constTokens (Specifies.words hws rfl ?_)
    simpa using specifies_end hrest
  · simp [Specifiers.type, hne, hp, bind, Except.bind, pure, Except.pure, Form.raw, made]

theorem names_tagged (tag : String) (isUnion isConst : Bool) :
    Names anonymous ([.word (recordKeyword isUnion), .word tag] ++ constTokens isConst)
      (Form.tagged tag isUnion isConst).raw := by
  intro rest hrest
  refine ⟨{ isConst, base := some (.tagged tag isUnion) }, ?_, rfl⟩
  have htag : taggedType anonymous (recordKeyword isUnion) (.word tag) = .ok (.tagged tag isUnion) := by
    cases isUnion <;> rfl
  have hkeyword : isTag (recordKeyword isUnion) = true := by
    cases isUnion <;> rfl
  refine Specifies.tagged hkeyword htag rfl rfl (Specifies.constTokens ?_)
  simpa using specifies_end hrest

theorem names_enum (name : String) (isConst : Bool) :
    Names anonymous (constTokens isConst ++ [.word "enum", .word name])
      (Form.enum name isConst).raw := by
  intro rest hrest
  refine ⟨{ isConst, base := some (.enum name) }, ?_, rfl⟩
  rw [List.append_assoc]
  refine Specifies.constTokens (Specifies.tagged rfl rfl rfl rfl ?_)
  simpa using specifies_end hrest

theorem names_named {name : String} (hname : PlainName name) (isConst : Bool) :
    Names anonymous (.word name :: constTokens isConst) (Form.named name isConst).raw := by
  intro rest hrest
  refine ⟨{ isConst, base := some (.ofKind (.unexposed name) name), asked := [name] }, ?_, rfl⟩
  refine Specifies.named hname rfl rfl (Specifies.constTokens ?_)
  simpa using specifies_end hrest

variable {anonymous}

theorem Names.readsType {base t : RawType} {behind : List Token} (h : Names anonymous ts base)
    (hrest : ∀ w, Token.word w ∉ rest.head?)
    (hd : ReadsAround anonymous base rest t behind) :
    ReadsType anonymous (ts ++ rest) t behind := by
  obtain ⟨s, ⟨hlen, he⟩, hbase⟩ := h rest hrest
  obtain ⟨asked, hlen', hd⟩ := hd
  refine ⟨s.asked ++ asked, Nat.le_trans hlen' hlen, ?_⟩
  rw [typeName]
  simp [he, hbase, hd, bind, Except.bind, ok_mapError, pure, Except.pure]

end

end QualType

end Bindery
