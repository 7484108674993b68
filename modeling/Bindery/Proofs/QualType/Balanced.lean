import Bindery.Proofs.QualType.Form

/-! Parentheses in the tokens of a form. The search for the end of a group passes closed ones. -/

namespace Bindery

namespace QualType

/-- Tokens whose parentheses are closed among them. -/
def Balanced (ts : List Token) : Prop :=
  ∀ depth rest, splitGroup (· == Token.openParen) (· == Token.closeParen) depth (ts ++ rest) =
    (splitGroup (· == Token.openParen) (· == Token.closeParen) depth rest).map
      fun p => (ts ++ p.1, p.2)

theorem balanced_nil : Balanced [] := by
  intro depth rest
  simp

theorem Balanced.cons {t : Token} {ts : List Token} (h : Balanced ts) (ho : t ≠ .openParen)
    (hc : t ≠ .closeParen) : Balanced (t :: ts) := by
  intro depth rest
  have hopen : (t == Token.openParen) = false := beq_eq_false_iff_ne.mpr ho
  have hclose : (t == Token.closeParen) = false := beq_eq_false_iff_ne.mpr hc
  simp [splitGroup, hopen, hclose, h depth rest, Option.map_map, Function.comp_def]

theorem Balanced.append {ts us : List Token} (ht : Balanced ts) (hu : Balanced us) :
    Balanced (ts ++ us) := by
  intro depth rest
  rw [List.append_assoc, ht, hu, Option.map_map]
  simp [Function.comp_def]

theorem Balanced.group {ts : List Token} (h : Balanced ts) :
    Balanced (.openParen :: (ts ++ [.closeParen])) := by
  intro depth rest
  have hclose : splitGroup (· == Token.openParen) (· == Token.closeParen) (depth + 1)
      (.closeParen :: rest) =
        (splitGroup (· == Token.openParen) (· == Token.closeParen) depth rest).map
          fun p => (.closeParen :: p.1, p.2) := by
    simp [splitGroup]
  have hopen : (Token.openParen == Token.closeParen) = false := rfl
  rw [List.cons_append, List.append_assoc, List.singleton_append, splitGroup]
  simp [hopen, h (depth + 1), hclose, Option.map_map, Function.comp_def]

theorem splitTokens_group {ts : List Token} (h : Balanced ts) (rest : List Token) :
    splitTokens (ts ++ .closeParen :: rest) = some (ts, rest) := by
  rw [splitTokens, h, splitGroup]
  simp

theorem balanced_words (ws : List String) : Balanced (ws.map .word) := by
  induction ws with
  | nil => exact balanced_nil
  | cons w ws ih => exact ih.cons nofun nofun

theorem balanced_constTokens (isConst : Bool) : Balanced (constTokens isConst) := by
  cases isConst with
  | false => exact balanced_nil
  | true => exact balanced_words ["const"]

theorem balanced_commaJoined {parts : List (List Token)} (h : ∀ ts ∈ parts, Balanced ts) :
    Balanced (commaJoined parts) := by
  induction parts with
  | nil => exact balanced_nil
  | cons ts parts ih =>
    obtain ⟨hts, hparts⟩ := List.forall_mem_cons.mp h
    cases parts with
    | nil => exact hts
    | cons us parts => exact hts.append ((ih hparts).cons nofun nofun)

/-- Parentheses around the tokens next to a name, where they start with a star. -/
def enclosed (pointing : Bool) (ts : List Token) : List Token :=
  if pointing then .openParen :: (ts ++ [.closeParen]) else ts

theorem Balanced.enclosed {ts : List Token} (h : Balanced ts) (pointing : Bool) :
    Balanced (enclosed pointing ts) := by
  cases pointing with
  | true => exact h.group
  | false => exact h

theorem balanced_boundsTokens (count : Option Nat) : Balanced (boundsTokens count) := by
  have hclose : Balanced [.closeBracket] := balanced_nil.cons nofun nofun
  cases count with
  | none => exact hclose.cons (by decide) (by decide)
  | some n =>
    have hcount := hclose.cons (t := .number n) nofun nofun
    exact hcount.cons (by decide) (by decide)

theorem balanced_parameterTokens {parts : List (List Token)} (h : ∀ ts ∈ parts, Balanced ts)
    (variadic : Bool) : Balanced (parameterTokens parts variadic) := by
  refine (balanced_commaJoined fun ts hts => ?_).group
  cases variadic with
  | false => exact h ts (by simpa using hts)
  | true =>
    rcases List.mem_append.mp hts with hmem | hmem
    · exact h ts hmem
    · obtain rfl := List.mem_singleton.mp hmem
      exact balanced_nil.cons (by decide) (by decide)

namespace Form

mutual

theorem balanced (pointing : Bool) (f : Form) {ts : List Token} (h : Balanced ts) :
    Balanced ((f.sides pointing).1 ++ (ts ++ (f.sides pointing).2)) := by
  cases f with
  | words ws p isConst =>
    exact ((balanced_constTokens isConst).append (balanced_words ws)).append (h.append balanced_nil)
  | tagged tag isUnion isConst =>
    have hkeyword := balanced_words [recordKeyword isUnion, tag]
    exact (hkeyword.append (balanced_constTokens isConst)).append (h.append balanced_nil)
  | enum name isConst =>
    have hkeyword := balanced_words ["enum", name]
    exact ((balanced_constTokens isConst).append hkeyword).append (h.append balanced_nil)
  | named name isConst =>
    have hname := balanced_words [name]
    exact (hname.append (balanced_constTokens isConst)).append (h.append balanced_nil)
  | pointer pointee isConst =>
    have hstar : Balanced (.star :: (constTokens isConst ++ ts)) :=
      ((balanced_constTokens isConst).append h).cons (by decide) (by decide)
    simpa [sides] using balanced true pointee hstar
  | array element count =>
    have hts := (h.enclosed pointing).append (balanced_boundsTokens count)
    have helement := balanced false element hts
    cases pointing <;> simpa [sides, enclosed] using helement
  | function result args variadic =>
    have hts := (h.enclosed pointing).append
      (balanced_parameterTokens (balanced_argTokens args) variadic)
    have hresult := balanced false result hts
    cases pointing <;> simpa [sides, enclosed] using hresult

theorem balanced_argTokens (fs : List Form) : ∀ ts ∈ argTokens fs, Balanced ts := by
  cases fs with
  | nil => exact nofun
  | cons f fs =>
    refine List.forall_mem_cons.mpr ⟨?_, balanced_argTokens fs⟩
    exact balanced false f balanced_nil

end

end Form

end QualType

end Bindery
