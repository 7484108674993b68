import Bindery.Proofs.QualType.Form
import Bindery.Proofs.Result

/-! The tokens that specifiers are read of, one by one, and the type that they name in the end. -/

namespace Bindery

namespace QualType

variable {anonymous : String → Option String} {s s' : Specifiers} {ts rest r : List Token}
  {tag : String} {x : Token} {t b : RawType}

theorem taggedType_eq (h : taggedType anonymous tag x = .ok t) :
    ∃ name, t = (if tag == "enum" then .enum name else .tagged name (tag == "union")) ∧
      (x = .word name ∨ ∃ key, x = .anonymous key ∧ anonymous key = some name) := by
  cases x with
  | word name =>
    cases h
    exact ⟨name, rfl, .inl rfl⟩
  | anonymous key =>
    cases hkey : anonymous key with
    | none => simp [taggedType, hkey] at h
    | some name =>
      simp only [taggedType, hkey, Except.ok.injEq] at h
      exact ⟨name, h.symm, .inr ⟨key, rfl, hkey⟩⟩
  | _ => cases h

/-- The specifiers `s` become `s'` by the tokens `ts`, of which `r` is left. -/
inductive Specified (anonymous : String → Option String) :
    Specifiers → List Token → Specifiers → List Token → Prop
  | const {s s' : Specifiers} {ts r : List Token}
      (rest : Specified anonymous { s with isConst := true } ts s' r) :
      Specified anonymous s (.word "const" :: ts) s' r
  | ignored {s s' : Specifiers} {ts r : List Token} {w : String} (hw : w ∈ ignoredQualifiers)
      (rest : Specified anonymous s ts s' r) : Specified anonymous s (.word w :: ts) s' r
  | tagged {s s' : Specifiers} {ts r : List Token} {w : String} {x : Token} {b : RawType}
      (hw : isTag w) (hbase : s.base = none) (hwords : s.words = [])
      (hx : taggedType anonymous w x = .ok b)
      (rest : Specified anonymous { s with base := some b } ts s' r) :
      Specified anonymous s (.word w :: x :: ts) s' r
  | builtin {s s' : Specifiers} {ts r : List Token} {w : String} (hw : w ∈ builtinWords)
      (hbase : s.base = none)
      (rest : Specified anonymous { s with words := s.words ++ [w] } ts s' r) :
      Specified anonymous s (.word w :: ts) s' r
  | named {s s' : Specifiers} {ts r : List Token} {w : String}
      (hw : isIdentifier w → PlainName w) (hbase : s.base = none) (hwords : s.words = [])
      (rest : Specified anonymous
        { s with base := some (.ofKind (.unexposed w) w), asked := [w] } ts s' r) :
      Specified anonymous s (.word w :: ts) s' r
  | done {s : Specifiers} {ts : List Token} : Specified anonymous s ts s ts

theorem specified_of_ok {r : {r : List Token // r.length ≤ ts.length}}
    (h : specifiers anonymous s ts = .ok (s', r)) : Specified anonymous s ts s' r.1 := by
  fun_induction specifiers anonymous s ts with
  | case1 s w rest hconst ih =>
    obtain ⟨⟨s₁, r₁⟩, hread, he⟩ := except_bind_ok h
    cases he
    obtain rfl : w = "const" := beq_iff_eq.mp hconst
    exact .const (ih hread)
  | case2 s w rest _ hignored ih =>
    obtain ⟨⟨s₁, r₁⟩, hread, he⟩ := except_bind_ok h
    cases he
    exact .ignored (List.contains_iff_mem.mp hignored) (ih hread)
  | case3 => cases h
  | case4 s w _ _ htag x rest ih =>
    obtain ⟨b, hx, h⟩ := except_bind_ok h
    obtain ⟨⟨s₁, r₁⟩, hread, he⟩ := except_bind_ok h
    cases he
    simp only [Bool.and_eq_true, Option.isNone_iff_eq_none, List.isEmpty_iff] at htag
    exact .tagged htag.1.1 htag.1.2 htag.2 hx (ih b hread)
  | case5 s w rest _ _ _ hbuiltin ih =>
    obtain ⟨⟨s₁, r₁⟩, hread, he⟩ := except_bind_ok h
    cases he
    simp only [Bool.and_eq_true, Option.isNone_iff_eq_none, List.contains_iff_mem] at hbuiltin
    exact .builtin hbuiltin.1 hbuiltin.2 (ih hread)
  | case6 s w rest hconst hignored htag hbuiltin hfirst base =>
    rename_i ih
    obtain ⟨⟨s₁, r₁⟩, hread, he⟩ := except_bind_ok h
    cases he
    simp only [Bool.and_eq_true, Option.isNone_iff_eq_none, List.isEmpty_iff] at hfirst
    refine .named (fun hw => ⟨hw, ?_, ?_, ?_, ?_⟩) hfirst.1 hfirst.2 (ih hread)
    · simpa using hconst
    · simpa using hignored
    · simpa [hfirst] using htag
    · simpa [hfirst] using hbuiltin
  | case7 =>
    cases h
    exact .done
  | case8 =>
    cases h
    exact .done

theorem Specifiers.type_some (hb : s.base = some b) : s.type rest = .ok (made s.isConst b) := by
  simp [Specifiers.type, hb, bind, Except.bind, pure, Except.pure, made]

theorem Specifiers.type_none (h : s.type rest = .ok t) (hb : s.base = none) :
    ∃ p, s.words ≠ [] ∧ primitiveOf s.words = .ok p ∧
      t = made s.isConst (.ofKind (.builtin p) (" ".intercalate s.words)) := by
  simp only [Specifiers.type, hb] at h
  split at h
  · cases h
  · next hne =>
    split at h
    · next p hp => exact ⟨p, by simpa using hne, hp, (Except.ok.inj h).symm⟩
    · cases h

end QualType

end Bindery
