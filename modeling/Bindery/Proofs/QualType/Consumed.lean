import Bindery.Proofs.QualType.Crossing
import Bindery.Proofs.QualType.Reading
import Bindery.Proofs.QualType.Steps

/-! What reading by positions gives: the same as reading a list, with each token taken once. -/

namespace Bindery

namespace QualType

open Progress (Crosses Unclosed)

variable {α β γ : Type} {tokens ts rest inner : List Token} {t : Token} {production : Production}
  {o p q : Progress} {done : Progress → Prop} {steps : Nat}

/-- What is given beside `x`, where `f` tells its result and the tokens that it leaves. -/
inductive Agrees (tokens : List Token) (done : Progress → Prop) (f : β → α × List Token) :
    Except Refusal β → Reading (α × Progress) → Prop where
  | refused (r : Refusal) : Agrees tokens done f (.error r) (throw r.error)
  | read {b : β} {q : Progress} (hq : q.Faces tokens (f b).2) (hdone : done q) :
      Agrees tokens done f (.ok b) (pure ((f b).1, q))

namespace Agrees

variable {f : β → α × List Token} {x : Except Refusal β} {y : Reading (α × Progress)}

/-- Nothing is refused that the other reader gives. -/
theorem given {b : β} (h : Agrees tokens done f (.ok b) y) :
    ∃ q, y = pure ((f b).1, q) ∧ q.Faces tokens (f b).2 ∧ done q := by
  cases h with
  | read hq hd => exact ⟨_, rfl, hq, hd⟩

theorem ends (h : Agrees tokens done f x y) : y.run.run ≠ none := by
  cases h <;> exact Option.some_ne_none _

theorem mono {done' : Progress → Prop} (h : Agrees tokens done f x y) (hdone : ∀ q, done q → done' q) :
    Agrees tokens done' f x y := by
  cases h with
  | refused r => exact .refused r
  | read hq hd => exact .read hq (hdone _ hd)

theorem after (h : Agrees tokens done f x y) (names : List String) :
    Agrees tokens done f (x.mapError (·.after names)) y := by
  cases h with
  | refused r => exact .refused (r.after names)
  | read hq hd => exact .read hq hd

theorem bind {α' : Type} {done' : Progress → Prop} {g : γ → α' × List Token}
    {k : β → Except Refusal γ} {l : α × Progress → Reading (α' × Progress)} (h : Agrees tokens done f x y)
    (hk : ∀ b q, q.Faces tokens (f b).2 → done q → Agrees tokens done' g (k b) (l ((f b).1, q))) :
    Agrees tokens done' g (x >>= k) (y >>= l) := by
  cases h with
  | refused r => exact .refused r
  | read hq hd => exact hk _ _ hq hd

theorem map {α' : Type} {done' : Progress → Prop} {g : γ → α' × List Token} {k : β → γ}
    {l : α × Progress → Reading (α' × Progress)} (h : Agrees tokens done f x y)
    (hk : ∀ b q, q.Faces tokens (f b).2 → done q → Agrees tokens done' g (.ok (k b)) (l ((f b).1, q))) :
    Agrees tokens done' g (x.map k) (y >>= l) := by
  cases h with
  | refused r => exact .refused r
  | read hq hd => exact hk _ _ hq hd

theorem settle {δ : Type} {z : Except Refusal δ} {k : δ → Except Refusal β}
    {l : δ → Reading (α × Progress)} (hk : ∀ d, z = .ok d → Agrees tokens done f (k d) (l d)) :
    Agrees tokens done f (z >>= k) (settled (z.mapError (·.error)) >>= l) := by
  cases z with
  | error r => exact .refused r
  | ok d => exact hk d rfl

/-- The same result, told otherwise. -/
theorem same {g : γ → α × List Token} {k : β → Except Refusal γ} (h : Agrees tokens done f x y)
    (hk : ∀ b, ∃ c, k b = .ok c ∧ g c = f b) : Agrees tokens done g (x >>= k) y := by
  cases h with
  | refused r => exact .refused r
  | @read b q hq hd =>
    obtain ⟨c, hc, he⟩ := hk b
    change Agrees tokens done g (k b) _
    rw [hc, ← he]
    rw [← he] at hq
    exact .read hq hd

end Agrees

/-- A result and the tokens that are left, without the proof that they are not too many. -/
def plain {P : List Token → Prop} (v : α × {r : List Token // P r}) : α × List Token :=
  (v.1, v.2.1)

def plainNamed {P : List Token → Prop} (v : RawType × List String × {r : List Token // P r}) :
    (RawType × List String) × List Token :=
  ((v.1, v.2.1), v.2.2.1)

theorem step_of_lt {n : Nat} (h : n < steps) : ∃ m, steps = m + 1 ∧ n ≤ m :=
  ⟨steps - 1, by omega, by omega⟩

variable {anonymous : String → Option String}

/-- Reading that goes on behind tokens that were taken. -/
theorem Agrees.behind {f : β → α × List Token} {g : γ → α × List Token} {x : Except Refusal β}
    {y : Reading (α × Progress)} {k : β → Except Refusal γ} (h : Agrees tokens (Crosses tokens q) f x y)
    (hq : Crosses tokens p q) (hk : ∀ b, ∃ c, k b = .ok c ∧ g c = f b) :
    Agrees tokens (Crosses tokens p) g (x >>= k) y :=
  (h.mono fun _ hr => hq.trans hr).same hk

theorem Agrees.onward {f : β → α × List Token} {g : γ → α × List Token} {b : β} {c : γ}
    {y : Reading (α × Progress)} (h : Agrees tokens (Crosses tokens q) f (.ok b) y)
    (hq : Crosses tokens p q) (hc : g c = f b) : Agrees tokens (Crosses tokens p) g (.ok c) y := by
  have hsame : Agrees tokens (Crosses tokens q) g (.ok c) y := by
    cases h with
    | read hr hd =>
      rw [← hc] at hr ⊢
      exact .read hr hd
  exact hsame.mono fun _ hr => hq.trans hr

theorem head?_ne_of_cons (h : ∀ rest, ts ≠ t :: rest) : ts.head? ≠ some t := by
  intro hhead
  obtain ⟨rest, rfl⟩ := List.head?_eq_some_iff.mp hhead
  exact h rest rfl

theorem crosses_word {w : String} (hp : p.Faces tokens (.word w :: rest))
    (hw : production.takes (.word w) = true) : Crosses tokens p (p.take production) :=
  .one hp hw (by simp) (by simp)

theorem taggedType_ok {tag : String} {base : RawType} (h : taggedType anonymous tag t = .ok base) :
    Production.specifier.takes t = true ∧ t ≠ .openParen ∧ t ≠ .closeParen := by
  obtain ⟨name, -, rfl | ⟨key, rfl, -⟩⟩ := taggedType_eq h
  · exact ⟨rfl, by simp, by simp⟩
  · exact ⟨rfl, by simp, by simp⟩

theorem specifiers_agree {s : Specifiers} (hp : p.Faces tokens ts) (hsteps : ts.length < steps) :
    Agrees tokens (Crosses tokens p) plain (specifiers anonymous s ts)
      (specifiersAt anonymous tokens steps s p) := by
  fun_induction specifiers anonymous s ts generalizing steps p with
  | case1 s w rest hconst ih =>
    obtain ⟨n, rfl, hn⟩ := step_of_lt hsteps
    rw [specifiersAt, hp.look_bind]
    simp only [List.head?_cons, hconst, if_true]
    exact (ih (hp.take .specifier) hn).behind (crosses_word hp rfl) fun b => ⟨_, rfl, rfl⟩
  | case2 s w rest hconst hignored ih =>
    obtain ⟨n, rfl, hn⟩ := step_of_lt hsteps
    rw [specifiersAt, hp.look_bind]
    simp only [List.head?_cons, hconst, hignored, if_true]
    exact (ih (hp.take .specifier) hn).behind (crosses_word hp rfl) fun b => ⟨_, rfl, rfl⟩
  | case3 s w hconst hignored htag =>
    obtain ⟨n, rfl, hn⟩ := step_of_lt hsteps
    rw [specifiersAt, hp.look_bind]
    simp only [List.head?_cons, hconst, hignored, htag, if_true]
    rw [(hp.take .specifier).look_bind]
    exact .refused (.of .unexpectedEnd)
  | case4 s w hconst hignored htag t rest ih =>
    obtain ⟨n, rfl, hn⟩ := step_of_lt hsteps
    have htagged := hp.take .specifier
    rw [specifiersAt, hp.look_bind]
    simp only [List.head?_cons, hconst, hignored, htag, if_true]
    rw [htagged.look_bind]
    refine .settle fun base hbase => ?_
    obtain ⟨htakes, hopen, hclose⟩ := taggedType_ok hbase
    have hkeyword : Crosses tokens p (p.take .specifier) := crosses_word hp rfl
    have hcrosses := hkeyword.trans (.one htagged htakes hopen hclose)
    exact (ih base (htagged.take .specifier) (Nat.lt_of_succ_lt hn)).behind hcrosses
      fun b => ⟨_, rfl, rfl⟩
  | case5 s w rest hconst hignored htag hw ih =>
    obtain ⟨n, rfl, hn⟩ := step_of_lt hsteps
    rw [specifiersAt, hp.look_bind]
    simp only [List.head?_cons, hconst, hignored, htag, hw, if_true]
    exact (ih (hp.take .specifier) hn).behind (crosses_word hp rfl) fun b => ⟨_, rfl, rfl⟩
  | case6 s w rest hconst hignored htag hbuiltin hfirst base =>
    rename_i ih
    obtain ⟨n, rfl, hn⟩ := step_of_lt hsteps
    rw [specifiersAt, hp.look_bind]
    simp only [List.head?_cons, hconst, hignored, htag, hbuiltin, hfirst, if_true]
    exact (ih (hp.take .specifier) hn).behind (crosses_word hp rfl) fun b => ⟨_, rfl, rfl⟩
  | case7 s w rest hconst hignored htag hbuiltin hfirst =>
    obtain ⟨n, rfl, hn⟩ := step_of_lt hsteps
    rw [specifiersAt, hp.look_bind]
    simp only [List.head?_cons, hconst, hignored, htag, hbuiltin, hfirst]
    exact .read hp (.none tokens p)
  | case8 s ts hword =>
    obtain ⟨n, rfl, hn⟩ := step_of_lt hsteps
    rw [specifiersAt, hp.look_bind]
    cases ts with
    | nil => exact .read hp (.none tokens p)
    | cons t ts =>
      cases t with
      | word w => exact absurd rfl (hword w ts)
      | _ => exact .read hp (.none tokens p)

theorem qualifiers_agree {u : RawType} (hp : p.Faces tokens ts) (hsteps : ts.length < steps) :
    Agrees tokens (Crosses tokens p) plain (.ok (pointerQualifiers u ts))
      (qualifiersAt tokens steps u p) := by
  fun_induction pointerQualifiers u ts generalizing steps p with
  | case1 u w rest hconst v r hr he ih =>
    obtain ⟨n, rfl, hn⟩ := step_of_lt hsteps
    have hbehind := ih (hp.take .qualifier) hn
    have hw : Production.qualifier.takes (.word w) = true := by rw [Production.takes, hconst, Bool.true_or]
    rw [qualifiersAt, hp.look_bind]
    simp only [List.head?_cons, hconst, if_true]
    rw [he] at hbehind
    exact hbehind.onward (crosses_word hp hw) rfl
  | case2 u w rest hconst hignored v r hr he ih =>
    obtain ⟨n, rfl, hn⟩ := step_of_lt hsteps
    have hbehind := ih (hp.take .qualifier) hn
    have hw : Production.qualifier.takes (.word w) = true := by rw [Production.takes, hignored, Bool.or_true]
    rw [qualifiersAt, hp.look_bind]
    simp only [List.head?_cons, hconst, hignored, if_true]
    rw [he] at hbehind
    exact hbehind.onward (crosses_word hp hw) rfl
  | case3 u w rest hconst hignored =>
    obtain ⟨n, rfl, hn⟩ := step_of_lt hsteps
    rw [qualifiersAt, hp.look_bind]
    simp only [List.head?_cons, hconst, hignored]
    exact .read hp (.none tokens p)
  | case4 u ts hword =>
    obtain ⟨n, rfl, hn⟩ := step_of_lt hsteps
    rw [qualifiersAt, hp.look_bind]
    cases ts with
    | nil => exact .read hp (.none tokens p)
    | cons t ts =>
      cases t with
      | word w => exact absurd rfl (hword w ts)
      | _ => exact .read hp (.none tokens p)

theorem stars_agree {u : RawType} (hp : p.Faces tokens ts) (hsteps : ts.length < steps) :
    Agrees tokens (Crosses tokens p) plain (.ok (pointers u ts)) (starsAt tokens steps u p) := by
  fun_induction pointers u ts generalizing steps p with
  | case1 u rest v r hr hq w r' hr' he ih =>
    obtain ⟨n, rfl, hn⟩ := step_of_lt hsteps
    have hrest : rest.length < n + 1 := Nat.lt_succ_of_le (Nat.le_of_succ_le hn)
    have hqualifiers := qualifiers_agree (u := .pointer u) (hp.take .star) hrest
    have hstar : Crosses tokens p (p.take .star) := .one hp rfl (by simp) (by simp)
    rw [starsAt, hp.look_bind]
    simp only [List.head?_cons, beq_self_eq_true, if_true]
    rw [hq] at hqualifiers
    obtain ⟨q, hread, hfaces, hcrosses⟩ := hqualifiers.given
    have hbehind := ih hfaces (Nat.lt_of_le_of_lt hr hn)
    rw [hread, pure_bind]
    rw [he] at hbehind
    exact hbehind.onward (hstar.trans hcrosses) rfl
  | case2 u ts hstar =>
    obtain ⟨n, rfl, hn⟩ := step_of_lt hsteps
    have hnone := head?_ne_of_cons hstar
    rw [starsAt, hp.look_bind, if_neg (by rwa [beq_iff_eq])]
    exact .read hp (.none tokens p)

theorem expectAt_taken {expected : Token} (hp : p.Faces tokens (expected :: rest)) :
    expectAt tokens production expected p = pure (p.take production) := by
  rw [expectAt, hp.look_bind, List.head?_cons, if_pos (beq_self_eq_true _)]

theorem expectAt_refused {expected : Token} (production : Production) (hp : p.Faces tokens ts)
    (hts : ts.head? ≠ some expected) :
    expectAt tokens production expected p = throw (unexpected ts).error := by
  rw [expectAt, hp.look_bind, if_neg (by rwa [beq_iff_eq]), hp.refuse_eq]

theorem array_agrees (hp : p.Faces tokens ts) :
    Agrees tokens (Crosses tokens p) plain (arraySuffix ts) (arrayAt tokens p) := by
  have hclose : ∀ {q rest}, q.Faces tokens (.closeBracket :: rest) →
      Crosses tokens q (q.take .array) :=
    fun hq => .one hq rfl (by simp) (by simp)
  have hcount : ∀ {n rest}, p.Faces tokens (.number n :: rest) → Crosses tokens p (p.take .array) :=
    fun hp => .one hp rfl (by simp) (by simp)
  rw [arrayAt, hp.look_bind]
  unfold arraySuffix
  split
  next rest =>
    simp only [List.head?_cons, expectAt_taken hp, pure_bind]
    exact .read (hp.take .array) (hclose hp)
  next n rest =>
    have hbehind := hp.take .array
    simp only [List.head?_cons, expectAt_taken hbehind, pure_bind]
    exact .read (hbehind.take .array) ((hcount hp).trans (hclose hbehind))
  next n rest hrest =>
    simp only [List.head?_cons, expectAt_refused .array (hp.take .array) (head?_ne_of_cons hrest)]
    exact .refused (unexpected rest)
  next hbracket _ hnumber =>
    have hexpect := expectAt_refused .array hp (head?_ne_of_cons hbracket)
    cases ts with
    | nil => exact hexpect ▸ .refused (unexpected [])
    | cons t ts =>
      cases t with
      | number n => exact absurd rfl (hnumber n ts)
      | _ =>
        simp only [List.head?_cons, hexpect]
        exact .refused _

theorem groupedTokens_eq {ts inner : List Token} (h : groupedTokens ts = some inner) :
    ts = .openParen :: inner := by
  unfold groupedTokens at h
  split at h
  · cases h
    rfl
  · cases h
    rfl
  · cases h

theorem groupsAt_eq (hp : p.Faces tokens ts) :
    groupsAt tokens p.position = pure (groupedTokens ts).isSome := by
  rw [groupsAt, hp.look_eq, pure_bind]
  by_cases hopen : ts.head? = some .openParen
  · obtain ⟨rest, rfl⟩ := List.head?_eq_some_iff.mp hopen
    have hnext : look tokens (p.position + 1) = pure rest.head? := (hp.take .group).look_eq
    rw [List.head?_cons, if_pos (beq_self_eq_true _), hnext, pure_bind]
    cases rest with
    | nil => rfl
    | cons t rest => cases t <;> rfl
  · rw [if_neg (by rwa [beq_iff_eq])]
    cases hgroup : groupedTokens ts with
    | none => rfl
    | some inner =>
      rw [groupedTokens_eq hgroup] at hopen
      exact absurd rfl hopen

section Readers

variable (tokens anonymous)

-- Five readers may call each other before one of them takes a token: a token is worth five steps.

def TypeNameAgrees (ts : List Token) : Prop :=
  ∀ p steps, Progress.Faces tokens p ts → 5 * ts.length + 3 ≤ steps →
    Agrees tokens (Crosses tokens p) plainNamed (typeName anonymous ts)
      (typeNameAt anonymous tokens steps p)

def DeclaratorAgrees (u : RawType) (ts : List Token) : Prop :=
  ∀ p steps, Progress.Faces tokens p ts → 5 * ts.length + 2 ≤ steps →
    Agrees tokens (Crosses tokens p) plainNamed (declarator anonymous u ts)
      (declaratorAt anonymous tokens steps u p)

def SuffixesAgree (ts : List Token) : Prop :=
  ∀ p steps, Progress.Faces tokens p ts → 5 * ts.length + 1 ≤ steps →
    Agrees tokens (Crosses tokens p) plain (suffixes anonymous ts) (suffixesAt anonymous tokens steps p)

/-- The opening parenthesis was taken before. -/
def ParametersAgree (ts : List Token) : Prop :=
  ∀ o p steps, Unclosed tokens o p → Progress.Faces tokens p ts → 5 * ts.length + 5 ≤ steps →
    Agrees tokens (Crosses tokens o) plain (parameters anonymous ts)
      (parametersAt anonymous tokens steps p)

def ParameterListAgrees (ts : List Token) : Prop :=
  ∀ o p steps, Unclosed tokens o p → Progress.Faces tokens p ts → 5 * ts.length + 4 ≤ steps →
    Agrees tokens (Crosses tokens o) plain (parameterList anonymous ts)
      (parameterListAt anonymous tokens steps p)

end Readers

/-- Specifiers look at no more than the next token behind them. -/
theorem type_next (s : Specifiers) (ts : List Token) : s.type ts.head?.toList = s.type ts := by
  cases ts <;> rfl

theorem typeName_agrees
    (ih : ∀ r, r.length ≤ ts.length → ∀ base, DeclaratorAgrees tokens anonymous base r) :
    TypeNameAgrees tokens anonymous ts := by
  intro p steps hp hsteps
  obtain ⟨n, rfl, hn⟩ := step_of_lt (n := 5 * ts.length + 2) hsteps
  rw [typeName, typeNameAt]
  refine (specifiers_agree hp (by omega)).bind fun b q hq hcrosses => ?_
  obtain ⟨s, r, hr⟩ := b
  dsimp only [plain] at hq ⊢
  rw [hq.look_bind, type_next]
  refine .settle fun base hbase => ?_
  refine (((ih r hr base q n hq (by omega)).after s.asked).bind) fun b q' hq' hcrosses' => ?_
  obtain ⟨u, asked, r', hr'⟩ := b
  exact .read hq' (hcrosses.trans hcrosses')

theorem stars_given {u v : RawType} {r : List Token} {hr : r.length ≤ ts.length}
    (hpointers : pointers u ts = (v, ⟨r, hr⟩)) (hp : p.Faces tokens ts) {steps : Nat}
    (hsteps : ts.length < steps) :
    ∃ q, starsAt tokens steps u p = pure (v, q) ∧ q.Faces tokens r ∧ Crosses tokens p q := by
  have hstars := stars_agree (u := u) hp hsteps
  rw [hpointers] at hstars
  exact hstars.given

theorem declarator_agrees_plain {u v : RawType} {r : List Token} {hr : r.length ≤ ts.length}
    (hpointers : pointers u ts = (v, ⟨r, hr⟩)) (hgroup : groupedTokens r = none)
    (ih : SuffixesAgree tokens anonymous r) : DeclaratorAgrees tokens anonymous u ts := by
  intro p steps hp hsteps
  obtain ⟨n, rfl, hn⟩ := step_of_lt (n := 5 * ts.length + 1) hsteps
  have hstars : ts.length < n + 1 := by omega
  obtain ⟨q, hread, hq, hcrosses⟩ := stars_given hpointers hp hstars
  rw [declarator_plain anonymous hpointers hgroup, declaratorAt, hread, pure_bind]
  dsimp only
  rw [groupsAt_eq hq, hgroup, liftM_pure, pure_bind, Option.isSome_none, if_neg Bool.false_ne_true]
  refine (ih q n hq (by omega)).map fun b q' hq' hcrosses' => ?_
  obtain ⟨sfx, r', hr'⟩ := b
  exact .read hq' (hcrosses.trans hcrosses')

theorem declarator_agrees_unbalanced {u v : RawType} {r : List Token} {hr : r.length ≤ ts.length}
    (hpointers : pointers u ts = (v, ⟨r, hr⟩)) (hgroup : groupedTokens r = some inner)
    (hsplit : splitTokens inner = none) : DeclaratorAgrees tokens anonymous u ts := by
  intro p steps hp hsteps
  obtain ⟨n, rfl, hn⟩ := step_of_lt (n := 5 * ts.length + 1) hsteps
  have hstars : ts.length < n + 1 := by omega
  obtain ⟨q, hread, hq, hcrosses⟩ := stars_given hpointers hp hstars
  rw [declarator_unbalanced anonymous hpointers hgroup hsplit, declaratorAt, hread, pure_bind]
  dsimp only
  rw [groupsAt_eq hq, hgroup, liftM_pure, pure_bind, Option.isSome_some, if_pos rfl]
  rw [groupedTokens_eq hgroup] at hq
  rw [closing_eq hq, hsplit, liftM_pure, pure_bind]
  exact .refused (.of .unbalanced)

/-- The suffixes are read behind the group, and the declarator from its opening parenthesis up to the closing
one. -/
theorem declarator_agrees_grouped {u v : RawType} {r inside behind : List Token} {hr : r.length ≤ ts.length}
    (hpointers : pointers u ts = (v, ⟨r, hr⟩)) (hgroup : groupedTokens r = some inner)
    (hsplit : splitTokens inner = some (inside, behind)) (ihs : SuffixesAgree tokens anonymous behind)
    (ihd : ∀ sfx, DeclaratorAgrees tokens anonymous (applySuffixes sfx v) inner) :
    DeclaratorAgrees tokens anonymous u ts := by
  intro p steps hp hsteps
  obtain ⟨n, rfl, hn⟩ := step_of_lt (n := 5 * ts.length + 1) hsteps
  have hstars : ts.length < n + 1 := by omega
  obtain ⟨q, hread, hq, hcrosses⟩ := stars_given hpointers hp hstars
  have hlength := groupedTokens_length hgroup
  have hparts := splitGroup_length hsplit
  rw [declarator_grouped anonymous hpointers hgroup hsplit (by omega), declaratorAt, hread, pure_bind]
  dsimp only
  rw [groupsAt_eq hq, hgroup, liftM_pure, pure_bind, Option.isSome_some, if_pos rfl]
  rw [groupedTokens_eq hgroup] at hq
  rw [closing_eq hq, hsplit, liftM_pure, pure_bind]
  simp only [Option.map_some]
  obtain ⟨c, hc, hinner⟩ := splitGroup_eq hsplit
  obtain rfl : c = .closeParen := beq_iff_eq.mp hc
  have hclose : (q.moved (q.position + 1 + inside.length)).Faces tokens (.closeParen :: behind) := by
    have hfront := hq.take .group
    rw [hinner] at hfront
    exact hfront.ahead rfl q
  have hbehind := (hclose.moved (q.take .group)).take .group
  refine (ihs _ n hbehind (by omega)).bind fun b after hafter hsuffixes => ?_
  obtain ⟨sfx, r', hr'⟩ := b
  have hback : (after.moved (q.position + 1)).Faces tokens inner := (hq.take .group).moved after
  refine (((ihd sfx _ n hback (by omega)).after _).bind) fun b within hwithin hinside => ?_
  obtain ⟨w, second, r'', hr''⟩ := b
  have hend : (r''.length == behind.length + 1) = (within.position == q.position + 1 + inside.length) := by
    have hleft : within.position + r''.length = tokens.length := hwithin.length_eq
    have hall : q.position + 1 + inside.length + (behind.length + 1) = tokens.length := hclose.length_eq
    rw [Bool.eq_iff_iff, beq_iff_eq, beq_iff_eq]
    omega
  dsimp only [plainNamed, plain] at hwithin hafter ⊢
  rw [hend]
  split
  next hposition =>
    have hgrouped := Crosses.group hq hclose hsuffixes hinside (beq_iff_eq.mp hposition)
    exact .read (hafter.moved within) (hcrosses.trans hgrouped)
  next =>
    rw [hwithin.refuse_eq]
    exact .refused ((unexpected r'').after _)

theorem suffixes_agree_bracket
    (ih : ∀ r : List Token, r.length < rest.length → SuffixesAgree tokens anonymous r) :
    SuffixesAgree tokens anonymous (.openBracket :: rest) := by
  intro p steps hp hsteps
  rw [List.length_cons] at hsteps
  obtain ⟨n, rfl, hn⟩ := step_of_lt (n := 5 * (rest.length + 1)) hsteps
  have hopen : Crosses tokens p (p.take .array) := .one hp rfl (by simp) (by simp)
  rw [suffixes, suffixesAt, hp.look_bind, List.head?_cons]
  dsimp only
  refine (array_agrees (hp.take .array)).bind fun b q hq hcrosses => ?_
  obtain ⟨count, r, hr⟩ := b
  refine (ih r hr q n hq (by omega)).bind fun b q' hq' hcrosses' => ?_
  obtain ⟨sfx, r', hr'⟩ := b
  exact .read hq' (hopen.trans (hcrosses.trans hcrosses'))

theorem suffixes_agree_paren (ihp : ParametersAgree tokens anonymous rest)
    (ihs : ∀ r : List Token, r.length < rest.length → SuffixesAgree tokens anonymous r) :
    SuffixesAgree tokens anonymous (.openParen :: rest) := by
  intro p steps hp hsteps
  rw [List.length_cons] at hsteps
  obtain ⟨n, rfl, hn⟩ := step_of_lt (n := 5 * (rest.length + 1)) hsteps
  rw [suffixes, suffixesAt, hp.look_bind, List.head?_cons]
  dsimp only
  refine (ihp p _ n (.one hp) (hp.take .parameters) (by omega)).bind fun b q hq hcrosses => ?_
  obtain ⟨params, r, hr⟩ := b
  refine (((ihs r hr q n hq (by omega)).after _).bind) fun b q' hq' hcrosses' => ?_
  obtain ⟨sfx, r', hr'⟩ := b
  exact .read hq' (hcrosses.trans hcrosses')

theorem suffixes_agree_end (hbracket : ∀ rest, ts ≠ .openBracket :: rest)
    (hparen : ∀ rest, ts ≠ .openParen :: rest) : SuffixesAgree tokens anonymous ts := by
  intro p steps hp hsteps
  obtain ⟨n, rfl, hn⟩ := step_of_lt (n := 5 * ts.length) hsteps
  have hmodel : suffixes anonymous ts = .ok ([], ⟨ts, Nat.le_refl _⟩) := by
    rw [suffixes.eq_def]
    split
    · exact absurd rfl (hbracket _)
    · exact absurd rfl (hparen _)
    · rfl
  rw [hmodel, suffixesAt, hp.look_bind]
  cases ts with
  | nil => exact .read hp (.none tokens p)
  | cons t ts =>
    cases t with
    | openBracket => exact absurd rfl (hbracket ts)
    | openParen => exact absurd rfl (hparen ts)
    | _ => exact .read hp (.none tokens p)

theorem parameters_agree_none : ParametersAgree tokens anonymous (.closeParen :: rest) := by
  intro o p steps ho hp hsteps
  obtain ⟨n, rfl, hn⟩ := step_of_lt (n := 5 * (rest.length + 1) + 4) hsteps
  rw [parameters, parametersAt, hp.look_bind, List.head?_cons,
    if_pos (beq_self_eq_true _)]
  exact .read (hp.take .parameters) (ho.close hp)

theorem parameters_agree_some (hclose : ∀ rest, ts ≠ .closeParen :: rest)
    (ih : ParameterListAgrees tokens anonymous ts) : ParametersAgree tokens anonymous ts := by
  intro o p steps ho hp hsteps
  obtain ⟨n, rfl, hn⟩ := step_of_lt (n := 5 * ts.length + 4) hsteps
  have hother := head?_ne_of_cons hclose
  rw [parameters.eq_def, parametersAt, hp.look_bind, if_neg (by rwa [beq_iff_eq])]
  split
  · exact absurd rfl (hclose _)
  · refine (ih o p n ho hp hn).bind fun b q hq hcrosses => ?_
    obtain ⟨params, r, hr⟩ := b
    exact .read hq hcrosses

theorem parameterList_agrees (iht : TypeNameAgrees tokens anonymous ts)
    (ih : ∀ r : List Token, r.length ≤ ts.length → ∀ rest, r = .comma :: rest →
      ParameterListAgrees tokens anonymous rest) : ParameterListAgrees tokens anonymous ts := by
  intro o p steps ho hp hsteps
  obtain ⟨n, rfl, hn⟩ := step_of_lt (n := 5 * ts.length + 3) hsteps
  have hfirst : Agrees tokens (Unclosed tokens o) plain
      (if ts.head? == some .ellipsis then
        .ok ({ variadic := true }, ⟨ts.tail, by rw [List.length_tail]; exact Nat.sub_le _ _⟩)
      else (typeName anonymous ts).map fun v => ({ args := [v.1], asked := v.2.1 }, v.2.2) :
        Except Refusal (Parameters × {r : List Token // r.length ≤ ts.length}))
      (if ts.head? == some .ellipsis then pure ({ variadic := true }, p.take .parameters)
      else typeNameAt anonymous tokens n p >>= fun v =>
        pure ({ args := [v.1.1], asked := v.1.2 }, v.2)) := by
    split
    next hellipsis =>
      obtain ⟨rest, rfl⟩ := List.head?_eq_some_iff.mp (beq_iff_eq.mp hellipsis)
      exact .read (hp.take .parameters) (ho.trans (.one hp rfl (by simp) (by simp)))
    next =>
      refine (iht p n hp hn).map fun b q hq hcrosses => ?_
      obtain ⟨t, asked, r, hr⟩ := b
      exact .read hq (ho.trans hcrosses)
  rw [parameterList, parameterListAt, hp.look_bind]
  refine hfirst.bind fun b q hq ho' => ?_
  obtain ⟨params, r, hr⟩ := b
  dsimp only [plain] at hq ⊢
  rw [hq.look_bind]
  cases r with
  | nil =>
    rw [hq.refuse_eq]
    exact .refused ((unexpected []).after _)
  | cons t rest =>
    rw [List.length_cons] at hr
    cases t with
    | comma =>
      have hcomma : Crosses tokens q (q.take .parameters) := .one hq rfl (by simp) (by simp)
      refine (((ih _ hr rest rfl o _ n (ho'.trans hcomma) (hq.take .parameters) (by omega)).after _).bind)
        fun b q' hq' hcrosses => ?_
      obtain ⟨others, r', hr'⟩ := b
      exact .read hq' hcrosses
    | closeParen => exact .read (hq.take .parameters) (ho'.close hq)
    | _ =>
      simp only [List.head?_cons, hq.refuse_eq]
      exact .refused ((unexpected _).after _)

theorem readers_agree (anonymous : String → Option String) (tokens : List Token) :
    (∀ ts, TypeNameAgrees tokens anonymous ts) ∧ ∀ u ts, DeclaratorAgrees tokens anonymous u ts := by
  have hreaders := typeName.mutual_induct anonymous (TypeNameAgrees tokens anonymous)
    (DeclaratorAgrees tokens anonymous) (SuffixesAgree tokens anonymous)
    (ParametersAgree tokens anonymous) (ParameterListAgrees tokens anonymous)
    ?typeName ?plain ?unbalanced ?grouped ?bracket ?paren ?done ?none ?some ?list
  case typeName => exact fun ts ih => typeName_agrees ih
  case plain => exact fun u ts v r hlen hp hgroup ih => declarator_agrees_plain hp hgroup ih
  case unbalanced =>
    exact fun u ts v r hlen hp inner hgroup hsplit => declarator_agrees_unbalanced hp hgroup hsplit
  case grouped =>
    intro u ts v r hlen hp inner hgroup inside behind hsplit _ _ ihs ihd
    exact declarator_agrees_grouped hp hgroup hsplit ihs fun sfx => ihd sfx []
  case bracket => exact fun rest ih => suffixes_agree_bracket ih
  case paren => exact fun rest ihp ihs => suffixes_agree_paren ihp ihs
  case done => exact fun ts hbracket hparen => suffixes_agree_end hbracket hparen
  case none => exact fun rest => parameters_agree_none
  case some => exact fun ts hclose ih => parameters_agree_some hclose ih
  case list => exact fun ts iht ih => parameterList_agrees iht ih
  exact ⟨hreaders.1, hreaders.2.1⟩

/-- Each token of a text is taken once, by a production that may take it. -/
def TakesAll (tokens : List Token) (taken : List (Production × Nat)) : Prop :=
  (taken.map Prod.snd).Perm (List.range tokens.length) ∧
    ∀ e ∈ taken, ∃ t ∈ tokens[e.2]?, e.1.takes t = true

theorem takesAll_of_crosses (h : Crosses tokens {} q) (hq : q.Faces tokens []) :
    TakesAll tokens q.taken := by
  obtain ⟨front, -, hposition, -, added, htaken, hperm, htakes⟩ := h
  have hlength : front.length = tokens.length := by
    have hend := hq.length_eq
    rw [hposition, List.length_nil] at hend
    simpa using hend
  have hadded : q.taken = added := htaken
  rw [hlength] at hperm
  exact ⟨by rw [hadded, List.range_eq_range']; exact hperm, by rw [hadded]; exact htakes⟩

theorem settled_ok (a : α) : settled (.ok a) = pure a :=
  rfl

theorem tokensAt_text {text : String} (h : byteLength text.toList < steps) :
    tokensAt steps text.toList 0 = settled (tokenize text.toList) :=
  tokensAt_eq ⟨.whole 0 _, (Nat.zero_add _).symm⟩ rfl (by omega)

/-- The tokens of a text are read whole in a number of steps that its length bounds. -/
theorem typeName_text {text : String} (anonymous : String → Option String)
    (h : tokenize text.toList = .ok tokens) :
    Agrees tokens (Crosses tokens {}) plainNamed (typeName anonymous tokens)
      (typeNameAt anonymous tokens (5 * byteLength text.toList + 3) {}) := by
  have hlength := tokens_length_le h
  exact (readers_agree anonymous tokens).1 tokens {} _ ⟨rfl, Nat.zero_le _⟩ (by omega)

theorem tryParseAt_add (names : TypeNames) (text : String) (more : Nat) :
    tryParseAt names (5 * byteLength text.toList + 3 + more) text =
      tryParseAt names (5 * byteLength text.toList + 3) text := by
  rw [tryParseAt, tryParseAt, tokensAt_text (by omega), tokensAt_text (by omega)]
  cases htokens : tokenize text.toList with
  | error e => rfl
  | ok tokens =>
    have hends := (typeName_text names.anonymous htokens).ends
    have hmore := (readers_extend (Nat.le_add_right _ more)).typeName {} |>.ended hends
    rw [settled_ok, pure_bind, pure_bind, hmore]

/-- A text is read by positions without a fault, in a number of steps that its length bounds, and with the
outcome of reading it token by token. -/
theorem tryParseAt_run (names : TypeNames) (text : String) :
    ∃ outcome : Except QualTypeError (RawType × List (Production × Nat)),
      (∀ more, (tryParseAt names (5 * byteLength text.toList + 3 + more) text).run.run =
        some (.ok outcome)) ∧
      outcome.map Prod.fst = tryParse names text ∧
      ∀ t taken, outcome = .ok (t, taken) →
        ∃ tokens, tokenize text.toList = .ok tokens ∧ TakesAll tokens taken := by
  simp only [tryParseAt_add]
  rw [tryParseAt, tokensAt_text (by omega), tryParse, read]
  cases htokens : tokenize text.toList with
  | error e => exact ⟨.error e, fun more => rfl, rfl, fun t taken he => by cases he⟩
  | ok tokens =>
    have hread := typeName_text names.anonymous htokens
    rw [settled_ok, pure_bind, ok_mapError]
    cases htype : typeName names.anonymous tokens with
    | error r =>
      rw [htype] at hread
      generalize typeNameAt names.anonymous tokens _ {} = y at hread ⊢
      cases hread
      refine ⟨.error r.error, fun more => rfl, ?_, fun t taken he => by cases he⟩
      simp only [bind, Except.bind, htype]
      rfl
    | ok result =>
      obtain ⟨u, asked, r, hr⟩ := result
      rw [htype] at hread
      obtain ⟨q, hresult, hq, hcrosses⟩ := hread.given
      rw [hresult, pure_bind]
      dsimp only [plainNamed] at hq ⊢
      rw [hq.look_bind]
      simp only [bind, Except.bind, htype]
      cases r with
      | nil =>
        refine ⟨.ok (_, q.taken), fun more => rfl, rfl, ?_⟩
        intro t taken he
        cases he
        exact ⟨tokens, rfl, takesAll_of_crosses hcrosses hq⟩
      | cons t rest =>
        simp only [List.head?_cons, hq.refuse_eq]
        exact ⟨.error _, fun more => rfl, rfl, fun t taken he => by cases he⟩

/-- Every place in a group has the end of the group in front of it. -/
theorem inside_group {opening close i : Nat} (hopen : tokens[opening]? = some .openParen)
    (hclose : closing tokens opening = pure (some close)) (hafter : opening < i) (hbefore : i ≤ close) :
    ∃ depth inside behind,
      splitGroup (· == Token.openParen) (· == Token.closeParen) depth (tokens.drop i) =
        some (inside, behind) ∧ i + inside.length = close := by
  obtain ⟨hlt, hparen⟩ := List.getElem?_eq_some_iff.mp hopen
  have hfaces : Progress.Faces tokens ⟨opening, []⟩ (.openParen :: tokens.drop (opening + 1)) :=
    ⟨by rw [List.drop_eq_getElem_cons hlt, hparen], Nat.le_of_lt hlt⟩
  have hfound := hclose.symm.trans (closing_eq hfaces)
  obtain ⟨⟨inside, behind⟩, hsplit, hend⟩ :=
    Option.map_eq_some_iff.mp (Except.ok.inj (Option.some.inj hfound)).symm
  change opening + 1 + inside.length = close at hend
  obtain ⟨depth, hgroup⟩ := splitGroup_drop hsplit (k := i - (opening + 1)) (by omega)
  rw [List.drop_drop, show opening + 1 + (i - (opening + 1)) = i by omega] at hgroup
  exact ⟨depth, _, behind, hgroup, by rw [List.length_drop]; omega⟩

/-- From a place inside a group, a declarator ends at the latest where the group is closed, and has taken no
token from there on. -/
theorem declaratorAt_stays {anonymous : String → Option String} {opening close i : Nat}
    (hopen : tokens[opening]? = some .openParen) (hclose : closing tokens opening = pure (some close))
    (hafter : opening < i) (hbefore : i ≤ close) (u : RawType) (taken : List (Production × Nat)) :
    ∃ outcome : Except QualTypeError ((RawType × List String) × Progress),
      (∀ more,
        (declaratorAt anonymous tokens (5 * (tokens.length - i) + 2 + more) u ⟨i, taken⟩).run.run =
          some (.ok outcome)) ∧
      ∀ result q, outcome = .ok (result, q) → q.position ≤ close ∧
        ∃ added, q.taken = taken ++ added ∧ ∀ e ∈ added, i ≤ e.2 ∧ e.2 < close := by
  obtain ⟨depth, inside, behind, hgroup, hend⟩ := inside_group hopen hclose hafter hbefore
  have hwithin : i ≤ tokens.length := by
    have hlength := splitGroup_length hgroup
    rw [List.length_drop] at hlength
    omega
  have hp : Progress.Faces tokens ⟨i, taken⟩ (tokens.drop i) := ⟨rfl, hwithin⟩
  have hread := (readers_agree anonymous tokens).2 u (tokens.drop i) ⟨i, taken⟩
    (5 * (tokens.length - i) + 2) hp (by rw [List.length_drop])
  have hmore := fun more => ((readers_extend (Nat.le_add_right _ more)).declarator u ⟨i, taken⟩).ended
    hread.ends
  simp only [hmore]
  generalize declarator anonymous u (tokens.drop i) = x at hread
  generalize declaratorAt anonymous tokens _ u ⟨i, taken⟩ = y at hread ⊢
  cases hread with
  | refused r => exact ⟨.error r.error, fun more => rfl, fun result q he => by cases he⟩
  | read hq hcrosses =>
    refine ⟨.ok _, fun more => rfl, ?_⟩
    intro result q he
    cases he
    have hstays := hcrosses.stays hp hgroup
    rw [hend] at hstays
    obtain ⟨front, -, hconsumes⟩ := hcrosses
    obtain ⟨added, htaken, hbounds⟩ := hconsumes.bounds
    refine ⟨hstays, added, htaken, fun e he => ?_⟩
    obtain ⟨hfrom, hto⟩ := hbounds e he
    exact ⟨hfrom, Nat.lt_of_lt_of_le hto hstays⟩

/-- Reading by positions ends for every text without a fault: no part of the text begins or ends inside a
character, no byte and no token behind the last one is looked at, and no count falls below zero. The outcome,
the same however many more steps there are, is that of reading token by token, and a text is read only if each
of its tokens is taken once, by a production that may take it. From any place inside a group of any tokens, a
declarator takes none from the closing parenthesis on. -/
theorem reading_total (names : TypeNames) (text : String) :
    (∃ outcome : Except QualTypeError (RawType × List (Production × Nat)),
      (∀ more, (tryParseAt names (5 * byteLength text.toList + 3 + more) text).run.run =
        some (.ok outcome)) ∧
      outcome.map Prod.fst = tryParse names text ∧
      ∀ t taken, outcome = .ok (t, taken) →
        ∃ tokens, tokenize text.toList = .ok tokens ∧ TakesAll tokens taken) ∧
    ∀ (tokens : List Token) (opening close i : Nat), tokens[opening]? = some .openParen →
      closing tokens opening = pure (some close) → opening < i → i ≤ close →
      ∀ (u : RawType) (taken : List (Production × Nat)),
        ∃ outcome : Except QualTypeError ((RawType × List String) × Progress),
          (∀ more, (declaratorAt names.anonymous tokens (5 * (tokens.length - i) + 2 + more) u
            ⟨i, taken⟩).run.run = some (.ok outcome)) ∧
          ∀ result q, outcome = .ok (result, q) → q.position ≤ close ∧
            ∃ added, q.taken = taken ++ added ∧ ∀ e ∈ added, i ≤ e.2 ∧ e.2 < close :=
  ⟨tryParseAt_run names text, fun _ _ _ _ hopen hclose hafter hbefore =>
    declaratorAt_stays hopen hclose hafter hbefore⟩

/-- No typedef is known, and no record has adopted a name. -/
def unnamed : TypeNames where
  typedefs _ := none
  anonymous _ := none

/-- The tokens of `int (*)[3]`. -/
def rowPointer : List Token :=
  [.word "int", .openParen, .star, .closeParen, .openBracket, .number 3, .closeBracket]

/-- What takes them, in order: the suffix behind the group before the star in it. -/
def rowPointerTaken : List (Production × Nat) :=
  [(.specifier, 0), (.group, 1), (.group, 3), (.array, 4), (.array, 5), (.array, 6), (.star, 2)]

theorem rowPointer_reading :
    (∃ t, tryParse unnamed "int (*)[3]" = .ok t ∧ TakesAll rowPointer rowPointerTaken) ∧
      closing rowPointer 1 = pure (some 3) ∧
      ∃ result q, (declaratorAt unnamed.anonymous rowPointer 27 (RawType.ofKind (.builtin .int) "int")
          ⟨2, []⟩).run.run = some (.ok (.ok (result, q))) ∧ q.position = 3 ∧
        ∃ added, q.taken = added ∧ ∀ e ∈ added, 2 ≤ e.2 ∧ e.2 < 3 := by
  have htokens : tokenize "int (*)[3]".toList = .ok rowPointer := by decide +kernel
  have htaken : (tryParseAt unnamed 53 "int (*)[3]").run.run.map (Except.map (Except.map Prod.snd)) =
      some (.ok (.ok rowPointerTaken)) := by decide +kernel
  have hclose : closing rowPointer 1 = pure (some 3) := rfl
  have hposition : (declaratorAt unnamed.anonymous rowPointer 27 (RawType.ofKind (.builtin .int) "int")
      ⟨2, []⟩).run.run.map (Except.map (Except.map fun r => r.2.position)) = some (.ok (.ok 3)) := by
    decide
  have hlength : byteLength "int (*)[3]".toList = 10 := by decide
  refine ⟨?_, hclose, ?_⟩
  · obtain ⟨outcome, hruns, hparse, htakes⟩ := (reading_total unnamed "int (*)[3]").1
    have hrun := hruns 0
    rw [hlength] at hrun
    rw [hrun] at htaken
    cases outcome with
    | error e => cases htaken
    | ok found =>
      obtain ⟨t, taken⟩ := found
      cases htaken
      obtain ⟨tokens, htokens', hall⟩ := htakes t rowPointerTaken rfl
      cases htokens.symm.trans htokens'
      exact ⟨t, hparse.symm, hall⟩
  · obtain ⟨outcome, hruns, hstays⟩ := (reading_total unnamed "int (*)[3]").2 rowPointer 1 3 2 rfl
      hclose (by decide) (by decide) (RawType.ofKind (.builtin .int) "int") []
    have hrun := hruns 0
    rw [show 5 * (rowPointer.length - 2) + 2 + 0 = 27 from rfl] at hrun
    rw [hrun] at hposition
    cases outcome with
    | error e => cases hposition
    | ok found =>
      obtain ⟨result, q⟩ := found
      obtain ⟨-, added, hadded, hbounds⟩ := hstays result q rfl
      have hend : q.position = 3 := Except.ok.inj (Except.ok.inj (Option.some.inj hposition))
      exact ⟨result, q, hrun, hend, added, hadded, hbounds⟩

end QualType

end Bindery
