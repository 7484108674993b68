import Bindery.Proofs.QualType.Balanced
import Bindery.Proofs.QualType.Offsets

/-! What a reader by positions takes on its way: each token once, with closed parentheses among
them. -/

namespace Bindery

namespace QualType

variable {tokens ts rest front behind inner : List Token} {t : Token} {production : Production}
  {p q r : Progress} {stop i : Nat}

namespace Progress

/-- What is left of the tokens at a place. -/
structure Faces (tokens : List Token) (p : Progress) (rest : List Token) : Prop where
  rest_eq : rest = tokens.drop p.position
  within : p.position ≤ tokens.length

namespace Faces

theorem length_eq (h : p.Faces tokens rest) : p.position + rest.length = tokens.length := by
  have hwithin := h.within
  rw [h.rest_eq, List.length_drop]
  omega

theorem look_eq (h : p.Faces tokens rest) : look tokens p.position = pure rest.head? := by
  rw [look, if_pos h.within, h.rest_eq, List.head?_drop]

theorem look_bind {α : Type} (h : p.Faces tokens rest) (k : Option Token → Reading α) :
    (liftM (look tokens p.position) >>= k) = k rest.head? := by
  rw [h.look_eq, liftM_pure, pure_bind]

theorem token_eq (h : p.Faces tokens (t :: rest)) : tokens[p.position]? = some t := by
  rw [← List.head?_drop, ← h.rest_eq, List.head?_cons]

theorem take (h : p.Faces tokens (t :: rest)) (production : Production) :
    (p.take production).Faces tokens rest := by
  have hlength := h.length_eq
  rw [List.length_cons] at hlength
  refine ⟨?_, show p.position + 1 ≤ tokens.length by omega⟩
  rw [Progress.take, ← List.drop_drop, ← h.rest_eq]
  rfl

theorem moved (h : q.Faces tokens rest) (p : Progress) : (p.moved q.position).Faces tokens rest :=
  ⟨h.rest_eq, h.within⟩

/-- Further along the tokens. -/
theorem ahead (h : p.Faces tokens (front ++ rest)) (hi : i = p.position + front.length) (q : Progress) :
    (q.moved i).Faces tokens rest := by
  have hlength := h.length_eq
  rw [List.length_append] at hlength
  refine ⟨?_, show i ≤ tokens.length by omega⟩
  rw [Progress.moved, hi, ← List.drop_drop, ← h.rest_eq, List.drop_left]

theorem refuse_eq {α : Type} (h : p.Faces tokens rest) :
    (refuse tokens p.position : Reading α) = throw (unexpected rest).error := by
  have hnext : unexpected rest.head?.toList = unexpected rest := by cases rest <;> rfl
  rw [refuse, h.look_bind, hnext]

end Faces

/-- Between two places, each of the tokens `front` was taken once, by a production that may take it. -/
structure Consumes (tokens : List Token) (p q : Progress) (front : List Token) : Prop where
  position_eq : q.position = p.position + front.length
  tokens_eq : tokens.drop p.position = front ++ tokens.drop q.position
  taken : ∃ added, q.taken = p.taken ++ added ∧
    (added.map Prod.snd).Perm (List.range' p.position front.length) ∧
    ∀ e ∈ added, ∃ t ∈ tokens[e.2]?, e.1.takes t = true

namespace Consumes

theorem none (tokens : List Token) (p : Progress) : Consumes tokens p p [] := by
  refine ⟨rfl, rfl, [], (List.append_nil _).symm, .refl _, ?_⟩
  exact List.forall_mem_nil _

theorem one (h : p.Faces tokens (t :: rest)) (ht : production.takes t = true) :
    Consumes tokens p (p.take production) [t] := by
  refine ⟨rfl, ?_, [(production, p.position)], rfl, .refl _, ?_⟩
  · rw [← h.rest_eq, ← (h.take production).rest_eq]
    rfl
  · exact List.forall_mem_singleton.mpr ⟨t, h.token_eq, ht⟩

theorem trans {first second : List Token} (h : Consumes tokens p q first)
    (h' : Consumes tokens q r second) : Consumes tokens p r (first ++ second) := by
  obtain ⟨hq, hfirst, added, htaken, hperm, htakes⟩ := h
  obtain ⟨hr, hsecond, added', htaken', hperm', htakes'⟩ := h'
  refine ⟨?_, ?_, added ++ added', ?_, ?_, List.forall_mem_append.mpr ⟨htakes, htakes'⟩⟩
  · rw [hr, hq, List.length_append, Nat.add_assoc]
  · rw [hfirst, hsecond, List.append_assoc]
  · rw [htaken', htaken, List.append_assoc]
  · rw [List.map_append, List.length_append, ← List.range'_append_1, ← hq]
    exact hperm.append hperm'

/-- Behind a group first, then inside it, and forward again. -/
theorem group {inside : List Token} (hopen : p.Faces tokens (.openParen :: inner))
    (hclose : (p.moved stop).Faces tokens (.closeParen :: behind))
    (hbehind : Consumes tokens (((p.take .group).moved stop).take .group) q front)
    (hinside : Consumes tokens (q.moved (p.position + 1)) r inside) (hr : r.position = stop) :
    Consumes tokens p (r.moved q.position) (.openParen :: (inside ++ [.closeParen]) ++ front) := by
  obtain ⟨hq, hafter, added, htaken, hperm, htakes⟩ := hbehind
  obtain ⟨hr', hwithin, added', htaken', hperm', htakes'⟩ := hinside
  have hend : stop = p.position + 1 + inside.length := hr.symm.trans hr'
  have hq' : q.position = stop + 1 + front.length := hq
  have hlength : (.openParen :: (inside ++ [.closeParen]) ++ front : List Token).length =
      1 + (inside.length + (1 + front.length)) := by
    simp only [List.length_append, List.length_cons, List.length_nil]
    omega
  refine ⟨?position, ?tokens, [(.group, p.position), (.group, stop)] ++ added ++ added',
    ?taken, ?perm, ?takes⟩
  case position =>
    rw [hlength]
    change q.position = _
    omega
  case tokens =>
    have hinner : inner = inside ++ .closeParen :: behind := by
      rw [(hopen.take .group).rest_eq, hclose.rest_eq]
      exact hwithin.trans (congrArg (inside ++ tokens.drop ·) hr)
    have hrest : behind = front ++ tokens.drop q.position :=
      (hclose.take .group).rest_eq.trans hafter
    rw [← hopen.rest_eq, hinner, hrest]
    simp [Progress.moved]
  case taken =>
    have hfirst : q.taken = p.taken ++ [(.group, p.position)] ++ [(.group, stop)] ++ added := htaken
    have hsecond : r.taken = q.taken ++ added' := htaken'
    change r.taken = _
    rw [hsecond, hfirst]
    simp
  case perm =>
    have hpositions : List.range' p.position (1 + (inside.length + (1 + front.length))) =
        [p.position] ++ (List.range' (p.position + 1) inside.length ++
          ([stop] ++ List.range' (stop + 1) front.length)) := by
      rw [← List.range'_append_1, ← List.range'_append_1, ← hend, ← List.range'_append_1]
      rfl
    have hbehind : (added.map Prod.snd).Perm (List.range' (stop + 1) front.length) := hperm
    have hwithin' : (added'.map Prod.snd).Perm (List.range' (p.position + 1) inside.length) := hperm'
    rw [hlength, hpositions, List.map_append, List.map_append]
    refine ((hbehind.append_left _).append hwithin').trans (.cons p.position ?_)
    exact List.perm_append_comm
  case takes =>
    refine List.forall_mem_append.mpr ⟨List.forall_mem_append.mpr ⟨?_, htakes⟩, htakes'⟩
    refine List.forall_mem_cons.mpr ⟨⟨.openParen, hopen.token_eq, rfl⟩, ?_⟩
    exact List.forall_mem_singleton.mpr ⟨.closeParen, hclose.token_eq, rfl⟩

/-- All positions that were taken are between the two places. -/
theorem bounds (h : Consumes tokens p q front) :
    ∃ added, q.taken = p.taken ++ added ∧ ∀ e ∈ added, p.position ≤ e.2 ∧ e.2 < q.position := by
  obtain ⟨hq, -, added, htaken, hperm, -⟩ := h
  refine ⟨added, htaken, fun e he => ?_⟩
  have hmem := hperm.subset (List.mem_map_of_mem he)
  rw [hq]
  exact List.mem_range'_1.mp hmem

end Consumes

/-- Between two places, tokens were taken whose parentheses are closed among them. -/
def Crosses (tokens : List Token) (p q : Progress) : Prop :=
  ∃ front, Balanced front ∧ Consumes tokens p q front

/-- An opening parenthesis was taken, and behind it tokens whose parentheses are closed among them. -/
def Unclosed (tokens : List Token) (p q : Progress) : Prop :=
  ∃ front, Balanced front ∧ Consumes tokens p q (.openParen :: front)

theorem Crosses.none (tokens : List Token) (p : Progress) : Crosses tokens p p :=
  ⟨[], balanced_nil, .none tokens p⟩

theorem Crosses.one (h : p.Faces tokens (t :: rest)) (ht : production.takes t = true)
    (hopen : t ≠ .openParen) (hclose : t ≠ .closeParen) : Crosses tokens p (p.take production) :=
  ⟨[t], balanced_nil.cons hopen hclose, .one h ht⟩

theorem Crosses.trans (h : Crosses tokens p q) (h' : Crosses tokens q r) : Crosses tokens p r := by
  obtain ⟨front, hfront, hconsumes⟩ := h
  obtain ⟨behind, hbehind, hconsumes'⟩ := h'
  exact ⟨front ++ behind, hfront.append hbehind, hconsumes.trans hconsumes'⟩

theorem Unclosed.one (h : p.Faces tokens (.openParen :: rest)) : Unclosed tokens p (p.take .parameters) :=
  ⟨[], balanced_nil, .one h rfl⟩

theorem Unclosed.trans (h : Unclosed tokens p q) (h' : Crosses tokens q r) : Unclosed tokens p r := by
  obtain ⟨front, hfront, hconsumes⟩ := h
  obtain ⟨behind, hbehind, hconsumes'⟩ := h'
  exact ⟨front ++ behind, hfront.append hbehind, hconsumes.trans hconsumes'⟩

theorem Unclosed.close (h : Unclosed tokens p q) (hq : q.Faces tokens (.closeParen :: rest)) :
    Crosses tokens p (q.take .parameters) := by
  obtain ⟨front, hfront, hconsumes⟩ := h
  exact ⟨.openParen :: front ++ [.closeParen], hfront.group, hconsumes.trans (.one hq rfl)⟩

theorem Crosses.group (hopen : p.Faces tokens (.openParen :: inner))
    (hclose : (p.moved stop).Faces tokens (.closeParen :: behind))
    (hbehind : Crosses tokens (((p.take .group).moved stop).take .group) q)
    (hinside : Crosses tokens (q.moved (p.position + 1)) r) (hr : r.position = stop) :
    Crosses tokens p (r.moved q.position) := by
  obtain ⟨front, hfront, hconsumes⟩ := hbehind
  obtain ⟨inside, hinside, hconsumes'⟩ := hinside
  exact ⟨_, hinside.group.append hfront, .group hopen hclose hconsumes hconsumes' hr⟩

/-- From inside a group, what is closed on the way does not reach the end of the group. -/
theorem Crosses.stays {inside : List Token} {depth : Nat} (h : Crosses tokens p q)
    (hp : p.Faces tokens ts)
    (hgroup : splitGroup (· == Token.openParen) (· == Token.closeParen) depth ts = some (inside, behind)) :
    q.position ≤ p.position + inside.length := by
  obtain ⟨front, hfront, hconsumes⟩ := h
  rw [hp.rest_eq, hconsumes.tokens_eq, hfront] at hgroup
  obtain ⟨⟨within, after⟩, -, he⟩ := Option.map_eq_some_iff.mp hgroup
  obtain ⟨rfl, -⟩ := Prod.mk.inj he
  rw [hconsumes.position_eq, List.length_append]
  omega

end Progress

section Groups

variable {α : Type} {opens closes : α → Bool} {depth k : Nat} {xs inside after : List α}

/-- The end of a group is the same from every place in it. -/
theorem splitGroup_drop (h : splitGroup opens closes depth xs = some (inside, after))
    (hk : k ≤ inside.length) :
    ∃ depth', splitGroup opens closes depth' (xs.drop k) = some (inside.drop k, after) := by
  induction k generalizing depth xs inside with
  | zero => exact ⟨depth, h⟩
  | succ k ih =>
    cases xs with
    | nil => cases h
    | cons x xs =>
      rw [splitGroup] at h
      split at h
      · cases h
        cases hk
      · obtain ⟨⟨inside', after'⟩, hrest, he⟩ := Option.map_eq_some_iff.mp h
        cases he
        exact ih hrest (Nat.le_of_succ_le_succ hk)

end Groups

theorem closing_eq (hp : p.Faces tokens (.openParen :: inner)) :
    closing tokens p.position =
      pure ((splitTokens inner).map fun found => p.position + 1 + found.1.length) := by
  have hapart : ∀ t : Token, (t == .openParen) = true → (t == .closeParen) = false := by
    intro t ht
    rw [beq_iff_eq.mp ht]
    rfl
  have hcons : ∀ (t : Token) (ts : List Token), (t :: ts).length = 1 + ts.length :=
    fun t ts => Nat.add_comm ts.length 1
  rw [closing, ← hp.rest_eq, groupEnd_opened hapart List.length_nil hcons rfl, splitTokens]

end QualType

end Bindery
