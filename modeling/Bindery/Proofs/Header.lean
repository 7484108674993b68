import Mathlib.Data.List.Nodup
import Bindery.Header
import Bindery.Proofs.Result

/-! What becomes of the entries of a header. An entry that is claimed stays so. -/

namespace Bindery

def Decl.key (d : Decl) : DeclKind × String :=
  (d.kind, d.name)

def HeaderEntry.key (e : HeaderEntry) : DeclKind × String :=
  (e.decl.kind, e.decl.name)

theorem HeaderEntry.declares_iff {e : HeaderEntry} {kind : DeclKind} {name : String} :
    e.declares kind name ↔ e.key = (kind, name) := by
  simp [declares, key]

namespace Header

variable {h h' h'' : Header} {i : Nat} {d : Decl}

def keys (h : Header) : List (DeclKind × String) :=
  h.entries.map HeaderEntry.key

/-- The header at a later time, when entries may have been claimed. -/
def Later (h h' : Header) : Prop :=
  ∃ p, h' = h.claim p

theorem claim_later (h : Header) (p : HeaderEntry → Bool) : h.Later (h.claim p) :=
  ⟨p, rfl⟩

theorem ignore_later {name : String} (hi : h.ignore name = .ok h') : h.Later h' := by
  unfold ignore at hi
  split at hi
  · cases hi
    exact h.claim_later _
  · cases hi

theorem Later.refl (h : Header) : h.Later h :=
  ⟨fun _ => false, by simp [claim]⟩

theorem Later.trans (hl : h.Later h') (hl' : h'.Later h'') : h.Later h'' := by
  obtain ⟨p, rfl⟩ := hl
  obtain ⟨q, rfl⟩ := hl'
  refine ⟨fun e => p e || q (if p e then { e with claimed := true } else e), ?_⟩
  simp only [claim, List.map_map, mk.injEq, true_and]
  apply List.map_congr_left
  intro e _
  by_cases hp : p e <;> simp [hp]

theorem claim_getElem? (h : Header) (p : HeaderEntry → Bool) (i : Nat) :
    (h.claim p).entries[i]? =
      h.entries[i]?.map fun e => if p e then { e with claimed := true } else e :=
  List.getElem?_map

theorem Later.claimed (hl : h.Later h') (hi : h.entries[i]? = some ⟨d, true⟩) :
    h'.entries[i]? = some ⟨d, true⟩ := by
  obtain ⟨p, rfl⟩ := hl
  simp [claim_getElem?, hi]

theorem Later.unclaimed (hl : h.Later h') (hi : h'.entries[i]? = some ⟨d, false⟩) :
    h.entries[i]? = some ⟨d, false⟩ := by
  obtain ⟨p, rfl⟩ := hl
  rw [claim_getElem?, Option.map_eq_some_iff] at hi
  obtain ⟨e, he, hd⟩ := hi
  by_cases hp : p e <;> simp_all

theorem Later.keys_eq (hl : h.Later h') : h'.keys = h.keys := by
  obtain ⟨p, rfl⟩ := hl
  simp only [keys, claim, List.map_map]
  apply List.map_congr_left
  intro e _
  by_cases hp : p e <;> simp [hp, HeaderEntry.key]

theorem get?_some {kind : DeclKind} {name : String} (hg : h.get? kind name = some d) :
    ∃ i : Nat, h.entries[i]? = some ⟨d, false⟩ ∧ d.kind = kind ∧ d.name = name := by
  simp only [get?, find?, Option.map_eq_some_iff, Option.filter_eq_some_iff] at hg
  obtain ⟨⟨d', claimed⟩, ⟨hf, hc⟩, rfl⟩ := hg
  obtain rfl : claimed = false := by simpa using hc
  obtain ⟨i, hi⟩ := List.getElem?_of_mem (List.mem_of_find?_eq_some hf)
  have hd := List.find?_some hf
  exact ⟨i, hi, Prod.mk.inj (HeaderEntry.declares_iff.mp hd)⟩

/-- Taking a declaration claims its entry, which was not claimed before. -/
theorem pop_ok {kind : DeclKind} {name : String} (hp : h.pop kind name = .ok (d, h')) :
    h.Later h' ∧ ∃ i : Nat, h.entries[i]? = some ⟨d, false⟩ ∧ h'.entries[i]? = some ⟨d, true⟩ ∧
      d.kind = kind ∧ d.name = name := by
  cases hg : h.get? kind name with
  | none => simp [pop, hg] at hp
  | some d' =>
    simp only [pop, hg, Except.ok.injEq, Prod.mk.injEq] at hp
    obtain ⟨rfl, rfl⟩ := hp
    obtain ⟨i, hi, hkind, hname⟩ := get?_some hg
    have hdeclares := HeaderEntry.declares_iff (e := ⟨d', false⟩).mpr (Prod.ext hkind hname)
    exact ⟨h.claim_later _, i, hi, by simp [claim_getElem?, hi, hdeclares], hkind, hname⟩

/-- Headers come from lists of declarations. -/
def Built (h : Header) : Prop :=
  ∃ name source decls, ofDecls name source decls = .ok h

theorem find?_eq_none_iff {key : DeclKind × String} :
    h.find? key.1 key.2 = none ↔ key ∉ h.keys := by
  rw [find?, List.find?_eq_none, keys, List.mem_map]
  simp only [HeaderEntry.declares_iff, not_exists, not_and]

/-- Puts a declaration into the place of the one of its kind and name. -/
def replace (h : Header) (d : Decl) : Header :=
  { h with entries := h.entries.map fun e =>
    if e.declares d.kind d.name then { e with decl := d } else e }

theorem replace_keys (h : Header) (d : Decl) : (h.replace d).keys = h.keys := by
  simp only [keys, replace, List.map_map]
  apply List.map_congr_left
  intro e _
  by_cases hd : e.declares d.kind d.name
  · simpa [hd, HeaderEntry.key] using (HeaderEntry.declares_iff.mp hd).symm
  · simp [hd]

/-- What adding a declaration comes to. -/
theorem insert_cases (hi : h.insert d = .ok h') :
    d.isAnonymous = true ∧ h' = h ∨
    d.isAnonymous = false ∧
      (h.find? d.kind d.name = none ∧ h' = { h with entries := h.entries ++ [⟨d, false⟩] } ∨
      ∃ e, h.find? d.kind d.name = some e ∧ d.kind.isRecord = true ∧
        (e.decl.isForward = true ∧ h' = h.replace d ∨
          e.decl.isForward = false ∧ d.isForward = true ∧ h' = h)) := by
  unfold insert at hi
  split at hi
  · next hd => exact .inl ⟨hd, by cases hi; rfl⟩
  · next hd =>
    refine .inr ⟨by simpa using hd, ?_⟩
    split at hi
    · next hf => exact .inl ⟨hf, by cases hi; rfl⟩
    · next e hf =>
      refine .inr ⟨e, hf, ?_⟩
      split at hi
      · next hforward =>
        obtain ⟨hrecord, hforward⟩ := Bool.and_eq_true_iff.mp hforward
        exact ⟨hrecord, .inl ⟨hforward, by cases hi; rfl⟩⟩
      · next hbody =>
        split at hi
        · next hforward =>
          obtain ⟨hrecord, hforward⟩ := Bool.and_eq_true_iff.mp hforward
          have hbody : e.decl.isForward = false := by simpa [hrecord] using hbody
          exact ⟨hrecord, .inr ⟨hbody, hforward, by cases hi; rfl⟩⟩
        · cases hi

theorem insert_keys_nodup (hk : h.keys.Nodup) (hi : h.insert d = .ok h') : h'.keys.Nodup := by
  rcases insert_cases hi with ⟨-, rfl⟩ | ⟨-, ⟨hf, rfl⟩ | ⟨e, -, -, ⟨-, rfl⟩ | ⟨-, -, rfl⟩⟩⟩
  · exact hk
  · have hnew : d.key ∉ h.keys := find?_eq_none_iff.mp hf
    rw [keys, List.map_append]
    refine List.nodup_append.mpr ⟨hk, List.nodup_singleton _, ?_⟩
    rintro k hold _ hone rfl
    obtain rfl := List.mem_singleton.mp hone
    exact hnew hold
  · rwa [replace_keys]
  · exact hk

theorem Built.keys_nodup (hb : h.Built) : h.keys.Nodup := by
  obtain ⟨name, source, decls, hb⟩ := hb
  have hfold : ∀ start : Header, start.keys.Nodup → decls.foldlM insert start = .ok h →
      h.keys.Nodup := by
    clear hb
    induction decls with
    | nil =>
      intro start hs hok
      cases hok
      exact hs
    | cons d ds ih =>
      intro start hs hok
      rw [List.foldlM_cons] at hok
      obtain ⟨next, hn, hok⟩ := except_bind_ok hok
      exact ih next (insert_keys_nodup hs hn) hok
  exact hfold ⟨name, source, []⟩ List.nodup_nil hb

/-- The header gives a declaration out in no way. -/
structure Withholds (h : Header) (d : Decl) : Prop where
  get? : ∀ kind name, h.get? kind name ≠ some d
  pop : ∀ kind name h', h.pop kind name ≠ .ok (d, h')
  available : ∀ kind, d ∉ h.available kind
  functionsWith : d.kind = .function → ∀ stem, d.name ∉ h.functionsWith stem
  unclaimed : d ∉ h.unclaimed

/-- A declaration whose entry is claimed is never given out again. -/
theorem Later.withholds (hl : h.Later h') (hk : h.keys.Nodup) (hi : ⟨d, true⟩ ∈ h.entries) :
    h'.Withholds d := by
  have hclaimed : ⟨d, true⟩ ∈ h'.entries := by
    obtain ⟨i, hi⟩ := List.getElem?_of_mem hi
    exact List.mem_of_getElem? (hl.claimed hi)
  have hother : ∀ d', ⟨d', false⟩ ∈ h'.entries → (d'.kind, d'.name) ≠ (d.kind, d.name) := by
    intro d' hd' hkey
    have he := List.inj_on_of_nodup_map (hl.keys_eq ▸ hk) hd' hclaimed hkey
    cases he
  have hopen : ∀ d' ∈ h'.unclaimed, ⟨d', false⟩ ∈ h'.entries := by
    intro d' hd'
    simp only [Header.unclaimed, List.mem_map, List.mem_filter] at hd'
    obtain ⟨⟨d'', claimed⟩, ⟨he, hc⟩, rfl⟩ := hd'
    obtain rfl : claimed = false := by simpa using hc
    exact he
  constructor
  · intro kind name hg
    obtain ⟨i, hi, _⟩ := get?_some hg
    exact hother d (List.mem_of_getElem? hi) rfl
  · intro kind name h'' hp
    obtain ⟨_, i, hi, _⟩ := pop_ok hp
    exact hother d (List.mem_of_getElem? hi) rfl
  · intro kind ha
    exact hother d (hopen d (List.mem_filter.mp ha).1) rfl
  · intro hfunc stem hs
    simp only [Header.functionsWith, List.mem_filter, List.mem_map, Header.available] at hs
    obtain ⟨⟨d', ⟨hd', hkind⟩, hname⟩, _⟩ := hs
    exact hother d' (hopen d' hd') (by simp_all)
  · intro hu
    exact hother d (hopen d hu) rfl

end Header

end Bindery
