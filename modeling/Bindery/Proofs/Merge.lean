import Mathlib.Data.List.Induction
import Bindery.Proofs.Header

/-! How a header merges declarations of one kind and name. -/

namespace Bindery

namespace Decl

variable {ds : List Decl} {d e : Decl} {key : DeclKind × String}

/-- Both can be in one header. -/
def Compatible (a d : Decl) : Prop :=
  a.isAnonymous = false → d.isAnonymous = false → a.key = d.key →
    d.kind.isRecord ∧ (a.children = [] ∨ d.children = [])

theorem Compatible.symm {a d : Decl} (h : a.Compatible d) : d.Compatible a := by
  intro hd ha hkey
  obtain ⟨hrecord, hbody⟩ := h ha hd hkey.symm
  have hkind : d.kind = a.kind := congrArg Prod.fst hkey
  exact ⟨hkind ▸ hrecord, hbody.symm⟩

theorem isForward_iff {d : Decl} : d.isForward ↔ d.kind.isRecord ∧ d.children = [] := by
  simp [isForward]

/-- The declarations of a kind and name. Those without a name are of none. -/
def ofKey (key : DeclKind × String) (ds : List Decl) : List Decl :=
  ds.filter fun d => !d.isAnonymous && d.key == key

/-- The kinds and names of declarations, in the order in which they occur for the first time. -/
def firstKeys (ds : List Decl) : List (DeclKind × String) :=
  ((ds.filter (!·.isAnonymous)).map Decl.key).eraseDups

/-- The first declaration that is more than a forward declaration, and otherwise the last one. -/
def canonical? (ds : List Decl) : Option Decl :=
  (ds.find? (!·.isForward)).or ds.getLast?

def defines (key : DeclKind × String) (d : Decl) : Bool :=
  !d.isAnonymous && d.key == key && !d.isForward

theorem mem_ofKey : d ∈ ofKey key ds ↔ d ∈ ds ∧ d.isAnonymous = false ∧ d.key = key := by
  simp [ofKey]

theorem ofKey_concat_self (hd : d.isAnonymous = false) :
    ofKey d.key (ds ++ [d]) = ofKey d.key ds ++ [d] := by
  simp [ofKey, hd]

theorem ofKey_concat_other (hd : d.isAnonymous = false → d.key ≠ key) :
    ofKey key (ds ++ [d]) = ofKey key ds := by
  simp only [ofKey, List.filter_append, List.filter_singleton]
  cases hanonymous : d.isAnonymous with
  | true => simp
  | false => simp [beq_eq_false_iff_ne.mpr (hd hanonymous)]

theorem mem_firstKeys : key ∈ firstKeys ds ↔ ofKey key ds ≠ [] := by
  rw [firstKeys, List.mem_eraseDups, ne_eq, List.eq_nil_iff_forall_not_mem]
  simp [mem_ofKey, and_assoc]

theorem firstKeys_concat_anonymous (hd : d.isAnonymous = true) :
    firstKeys (ds ++ [d]) = firstKeys ds := by
  simp [firstKeys, hd]

theorem firstKeys_concat_old (hd : d.key ∈ firstKeys ds) :
    firstKeys (ds ++ [d]) = firstKeys ds := by
  cases hanonymous : d.isAnonymous with
  | true => exact firstKeys_concat_anonymous hanonymous
  | false =>
    rw [firstKeys, List.mem_eraseDups] at hd
    simp [firstKeys, hanonymous, List.eraseDups_append, List.removeAll, hd]

theorem firstKeys_concat_new (hd : d.isAnonymous = false) (hnew : d.key ∉ firstKeys ds) :
    firstKeys (ds ++ [d]) = firstKeys ds ++ [d.key] := by
  rw [firstKeys, List.mem_eraseDups] at hnew
  simp [firstKeys, hd, List.eraseDups_append, List.removeAll, hnew, List.eraseDups_cons]

theorem firstKeys_nodup (ds : List Decl) : (firstKeys ds).Nodup := by
  induction ds using List.reverseRecOn with
  | nil => exact List.nodup_nil
  | append_singleton ds d ih =>
    by_cases hold : d.key ∈ firstKeys ds
    · rwa [firstKeys_concat_old hold]
    · cases hd : d.isAnonymous with
      | true => rwa [firstKeys_concat_anonymous hd]
      | false =>
        rw [firstKeys_concat_new hd hold, ← List.concat_eq_append]
        exact ih.concat hold

theorem mem_of_canonical? (h : canonical? ds = some e) : e ∈ ds := by
  rcases Option.or_eq_some_iff.mp h with h | ⟨-, h⟩
  · exact List.mem_of_find?_eq_some h
  · exact List.mem_of_getLast? h

theorem exists_canonical? (hd : d ∈ ds) :
    ∃ e, canonical? ds = some e ∧ (d.isForward = false → e.isForward = false) := by
  cases hfound : ds.find? (!·.isForward) with
  | some e =>
    have hbody := List.find?_some hfound
    exact ⟨e, by rw [canonical?, hfound, Option.some_or], fun _ => by simpa using hbody⟩
  | none =>
    have hforward : d.isForward = true := by simpa using List.find?_eq_none.mp hfound d hd
    have hne : ds ≠ [] := List.ne_nil_of_mem hd
    refine ⟨ds.getLast hne, ?_, fun hbody => absurd (hforward.symm.trans hbody) (by simp)⟩
    rw [canonical?, hfound, Option.none_or, List.getLast?_eq_some_getLast hne]

theorem canonical?_concat_forward (hds : canonical? ds = some e) (he : e.isForward = true) :
    canonical? (ds ++ [d]) = some d := by
  have hnone : ds.find? (!·.isForward) = none := by
    by_contra hsome
    obtain ⟨e', hfound⟩ := Option.ne_none_iff_exists'.mp hsome
    have hbody := List.find?_some hfound
    rw [canonical?, hfound, Option.some_or, Option.some.injEq] at hds
    simp [hds, he] at hbody
  rw [canonical?, List.find?_append, hnone, List.getLast?_concat, Option.none_or]
  cases hfound : [d].find? (!·.isForward) with
  | none => rfl
  | some d' => rw [List.mem_singleton.mp (List.mem_of_find?_eq_some hfound), Option.some_or]

theorem canonical?_concat_body (hds : canonical? ds = some e) (he : e.isForward = false) :
    canonical? (ds ++ [d]) = some e := by
  cases hfound : ds.find? (!·.isForward) with
  | some e' =>
    rw [canonical?, hfound, Option.some_or] at hds
    rw [canonical?, List.find?_append, hfound, Option.some_or, Option.some_or, hds]
  | none =>
    rw [canonical?, hfound, Option.none_or] at hds
    exact absurd he (by simpa using List.find?_eq_none.mp hfound e (List.mem_of_getLast? hds))

theorem defines_iff :
    defines key d ↔ d.isAnonymous = false ∧ d.key = key ∧ d.isForward = false := by
  simp [defines, and_assoc]

/-- Two declarations can be in one header unless both of them define one thing. -/
theorem compatible_iff : e.Compatible d ↔ ∀ key, ¬(defines key e ∧ defines key d) := by
  simp only [defines_iff]
  constructor
  · rintro hc _ ⟨⟨he, hkey, hebody⟩, hd, rfl, hdbody⟩
    obtain ⟨hrecord, hempty⟩ := hc he hd hkey
    have hkind : e.kind = d.kind := congrArg Prod.fst hkey
    rcases hempty with hempty | hempty
    · exact absurd (isForward_iff.mpr ⟨hkind ▸ hrecord, hempty⟩) (by simp [hebody])
    · exact absurd (isForward_iff.mpr ⟨hrecord, hempty⟩) (by simp [hdbody])
  · intro hall he hd hkey
    have hkind : e.kind = d.kind := congrArg Prod.fst hkey
    by_cases hebody : e.isForward
    · obtain ⟨hrecord, hempty⟩ := isForward_iff.mp hebody
      exact ⟨hkind ▸ hrecord, .inl hempty⟩
    · by_cases hdbody : d.isForward
      · obtain ⟨hrecord, hempty⟩ := isForward_iff.mp hdbody
        exact ⟨hrecord, .inr hempty⟩
      · have hboth := hall d.key
        exact absurd ⟨⟨he, hkey, by simpa using hebody⟩, hd, rfl, by simpa using hdbody⟩ hboth

theorem length_filter_le_one_iff {α : Type} {p : α → Bool} {as : List α} :
    (as.filter p).length ≤ 1 ↔ as.Pairwise fun a b => ¬(p a ∧ p b) := by
  induction as with
  | nil => simp
  | cons a as ih =>
    by_cases ha : p a
    · have hnone : (as.filter p).length ≤ 0 ↔ ∀ b ∈ as, ¬p b := by simp
      rw [List.filter_cons_of_pos ha, List.length_cons, Nat.succ_le_succ_iff, hnone,
        List.pairwise_cons]
      refine ⟨fun hno => ⟨fun b hb hpb => hno b hb hpb.2, ?_⟩,
        fun hno b hb hpb => hno.1 b hb ⟨ha, hpb⟩⟩
      exact List.pairwise_of_forall_mem_list fun b hb c _ hpb => hno b hb hpb.1
    · rw [List.filter_cons_of_neg ha, ih, List.pairwise_cons]
      exact (and_iff_right fun b _ hpb => ha hpb.1).symm

theorem pairwise_compatible_iff :
    ds.Pairwise Compatible ↔ ∀ key, (ds.filter (defines key)).length ≤ 1 := by
  simp only [length_filter_le_one_iff, List.pairwise_iff_getElem, compatible_iff]
  exact ⟨fun h key i j hi hj hij => h i j hi hj hij key,
    fun h i j hi hj hij key => h key i j hi hj hij⟩

theorem filter_defines (key : DeclKind × String) (ds : List Decl) :
    ds.filter (defines key) = (ofKey key ds).filter (!·.isForward) := by
  rw [ofKey, List.filter_filter]
  exact List.filter_congr fun d _ => Bool.and_comm _ _

end Decl

namespace Header

open Decl (ofKey firstKeys canonical?)

variable {h h' : Header} {name : String} {source : SourceMap} {d : Decl} {ds more decls : List Decl}
  {e : HeaderEntry}

theorem find?_some {kind : DeclKind} {name : String} (hf : h.find? kind name = some e) :
    e ∈ h.entries ∧ e.key = (kind, name) := by
  unfold find? at hf
  have hdeclares := List.find?_some hf
  exact ⟨List.mem_of_find?_eq_some hf, HeaderEntry.declares_iff.mp hdeclares⟩

theorem find?_iff (hk : h.keys.Nodup) {kind : DeclKind} {name : String} :
    h.find? kind name = some e ↔ e ∈ h.entries ∧ e.key = (kind, name) := by
  refine ⟨find?_some, fun ⟨he, hkey⟩ => ?_⟩
  obtain ⟨e', he'⟩ : ∃ e', h.find? kind name = some e' := Option.isSome_iff_exists.mp
    (List.find?_isSome.mpr ⟨e, he, HeaderEntry.declares_iff.mpr hkey⟩)
  obtain ⟨hmem, hkey'⟩ := find?_some he'
  rw [he', List.inj_on_of_nodup_map hk hmem he (hkey'.trans hkey.symm)]

theorem insert_error {err : BindError} (hi : h.insert d = .error err) :
    err = .redeclaration d.kind.label d.name d.location := by
  unfold insert at hi
  split at hi
  · cases hi
  · split at hi
    · cases hi
    · split at hi
      · cases hi
      · split at hi
        · cases hi
        · exact (Except.error.inj hi).symm

/-- The header holds the declarations `ds`, one of each kind and name in the order in which these
occur for the first time. -/
structure Merges (name : String) (source : SourceMap) (h : Header) (ds : List Decl) : Prop where
  name : h.name = name
  source : h.source = source
  keys : h.keys = firstKeys ds
  entry : ∀ e ∈ h.entries, e.claimed = false ∧ canonical? (ofKey e.key ds) = some e.decl

namespace Merges

theorem start (name : String) (source : SourceMap) : Merges name source ⟨name, source, []⟩ [] :=
  ⟨rfl, rfl, rfl, nofun⟩

theorem skip (hm : h.Merges name source ds) (hd : d.isAnonymous = true) :
    h.Merges name source (ds ++ [d]) := by
  have hkeys := hm.keys.trans (Decl.firstKeys_concat_anonymous hd).symm
  refine ⟨hm.name, hm.source, hkeys, fun e he => ?_⟩
  rw [Decl.ofKey_concat_other fun hnamed => absurd (hd.symm.trans hnamed) (by simp)]
  exact hm.entry e he

theorem nodup (hm : h.Merges name source ds) : h.keys.Nodup :=
  hm.keys ▸ Decl.firstKeys_nodup ds

theorem find?_eq_none (hm : h.Merges name source ds) {key : DeclKind × String} :
    h.find? key.1 key.2 = none ↔ ofKey key ds = [] := by
  rw [find?_eq_none_iff, hm.keys, Decl.mem_firstKeys, not_not]

theorem append (hm : h.Merges name source ds) (hd : d.isAnonymous = false)
    (hf : h.find? d.kind d.name = none) :
    Merges name source { h with entries := h.entries ++ [⟨d, false⟩] } (ds ++ [d]) := by
  have hkey : d.key ∉ h.keys := find?_eq_none_iff.mp hf
  refine ⟨hm.name, hm.source, ?_, fun e he => ?_⟩
  · rw [Decl.firstKeys_concat_new hd (hm.keys ▸ hkey), ← hm.keys]
    exact List.map_append
  · rcases List.mem_append.mp he with he | he
    · have hnew : d.key ≠ e.key := fun hekey => hkey (hekey ▸ List.mem_map_of_mem he)
      rw [Decl.ofKey_concat_other fun _ => hnew]
      exact hm.entry e he
    · obtain rfl := List.mem_singleton.mp he
      have hnone : ofKey d.key ds = [] := hm.find?_eq_none.mp hf
      refine ⟨rfl, ?_⟩
      show canonical? (ofKey d.key (ds ++ [d])) = some d
      rw [Decl.ofKey_concat_self hd, hnone]
      cases hbody : d.isForward <;> simp [canonical?, hbody]

theorem replace (hm : h.Merges name source ds) (hd : d.isAnonymous = false)
    (hf : h.find? d.kind d.name = some e) (hforward : e.decl.isForward = true) :
    (h.replace d).Merges name source (ds ++ [d]) := by
  obtain ⟨he, hkey⟩ := find?_some hf
  have hold : d.key ∈ firstKeys ds := hm.keys ▸ List.mem_map.mpr ⟨e, he, hkey⟩
  refine ⟨hm.name, hm.source, ?_, fun a ha => ?_⟩
  · rw [replace_keys, hm.keys, Decl.firstKeys_concat_old hold]
  · obtain ⟨a₀, ha₀, rfl⟩ := List.mem_map.mp ha
    by_cases hdeclares : a₀.declares d.kind d.name
    · have hakey : a₀.key = e.key := (HeaderEntry.declares_iff.mp hdeclares).trans hkey.symm
      obtain rfl := List.inj_on_of_nodup_map hm.nodup ha₀ he hakey
      obtain ⟨hclaimed, hchosen⟩ := hm.entry a₀ ha₀
      rw [if_pos hdeclares]
      refine ⟨hclaimed, ?_⟩
      show canonical? (ofKey d.key (ds ++ [d])) = some d
      rw [Decl.ofKey_concat_self hd]
      rw [hkey] at hchosen
      exact Decl.canonical?_concat_forward hchosen hforward
    · rw [if_neg hdeclares, Decl.ofKey_concat_other fun _ hdkey =>
        hdeclares (HeaderEntry.declares_iff.mpr hdkey.symm)]
      exact hm.entry a₀ ha₀

theorem keep (hm : h.Merges name source ds) (hd : d.isAnonymous = false)
    (hf : h.find? d.kind d.name = some e) (hbody : e.decl.isForward = false) :
    h.Merges name source (ds ++ [d]) := by
  obtain ⟨he, hkey⟩ := find?_some hf
  have hold : d.key ∈ firstKeys ds := hm.keys ▸ List.mem_map.mpr ⟨e, he, hkey⟩
  refine ⟨hm.name, hm.source, hm.keys.trans (Decl.firstKeys_concat_old hold).symm, fun a ha => ?_⟩
  by_cases hakey : d.key = a.key
  · obtain rfl := List.inj_on_of_nodup_map hm.nodup ha he (hakey.symm.trans hkey.symm)
    obtain ⟨hclaimed, hchosen⟩ := hm.entry a ha
    rw [← hakey] at hchosen ⊢
    rw [Decl.ofKey_concat_self hd]
    exact ⟨hclaimed, Decl.canonical?_concat_body hchosen hbody⟩
  · rw [Decl.ofKey_concat_other fun _ => hakey]
    exact hm.entry a ha

theorem insert (hm : h.Merges name source ds) (hi : h.insert d = .ok h') :
    h'.Merges name source (ds ++ [d]) := by
  rcases insert_cases hi with ⟨hd, rfl⟩ | ⟨hd, ⟨hf, rfl⟩ | ⟨e, hf, -, hmerged⟩⟩
  · exact hm.skip hd
  · exact hm.append hd hf
  · rcases hmerged with ⟨hforward, rfl⟩ | ⟨hbody, -, rfl⟩
    · exact hm.replace hd hf hforward
    · exact hm.keep hd hf hbody

/-- What can be added is compatible with all that is in the pool or gave way to it. -/
theorem insert_ok_iff (hm : h.Merges name source ds) :
    (∃ h', h.insert d = .ok h') ↔ ∀ a ∈ ds, a.Compatible d := by
  constructor
  · rintro ⟨h', hi⟩ a ha
    rw [Decl.compatible_iff]
    rintro key ⟨hadefines, hddefines⟩
    obtain ⟨hnamed, hakey, habody⟩ := Decl.defines_iff.mp hadefines
    obtain ⟨hd, rfl, hdbody⟩ := Decl.defines_iff.mp hddefines
    obtain ⟨e', hchosen, he'⟩ :=
      Decl.exists_canonical? (Decl.mem_ofKey.mpr ⟨ha, hnamed, hakey⟩)
    rcases insert_cases hi with ⟨hd', -⟩ | ⟨-, ⟨hf, -⟩ | ⟨e, hf, -, hmerged⟩⟩
    · simp [hd] at hd'
    · rw [hm.find?_eq_none.mp hf] at hchosen
      cases hchosen
    · obtain ⟨he, hkey⟩ := find?_some hf
      have hsame : some e.decl = some e' := by
        rw [← hchosen, ← (hm.entry e he).2]
        exact congrArg (fun key => canonical? (ofKey key ds)) hkey
      have hbody : e.decl.isForward = false := Option.some.inj hsame ▸ he' habody
      rcases hmerged with ⟨hforward, -⟩ | ⟨-, hforward, -⟩
      · simp [hbody] at hforward
      · simp [hdbody] at hforward
  · intro hall
    unfold Header.insert
    split
    · exact ⟨_, rfl⟩
    · next hd =>
      cases hf : h.find? d.kind d.name with
      | none => exact ⟨_, rfl⟩
      | some e =>
        obtain ⟨he, hkey⟩ := find?_some hf
        obtain ⟨hmem, hnamed, -⟩ := Decl.mem_ofKey.mp (Decl.mem_of_canonical? (hm.entry e he).2)
        obtain ⟨hrecord, hbody⟩ := hall e.decl hmem hnamed (by simpa using hd) hkey
        have hkind : e.decl.kind = d.kind := congrArg Prod.fst hkey
        rcases hbody with hempty | hempty
        · simp [hrecord, Decl.isForward, hkind, hempty]
        · simp only [hrecord, Decl.isForward, hempty]
          split <;> exact ⟨_, rfl⟩

theorem insertAll (hm : h.Merges name source ds) (hh : more.foldlM Header.insert h = .ok h') :
    h'.Merges name source (ds ++ more) := by
  induction more generalizing h ds with
  | nil =>
    cases hh
    simpa using hm
  | cons d more ih =>
    rw [List.foldlM_cons] at hh
    obtain ⟨next, hn, hh⟩ := except_bind_ok hh
    simpa using ih (hm.insert hn) hh

theorem insertAll_ok_iff (hm : h.Merges name source ds) (hds : ds.Pairwise Decl.Compatible) :
    (∃ h', more.foldlM Header.insert h = .ok h') ↔ (ds ++ more).Pairwise Decl.Compatible := by
  induction more generalizing h ds with
  | nil => exact ⟨fun _ => by simpa using hds, fun _ => ⟨h, rfl⟩⟩
  | cons d more ih =>
    rw [List.foldlM_cons, List.append_cons]
    have hpairs : (ds ++ [d]).Pairwise Decl.Compatible ↔ ∀ a ∈ ds, a.Compatible d := by
      simp [List.pairwise_append, hds]
    cases hn : h.insert d with
    | ok next => exact ih (hm.insert hn) (hpairs.mpr (hm.insert_ok_iff.mp ⟨next, hn⟩))
    | error err =>
      refine ⟨nofun, fun hall => ?_⟩
      have hd := hpairs.mp (List.pairwise_append.mp hall).1
      obtain ⟨next, hn'⟩ := hm.insert_ok_iff.mpr hd
      cases hn.symm.trans hn'

/-- The first declaration that cannot be added is named by the error. -/
theorem insertAll_error (hm : h.Merges name source ds) {err : BindError}
    (hh : more.foldlM Header.insert h = .error err) :
    ∃ a d, [a, d].Sublist (ds ++ more) ∧ ¬a.Compatible d ∧
      err = .redeclaration d.kind.label d.name d.location := by
  induction more generalizing h ds with
  | nil => cases hh
  | cons d more ih =>
    rw [List.foldlM_cons] at hh
    cases hn : h.insert d with
    | ok next =>
      rw [hn] at hh
      simpa using ih (hm.insert hn) hh
    | error err' =>
      rw [hn] at hh
      cases hh
      have hclash : ¬∀ a ∈ ds, a.Compatible d := fun hall => by
        obtain ⟨next, hn'⟩ := hm.insert_ok_iff.mpr hall
        cases hn.symm.trans hn'
      simp only [not_forall] at hclash
      obtain ⟨a, ha, hclash⟩ := hclash
      have hboth : ([a] ++ [d]).Sublist (ds ++ d :: more) :=
        (List.singleton_sublist.mpr ha).append (List.singleton_sublist.mpr (.head _))
      exact ⟨a, d, hboth, hclash, insert_error hn⟩

theorem get?_eq (hm : h.Merges name source ds) (kind : DeclKind) (n : String) :
    h.get? kind n = canonical? (ofKey (kind, n) ds) := by
  cases hf : h.find? kind n with
  | none =>
    have hnone : ofKey (kind, n) ds = [] := hm.find?_eq_none.mp hf
    rw [get?, hf, hnone]
    rfl
  | some e =>
    obtain ⟨he, hkey⟩ := find?_some hf
    obtain ⟨hclaimed, hchosen⟩ := hm.entry e he
    rw [← hkey, hchosen]
    simp [get?, hf, hclaimed]

end Merges

theorem ofDecls_merges (hh : ofDecls name source decls = .ok h) : h.Merges name source decls :=
  (Merges.start name source).insertAll hh

/-- A header can be made of declarations of which any two of one kind and name are of a record, one
of them without members. -/
theorem ofDecls_ok_iff :
    (∃ h, ofDecls name source decls = .ok h) ↔ decls.Pairwise Decl.Compatible :=
  (Merges.start name source).insertAll_ok_iff .nil

/-- Whoever asks for a declaration gets one of its kind and name, and itself if it has members. -/
theorem ofDecls_get? (hh : ofDecls name source decls = .ok h) (hd : d ∈ decls)
    (hnamed : d.isAnonymous = false) :
    ∃ e ∈ decls, h.get? d.kind d.name = some e ∧ e.key = d.key ∧ (d.children = [] ∨ e = d) := by
  obtain ⟨e, hchosen, hbody⟩ := Decl.exists_canonical? (Decl.mem_ofKey.mpr ⟨hd, hnamed, rfl⟩)
  obtain ⟨he, henamed, hkey⟩ := Decl.mem_ofKey.mp (Decl.mem_of_canonical? hchosen)
  refine ⟨e, he, ((ofDecls_merges hh).get?_eq _ _).trans hchosen, hkey, ?_⟩
  refine or_iff_not_imp_left.mpr fun hmembers => ?_
  have hdbody : d.isForward = false := by simp [Decl.isForward, hmembers]
  have hone := Decl.pairwise_compatible_iff.mp (ofDecls_ok_iff.mp ⟨h, hh⟩) d.key
  obtain ⟨a, ha⟩ := List.length_eq_one_iff.mp (Nat.le_antisymm hone (List.length_pos_of_mem
    (List.mem_filter.mpr ⟨hd, Decl.defines_iff.mpr ⟨hnamed, rfl, hdbody⟩⟩)))
  have hmem : ∀ a' ∈ decls, Decl.defines d.key a' → a' = a := fun a' ha' hdefines =>
    List.mem_singleton.mp (ha ▸ List.mem_filter.mpr ⟨ha', hdefines⟩)
  rw [hmem e he (Decl.defines_iff.mpr ⟨henamed, hkey, hbody hdbody⟩),
    hmem d hd (Decl.defines_iff.mpr ⟨hnamed, rfl, hdbody⟩)]

end Header

end Bindery
