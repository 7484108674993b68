import Bindery.Proofs.Dump.Unit
import Bindery.Proofs.Merge

/-! The pool that the declarations of a dump make. There is one unless a record is defined twice. -/

namespace Bindery

namespace Decl

variable {ds ds' : List Decl}

/-- Two lists with the same declarations of each kind and name. The forward declarations stand in
the same order, and so do the other ones; how the two are mixed may differ. -/
def Mixed (ds ds' : List Decl) : Prop :=
  ∀ key, (ofKey key ds).filter isForward = (ofKey key ds').filter isForward ∧
    (ofKey key ds).filter (!·.isForward) = (ofKey key ds').filter (!·.isForward)

/-- A header can be made of declarations if no two of them, records apart, are of one kind and name
and no two with members are of one record. -/
theorem pairwise_compatible_iff_lengths : ds.Pairwise Compatible ↔
    (∀ key, key.1.isRecord = false → (ofKey key ds).length ≤ 1) ∧
    ∀ key, key.1.isRecord = true → ((ofKey key ds).filter (!·.children.isEmpty)).length ≤ 1 := by
  have hkind : ∀ key, ∀ d ∈ ofKey key ds, d.kind = key.1 := fun key d hd =>
    congrArg Prod.fst (mem_ofKey.mp hd).2.2
  have hother : ∀ key, key.1.isRecord = false →
      (ofKey key ds).filter (!·.isForward) = ofKey key ds := fun key hrecord =>
    List.filter_eq_self.mpr fun d hd => by simp [isForward, hkind key d hd, hrecord]
  have hrecords : ∀ key, key.1.isRecord = true → (ofKey key ds).filter (!·.isForward) =
      (ofKey key ds).filter (!·.children.isEmpty) := fun key hrecord =>
    List.filter_congr fun d hd => by simp [isForward, hkind key d hd, hrecord]
  simp only [pairwise_compatible_iff, filter_defines]
  constructor
  · intro h
    exact ⟨fun key hrecord => hother key hrecord ▸ h key,
      fun key hrecord => hrecords key hrecord ▸ h key⟩
  · rintro ⟨hothers, hmembers⟩ key
    cases hrecord : key.1.isRecord with
    | false => exact (hother key hrecord).symm ▸ hothers key hrecord
    | true => exact (hrecords key hrecord).symm ▸ hmembers key hrecord

theorem Mixed.of_filter (hforward : ds.filter isForward = ds'.filter isForward)
    (hother : ds.filter (!·.isForward) = ds'.filter (!·.isForward)) : Mixed ds ds' := by
  refine fun key => ⟨?_, ?_⟩
  · rw [ofKey, List.filter_comm, hforward, List.filter_comm, ofKey]
  · rw [ofKey, List.filter_comm, hother, List.filter_comm, ofKey]

theorem Mixed.pairwise_iff (h : Mixed ds ds') :
    ds.Pairwise Compatible ↔ ds'.Pairwise Compatible := by
  simp only [pairwise_compatible_iff, filter_defines, fun key => (h key).2]

theorem canonical?_eq (ds : List Decl) :
    canonical? ds = ((ds.filter (!·.isForward)).head?).or (ds.filter isForward).getLast? := by
  rw [canonical?, ← List.head?_filter]
  cases hbodies : ds.filter (!·.isForward) with
  | cons d bodies => rfl
  | nil =>
    have hall : ds.filter isForward = ds := List.filter_eq_self.mpr fun d hd => by
      simpa using List.filter_eq_nil_iff.mp hbodies d hd
    rw [hall]

theorem Mixed.canonical?_eq (h : Mixed ds ds') (key : DeclKind × String) :
    canonical? (ofKey key ds) = canonical? (ofKey key ds') := by
  rw [Decl.canonical?_eq, Decl.canonical?_eq, (h key).1, (h key).2]

end Decl

namespace Header

open Decl (ofKey firstKeys canonical?)

variable {h h' : Header} {name : String} {source : SourceMap} {d : Decl} {ds : List Decl}

namespace Merges

theorem entries_eq (hm : h.Merges name source ds) : h.entries.map some =
    (firstKeys ds).map fun key => (canonical? (ofKey key ds)).map (⟨·, false⟩) := by
  rw [← hm.keys, Header.keys, List.map_map]
  refine List.map_congr_left fun e he => ?_
  obtain ⟨hclaimed, hchosen⟩ := hm.entry e he
  rw [Function.comp_apply, hchosen, ← hclaimed]
  rfl

theorem eq_of_mixed {ds' : List Decl} (hm : h.Merges name source ds)
    (hm' : h'.Merges name source ds') (hmixed : Decl.Mixed ds ds')
    (hkeys : firstKeys ds = firstKeys ds') : h = h' := by
  have hentries : h.entries.map some = h'.entries.map some := by
    simp only [hm.entries_eq, hm'.entries_eq, hkeys, hmixed.canonical?_eq]
  have hsame : h.entries = h'.entries :=
    List.map_injective_iff.mpr (fun _ _ => Option.some.inj) hentries
  cases h
  cases h'
  obtain rfl := hm.name
  obtain rfl := hm.source
  obtain rfl := hm'.name
  obtain rfl := hm'.source
  cases hsame
  rfl

end Merges

/-- The declarations of a dump, records apart, are of different kinds and names, so that only two
definitions of one record can keep them from making a pool. -/
theorem ofDump_clash {o : Origin} {dump : Json} {u : HeaderUnit}
    (hu : HeaderUnit.ofDump o dump = .ok u) {a : Decl} (hboth : [a, d].Sublist u.decls)
    (hclash : ¬a.Compatible d) :
    a.key = d.key ∧ d.isAnonymous = false ∧ d.kind.isRecord = true ∧ a.children ≠ [] ∧
      d.children ≠ [] := by
  obtain ⟨built, defines, hloads⟩ := HeaderUnit.ofDump_loads hu
  have hdistinct : a.key = d.key → a.mayRepeat :=
    List.pairwise_pair.mp (hloads.distinct.sublist hboth)
  simp only [Decl.Compatible, Classical.not_imp] at hclash
  obtain ⟨ha, hd, hkey, hclash⟩ := hclash
  have hrecord : d.kind.isRecord = true := by
    have hrepeat := hdistinct hkey
    rw [Decl.mayRepeat_eq hkey] at hrepeat
    simpa [Decl.mayRepeat, hd] using hrepeat
  obtain ⟨habody, hdbody⟩ := not_or.mp fun hempty => hclash ⟨hrecord, hempty⟩
  exact ⟨hkey, hd, hrecord, habody, hdbody⟩

/-- A list of declarations makes a pool if, those without a name left aside, no kind and name but
that of a record occurs twice and no two declarations of one record have members. The pool then
holds each kind and name once, where it occurred first, and gives out the declaration with members
or else the last forward declaration. How forward declarations and definitions are mixed makes no
difference. What is loaded from a dump fails to make a pool only because of two definitions of one
record. -/
theorem ofDecls_merged (name : String) (source : SourceMap) (decls : List Decl) :
    ((∃ h, ofDecls name source decls = .ok h) ↔
      (∀ key, key.1.isRecord = false → (ofKey key decls).length ≤ 1) ∧
      ∀ key, key.1.isRecord = true → ((ofKey key decls).filter (!·.children.isEmpty)).length ≤ 1) ∧
    (∀ h, ofDecls name source decls = .ok h → h.keys = firstKeys decls ∧ h.keys.Nodup ∧
      ∀ kind n, h.get? kind n = canonical? (ofKey (kind, n) decls)) ∧
    (∀ decls', Decl.Mixed decls decls' →
      ((∃ h, ofDecls name source decls = .ok h) ↔ ∃ h, ofDecls name source decls' = .ok h) ∧
      ∀ h h', ofDecls name source decls = .ok h → ofDecls name source decls' = .ok h' →
        (∀ kind n, h.get? kind n = h'.get? kind n) ∧
        (firstKeys decls = firstKeys decls' → h = h')) ∧
    ∀ o dump u err, HeaderUnit.ofDump o dump = .ok u → u.toHeader = .error err →
      ∃ a d, [a, d].Sublist u.decls ∧ a.key = d.key ∧ d.isAnonymous = false ∧
        d.kind.isRecord = true ∧ a.children ≠ [] ∧ d.children ≠ [] ∧
        err = .redeclaration d.kind.label d.name d.location := by
  refine ⟨ofDecls_ok_iff.trans Decl.pairwise_compatible_iff_lengths, fun h hh => ?_,
    fun decls' hmixed => ⟨?_, fun h h' hh hh' => ⟨fun kind n => ?_, fun hkeys => ?_⟩⟩,
    fun o dump u err hu herr => ?_⟩
  · exact ⟨(ofDecls_merges hh).keys, Built.keys_nodup ⟨name, source, decls, hh⟩,
      (ofDecls_merges hh).get?_eq⟩
  · rw [ofDecls_ok_iff, ofDecls_ok_iff, hmixed.pairwise_iff]
  · rw [(ofDecls_merges hh).get?_eq, (ofDecls_merges hh').get?_eq, hmixed.canonical?_eq]
  · exact (ofDecls_merges hh).eq_of_mixed (ofDecls_merges hh') hmixed hkeys
  · obtain ⟨a, d, hboth, hclash, rfl⟩ := (Merges.start u.name u.source).insertAll_error herr
    obtain ⟨hkey, hnamed, hrecord, hmembers⟩ := ofDump_clash hu hboth hclash
    exact ⟨a, d, hboth, hkey, hnamed, hrecord, hmembers.1, hmembers.2, rfl⟩

def pairForward : Decl :=
  Decl.bare .struct "pair" .unknown

def pairDefinition : Decl :=
  { pairForward with children := [Decl.bare .field "left" .unknown] }

def pairMaker : Decl :=
  Decl.bare .function "pair_new" .unknown

/-- The forward declaration may stand before the definition or behind a function. -/
theorem pair_merged : ∃ h, ofDecls "pair.h" {} [pairForward, pairDefinition, pairMaker] = .ok h ∧
    h.keys = [(.struct, "pair"), (.function, "pair_new")] ∧
    h.get? .struct "pair" = some pairDefinition ∧
    Decl.Mixed [pairForward, pairDefinition, pairMaker] [pairDefinition, pairMaker, pairForward] ∧
    ofDecls "pair.h" {} [pairDefinition, pairMaker, pairForward] = .ok h := by
  have hmixed : Decl.Mixed [pairForward, pairDefinition, pairMaker]
      [pairDefinition, pairMaker, pairForward] := .of_filter rfl rfl
  obtain ⟨-, hheld, hother, -⟩ :=
    ofDecls_merged "pair.h" {} [pairForward, pairDefinition, pairMaker]
  have hh : ∃ h, ofDecls "pair.h" {} [pairForward, pairDefinition, pairMaker] = .ok h := ⟨_, rfl⟩
  obtain ⟨hiff, hsame⟩ := hother _ hmixed
  obtain ⟨h', hh'⟩ := hiff.mp hh
  obtain ⟨h, hh⟩ := hh
  obtain ⟨hkeys, -, hget⟩ := hheld h hh
  obtain rfl := (hsame h h' hh hh').2 (by decide)
  exact ⟨h, hh, hkeys.trans (by decide), (hget _ _).trans rfl, hmixed, hh'⟩

end Header

end Bindery
