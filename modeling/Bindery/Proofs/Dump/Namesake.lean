import Mathlib
import Bindery.Proofs.Dump.Unit
import Bindery.Proofs.Path

/-! Which files are taken for the header of a dump: all whose path ends in its name. -/

namespace Bindery

variable {o : Origin} {dump : Json} {u : HeaderUnit} {n : Node} {d : Decl} {file name : String}

namespace Origin

theorem names_path (o : Origin) :
    Path.names o.name.toList <:+ Path.names o.path.toList := by
  rw [Origin.name]
  cases h : Path.fileName? o.path with
  | none => exact List.suffix_refl _
  | some name =>
    obtain ⟨dir, hdir⟩ := Path.names_fileName h
    exact ⟨dir, hdir.symm⟩

theorem endsInName_iff : endsInName file name ↔
    ∃ dir c, Path.isSeparator c ∧ file.toList = dir ++ c :: name.toList := by
  unfold endsInName
  constructor
  · intro h
    obtain ⟨hends, hhead⟩ := Bool.and_eq_true_iff.mp h
    obtain ⟨rest, hrest⟩ := List.isPrefixOf_iff_prefix.mp hends
    rw [← hrest, List.drop_left] at hhead
    cases rest with
    | nil => cases hhead
    | cons c dir =>
      refine ⟨dir.reverse, c, hhead, ?_⟩
      have hfile := congrArg List.reverse hrest
      simpa using hfile.symm
  · rintro ⟨dir, c, hc, hfile⟩
    have hreverse : file.toList.reverse = name.toList.reverse ++ c :: dir.reverse := by simp [hfile]
    have hends : name.toList.reverse.isPrefixOf (name.toList.reverse ++ c :: dir.reverse) :=
      List.isPrefixOf_iff_prefix.mpr (List.prefix_append _ _)
    simp only [hreverse, hends, List.drop_left, List.head?_cons, Bool.true_and]
    exact hc

/-- A file that is taken for the header has its name. -/
theorem names_of_isMain (h : o.isMain file) :
    Path.names o.name.toList <:+ Path.names file.toList := by
  rcases Bool.or_eq_true_iff.mp h with h | h
  · rcases Bool.or_eq_true_iff.mp h with h | h
    · rw [eq_of_beq h]
      exact o.names_path
    · rw [eq_of_beq h]
  · obtain ⟨dir, c, hc, hfile⟩ := endsInName_iff.mp h
    rw [hfile, Path.names_append hc]
    exact List.suffix_append (Path.names dir) _

/-- A header whose path is more than a name has a namesake in another directory. -/
theorem exists_namesake (h : Path.components o.path ≠ Path.names o.name.toList) :
    ∃ file, o.isMain file ∧ ¬ Path.Related file o.path := by
  obtain ⟨dir, hdir⟩ := o.names_path.trans (Path.names_suffix o.path)
  have hne : dir ≠ [] := by
    rintro rfl
    exact h hdir.symm
  obtain ⟨above, last, rfl⟩ : ∃ above last, dir = above ++ [last] :=
    ⟨_, _, (List.dropLast_append_getLast hne).symm⟩
  -- a directory that is not the one of the header
  obtain ⟨x, hx, hidle, hlast⟩ : ∃ x, Path.isSeparator x = false ∧ Path.isIdlePiece [x] = false ∧
      [x] ≠ last := by
    by_cases hlast : last = ['x']
    · exact ⟨'y', rfl, rfl, by simp [hlast]⟩
    · exact ⟨'x', rfl, rfl, fun he => hlast he.symm⟩
  have hcomponents : Path.components (String.ofList ([x] ++ '/' :: o.name.toList)) =
      [[x]] ++ Path.names o.name.toList := by
    rw [Path.components, String.toList_ofList, Path.front_append rfl, Path.names_append rfl]
    simp [Path.front, Path.names, List.splitOnP_cons_eq_if_modifyHead, hx, hidle]
  refine ⟨String.ofList ([x] ++ '/' :: o.name.toList), ?_, ?_⟩
  · have hends : endsInName (String.ofList ([x] ++ '/' :: o.name.toList)) o.name :=
      endsInName_iff.mpr ⟨[x], '/', rfl, String.toList_ofList⟩
    rw [isMain, hends, Bool.or_true]
  · rw [Path.Related, hcomponents, ← hdir]
    rintro (hshort | hlong)
    · obtain ⟨rest, hrest⟩ := List.suffix_append_self_iff.mp hshort
      obtain ⟨-, hsame⟩ := List.append_inj' hrest rfl
      exact hlast (List.cons.inj hsame).1
    · have hsingle : above ++ [last] = [] ++ [[x]] :=
        (List.suffix_append_self_iff.mp hlong).eq_of_length_le (by simp)
      obtain ⟨-, hsame⟩ := List.append_inj' hsingle rfl
      exact hlast (List.cons.inj hsame).1.symm

end Origin

namespace HeaderUnit

/-- The declaration is kept for a node that is taken as one of the header. -/
structure KeptFor (o : Origin) (dump : Json) (u : HeaderUnit) (n : Node) (d : Decl) : Prop where
  mem : n ∈ topNodes dump
  declares : declares o n
  kept : d ∈ u.decls
  builds : Builds (dumpNames o dump) (typedefs (topNodes dump)) n d

/-- A file is taken for the header: a node in it is kept, or its positions are looked up in the text of
the header although it has another text or none. -/
inductive TakenFor (o : Origin) (dump : Json) (u : HeaderUnit) (file : String) : Prop where
  | node {n : Node} {d : Decl} (h : KeptFor o dump u n d)
      (hfile : n.place.written.map (·.file) = some file) : TakenFor o dump u file
  | text (h : u.source.text? file = some o.text) (hother : o.readable file ≠ some o.text) :
      TakenFor o dump u file

theorem mainFile?_eq_some (h : mainFile? o n = some file) :
    n.place.written.map (·.file) = some file := by
  obtain ⟨-, p, hp, rfl⟩ := mainFile?_some h
  simp [hp]

theorem TakenFor.isMain (hu : ofDump o dump = .ok u) (h : TakenFor o dump u file) :
    o.isMain file := by
  cases h with
  | node h hfile =>
    obtain ⟨file', hmain⟩ := Option.isSome_iff_exists.mp (Bool.and_eq_true_iff.mp h.declares).1
    obtain rfl : file' = file := Option.some.inj ((mainFile?_eq_some hmain).symm.trans hfile)
    exact (mainFile?_some hmain).1
  | text h hother =>
    have htext := ofDump_holds hu file o.text h
    by_contra hfile
    rw [Origin.text?, if_neg hfile] at htext
    exact hother htext

/-- The dump of a header with one function, of which the dump says that it is written in a file. -/
def functionDump (file : String) : Json :=
  dumpedUnit [dumped "FunctionDecl" "f" ⟨file, 1, 6, 5, 1⟩
    [("type", .obj [("qualType", .str "void (void)")])]]

def functionIn (file : String) : Node :=
  let p : Point := ⟨file, 1, 6, 5, 1⟩
  ⟨"FunctionDecl", "f", ⟨some p, some p⟩, {}, {}, some "void (void)", false, false, none, none, none, []⟩

theorem functionDump_nodes (file : String) : topNodes (functionDump file) = [functionIn file] := by
  cbv

theorem functionDump_root (file : String) :
    (root (functionDump file)).kind = "TranslationUnitDecl" := by
  cbv

/-- A function without parameters is loaded from whatever file is taken for the header. -/
theorem functionDump_taken (hmain : o.isMain file) :
    ∃ u, ofDump o (functionDump file) = .ok u ∧ TakenFor o (functionDump file) u file := by
  have hnodes := functionDump_nodes file
  obtain ⟨u, hu⟩ : ∃ u, ofDump o (functionDump file) = .ok u := by
    refine (ofDump_ok_iff (functionDump_root file)).mpr fun t ht => ?_
    cases ht with
    | part hn _ hp =>
      rw [hnodes] at hn
      obtain rfl := List.mem_singleton.mp hn
      obtain rfl : t = ⟨.function, functionIn file⟩ := List.mem_singleton.mp hp
      have hplaceable : (functionIn file).Placeable o .function := ⟨rfl, nofun⟩
      exact (Node.loadable_plain_iff rfl (by simp)).mpr hplaceable
    | typedef _ _ _ ht =>
      have hmem := ht.mem
      rw [hnodes] at hmem
      cases hmem
  obtain ⟨built, defines, h⟩ := ofDump_loads hu
  have hfile : mainFile? o (functionIn file) = some file := by
    simp [mainFile?, functionIn, Place.written, Option.filter, hmain]
  have hdeclares : declares o (functionIn file) := by
    rw [declares, hfile]
    rfl
  have hfirst : ((topNodes (functionDump file)).filter (declares o)).find?
      (·.key? == some (.function, "f")) = some (functionIn file) := by
    have hkey : (functionIn file).key? = some (.function, "f") := rfl
    rw [hnodes, List.filter_cons_of_pos hdeclares, List.find?_cons, hkey]
    rfl
  obtain ⟨d, hd, hb⟩ := h.exists_first hfirst
  have hkept : KeptFor o (functionDump file) u (functionIn file) d :=
    ⟨by simp [hnodes], hdeclares, hd, hb⟩
  exact ⟨u, hu, .node hkept (mainFile?_eq_some hfile)⟩

/-- Every declaration of a dump is kept for a constant of the text or for a node in a file of the header's
name, and only such files are taken for the header. That they are all parts of one path with the header,
in every dump of it, means that its path has nothing before the name. -/
theorem header_files_iff (o : Origin) :
    (∀ dump u, ofDump o dump = .ok u →
      (∀ d ∈ u.decls, d.Defined o ∨ ∃ n, KeptFor o dump u n d) ∧
      ∀ file, TakenFor o dump u file → Path.names o.name.toList <:+ Path.names file.toList) ∧
    ((∀ dump u file, ofDump o dump = .ok u → TakenFor o dump u file → Path.Related file o.path) ↔
      Path.components o.path = Path.names o.name.toList) := by
  refine ⟨fun dump u hu => ⟨fun d hd => ?_, fun file h => ?_⟩, fun hall => ?_, fun hbare => ?_⟩
  · obtain ⟨built, defines, h⟩ := ofDump_loads hu
    refine (h.of_mem hd).imp_right ?_
    rintro ⟨n, hn, hdeclares, hb⟩
    exact ⟨n, hn, hdeclares, hd, hb⟩
  · exact Origin.names_of_isMain (h.isMain hu)
  · by_contra hpath
    obtain ⟨file, hmain, hunrelated⟩ := o.exists_namesake hpath
    obtain ⟨u, hu, htaken⟩ := functionDump_taken hmain
    exact hunrelated (hall _ u file hu htaken)
  · intro dump u file hu htaken
    refine .inr ?_
    rw [hbare]
    exact (Origin.names_of_isMain (htaken.isMain hu)).trans (Path.names_suffix file)

def demoOrigin : Origin :=
  ⟨"/src/demo.h", "int x;\n", fun _ => none⟩

/-- A function of another header is kept if that header has the same name. -/
theorem namesake_taken : ∃ u, ofDump demoOrigin (functionDump "/usr/include/demo.h") = .ok u ∧
    TakenFor demoOrigin (functionDump "/usr/include/demo.h") u "/usr/include/demo.h" ∧
    ¬ Path.Related "/usr/include/demo.h" demoOrigin.path := by
  have hmain : demoOrigin.isMain "/usr/include/demo.h" := by cbv
  obtain ⟨u, hu, htaken⟩ := functionDump_taken hmain
  refine ⟨u, hu, htaken, ?_⟩
  unfold Path.Related
  decide

end HeaderUnit

end Bindery
