import Mathlib
import Bindery.CommandLine.Run
import Bindery.Disk.Tree

/-! Settings in layers, which may be put together in any grouping. The uppermost layer with a
setting decides. -/

namespace Bindery

namespace Config

variable {xs ys zs : List String} {y : String}

/-- What is added are the new elements, each where it occurs for the first time. -/
theorem addNew_eq (xs ys : List String) :
    addNew xs ys = xs ++ (ys.filter (!xs.contains ·)).eraseDups := by
  induction ys generalizing xs with
  | nil => simp [addNew]
  | cons z ys ih =>
    rw [addNew, ih]
    by_cases hz : xs.contains z
    · rw [if_pos hz, List.filter_cons_of_neg (by simpa using hz)]
    · rw [if_neg hz, List.filter_cons_of_pos (by simpa using hz), List.eraseDups_cons,
        List.filter_filter, List.append_assoc, List.singleton_append]
      have hnew : ∀ x ∈ ys, (!(xs ++ [z]).contains x) = (!(x == z) && !xs.contains x) := by
        intro x _
        simp [Bool.and_comm, Bool.beq_eq_decide_eq]
      rw [List.filter_congr hnew]

theorem mem_addNew : y ∈ addNew xs ys ↔ y ∈ xs ∨ y ∈ ys := by
  rw [addNew_eq, List.mem_append, List.mem_eraseDups, List.mem_filter]
  by_cases hy : y ∈ xs <;> simp [hy]

theorem addNew_append (xs ys zs : List String) :
    addNew xs (ys ++ zs) = addNew (addNew xs ys) zs := by
  induction ys generalizing xs with
  | nil => rfl
  | cons y ys ih =>
    rw [List.cons_append, addNew, addNew]
    exact ih _

/-- What the upper list drops is in the lower ones, so it is dropped there as well. -/
theorem addNew_addNew (xs ys zs : List String) :
    addNew xs (addNew ys zs) = addNew (addNew xs ys) zs := by
  induction zs generalizing ys with
  | nil => rfl
  | cons z zs ih =>
    rw [addNew, ih]
    by_cases hz : z ∈ ys
    · have hbelow : z ∈ addNew xs ys := mem_addNew.mpr (.inr hz)
      rw [if_pos (List.contains_iff_mem.mpr hz), addNew,
        if_pos (List.contains_iff_mem.mpr hbelow)]
    · rw [if_neg (mt List.contains_iff_mem.mp hz), addNew_append]
      rfl

theorem addNew_eq_self_iff : addNew xs ys = xs ↔ ∀ y ∈ ys, y ∈ xs := by
  constructor
  · intro h y hy
    exact h ▸ mem_addNew.mpr (.inr hy)
  · intro h
    have hnone : ys.filter (!xs.contains ·) = [] := by simpa using h
    rw [addNew_eq, hnone, List.eraseDups_nil, List.append_nil]

/-- Layers of settings can be put together in any grouping, definitions without repetition and in the
order in which they come first, and the options under them are those under the upper layer of those
under the lower one. -/
theorem layers_compose (a b c : Config) (base : BindOptions) :
    (a.merge b).merge c = a.merge (b.merge c) ∧
      (a.merge b).clang.defines = a.clang.defines ++
        (b.clang.defines.filter (!a.clang.defines.contains ·)).eraseDups ∧
      (a.merge b).bindOptions base = b.bindOptions (a.bindOptions base) := by
  refine ⟨?_, addNew_eq _ _, ?_⟩
  · simp only [merge, Option.or_assoc, List.append_assoc, addNew_addNew]
  · simp only [bindOptions, merge, Option.getD_or]
    cases b.markers.visibility <;> rfl

section

variable {α : Type} (read : Config → Option α)

/-- A setting as the uppermost of the layers makes it that makes it at all. -/
def uppermost (layers : List Config) : Option α :=
  layers.reverse.findSome? read

theorem uppermost_concat (layers : List Config) (c : Config) :
    uppermost read (layers ++ [c]) = (read c).or (uppermost read layers) := by
  rw [uppermost, List.reverse_append, List.reverse_singleton, List.singleton_append,
    List.findSome?_cons]
  cases read c <;> rfl

theorem read_layers (hmerge : ∀ c d : Config, read (c.merge d) = (read d).or (read c)) (c : Config)
    (layers : List Config) : read (layers.foldl merge c) = (uppermost read layers).or (read c) := by
  induction layers using List.reverseRecOn with
  | nil => rfl
  | append_singleton layers d ih =>
    rw [List.foldl_append, List.foldl_cons, List.foldl_nil, hmerge, ih, uppermost_concat,
      Option.or_assoc]

end

/-- Every option is what the uppermost layer with a setting for it asks for, and stays as it is if there is
no such layer. Functions need no marker to be visible if that is set to nothing. -/
theorem bindOptions_layers (layers : List Config) (base : BindOptions) :
    (layers.foldl merge {}).bindOptions base =
      { module := (uppermost (·.module.name) layers).getD base.module
        directors := (uppermost (·.module.directors) layers).getD base.directors
        visibility := (uppermost (·.markers.visibility) layers).elim base.visibility fun mark =>
          if mark.isEmpty then none else some mark
        nonnull := (uppermost (·.markers.nonnull) layers).getD base.nonnull
        deprecated := (uppermost (·.markers.deprecated) layers).getD base.deprecated
        stale := (uppermost (·.fields.stale) layers).getD base.stale } := by
  have hread : ∀ {α : Type} (read : Config → Option α),
      (∀ c d : Config, read (c.merge d) = (read d).or (read c)) → read {} = none →
        read (layers.foldl merge {}) = uppermost read layers := by
    intro α read hmerge hnone
    rw [read_layers read hmerge, hnone, Option.or_none]
  rw [bindOptions, hread (·.module.name) (fun _ _ => rfl) rfl,
    hread (·.module.directors) (fun _ _ => rfl) rfl, hread (·.markers.visibility) (fun _ _ => rfl) rfl,
    hread (·.markers.nonnull) (fun _ _ => rfl) rfl, hread (·.markers.deprecated) (fun _ _ => rfl) rfl,
    hread (·.fields.stale) (fun _ _ => rfl) rfl]
  cases uppermost (·.markers.visibility) layers <;> rfl

example :
    let project : Config := { module := { name := some "core", directors := some false } }
    let flags : Config := { module := { name := some "demo" }, markers := { visibility := some "" } }
    ([project, flags].foldl merge {}).bindOptions {} =
      { module := "demo", directors := false, visibility := none } := by
  decide

end Config

namespace Disk

variable {α β : Type} {t t' : DiskTree}

theorem attempt_ok {x : DiskM (Except FileError α)} {a : α} (message : String)
    (h : x.run t = (.ok a, t')) : (attempt message x).run.run t = (.ok a, t') := by
  simp only [attempt, ExceptT.run_bind_lift, StateT.run_bind, h]
  rfl

theorem attempt_bind {x : DiskM (Except FileError α)} {a : α} (message : String)
    (h : x.run t = (.ok a, t')) (f : α → ToolT DiskM β) :
    (attempt message x >>= f).run.run t = (f a).run.run t' := by
  simp only [ExceptT.run_bind, StateT.run_bind, attempt_ok message h]
  rfl

end Disk

namespace Toml

variable {d e : TomlDraft} {cs rest behind : List Char}

theorem lines?_last (hs : statement? d (skipBlanks cs) = some (e, rest))
    (he : endLine? rest = some []) : lines? d cs = some e := by
  rw [lines?, hs]
  dsimp only
  split
  · next hnone => cases he.symm.trans hnone
  · rfl
  · next hne hsome => exact absurd (Option.some.inj (hsome.symm.trans he)) hne

theorem lines?_next (hs : statement? d (skipBlanks cs) = some (e, rest))
    (he : endLine? rest = some behind) (hne : behind ≠ []) (hlen : behind.length < cs.length) :
    lines? d cs = lines? e behind := by
  rw [lines?, hs]
  dsimp only
  split
  · next hnone => cases he.symm.trans hnone
  · next hnil => exact absurd (Option.some.inj (he.symm.trans hnil)) hne
  · next hsome =>
    obtain rfl := Option.some.inj (he.symm.trans hsome)
    rw [dif_pos hlen]

theorem parse?_of_lines {text : String} (hmark : (text.toList.head? == some '\uFEFF') = false)
    (h : lines? {} text.toList = some d) : parse? text = d.close := by
  rw [parse?, hmark]
  exact congrArg (· >>= TomlDraft.close) h

end Toml

namespace Config

/-- The definitions that a text of settings lists, if it has such a list. -/
def listedDefines? (text : String) : Option (List String) := do
  let entries ← Toml.parse? text
  let clang ← Toml.Settings.ofValue? (← Toml.lookup entries "clang")
  Toml.strings? (← clang.at? 3 "defines")

theorem clangOf?_defines {s : Toml.Settings} {d : ClangConfig} (h : clangOf? s = some d) :
    d.defines = ((s.at? 3 "defines").bind Toml.strings?).getD ["RZ_BINDINGS"] := by
  simp only [clangOf?, bind, Option.bind_eq_some_iff] at h
  obtain ⟨path, -, args, -, dirs, -, defines, hdefines, cacheDir, -, h⟩ := h
  cases h
  rw [Toml.Settings.read?] at hdefines
  cases hat : s.at? 3 "defines" with
  | none =>
    rw [hat] at hdefines
    cases hdefines
    rfl
  | some v =>
    rw [hat] at hdefines
    obtain ⟨list, hlist, rfl⟩ := Option.map_eq_some_iff.mp hdefines
    rw [Option.bind_some, hlist]

theorem ofToml?_defines {text : String} {c : Config} (h : ofToml? text = some c) :
    c.clang.defines = (listedDefines? text).getD ["RZ_BINDINGS"] := by
  simp only [ofToml?, bind, Option.bind_eq_some_iff] at h
  obtain ⟨entries, hparse, module, -, markers, -, fields, -, clang, hclang, h⟩ := h
  cases h
  rw [section?] at hclang
  dsimp only at hclang
  cases hlookup : Toml.lookup entries "clang" with
  | none =>
    rw [hlookup] at hclang
    cases hclang
    simp [listedDefines?, hparse, hlookup]
  | some v =>
    rw [hlookup] at hclang
    obtain ⟨s, hs, hclang⟩ := Option.bind_eq_some_iff.mp hclang
    rw [clangOf?_defines hclang]
    simp [listedDefines?, hparse, hlookup, hs, bind]

/-- Settings of which none is made still hold a definition. -/
theorem merge_unset (c : Config) : c.merge {} =
    { c with clang := { c.clang with defines := addNew c.clang.defines ["RZ_BINDINGS"] } } := by
  simp [merge]

/-- The command line gives no settings, and those of the project are in the file at a path. -/
structure Unflagged (t : DiskTree) (cwd path : String) (a : SourceArgs) : Prop where
  source : a.config = some path ∨
    a.config = none ∧ (discover cwd : DiskM (Option String)).run t = (some path, t)
  clang : a.clang = none
  dirs : a.dirs = []
  clangArgs : a.clangArgs = []

section

variable {t : DiskTree} {cwd path text : String} {a : SourceArgs} {c : Config}

theorem load_ok (htext : t.readText path = .ok text) (hc : ofToml? text = some c) :
    (load path : ToolT DiskM Config).run.run t = (.ok c, t) := by
  have hread : (MonadDisk.readText path : DiskM (Except FileError String)).run t = (.ok text, t) :=
    congrArg (·, t) htext
  rw [load, Disk.attempt_bind _ hread, hc]
  rfl

theorem loadOrDefault_ok (htext : t.readText path = .ok text) (hc : ofToml? text = some c) :
    (loadOrDefault path : DiskM Config).run t = (c, t) := by
  have hload : StateT.run (load path : ToolT DiskM Config) t = (.ok c, t) := load_ok htext hc
  rw [loadOrDefault, StateT.run_bind, hload]
  rfl

theorem loadConfig_unflagged (ha : Unflagged t cwd path a) (htext : t.readText path = .ok text)
    (hc : ofToml? text = some c) :
    (Command.loadConfig cwd a : ToolT DiskM Config).run.run t = (.ok (c.merge {}), t) := by
  rcases ha.source with hconfig | ⟨hconfig, hfound⟩
  · simp only [Command.loadConfig, hconfig, ha.clang, ha.dirs, ha.clangArgs, ExceptT.run_bind,
      StateT.run_bind, load_ok htext hc]
    rfl
  · simp only [Command.loadConfig, hconfig, ha.clang, ha.dirs, ha.clangArgs,
      ExceptT.run_bind_lift, StateT.run_bind, hfound]
    change (ExceptT.lift (loadOrDefault path) >>= fun c => pure (c.merge {}) :
      ToolT DiskM Config).run.run t = _
    simp only [ExceptT.run_bind_lift, StateT.run_bind, loadOrDefault_ok htext hc]
    rfl

/-- Without flags the settings of a file are left as they are exactly if the file lists no definitions
or has the one that is always made in its list. Nothing but that definition is ever added. -/
theorem unset_flags_neutral_iff (ha : Unflagged t cwd path a) (htext : t.readText path = .ok text)
    (hc : ofToml? text = some c) :
    ((Command.loadConfig cwd a : ToolT DiskM Config).run.run t = (.ok (c.merge {}), t)) ∧
      (c.merge {} = c ↔ ∀ defines ∈ listedDefines? text, "RZ_BINDINGS" ∈ defines) ∧
      c.merge {} =
        { c with clang := { c.clang with defines := addNew c.clang.defines ["RZ_BINDINGS"] } } := by
  refine ⟨loadConfig_unflagged ha htext hc, ?_, merge_unset c⟩
  have hsame : c.merge {} = c ↔ addNew c.clang.defines ["RZ_BINDINGS"] = c.clang.defines := by
    rw [merge_unset]
    constructor
    · exact fun h => congrArg (·.clang.defines) h
    · intro h
      rw [h]
  rw [hsame, addNew_eq_self_iff, List.forall_mem_singleton, ofToml?_defines hc]
  cases listedDefines? text with
  | none => simp
  | some defines => simp

end

/-- A project with one file of settings in its directory. -/
def project (text : String) : DiskTree :=
  .ofFiles [("swivel.toml", text)]

theorem project_text (text : String) : (project text).readText "swivel.toml" = .ok text := by
  cbv

def noSources : SourceArgs :=
  ⟨[], none, none, none, []⟩

theorem noSources_unflagged (text : String) : Unflagged (project text) "" "swivel.toml" noSources :=
  ⟨.inr ⟨rfl, by cbv⟩, rfl, rfl, rfl⟩

/-- A project that lists definitions, and among them the one that is always made. -/
def listedText : String :=
  "[clang]\ndefines = [\"NDEBUG\", \"RZ_BINDINGS\"]\n"

theorem listedText_parsed : Toml.parse? listedText = some [("clang", .table .header
    [("defines", .arr [.str "NDEBUG", .str "RZ_BINDINGS"])])] := by
  have hlines : Toml.lines? {} listedText.toList = some
      ⟨[], ["clang"], false, [("defines", .arr [.str "NDEBUG", .str "RZ_BINDINGS"])]⟩ := by
    refine (Toml.lines?_next (e := ⟨[], ["clang"], false, []⟩) (by cbv) (by cbv) (by decide)
      (by decide)).trans ?_
    exact Toml.lines?_last (by cbv) (by cbv)
  exact Toml.parse?_of_lines (by cbv) hlines

theorem listed_definition_neutral :
    ofToml? listedText = some { clang := { defines := ["NDEBUG", "RZ_BINDINGS"] } } ∧
      (Command.loadConfig "" noSources : ToolT DiskM Config).run.run (project listedText) =
        (.ok { clang := { defines := ["NDEBUG", "RZ_BINDINGS"] } }, project listedText) := by
  have hread : ofToml? listedText =
      some { clang := { defines := ["NDEBUG", "RZ_BINDINGS"] } } := by
    rw [ofToml?, listedText_parsed]
    rfl
  have hlisted : listedDefines? listedText = some ["NDEBUG", "RZ_BINDINGS"] := by
    rw [listedDefines?, listedText_parsed]
    rfl
  obtain ⟨hload, hneutral, -⟩ := unset_flags_neutral_iff (noSources_unflagged listedText)
    (project_text listedText) hread
  have hsame := hneutral.mpr (by simp [hlisted])
  exact ⟨hread, by rw [hload, hsame]⟩

/-- A project that lists definitions of its own only. -/
def ownText : String :=
  "[clang]\ndefines = [\"NDEBUG\"]\n"

theorem ownText_read : ofToml? ownText = some { clang := { defines := ["NDEBUG"] } } := by
  have hlines : Toml.lines? {} ownText.toList = some
      ⟨[], ["clang"], false, [("defines", .arr [.str "NDEBUG"])]⟩ := by
    refine (Toml.lines?_next (e := ⟨[], ["clang"], false, []⟩) (by cbv) (by cbv) (by decide)
      (by decide)).trans ?_
    exact Toml.lines?_last (by cbv) (by cbv)
  rw [ofToml?, Toml.parse?_of_lines (by cbv) hlines]
  rfl

/-- A definition that the file does not list is made although no flag is given. -/
theorem unset_flags_define :
    ofToml? ownText = some { clang := { defines := ["NDEBUG"] } } ∧
      (Command.loadConfig "" noSources : ToolT DiskM Config).run.run (project ownText) =
        (.ok { clang := { defines := ["NDEBUG", "RZ_BINDINGS"] } }, project ownText) := by
  have hload := loadConfig_unflagged (noSources_unflagged ownText) (project_text ownText) ownText_read
  exact ⟨ownText_read, hload⟩

end Config

end Bindery
