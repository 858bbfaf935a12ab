import CodeAtlas.Proofs.FileDocuments
import CodeAtlas.Proofs.History
import CodeAtlas.Proofs.ReadBack
import CodeAtlas.Proofs.Refusals
import CodeAtlas.Proofs.Yaml.Scalars
import CodeAtlas.Proofs.Yaml.Trees
/-!
# The document about a project reads back

In the document texts are written in the style that suits them, numbers by their digits, and the values of
the configuration as they are. A text that was written without quotes is one that means nothing else, so it
is read as the text, and every other scalar means what it was written for. Only the limit on collections in
each other remains, and a document is read back just if its configuration is within it.

Results:
1. `Json.IsProper`, `Json.depth`: values as they come, and how deep they are.
2. `Yaml.toJson?_reread`: which values are read back from YAML.
3. `ProjectDocument.parse_render`: which documents are read back from their texts.
4. `ProjectDocument.load_of_writeProject`: the file that is written about a project loads as its document.
-/

namespace CodeAtlas

/-! ## Values -/

namespace Json

mutual
/-- Whole numbers have 64 bits, doubles are finite, and the keys of objects are in order. -/
def IsProper : Json → Prop
  | null => True
  | bool _ => True
  | int n => -Int.pow 2 63 ≤ n ∧ n < Int.pow 2 64
  | float x => x.isFinite = true
  | str _ => True
  | arr items => AreProper items
  | obj entries => Keyed.Sorted entries ∧ AreProperEntries entries

def AreProper : List Json → Prop
  | [] => True
  | j :: rest => IsProper j ∧ AreProper rest

def AreProperEntries : List (String × Json) → Prop
  | [] => True
  | (_, j) :: rest => IsProper j ∧ AreProperEntries rest
end

mutual
/-- How many collections are in each other. -/
def depth : Json → Nat
  | null => 0
  | bool _ => 0
  | int _ => 0
  | float _ => 0
  | str _ => 0
  | arr items => depthOfItems items + 1
  | obj entries => depthOfEntries entries + 1

def depthOfItems : List Json → Nat
  | [] => 0
  | j :: rest => max (depth j) (depthOfItems rest)

def depthOfEntries : List (String × Json) → Nat
  | [] => 0
  | (_, j) :: rest => max (depth j) (depthOfEntries rest)
end

end Json

namespace Yaml

/-! ## Writing -/

theorem isPlain_bool (b : Bool) : IsPlain (if b then "true" else "false").toList := by
  cases b <;> decide +kernel

theorem isPlain_null : IsPlain "null".toList := by decide +kernel

mutual
/-- The scalars of a proper value may be written as they are. -/
theorem isWritable_ofJson : ∀ j : Json, j.IsProper → IsWritable (ofJson j)
  | .null, _ => isPlain_null
  | .bool b, _ => isPlain_bool b
  | .int n, _ => isPlain_int n
  | .float x, h => by
    have hfinite : x.isFinite = true := h
    rw [ofJson, float, if_pos hfinite]
    exact (meaning_render hfinite).2
  | .str _, _ => trivial
  | .arr items, h => areWritable_ofJsonItems items h
  | .obj entries, h => areWritableEntries_ofJsonEntries entries h.2

theorem areWritable_ofJsonItems : ∀ items, Json.AreProper items → AreWritable (ofJsonItems items)
  | [], _ => trivial
  | j :: rest, h => ⟨isWritable_ofJson j h.1, areWritable_ofJsonItems rest h.2⟩

theorem areWritableEntries_ofJsonEntries : ∀ entries, Json.AreProperEntries entries →
    AreWritableEntries (ofJsonEntries entries)
  | [], _ => trivial
  | (_, j) :: rest, h =>
    ⟨trivial, isWritable_ofJson j h.1, areWritableEntries_ofJsonEntries rest h.2⟩
end

/-! ## Reading -/

/-- A text comes back as the same text, and if it comes back without quotes, it means nothing else. -/
theorem rereadText_cases (s : String) :
    (rereadText s = .plain s ∧ meaning s = .text) ∨ rereadText s = .str s := by
  cases hstyle : styleOf s with
  | plain =>
    refine .inl ⟨by rw [rereadText, if_pos hstyle], ?_⟩
    cases hstyle ▸ suits_styleOf s with
    | plain hmeaning _ => exact hmeaning
  | _ => exact .inr (by simp [rereadText, hstyle])

theorem text?_rereadText (s : String) : (rereadText s).text? = some s := by
  rcases rereadText_cases s with ⟨heq, _⟩ | heq <;> rw [heq] <;> rfl

/-- A text that may be missing comes back: a missing one is the word for nothing, which no text without
quotes is. -/
theorem optionalText?_reread (t : Option String) :
    (reread (ofOption .str t)).optionalText? = some t := by
  cases t with
  | none => rfl
  | some s =>
    rw [ofOption, reread]
    rcases rereadText_cases s with ⟨heq, hmeaning⟩ | heq
    · have hnull : (s == "" || isNull s) = false := by
        refine Bool.eq_false_iff.mpr fun hnull => ?_
        rw [meaning, if_pos hnull] at hmeaning
        cases hmeaning
      rw [heq, optionalText?, hnull]
      rfl
    · rw [heq]
      rfl

theorem toJson?_rereadText (depth : Nat) (s : String) :
    toJson? depth (rereadText s) = some (.str s) := by
  rcases rereadText_cases s with ⟨heq, hmeaning⟩ | heq
  · rw [heq, toJson?, scalarJson?, hmeaning]
  · rw [heq, toJson?]

theorem scalarJson?_bool (b : Bool) : scalarJson? (if b then "true" else "false") = some (.bool b) := by
  cases b <;> rfl

theorem scalarJson?_int {n : ℤ} (hlow : -Int.pow 2 63 ≤ n) (hhigh : n < Int.pow 2 64) :
    scalarJson? (toString n) = some (.int n) := by
  have hwide : isWide n = true := by
    rw [isWide, Bool.and_eq_true, decide_eq_true_iff, decide_eq_true_iff]
    exact ⟨le_trans (by decide) hlow, lt_trans hhigh (by decide)⟩
  have hrange : (decide (-Int.pow 2 63 ≤ n) && decide (n < Int.pow 2 64)) = true := by
    rw [decide_eq_true hlow, decide_eq_true hhigh]
    rfl
  rw [scalarJson?, meaning_toString hwide]
  exact if_pos hrange

theorem scalarJson?_float {x : Binary64} (h : x.isFinite = true) :
    scalarJson? x.render = some (.float x) := by
  rw [scalarJson?, (meaning_render h).1]
  exact congrArg some (if_pos h)

/-- A value that is no collection is within any limit. -/
theorem read_within {read : Option Json} {j : Json} (h : read = some j) (d : Nat) :
    read = if 0 ≤ d then some j else none := by
  rw [h, if_pos (Nat.zero_le d)]

mutual
/-- A proper value is read back just if it is within the limit. -/
theorem toJson?_reread : ∀ (j : Json) (d : Nat), j.IsProper →
    toJson? d (reread (ofJson j)) = if j.depth ≤ d then some j else none
  | .null, d, _ => read_within rfl d
  | .bool b, d, _ => read_within (scalarJson?_bool b) d
  | .int _, d, h => read_within (scalarJson?_int h.1 h.2) d
  | .float x, d, h => by
    have hfinite : x.isFinite = true := h
    rw [ofJson, float, if_pos hfinite]
    exact read_within (scalarJson?_float hfinite) d
  | .str s, d, _ => read_within (toJson?_rereadText d s) d
  | .arr _, 0, _ | .obj _, 0, _ => (if_neg (Nat.not_succ_le_zero _)).symm
  | .arr items, d + 1, h => by
    show (toJsonItems? d (rereadItems (ofJsonItems items))).map Json.arr = _
    rw [toJsonItems?_reread items d h]
    by_cases hd : Json.depthOfItems items ≤ d
    · rw [if_pos hd, Option.map_some]
      exact (if_pos (Nat.succ_le_succ hd)).symm
    · rw [if_neg hd, Option.map_none]
      exact (if_neg fun hle => hd (Nat.le_of_succ_le_succ hle)).symm
  | .obj entries, d + 1, h => by
    show (toJsonEntries? d (rereadEntries (ofJsonEntries entries))).map Json.ofEntries = _
    rw [toJsonEntries?_reread entries d h.2]
    by_cases hd : Json.depthOfEntries entries ≤ d
    · rw [if_pos hd, Option.map_some, Json.ofEntries, h.1.ofList_eq]
      exact (if_pos (Nat.succ_le_succ hd)).symm
    · rw [if_neg hd, Option.map_none]
      exact (if_neg fun hle => hd (Nat.le_of_succ_le_succ hle)).symm

theorem toJsonItems?_reread : ∀ (items : List Json) (d : Nat), Json.AreProper items →
    toJsonItems? d (rereadItems (ofJsonItems items)) =
      if Json.depthOfItems items ≤ d then some items else none
  | [], d, _ => (if_pos (Nat.zero_le d)).symm
  | j :: rest, d, h => by
    rw [ofJsonItems, rereadItems, toJsonItems?, toJson?_reread j d h.1,
      toJsonItems?_reread rest d h.2, Json.depthOfItems]
    by_cases hfirst : j.depth ≤ d <;> by_cases hrest : Json.depthOfItems rest ≤ d <;>
      simp [hfirst, hrest]

theorem toJsonEntries?_reread : ∀ (entries : List (String × Json)) (d : Nat),
    Json.AreProperEntries entries → toJsonEntries? d (rereadEntries (ofJsonEntries entries)) =
      if Json.depthOfEntries entries ≤ d then some entries else none
  | [], d, _ => (if_pos (Nat.zero_le d)).symm
  | (key, j) :: rest, d, h => by
    rw [ofJsonEntries, rereadEntries, toJsonEntries?, reread, text?_rereadText,
      toJson?_reread j d h.1, toJsonEntries?_reread rest d h.2, Json.depthOfEntries]
    by_cases hfirst : j.depth ≤ d <;> by_cases hrest : Json.depthOfEntries rest ≤ d <;>
      simp [hfirst, hrest]
end

section

variable {α β : Type} {x : Option α} {a : α}

theorem bind_of_eq_some (h : x = some a) (rest : α → Option β) : (x >>= rest) = rest a := by
  rw [h]
  rfl

/-- A field that is there is read for what comes next. -/
theorem bind_field? {key : String} {entries : List (Yaml × Yaml)} {v : Yaml}
    {read : Yaml → Option α} (hfield : field? key entries = some (some v)) (hread : read v = some a)
    (rest : α → Option β) :
    (do let found ← field? key entries
        let v ← found
        let a ← read v
        rest a) = rest a :=
  (bind_of_eq_some hfield _).trans (bind_of_eq_some hread rest)

end

end Yaml

/-! ## Written texts -/

namespace Output

/-- A text is written, or the disk refuses its file or the directories above it. -/
theorem writeText_cases (h : Host) (path text : String) :
    (∃ g, h.attempt (writeText path text) = (.ok (.ok ()), g) ∧
      h.disk.writeBelow path text.toUTF8 = .ok g.disk) ∨
      ∃ refusal g, h.attempt (writeText path text) = (.ok (.error refusal.failure), g) ∧
        h.disk.writeBelow path text.toUTF8 = .error refusal := by
  rw [writeText, FileSystem.writeBelow]
  cases Path.parent? path with
  | none =>
    obtain ⟨g, hrun, hwrite⟩ | ⟨refusal, hrun, hwrite⟩ := change_cases h (.write path text.toUTF8)
    · exact .inl ⟨g, hrun, hwrite⟩
    · exact .inr ⟨refusal, h, hrun, hwrite⟩
  | some dir =>
    have hbind := h.attempt_bind (change (.makeDirs dir)) fun _ => change (.write path text.toUTF8)
    obtain ⟨t, hdirs, habove⟩ | ⟨refusal, hdirs, habove⟩ := change_cases h (.makeDirs dir)
    · rw [hdirs] at hbind
      have hbelow : (h.disk.makeDirs dir >>= fun above => above.write path text.toUTF8) =
          t.disk.write path text.toUTF8 := congrArg (· >>= _) habove
      obtain ⟨g, hrun, hwrite⟩ | ⟨refusal, hrun, hwrite⟩ := change_cases t (.write path text.toUTF8)
      · exact .inl ⟨g, hbind.trans hrun, hbelow.trans hwrite⟩
      · exact .inr ⟨refusal, t, hbind.trans hrun, hbelow.trans hwrite⟩
    · rw [hdirs] at hbind
      have hbelow : (h.disk.makeDirs dir >>= fun above => above.write path text.toUTF8) =
          .error refusal := congrArg (· >>= _) habove
      exact .inr ⟨refusal, h, hbind, hbelow⟩

end Output

namespace ProjectDocument

open Yaml

variable {d : ProjectDocument}

/-! ## Documents -/

/-- The statistics as they are read. -/
def statisticsRead (d : ProjectDocument) : List (Yaml × Yaml) :=
  [(plain "total_files", nat d.totalFiles), (plain "total_symbols", nat d.totalSymbols)]

/-- The fields as they are read. -/
def fieldsRead (d : ProjectDocument) : List (Yaml × Yaml) := [
  (plain "id", rereadText d.id),
  (plain "name", rereadText d.name),
  (plain "root_path", rereadText d.rootPath),
  (plain "indexed_at", reread (ofOption .str d.indexedAt)),
  (plain "statistics", map d.statisticsRead),
  (plain "status", rereadText d.status),
  (plain "config", map (rereadEntries (ofJsonEntries d.config)))]

theorem reread_toYaml (d : ProjectDocument) :
    reread d.toYaml = map [(plain "project", map d.fieldsRead)] := rfl

/-- The counts have 64 bits, and the configuration is a proper map. -/
structure IsProper (d : ProjectDocument) : Prop where
  files : d.totalFiles < Nat.pow 2 64
  symbols : d.totalSymbols < Nat.pow 2 64
  config : (Json.obj d.config).IsProper

/-- The keys of a document are plain, and so are its scalars that are no texts. -/
theorem isWritable_toYaml (hconfig : (Json.obj d.config).IsProper) : IsWritable d.toYaml := by
  have hkey : ∀ key ∈ ["project", "id", "name", "root_path", "indexed_at", "statistics",
      "total_files", "total_symbols", "status", "config"], IsPlain key.toList := by decide +kernel
  have htime : IsWritable (ofOption .str d.indexedAt) := by
    cases d.indexedAt with
    | none => exact isPlain_null
    | some time => trivial
  exact ⟨hkey "project" (by decide), ⟨
    hkey "id" (by decide), trivial,
    hkey "name" (by decide), trivial,
    hkey "root_path" (by decide), trivial,
    hkey "indexed_at" (by decide), htime,
    hkey "statistics" (by decide), ⟨
      hkey "total_files" (by decide), isPlain_nat d.totalFiles,
      hkey "total_symbols" (by decide), isPlain_nat d.totalSymbols, trivial⟩,
    hkey "status" (by decide), trivial,
    hkey "config" (by decide), isWritable_ofJson (.obj d.config) hconfig, trivial⟩, trivial⟩

/-- What a document is read from: all but the configuration is as it was. -/
theorem ofYaml?_reread (h : d.IsProper) : ofYaml? (reread d.toYaml) =
    (toJsonEntries? maxDepth (rereadEntries (ofJsonEntries d.config))).map fun config =>
      { d with config := Keyed.ofList config } := by
  have hkeyed : ofYaml?.keyed (map [(plain "project", map d.fieldsRead)]) =
    some [(plain "project", map d.fieldsRead)] := rfl
  have hbody : ofYaml?.keyed (map d.fieldsRead) = some d.fieldsRead := rfl
  have hstatistics : ofYaml?.keyed (map d.statisticsRead) = some d.statisticsRead := rfl
  rw [reread_toYaml, ofYaml?]
  refine (bind_of_eq_some hkeyed _).trans ?_
  refine (bind_field? rfl hbody _).trans ?_
  refine (bind_field? rfl hstatistics _).trans ?_
  have hfound : field? "config" d.fieldsRead =
    some (some (map (rereadEntries (ofJsonEntries d.config)))) := rfl
  refine (bind_of_eq_some hfound _).trans ?_
  have hentries : entries? (map (rereadEntries (ofJsonEntries d.config))) =
    some (rereadEntries (ofJsonEntries d.config)) := rfl
  refine (bind_of_eq_some hentries _).trans ?_
  rw [Option.map_eq_bind]
  refine congrArg (Option.bind _) (funext fun config => ?_)
  refine (bind_field? rfl (text?_rereadText d.id) _).trans ?_
  refine (bind_field? rfl (text?_rereadText d.name) _).trans ?_
  refine (bind_field? rfl (text?_rereadText d.rootPath) _).trans ?_
  have hfound : field? "indexed_at" d.fieldsRead = some (some (reread (ofOption .str d.indexedAt))) := rfl
  refine (bind_of_eq_some hfound _).trans ?_
  refine (bind_of_eq_some (optionalText?_reread d.indexedAt) _).trans ?_
  refine (bind_field? rfl (nat?_nat h.files) _).trans ?_
  refine (bind_field? rfl (nat?_nat h.symbols) _).trans ?_
  exact bind_field? rfl (text?_rereadText d.status) _

/-- A document is read back from its text just if its configuration is within the limit. -/
theorem parse_render (h : d.IsProper) :
    parse d.render = .ok d ↔ Json.depthOfEntries d.config ≤ maxDepth := by
  have hparse : Yaml.parse? d.render = some (reread d.toYaml) :=
    parse?_render (isWritable_toYaml h.config) (List.cons_ne_nil _ _)
  rw [parse, hparse, Option.bind_some, ofYaml?_reread h,
    toJsonEntries?_reread d.config maxDepth h.config.2]
  by_cases hdepth : Json.depthOfEntries d.config ≤ maxDepth
  · rw [if_pos hdepth, Option.map_some, h.config.1.ofList_eq]
    exact iff_of_true rfl hdepth
  · rw [if_neg hdepth, Option.map_none]
    exact iff_of_false nofun hdepth

/-- The file that is written about a project loads as the document that was made of it, if no more
collections are in each other than the limit allows. It is written unless the disk refuses it or the
directories above it. -/
theorem load_of_writeProject {h : Host} {dir : String} {p : Project} (hcurrent : h.disk.HasCurrent)
    (hproper : (ofProject p).IsProper) :
    (∀ g, h.attempt (Output.writeProject dir p) = (.ok (.ok ()), g) →
      (load g.disk (OutputLayout.projectDocument dir) = .ok (ofProject p) ↔
        Json.depthOfEntries p.config ≤ maxDepth)) ∧
    ∀ result g, h.attempt (Output.writeProject dir p) = (result, g) → result ≠ .ok (.ok ()) →
      ∃ refusal, result = .ok (.error refusal.failure) ∧
        h.disk.writeBelow (OutputLayout.projectDocument dir) (ofProject p).render.toUTF8 =
          .error refusal := by
  obtain ⟨t, hrun, hwrite⟩ | ⟨refusal, t, hrun, hrefused⟩ :=
    Output.writeText_cases h (OutputLayout.projectDocument dir) (ofProject p).render
  · refine ⟨fun g hg => ?_, fun result g hg hne => ?_⟩
    · cases hrun.symm.trans hg
      rw [load, FileSystem.readText_of_writeBelow hcurrent hwrite]
      exact parse_render hproper
    · cases hrun.symm.trans hg
      exact absurd rfl hne
  · refine ⟨fun g hg => ?_, fun result g hg _ => ?_⟩
    · cases hrun.symm.trans hg
    · cases hrun.symm.trans hg
      exact ⟨refusal, rfl, hrefused⟩

/-- Surroundings with a link to the directory for output. -/
def linkedOutput : Host :=
  { disk := { root := .dir [("data", .dir []), ("out", .link "data")] } }

/-- A project with texts that look like other things, with numbers at their limits, and with collections
that have nothing in them. -/
def disguisedProject : Project where
  id := .ofNat 7
  name := "null"
  rootPath := " two\nlines \x07: # \n\n"
  status := .active
  fileCount := 18446744073709551615
  indexedAt := some ⟨-1, 999999999⟩
  config := [
    ("", .arr [.arr [], .obj [], .str "0x1F"]),
    ("2024-01-01", .int (-9223372036854775808)),
    ("true", .float (.ofMagnitude true 0)),
    ("\u2028- ~", .obj [("? a", .null), ("𝄞", .bool false)])]

theorem load_of_writeProject_disguised : linkedOutput.disk.HasCurrent ∧
    (ofProject disguisedProject).IsProper ∧ Json.depthOfEntries disguisedProject.config ≤ maxDepth ∧
    ∃ g, linkedOutput.attempt (Output.writeProject "/out/new" disguisedProject) =
        (.ok (.ok ()), g) ∧
      load g.disk (OutputLayout.projectDocument "/out/new") = .ok (ofProject disguisedProject) := by
  have hcurrent : linkedOutput.disk.HasCurrent := ⟨fun _ h => (by cases h), rfl⟩
  have hzero : (Binary64.ofMagnitude true 0).isFinite = true := by decide
  have hproper : (ofProject disguisedProject).IsProper := by
    refine ⟨by decide, by decide, by decide, ?empty, ?low, hzero, ?inner, trivial⟩
    case empty => exact ⟨trivial, ⟨.nil, trivial⟩, trivial, trivial⟩
    case low => exact ⟨by decide, by decide⟩
    case inner => exact ⟨by decide, trivial, trivial, trivial⟩
  have hdepth : Json.depthOfEntries disguisedProject.config ≤ maxDepth := by decide
  have hwritten : (linkedOutput.result? (Output.writeProject "/out/new" disguisedProject)).isSome := by
    decide +kernel
  obtain ⟨_, hresult⟩ := Option.isSome_iff_exists.mp hwritten
  have hrun := Host.attempt_of_result? hresult
  have hloads := (load_of_writeProject hcurrent hproper).1 _ hrun
  exact ⟨hcurrent, hproper, hdepth, _, hrun, hloads.mpr hdepth⟩

end ProjectDocument

end CodeAtlas
