import CodeAtlas.Proofs.Difference
import CodeAtlas.Proofs.Orderly
import CodeAtlas.Proofs.Scan
/-!
# What is read of the files of a scan

The sources below a root are those files of a scan that can be read. A run that parses files reads
the sources, and a snapshot has their hashes: so both see the same files, and a part of them that is
chosen by path is the same part in both.

Results:
1. `nodup_path_sources`, `stemsFrom_of_mem_sources`: sources are told by their paths, and stem from
   the bytes.
2. `get?_hashes_eq_some_iff`: a snapshot has the hashes of the sources.
3. `sources_reparse_perm`: what is parsed again are the sources at the paths to be parsed again.
4. `files_foldl_add`, `symbols_foldl_add`: a run that parses files collects their sources.
-/

namespace CodeAtlas

/-- The files of a list that can be read, as they are. -/
def FileSystem.sources (fs : FileSystem) (found : List ScannedFile) : List SourceFile :=
  found.filterMap (ParseRun.read? fs)

/-- The files have different paths, and languages that these ask for. -/
structure Scannable (found : List ScannedFile) : Prop where
  paths : (found.map ScannedFile.relative).Nodup
  languages : ∀ f ∈ found, ∃ l, Language.ofName? f.language = some l ∧
    Language.ofPath? f.relative = some l

theorem scannable_scan {fs : FileSystem} (hfs : fs.WellNamed) (excludes : ExcludeSet)
    (maxSize : Nat) (root : String) : Scannable (scan fs excludes maxSize root) where
  paths := nodup_relative_scan hfs excludes maxSize root
  languages _ hf := language_of_mem_scan hfs hf

/-! ## Reading -/

section

variable {fs : FileSystem} {f : ScannedFile} {s : SourceFile}

theorem path_of_read? (h : ParseRun.read? fs f = some s) : s.path = f.relative := by
  rw [ParseRun.read?] at h
  split at h
  · cases h
    exact SourceFile.path_ofBytes _ _ _ _
  · cases h

/-- A file in a language that is known is read as a source if its bytes can be read. -/
theorem read?_cases (fs : FileSystem) {l : Language} (hl : Language.ofName? f.language = some l) :
    (∃ bytes modified, fs.read f.path = .ok bytes ∧
        ParseRun.read? fs f = some (SourceFile.ofBytes l f.relative bytes modified)) ∨
      ((∃ e, fs.read f.path = .error e) ∧ ParseRun.read? fs f = none) := by
  rw [FileSystem.read, ParseRun.read?, hl]
  cases hfind : fs.find f.path with
  | error e => exact .inr ⟨⟨e, rfl⟩, rfl⟩
  | ok node =>
    cases node with
    | file bytes modified => exact .inl ⟨bytes, modified, rfl, rfl⟩
    | link target => exact .inr ⟨⟨_, rfl⟩, rfl⟩
    | dir es => exact .inr ⟨⟨_, rfl⟩, rfl⟩

/-- A source stems from the bytes that were read. -/
theorem stemsFrom_of_read? {known : ByteArray → Prop}
    (hknown : ∀ path bytes, fs.read path = .ok bytes → known bytes)
    (hlanguage : ∃ l, Language.ofName? f.language = some l ∧ Language.ofPath? f.relative = some l)
    (h : ParseRun.read? fs f = some s) : s.StemsFrom known := by
  obtain ⟨l, hl, hpath⟩ := hlanguage
  rcases read?_cases fs hl with ⟨bytes, modified, hread, hs⟩ | ⟨_, hs⟩
  · rw [hs] at h
    cases h
    refine ⟨l, bytes, hknown _ _ hread, ?_, ?_⟩
    · rw [SourceFile.path_ofBytes]
      exact hpath
    · rw [SourceFile.path_ofBytes, SourceFile.modified_ofBytes]
  · rw [hs] at h
    cases h

end

/-! ## Sources -/

section

variable {fs : FileSystem} {found : List ScannedFile}

theorem FileSystem.sources_cons (fs : FileSystem) (f : ScannedFile) (rest : List ScannedFile) :
    fs.sources (f :: rest) = (ParseRun.read? fs f).toList ++ fs.sources rest := by
  rw [sources, sources, List.filterMap_cons]
  cases ParseRun.read? fs f <;> rfl

theorem mem_sources {s : SourceFile} :
    s ∈ fs.sources found ↔ ∃ f ∈ found, ParseRun.read? fs f = some s :=
  List.mem_filterMap

/-- Sources are told by their paths. -/
theorem nodup_path_sources (h : Scannable found) :
    ((fs.sources found).map SourceFile.path).Nodup := by
  have hpaths : ∀ found : List ScannedFile, ((fs.sources found).map SourceFile.path).Sublist
      (found.map ScannedFile.relative) := by
    intro found
    induction found with
    | nil => exact .slnil
    | cons f rest ih =>
      rw [FileSystem.sources, List.filterMap_cons]
      split
      · exact ih.cons _
      · next s hs =>
        rw [List.map_cons, List.map_cons, path_of_read? hs]
        exact ih.cons_cons _
  exact h.paths.sublist (hpaths found)

theorem stemsFrom_of_mem_sources {known : ByteArray → Prop} (h : Scannable found)
    (hknown : ∀ path bytes, fs.read path = .ok bytes → known bytes) {s : SourceFile}
    (hs : s ∈ fs.sources found) : s.StemsFrom known := by
  obtain ⟨f, hf, hread⟩ := mem_sources.mp hs
  exact stemsFrom_of_read? hknown (h.languages f hf) hread

end

/-! ## Snapshots -/

namespace Snapshot

variable {fs : FileSystem} {found : List ScannedFile}

/-- Collecting hashes and files goes through the sources, whatever has been collected before. -/
theorem foldl_collect {step : Snapshot → ScannedFile → Snapshot}
    (htake : ∀ snapshot f bytes, fs.read f.path = .ok bytes → step snapshot f = {
      hashes := Keyed.insert f.relative (Sha256.digest bytes) snapshot.hashes
      files := Keyed.insert f.relative f snapshot.files })
    (hskip : ∀ snapshot f e, fs.read f.path = .error e → step snapshot f = snapshot)
    (h : ∀ f ∈ found, ∃ l, Language.ofName? f.language = some l) (snapshot : Snapshot) :
    found.foldl step snapshot = {
      hashes := ((fs.sources found).map fun s => (s.path, s.hash)).foldl
        (fun acc e => Keyed.insert e.1 e.2 acc) snapshot.hashes
      files := ((found.filter fun f => (ParseRun.read? fs f).isSome).map
        fun f => (f.relative, f)).foldl (fun acc e => Keyed.insert e.1 e.2 acc)
          snapshot.files } := by
  induction found generalizing snapshot with
  | nil => rfl
  | cons f rest ih =>
    have hrest := ih fun f' hf' => h f' (List.mem_cons_of_mem f hf')
    obtain ⟨l, hl⟩ := h f List.mem_cons_self
    rw [List.foldl_cons, hrest]
    rcases read?_cases fs hl with ⟨bytes, modified, hread, hs⟩ | ⟨⟨e, hread⟩, hs⟩
    · simp only [htake _ _ _ hread, FileSystem.sources, List.filterMap_cons, hs, List.map_cons,
        List.foldl_cons, SourceFile.path_ofBytes, SourceFile.hash_ofBytes, List.filter_cons,
        Option.isSome_some, if_true]
    · simp only [hskip _ _ _ hread, FileSystem.sources, List.filterMap_cons, hs, List.filter_cons,
        Option.isSome_none, Bool.false_eq_true, if_false]

/-- A snapshot has the hashes of the sources, and the files that they were read from. -/
theorem ofFiles_eq (h : ∀ f ∈ found, ∃ l, Language.ofName? f.language = some l) :
    ofFiles fs found = {
      hashes := Keyed.ofList ((fs.sources found).map fun s => (s.path, s.hash))
      files := Keyed.ofList ((found.filter fun f => (ParseRun.read? fs f).isSome).map
        fun f => (f.relative, f)) } := by
  refine foldl_collect (fun snapshot f bytes hread => ?_) (fun snapshot f e hread => ?_) h {}
  · simp only [hread]
  · simp only [hread]

variable (h : Scannable found)

include h

theorem hashes_eq : (ofFiles fs found).hashes =
    Keyed.ofList ((fs.sources found).map fun s => (s.path, s.hash)) := by
  rw [ofFiles_eq fun f hf => (h.languages f hf).imp fun _ hl => hl.1]

theorem sorted_hashes : Keyed.Sorted (ofFiles fs found).hashes := by
  rw [hashes_eq h]
  exact Keyed.sorted_ofList _

theorem hashes_perm :
    (ofFiles fs found).hashes.Perm ((fs.sources found).map fun s => (s.path, s.hash)) := by
  rw [hashes_eq h]
  refine Keyed.ofList_perm ?_
  rw [Keyed.keys, List.map_map]
  exact nodup_path_sources h

/-- The paths of a snapshot are those of the sources. -/
theorem mem_keys_hashes {path : String} :
    path ∈ Keyed.keys (ofFiles fs found).hashes ↔
      path ∈ (fs.sources found).map SourceFile.path := by
  rw [Keyed.keys, ((hashes_perm h).map Prod.fst).mem_iff, List.map_map]
  rfl

/-- A snapshot has the hashes of the sources. -/
theorem get?_hashes_eq_some_iff {path hash : String} :
    Keyed.get? path (ofFiles fs found).hashes = some hash ↔
      ∃ s ∈ fs.sources found, s.path = path ∧ s.hash = hash := by
  rw [(sorted_hashes h).get?_eq_some_iff, (hashes_perm h).mem_iff, List.mem_map]
  simp only [Prod.mk.injEq]

/-- A snapshot has the files that can be read. -/
theorem get?_files_eq_some_iff {path : String} {f : ScannedFile} :
    Keyed.get? path (ofFiles fs found).files = some f ↔
      f ∈ found ∧ f.relative = path ∧ ∃ s, ParseRun.read? fs f = some s := by
  have hkeys : (Keyed.keys ((found.filter fun f => (ParseRun.read? fs f).isSome).map
      fun f => (f.relative, f))).Nodup := by
    rw [Keyed.keys, List.map_map]
    exact h.paths.sublist (List.filter_sublist.map _)
  rw [ofFiles_eq fun f hf => (h.languages f hf).imp fun _ hl => hl.1,
    (Keyed.sorted_ofList _).get?_eq_some_iff, (Keyed.ofList_perm hkeys).mem_iff, List.mem_map]
  constructor
  · rintro ⟨g, hg, heq⟩
    cases heq
    obtain ⟨hg, hsome⟩ := List.mem_filter.mp hg
    exact ⟨hg, rfl, Option.isSome_iff_exists.mp hsome⟩
  · rintro ⟨hf, rfl, hsome⟩
    exact ⟨f, List.mem_filter.mpr ⟨hf, Option.isSome_iff_exists.mpr hsome⟩, rfl⟩

/-- What is parsed again are the sources at the paths that are to be parsed again. -/
theorem sources_reparse_perm {reparse : List String} (hnodup : reparse.Nodup) :
    (fs.sources (reparse.filterMap (Keyed.get? · (ofFiles fs found).files))).Perm
      ((fs.sources found).filter (reparse.contains ·.path)) := by
  have hmem : ∀ {path s}, s ∈ (Keyed.get? path (ofFiles fs found).files).bind (ParseRun.read? fs) ↔
      s ∈ fs.sources found ∧ s.path = path := by
    intro path s
    rw [Option.mem_def, Option.bind_eq_some_iff]
    constructor
    · rintro ⟨f, hf, hs⟩
      obtain ⟨hmem, rfl, _⟩ := (get?_files_eq_some_iff h).mp hf
      exact ⟨mem_sources.mpr ⟨f, hmem, hs⟩, path_of_read? hs⟩
    · rintro ⟨hs, rfl⟩
      obtain ⟨f, hf, hread⟩ := mem_sources.mp hs
      exact ⟨f, (get?_files_eq_some_iff h).mpr ⟨hf, (path_of_read? hread).symm, s, hread⟩, hread⟩
  rw [FileSystem.sources, List.filterMap_filterMap]
  refine (List.perm_ext_iff_of_nodup (hnodup.filterMap fun p q s hp hq => ?_) ?_).mpr fun s => ?_
  · exact (hmem.mp hp).2.symm.trans (hmem.mp hq).2
  · exact (List.Nodup.of_map _ (nodup_path_sources h)).filter _
  · rw [List.mem_filterMap, List.mem_filter, List.contains_iff_mem]
    constructor
    · rintro ⟨path, hpath, hs⟩
      obtain ⟨hsource, rfl⟩ := hmem.mp hs
      exact ⟨hsource, hpath⟩
    · rintro ⟨hs, hpath⟩
      exact ⟨s.path, hpath, hmem.mpr ⟨hs, rfl⟩⟩

end Snapshot

/-! ## Parse runs -/

theorem FileSummary.totalSymbols_append (fs gs : List FileSummary) :
    totalSymbols (fs ++ gs) = totalSymbols fs + totalSymbols gs := by
  induction fs with
  | nil => exact (Nat.zero_add _).symm
  | cons f fs ih => rw [List.cons_append, totalSymbols, ih, totalSymbols, Nat.add_assoc]

theorem FileSummary.totalSymbols_perm {fs gs : List FileSummary} (h : fs.Perm gs) :
    totalSymbols fs = totalSymbols gs := by
  induction h with
  | nil => rfl
  | cons f _ ih => rw [totalSymbols, totalSymbols, ih]
  | swap f g rest => exact Nat.add_left_comm _ _ _
  | trans _ _ ih ih' => exact ih.trans ih'

/-- The number of symbols of files. -/
def SourceFile.totalSymbols (files : List SourceFile) : Nat :=
  FileSummary.totalSymbols (files.map SourceFile.summary)

theorem SourceFile.totalSymbols_append (fs gs : List SourceFile) :
    totalSymbols (fs ++ gs) = totalSymbols fs + totalSymbols gs := by
  rw [totalSymbols, List.map_append, FileSummary.totalSymbols_append, totalSymbols, totalSymbols]

namespace ParseRun

theorem files_add (run : ParseRun) (f : ScannedFile) (file : Option SourceFile) :
    (run.add f file).files = run.files ++ file.toList := by
  cases file with
  | none => exact (List.append_nil _).symm
  | some file =>
    simp only [add, Option.toList_some]
    split <;> rfl

theorem symbols_add (run : ParseRun) (f : ScannedFile) (file : Option SourceFile) :
    (run.add f file).symbols = run.symbols + SourceFile.totalSymbols file.toList := by
  cases file with
  | none => rfl
  | some file =>
    simp only [add, Option.toList_some]
    split <;> rfl

theorem files_foldl_add (fs : FileSystem) (files : List ScannedFile) (run : ParseRun) :
    (files.foldl (fun run f => run.add f (read? fs f)) run).files =
      run.files ++ fs.sources files := by
  induction files generalizing run with
  | nil => exact (List.append_nil _).symm
  | cons f rest ih =>
    rw [List.foldl_cons, ih, files_add, List.append_assoc, ← FileSystem.sources_cons]

theorem symbols_foldl_add (fs : FileSystem) (files : List ScannedFile) (run : ParseRun) :
    (files.foldl (fun run f => run.add f (read? fs f)) run).symbols =
      run.symbols + SourceFile.totalSymbols (fs.sources files) := by
  induction files generalizing run with
  | nil => rfl
  | cons f rest ih =>
    rw [List.foldl_cons, ih, symbols_add, Nat.add_assoc, ← SourceFile.totalSymbols_append,
      ← FileSystem.sources_cons]

end ParseRun

end CodeAtlas
