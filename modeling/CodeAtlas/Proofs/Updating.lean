import CodeAtlas.Indexing.Update
import CodeAtlas.Proofs.Indexing
/-!
# Updating a project

An update purges the files that have changed and writes those that are still there. What it writes
has been purged before, whatever was read of the store, so that no failure of a reading can make it
write a file twice.

Results:
1. `tries_purge`, `tries_changes`, `tries_knownProject`: the steps of an update.
2. `mergeSummaries_perm`: what is known of the files after an update.
3. `tries_updateProject`: what an update that succeeds leaves in the index and in the document about
   the structure.
-/

namespace CodeAtlas

/-- What the document about the structure tells about a stored file. -/
def StoredFile.summary (f : StoredFile) : FileSummary := ⟨f.path, f.language, f.size, f.symbols⟩

namespace Indexer

variable {c : Regime} {v : Scene} {x : Indexer} {err : Failure → Scene → Prop}

/-! ## Steps -/

/-- The project is known, and its root may be indexed. -/
theorem tries_knownProject (hs : x.store.collection = c.collection) (id : Uuid) :
    c.Tries v (x.knownProject id)
      (fun r v' => v' = v ∧ ∃ p ∈ v.index.projects, p.id = id ∧ r.1 = p.reread ∧
        AllowedRoots.validate v.disk x.config.allowedRoots p.rootPath = .ok r.2)
      fun _ v' => v' = v := by
  refine tries_bind (SymbolStore.tries_loadProject hs id) fun found v₁ h => ?_
  obtain ⟨rfl, ⟨p, hp, hid, rfl⟩ | ⟨rfl, _⟩⟩ := h
  · refine tries_bind (tries_outcome (Regime.onResult (fun root v' => v' = v₁ ∧
      AllowedRoots.validate v₁.disk x.config.allowedRoots p.rootPath = .ok root)
        fun _ v' => v' = v₁)
      (show c.Tries v₁ (x.validateRoot p.rootPath) _ (fun _ v' => v' = v₁) from
        tries_validateRoot p.rootPath fun _ => rfl) fun _ _ h => h) fun result v₂ h => ?_
    split
    · obtain ⟨rfl, hroot⟩ := h
      exact tries_pure ⟨rfl, p, hp, hid, rfl, hroot⟩
    · exact tries_throw h
  · exact tries_throw rfl

theorem tries_purge (hs : x.store.collection = c.collection) (id : Uuid) (paths : List String) :
    c.Tries v (x.purge id paths) (fun _ v' => v' = v.purge id paths) fun _ v' => v' = v := by
  rw [purge]
  split
  · next hempty =>
    rw [List.isEmpty_iff.mp hempty]
    exact tries_pure (v.purge_nil id).symm
  · exact tries_bind_at (SymbolStore.tries_deleteFiles hs id paths) fun _ => tries_report _

theorem tries_changes (force : Bool) (current stored : List (String × String)) :
    c.Tries v (changes force current stored)
      (fun d v' => v' = v ∧ d = HashDiff.between force current stored) err := by
  have hreport : ∀ d, c.Tries v (do
        Attempt.report ("Changes: " ++ toString d.added.length ++ " added, " ++
          toString d.modified.length ++ " modified, " ++ toString d.deleted.length ++ " deleted")
        return d : Attempt HashDiff) (fun d' v' => v' = v ∧ d' = d) err := by
    intro d
    exact tries_bind_at (tries_report _) fun _ => tries_pure ⟨rfl, rfl⟩
  rw [changes, HashDiff.between]
  dsimp only
  split
  · exact tries_bind_at (tries_report _) fun _ => hreport _
  · exact hreport _

theorem tries_removeDocuments (dir other : String) (paths : List String) :
    c.Tries v (removeDocuments dir paths) (fun _ v' => Output.Keeps other v v')
      fun _ v' => v'.index = v.index := by
  induction paths generalizing v with
  | nil => exact tries_pure (Output.Keeps.refl other v)
  | cons path rest ih =>
    refine tries_bind (Output.tries_removeFile dir path other) fun _ v₁ hv₁ => ?_
    exact tries_mono ih (fun _ _ h => hv₁.trans h) fun _ _ h => h.trans hv₁.index

/-! ## Runs -/

/-- The hashes of what is below a root. -/
def current (x : Indexer) (fs : FileSystem) (root : String) (patterns : List String) :
    List (String × String) :=
  (Snapshot.ofFiles fs (x.found fs root patterns)).hashes

/-- What an update that has succeeded leaves behind: `stored` is what it has read of the files, and
`es` are the files that it has written. -/
structure HasUpdated (x : Indexer) (v : Scene) (force : Bool) (p : Project) (root : String)
    (stored : List StoredFile) (es : List IndexedFile) (o : UpdateOutcome) (v' : Scene) :
    Prop where
  known : p ∈ v.index.projects
  project : o.project = p.id
  valid : AllowedRoots.validate v.disk x.config.allowedRoots p.rootPath = .ok root
  outputDir : o.outputDir = x.config.outputDirFor root p.name
  diff : o.diff = HashDiff.between force (x.current v.disk root p.excludePatterns)
    (SymbolStore.hashes stored)
  files : (es.map IndexedFile.file).Perm
    ((x.sources v.disk root p.excludePatterns).filter (o.diff.toReparse.contains ·.path))
  whole : ∀ e ∈ es, e.IsWhole
  parsed : o.filesParsed = es.length
  guards : v'.guards = (v.purge p.id o.diff.toPurge).guards.filter (·.id != p.id.render)
  retains : v.Retains (fun _ => False) v'
  others : ∀ e ∈ v'.index.files, e.project ≠ p.id → e ∈ v.index.files
  tagged : ∃ time, v'.index.tagged p.id =
    ⟨[finished p (mergeSummaries stored (x.current v.disk root p.excludePatterns)
        o.diff.toReparse (es.map IndexedFile.file)) time],
      (v.index.tagged p.id).files.filter (fun e => !o.diff.toPurge.contains e.path) ++ es⟩
  written : lastWrite? (OutputLayout.structureDocument o.outputDir) v'.changes =
    some (renderStructure (mergeSummaries stored (x.current v.disk root p.excludePatterns)
      o.diff.toReparse (es.map IndexedFile.file))).toUTF8

/-! ## What an update goes by -/

section

variable {stored : List StoredFile} {path : String}

/-- The paths of the stored hashes are those of the stored files. -/
theorem mem_keys_hashes : path ∈ Keyed.keys (SymbolStore.hashes stored) ↔
    ∃ f ∈ stored, f.path = path := by
  rw [SymbolStore.hashes, Keyed.mem_keys_ofList, Keyed.keys, List.map_map]
  exact List.mem_map

/-- What is known of the files after an update, in any order. -/
theorem mergeSummaries_perm (stored : List StoredFile) (current : List (String × String))
    (reparsed : List String) (files : List SourceFile) :
    (mergeSummaries stored current reparsed files).Perm
      ((stored.filter fun f => Keyed.contains f.path current && !reparsed.contains f.path).map
        StoredFile.summary ++ files.map SourceFile.summary) :=
  Sorting.sort_perm _ _

end

/-- Files that an update has parsed again: the sources at paths that have changed, each of them once. -/
def Reparses (sources : List SourceFile) (d : HashDiff) (files : List SourceFile) : Prop :=
  files.Perm (sources.filter (d.toReparse.contains ·.path))

namespace Reparses

variable {sources files : List SourceFile} {d : HashDiff}

theorem of_mem (h : Reparses sources d files) {f : SourceFile} (hf : f ∈ files) :
    f ∈ sources ∧ f.path ∈ d.toReparse := by
  obtain ⟨hsource, hpath⟩ := List.mem_filter.mp (h.mem_iff.mp hf)
  exact ⟨hsource, List.contains_iff_mem.mp hpath⟩

theorem nodup_paths (h : Reparses sources d files)
    (hsources : (sources.map SourceFile.path).Nodup) : (files.map SourceFile.path).Nodup := by
  rw [(h.map SourceFile.path).nodup_iff]
  exact hsources.sublist (List.filter_sublist.map _)

/-- Nothing is written over, because what is written has been purged. -/
theorem not_mem_of_purged (h : Reparses sources d files) {id : Uuid} {e : IndexedFile}
    (he : e ∈ (v.purge id d.toPurge).index.files) (hid : e.project = id) :
    e.path ∉ files.map SourceFile.path := by
  intro hmem
  obtain ⟨f, hf, hpath⟩ := List.mem_map.mp hmem
  have hpurged : e.path ∈ d.toPurge := hpath ▸ HashDiff.mem_toPurge_of_mem_toReparse (h.of_mem hf).2
  have hkept := (List.mem_filter.mp he).2
  simp [hid, hpurged] at hkept

end Reparses

/-- The paths of what is below a root are those of the sources. -/
theorem mem_keys_current {fs : FileSystem} (hfs : fs.WellNamed) {root : String}
    {patterns : List String} {path : String} :
    path ∈ Keyed.keys (x.current fs root patterns) ↔
      path ∈ (x.sources fs root patterns).map SourceFile.path :=
  Snapshot.mem_keys_hashes (scannable_scan hfs _ _ root)

theorem sorted_current {fs : FileSystem} (hfs : fs.WellNamed) (root : String)
    (patterns : List String) : Keyed.Sorted (x.current fs root patterns) :=
  Snapshot.sorted_hashes (scannable_scan hfs _ _ root)

theorem tries_updateProject (hs : x.store.collection = c.collection) (hfs : v.disk.WellNamed)
    (hknown : ∀ path bytes, v.disk.read path = .ok bytes → c.known bytes) (id : Uuid)
    (force : Bool) :
    c.Tries v (x.updateProject id force)
      (fun o v' => o.project = id ∧ ∃ p root stored es, HasUpdated x v force p root stored es o v' ∧
        (stored.Perm ((v.index.tagged id).files.map fun e => StoredFile.ofSource e.file) ∨
          (¬ c.honest ∧ stored = [])))
      fun _ v' => v.Retains (fun _ => False) v' := by
  have hsame : ∀ {w : Scene}, w = v → v.Retains (fun _ => False) w :=
    fun h => .of_same (congrArg (·.index.projects) h)
  refine tries_bind (tries_mono_err (tries_knownProject hs id) fun _ _ => hsame) fun r v₁ h => ?_
  obtain ⟨p', root⟩ := r
  obtain ⟨rfl, p, hp, rfl, rfl, hroot⟩ := h
  refine tries_bind_at (tries_report _) fun _ => ?_
  refine tries_bind (tries_mono_err (SymbolStore.tries_loadFiles hs p.id) fun _ _ => hsame)
    fun stored v₂ h => ?_
  obtain ⟨rfl, hstored⟩ := h
  refine tries_bind_at (tries_report _) fun _ => ?_
  refine tries_bind_at (tries_report _) fun _ => ?_
  refine tries_bind (tries_scanRoot root _) fun r v₂ h => ?_
  obtain ⟨rfl, rfl⟩ := h
  refine tries_bind (tries_changes force _ _) fun d v₂ h => ?_
  obtain ⟨rfl, hd⟩ := h
  refine tries_of_sound fun hsound => ?_
  refine tries_bind_at (tries_mono_err (tries_purge hs p.id d.toPurge) fun _ _ => hsame)
    fun _ => ?_
  refine tries_bind (tries_parseFiles _ _ _) fun run v₃ h => ?_
  obtain ⟨rfl, hfiles, _⟩ := h
  have hscan := scannable_found (x := x) hfs root p.excludePatterns
  have hparsed : Reparses (x.sources v₂.disk root p.excludePatterns) d run.files :=
    hfiles ▸ Snapshot.sources_reparse_perm hscan (HashDiff.nodup_toReparse d)
  have hplain : p.IsPlain := hsound.plain p hp
  have hone := hsound.root_of_id hp
  have hroots := hsound.id_of_root hp
  have hpurged : v₂.Retains (fun _ => False) (v₂.purge p.id d.toPurge) := .of_same rfl
  refine tries_file hs ⟨p, hp, rfl⟩ hplain (fun _ => ⟨rfl, rfl, hplain⟩) hone hroots
    (fun f hf => stemsFrom_of_mem_sources hscan hknown (hparsed.of_mem hf).1)
    (hparsed.nodup_paths (nodup_path_sources hscan)) (fun _ _ => hparsed.not_mem_of_purged)
    (fun _ _ h => hpurged.trans h) fun time es v₃ h₃ => ?_
  -- the documents leave the index alone, however many of them are written
  have hdocuments : ∀ {w : Scene}, w.index = v₃.index → v₂.Retains (fun _ => False) w :=
    fun h => hpurged.trans (h₃.retains.trans (.of_same (congrArg Index.projects h)))
  refine tries_bind_at (tries_report _) fun _ => ?_
  refine Output.tries_outline (fun _ _ => hdocuments) fun v₄ h₄ => ?_
  refine tries_bind (tries_mono_err (Output.tries_writeFiles _ _)
    fun _ _ h => hdocuments (h.trans h₄.index)) fun _ v₅ h => ?_
  have h₅ := h₄.keeps h
  refine tries_bind (tries_mono_err (tries_removeDocuments _
    (OutputLayout.structureDocument (x.config.outputDirFor root p.name)) _)
    fun _ _ h => hdocuments (h.trans h₅.index)) fun _ v₆ h => ?_
  have h₆ := h₅.keeps h
  refine tries_bind_at (tries_report _) fun _ => ?_
  refine tries_pure ⟨rfl, p, root, stored, es, ?_, hstored⟩
  refine {
    known := hp
    project := rfl
    valid := hroot
    outputDir := rfl
    diff := hd
    files := h₃.files ▸ hparsed
    whole := fun e he => (h₃.whole e he).2
    parsed := (congrArg List.length h₃.files).symm.trans (List.length_map _)
    guards := h₆.guards.trans h₃.guards
    retains := hdocuments h₆.index
    others := fun e he hother => ?_
    tagged := ⟨time, ?_⟩
    written := ?_ }
  · rw [h₆.index, h₃.index] at he
    rcases List.mem_append.mp he with he | he
    · exact List.mem_of_mem_filter he
    · exact absurd (h₃.whole e he).1 hother
  · rw [h₆.index, h₃.files]
    refine h₃.tagged.trans ?_
    exact congrArg (fun kept => Index.mk _ (kept ++ es))
      (congrArg Index.files (Index.tagged_purge v₂.index p.id d.toPurge))
  · rw [h₃.files]
    exact h₆.written

end Indexer

end CodeAtlas
