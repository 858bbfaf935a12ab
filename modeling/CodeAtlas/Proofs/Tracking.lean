import CodeAtlas.Proofs.FullRuns
import CodeAtlas.Proofs.Repair
import CodeAtlas.Proofs.WellFormed
/-!
# Projects in step with a tree

A run that reads every file brings a project in step with the tree of files that it has read, and an
update keeps a project that is in step with a tree in step with a later one: what it takes for
unchanged is unchanged, because hashes tell contents apart.

Results:
1. `sources_eq_readings`: sources have the paths and the hashes of the tree.
2. `HasUpdated.refreshes`: an update of a project all of whose files are there as a whole leaves the
   files as they are now.
3. `Tracks.mirrors`: what is there of a project in step with a tree.
-/

namespace CodeAtlas

/-! ## Trees -/

namespace SourceFile

/-- A file without the time of its last change. -/
def timeless (f : SourceFile) : SourceFile := f.modifiedAt ⟨0, 0⟩

theorem timeless_of_modifiedAt {f g : SourceFile} (h : f.modifiedAt g.modified = g) :
    f.timeless = g.timeless :=
  calc f.timeless = (f.modifiedAt g.modified).timeless := rfl
    _ = g.timeless := by rw [h]

end SourceFile

/-- The paths and the bytes of those files of a list that can be read. -/
def FileSystem.readings (fs : FileSystem) (found : List ScannedFile) :
    List (String × ByteArray) :=
  found.filterMap fun f => (fs.read f.path).toOption.map (f.relative, ·)

/-- The tree of files below a root: the paths and the bytes of those that can be read. -/
def Indexer.readings (x : Indexer) (fs : FileSystem) (root : String) (patterns : List String) :
    List (String × ByteArray) :=
  fs.readings (x.found fs root patterns)

/-- The path and the hash of a file of a tree. -/
def hashed (r : String × ByteArray) : String × String := (r.1, Sha256.digest r.2)

section

variable {fs : FileSystem} {found : List ScannedFile}

/-- Sources have the paths and the hashes of the tree. -/
theorem sources_eq_readings (h : Scannable found) :
    (fs.sources found).map (fun s => (s.path, s.hash)) = (fs.readings found).map hashed := by
  have hlanguages : ∀ f ∈ found, ∃ l, Language.ofName? f.language = some l :=
    fun f hf => (h.languages f hf).imp fun _ hl => hl.1
  clear h
  induction found with
  | nil => rfl
  | cons f rest ih =>
    have hrest := ih fun f' hf' => hlanguages f' (List.mem_cons_of_mem f hf')
    obtain ⟨l, hl⟩ := hlanguages f List.mem_cons_self
    rw [FileSystem.sources, FileSystem.readings, List.filterMap_cons, List.filterMap_cons]
    rcases read?_cases fs hl with ⟨bytes, modified, hread, hs⟩ | ⟨⟨e, hread⟩, hs⟩
    · simp only [hread, hs, Except.toOption, Option.map_some, List.map_cons, hashed,
        SourceFile.path_ofBytes, SourceFile.hash_ofBytes]
      exact congrArg _ hrest
    · simp only [hread, hs, Except.toOption, Option.map_none]
      exact hrest

theorem keys_readings (h : Scannable found) :
    Keyed.keys (fs.readings found) = (fs.sources found).map SourceFile.path := by
  have hsame : (fs.sources found).map (fun s => (s.path, s.hash)) = (fs.readings found).map hashed :=
    sources_eq_readings h
  have hkeys := congrArg (List.map Prod.fst) hsame
  rw [List.map_map, List.map_map] at hkeys
  exact hkeys.symm

theorem known_of_mem_readings {known : ByteArray → Prop}
    (hknown : ∀ path bytes, fs.read path = .ok bytes → known bytes) {r : String × ByteArray}
    (hr : r ∈ fs.readings found) : known r.2 := by
  obtain ⟨f, _, hf⟩ := List.mem_filterMap.mp hr
  obtain ⟨bytes, hbytes, rfl⟩ := Option.map_eq_some_iff.mp hf
  refine hknown f.path bytes ?_
  cases hread : fs.read f.path with
  | error e =>
    rw [hread] at hbytes
    cases hbytes
  | ok content =>
    rw [hread] at hbytes
    cases hbytes
    rfl

end

/-! ## Updates -/

namespace Indexer.HasUpdated

variable {x : Indexer} {v v' : Scene} {p : Project} {root : String} {stored : List StoredFile}
  {es : List IndexedFile} {o : UpdateOutcome} {c : Regime}

/-- What is taken for unchanged is unchanged. -/
theorem timeless_kept (h : HasUpdated x v false p root stored es o v') (hfs : v.disk.WellNamed)
    (hknown : ∀ path bytes, v.disk.read path = .ok bytes → c.known bytes)
    (apart : Sha256.TellsApart c.known) (hsound : v.Sound c)
    (hstored : stored.Perm ((v.index.tagged p.id).files.map fun e => StoredFile.ofSource e.file))
    (hpaths : ((v.index.tagged p.id).files.map IndexedFile.path).Nodup) :
    (((v.index.tagged p.id).files.filter fun e => !o.diff.toPurge.contains e.path).map
        fun e => e.file.timeless).Perm
      (((x.sources v.disk root p.excludePatterns).filter
        fun s => !o.diff.toReparse.contains s.path).map SourceFile.timeless) := by
  have hscan := scannable_found (x := x) hfs root p.excludePatterns
  -- no path is there twice, so it is enough to compare what the two lists hold
  have hnodup : ∀ files : List SourceFile, (files.map SourceFile.path).Nodup →
      (files.map SourceFile.timeless).Nodup := by
    intro files hfiles
    refine List.Nodup.of_map SourceFile.path ?_
    rw [List.map_map]
    exact hfiles
  refine (List.perm_ext_iff_of_nodup ?_ ?_).mpr fun t => ?_
  · have hkept := hpaths.sublist ((List.filter_sublist
      (p := fun e => !o.diff.toPurge.contains e.path)).map IndexedFile.path)
    have hfiles := hnodup (((v.index.tagged p.id).files.filter
      fun e => !o.diff.toPurge.contains e.path).map IndexedFile.file)
    rw [List.map_map, List.map_map] at hfiles
    exact hfiles hkept
  · exact hnodup _ ((nodup_path_sources hscan).sublist (List.filter_sublist.map _))
  simp only [List.mem_map, List.mem_filter, Bool.not_eq_true', List.contains_eq_mem,
    decide_eq_false_iff_not]
  constructor
  · rintro ⟨e, ⟨he, hnot⟩, rfl⟩
    rw [h.mem_toPurge hfs, not_or] at hnot
    have hpath : e.path ∈ (x.sources v.disk root p.excludePatterns).map SourceFile.path :=
      Decidable.byContradiction fun hgone => hnot.2 ⟨read_of_mem hstored he, hgone⟩
    obtain ⟨f, hf, hfe⟩ := List.mem_map.mp hpath
    have hreparse : f.path ∉ o.diff.toReparse := fun hmem => hnot.1 (hfe ▸ hmem)
    obtain ⟨e', he', hpath', hunchanged⟩ :=
      h.exists_unchanged hfs hknown apart hsound hstored hf hreparse
    have hsame : e' = e := List.inj_on_of_nodup_map hpaths he' he (hpath'.trans hfe)
    exact ⟨f, ⟨hf, hreparse⟩, hsame ▸ (SourceFile.timeless_of_modifiedAt hunchanged).symm⟩
  · rintro ⟨f, ⟨hf, hnot⟩, rfl⟩
    obtain ⟨e, he, hpath, hunchanged⟩ :=
      h.exists_unchanged hfs hknown apart hsound hstored hf hnot
    refine ⟨e, ⟨he, ?_⟩, SourceFile.timeless_of_modifiedAt hunchanged⟩
    rw [h.mem_toPurge hfs, hpath]
    rintro (hmem | ⟨_, hgone⟩)
    · exact hnot hmem
    · exact hgone (List.mem_map_of_mem hf)

/-- What an update leaves if all files were there as a whole: the files as they are now, but for
the time of their last change, and the same told about them. -/
theorem refreshes {force : Bool} (h : HasUpdated x v force p root stored es o v')
    (hfs : v.disk.WellNamed)
    (hknown : ∀ path bytes, v.disk.read path = .ok bytes → c.known bytes)
    (apart : Sha256.TellsApart c.known) (hsound : v.Sound c)
    (hstored : stored.Perm ((v.index.tagged p.id).files.map fun e => StoredFile.ofSource e.file))
    (hpaths : force = false → ((v.index.tagged p.id).files.map IndexedFile.path).Nodup)
    (hwhole : force = false → ∀ e ∈ (v.index.tagged p.id).files, e.IsWhole) :
    ((v'.index.tagged p.id).files.map fun e => e.file.timeless).Perm
        ((x.sources v.disk root p.excludePatterns).map SourceFile.timeless) ∧
      (∀ e ∈ (v'.index.tagged p.id).files, e.IsWhole) ∧
      (mergeSummaries stored (x.current v.disk root p.excludePatterns) o.diff.toReparse
        (es.map IndexedFile.file)).Perm
          ((x.sources v.disk root p.excludePatterns).map SourceFile.summary) := by
  have hes : (es.map fun e => e.file.timeless) =
      (es.map IndexedFile.file).map SourceFile.timeless := by
    rw [List.map_map]
    rfl
  rw [h.files_tagged, List.map_append, hes]
  cases force with
  | true =>
    obtain ⟨hfiles, hnone, hsummaries⟩ := h.all_of_force hfs hstored
    rw [hnone, List.map_nil, List.nil_append, List.nil_append]
    exact ⟨hfiles.map _, h.whole, hsummaries⟩
  | false =>
    have hkept := h.timeless_kept hfs hknown apart hsound hstored (hpaths rfl)
    -- what is kept and what is parsed again make up what is there
    have hsplit : (((x.sources v.disk root p.excludePatterns).filter
        fun s => !o.diff.toReparse.contains s.path) ++
        (x.sources v.disk root p.excludePatterns).filter
          (o.diff.toReparse.contains ·.path)).Perm (x.sources v.disk root p.excludePatterns) :=
      List.perm_append_comm.trans (List.filter_append_perm _ _)
    refine ⟨?_, fun e he => ?_, ?_⟩
    · refine (hkept.append (h.files.map SourceFile.timeless)).trans ?_
      rw [← List.map_append]
      exact hsplit.map _
    · rcases List.mem_append.mp he with he | he
      · exact hwhole rfl e (List.mem_of_mem_filter he)
      · exact h.whole e he
    · -- a summary does not tell the time
      have htimeless : ∀ files : List SourceFile, files.map SourceFile.summary =
          (files.map SourceFile.timeless).map SourceFile.summary := by
        intro files
        rw [List.map_map]
        rfl
      refine (mergeSummaries_perm _ _ _ _).trans ?_
      refine ((h.summaries_kept hstored hfs).append (h.files.map SourceFile.summary)).trans ?_
      have hsummaries := hkept.map SourceFile.summary
      rw [List.map_map, ← htimeless] at hsummaries
      refine (hsummaries.append_right _).trans ?_
      rw [← List.map_append]
      exact hsplit.map _

end Indexer.HasUpdated

/-! ## Projects in step -/

/-- All names of files are names, and what can be read is known. -/
def Host.Readable (known : ByteArray → Prop) (h : Host) : Prop :=
  h.disk.WellNamed ∧ ∀ path bytes, h.disk.read path = .ok bytes → known bytes

/-- Surroundings in which a project with a root and patterns is in step with a tree: the last run was
one that has read every file of the tree, after whatever history, or an update of a project in step
with an earlier tree. In between the files and the time may have changed. -/
inductive Tracks (collection : String) (known : ByteArray → Prop) (id : Uuid) :
    String → List String → List (String × ByteArray) → Host → Prop
  | index {h h' : Host} {x : Indexer} {path root : String} {patterns : List String}
    {o : IndexOutcome} (before : History collection (fun _ h => h.Readable known) h)
    (hs : x.store.collection = collection) (hfit : h.Readable known) (hh : h.Honest)
    (hroot : AllowedRoots.validate h.disk x.config.allowedRoots path = .ok root)
    (hrun : h.attempt (x.indexProject path patterns) = (.ok (.ok o), h')) (hid : o.project = id) :
    Tracks collection known id root patterns (x.readings h.disk root patterns) h'
  | reparse {h h' : Host} {x : Indexer} {p : Project} {root : String} {o : UpdateOutcome}
    (before : History collection (fun _ h => h.Readable known) h)
    (hs : x.store.collection = collection) (hfit : h.Readable known) (hh : h.Honest)
    (hp : (id.render, .ofProject p) ∈ h.points collection)
    (hroot : AllowedRoots.validate h.disk x.config.allowedRoots p.rootPath = .ok root)
    (hrun : h.attempt (x.updateProject id true) = (.ok (.ok o), h')) :
    Tracks collection known id p.rootPath p.excludePatterns
      (x.readings h.disk root p.excludePatterns) h'
  | update {h h' : Host} {x : Indexer} {path root : String} {patterns : List String}
    {tree : List (String × ByteArray)} {force : Bool} {o : UpdateOutcome}
    (before : Tracks collection known id path patterns tree h)
    (hs : x.store.collection = collection) (hfit : h.Readable known) (hh : h.Honest)
    (hroot : AllowedRoots.validate h.disk x.config.allowedRoots path = .ok root)
    (hrun : h.attempt (x.updateProject id force) = (.ok (.ok o), h')) :
    Tracks collection known id path patterns (x.readings h.disk root patterns) h'
  | drift {h h' : Host} {path : String} {patterns : List String} {tree : List (String × ByteArray)}
    (before : Tracks collection known id path patterns tree h) (hdrift : h.Drifts h') :
    Tracks collection known id path patterns tree h'

/-- A project with a root and patterns is there with all of its files as a whole, and these have the
paths and hashes of a tree. -/
structure Scene.Mirrors (v : Scene) (id : Uuid) (root : String) (patterns : List String)
    (tree : List (String × ByteArray)) : Prop where
  project : ∃ p, (v.index.tagged id).projects = [p] ∧ p.rootPath = root ∧
    p.excludePatterns = patterns
  whole : ∀ e ∈ (v.index.tagged id).files, e.IsWhole
  hashes : ((v.index.tagged id).files.map fun e => (e.path, e.file.hash)).Perm (tree.map hashed)
  paths : (Keyed.keys tree).Nodup

namespace Scene.Mirrors

variable {v v' : Scene} {id : Uuid} {root : String} {patterns : List String}
  {tree : List (String × ByteArray)}

theorem nodup_paths (h : v.Mirrors id root patterns tree) :
    ((v.index.tagged id).files.map IndexedFile.path).Nodup := by
  have hpaths := h.hashes.map Prod.fst
  rw [List.map_map, List.map_map] at hpaths
  exact hpaths.nodup_iff.mpr h.paths

/-- The project of the id is the one that is there. -/
theorem eq_project (h : v.Mirrors id root patterns tree) {p : Project} (hp : p ∈ v.index.projects)
    (hid : p.id = id) : p.rootPath = root ∧ p.excludePatterns = patterns := by
  obtain ⟨q, hq, hroot, hpatterns⟩ := h.project
  have hmem : p ∈ (v.index.tagged id).projects := List.mem_filter.mpr ⟨hp, beq_iff_eq.mpr hid⟩
  rw [hq] at hmem
  cases List.mem_singleton.mp hmem
  exact ⟨hroot, hpatterns⟩

/-- What has been read of a tree mirrors it. -/
theorem of_files {x : Indexer} {fs : FileSystem} {place : String} {p : Project}
    (hfs : fs.WellNamed) (hproject : (v.index.tagged id).projects = [p])
    (hwhole : ∀ e ∈ (v.index.tagged id).files, e.IsWhole)
    (hfiles : ((v.index.tagged id).files.map fun e => e.file.timeless).Perm
      ((x.sources fs place p.excludePatterns).map SourceFile.timeless)) :
    v.Mirrors id p.rootPath p.excludePatterns (x.readings fs place p.excludePatterns) := by
  have hscan := Indexer.scannable_found (x := x) (v := { v with disk := fs }) hfs place
    p.excludePatterns
  refine ⟨⟨p, hproject, rfl, rfl⟩, hwhole, ?_, ?_⟩
  · have hhashes := hfiles.map fun f => (f.path, f.hash)
    rw [List.map_map, List.map_map] at hhashes
    exact hhashes.trans (.of_eq (sources_eq_readings hscan))
  · rw [Indexer.readings, keys_readings hscan]
    exact nodup_path_sources hscan

end Scene.Mirrors

/-- What a run that indexes a root leaves mirrors the tree below it. -/
theorem Indexer.HasIndexed.mirrors {c : Regime} {x : Indexer} {v v' : Scene} {path root : String}
    {patterns : List String} {o : IndexOutcome} (h : HasIndexed c x v path patterns root o v')
    (hc : c.honest) (hfs : v.disk.WellNamed) :
    v'.Mirrors o.project root patterns (x.readings v.disk root patterns) := by
  obtain ⟨time, es, hes, hwhole, htagged⟩ := h.tagged hc
  have hpatterns := (isPlain_started root patterns o.project).2
  have hfiles : ((v'.index.tagged o.project).files.map fun e => e.file.timeless).Perm
      ((x.sources v.disk root patterns).map SourceFile.timeless) := by
    rw [htagged, ← hes]
    change (es.map fun e => e.file.timeless).Perm _
    rw [List.map_map]
    exact .refl _
  have hwhole' : ∀ e ∈ (v'.index.tagged o.project).files, e.IsWhole := htagged ▸ hwhole
  rw [← hpatterns] at hfiles
  have hmirrors := Scene.Mirrors.of_files (p := finished (started root patterns o.project) _ time)
    hfs (congrArg Index.projects htagged) hwhole' hfiles
  rwa [show (finished (started root patterns o.project) _ time).excludePatterns = patterns
    from hpatterns] at hmirrors

/-- What an update leaves mirrors the tree below the root if all files were there as a whole. -/
theorem Indexer.HasUpdated.mirrors {x : Indexer} {v v' : Scene} {force : Bool}
    {p : Project} {root : String} {stored : List StoredFile} {es : List IndexedFile}
    {o : UpdateOutcome} (h : HasUpdated x v force p root stored es o v') (hfs : v.disk.WellNamed)
    (hfiles : ((v'.index.tagged p.id).files.map fun e => e.file.timeless).Perm
      ((x.sources v.disk root p.excludePatterns).map SourceFile.timeless))
    (hwhole : ∀ e ∈ (v'.index.tagged p.id).files, e.IsWhole) :
    v'.Mirrors p.id p.rootPath p.excludePatterns (x.readings v.disk root p.excludePatterns) := by
  obtain ⟨time, htagged⟩ := h.tagged
  exact Scene.Mirrors.of_files (x := x) (v := v') (p := finished p _ time) hfs
    (congrArg Index.projects htagged) hwhole hfiles

/-- The payload of a point tells the root and the patterns of the project of an index that has its
id. -/
theorem Regime.At.eq_of_mem_points {c : Regime} {v : Scene} {h : Host} (hat : c.At v h)
    {p q : Project} (hp : (q.id.render, .ofProject p) ∈ h.points c.collection)
    (hq : q ∈ v.index.projects) :
    p.rootPath = q.rootPath ∧ p.excludePatterns = q.excludePatterns := by
  have hreread : some p.reread = some q.reread := by
    rw [← Payload.toProject?_ofProject p "" [], ← Payload.toProject?_ofProject q "" []]
    rcases Index.mem_contents (hat.points_perm.mem_iff.mp hp) with ⟨r, hr, heq⟩ | ⟨e, _, he⟩
    · have hid : q.id = r.id := Uuid.render_inj.mp (congrArg Prod.fst heq)
      have hsame : r = q := Index.project_eq_of_id_eq hat.sound.nodup_ids hr hq hid.symm
      rw [show Payload.ofProject p = .ofProject r from congrArg Prod.snd heq, hsame]
    · exact absurd (Payload.isProject_ofProject p) (IndexedFile.not_isProject he)
  have hsame := Option.some.inj hreread
  have hroot : p.reread.rootPath = q.reread.rootPath := congrArg _ hsame
  have hpatterns : p.reread.excludePatterns = q.reread.excludePatterns := congrArg _ hsame
  exact ⟨hroot, hpatterns⟩

section

variable {c : Regime} {v : Scene} {h h' : Host} {x : Indexer}

/-- What is taken for granted of files holds of those of a scene. -/
theorem Regime.At.readable (hat : c.At v h) (hfit : h.Readable c.known) :
    v.disk.WellNamed ∧ ∀ path bytes, v.disk.read path = .ok bytes → c.known bytes := by
  rw [← hat.disk]
  exact hfit

/-- A run that indexes a root in honest surroundings. -/
theorem Regime.At.indexes (hat : c.At v h) (hc : ¬ c.honest) (hs : x.store.collection = c.collection)
    (hfit : h.Readable c.known) (hh : h.Honest) {path : String} {patterns : List String}
    {o : IndexOutcome} (hrun : h.attempt (x.indexProject path patterns) = (.ok (.ok o), h'))
    (hsupply : h'.nextId ≤ Uuid.supply) :
    ∃ v' root, c.At v' h' ∧
      Indexer.HasIndexed { c with honest := True } x v path patterns root o v' := by
  have hhonest : Regime.At { c with honest := True } v h := hat.of_honest fun _ => hh
  obtain ⟨hnamed, hknown⟩ := hat.readable hfit
  obtain ⟨v', hat', root, hindexed⟩ := hhonest.result (Indexer.tries_indexProject
    (c := { c with honest := True }) hs (fun _ => trivial) hnamed hknown path patterns) hrun hsupply
  exact ⟨v', root, hat'.of_honest fun hc' => absurd hc' hc, hindexed⟩

/-- An update in honest surroundings. -/
theorem Regime.At.updates (hat : c.At v h) (hc : ¬ c.honest) (hs : x.store.collection = c.collection)
    (hfit : h.Readable c.known) (hh : h.Honest) {id : Uuid} {force : Bool} {o : UpdateOutcome}
    (hrun : h.attempt (x.updateProject id force) = (.ok (.ok o), h'))
    (hsupply : h'.nextId ≤ Uuid.supply) :
    ∃ v' p root stored es, c.At v' h' ∧ p.id = id ∧
      Indexer.HasUpdated x v force p root stored es o v' ∧
      stored.Perm ((v.index.tagged p.id).files.map fun e => StoredFile.ofSource e.file) := by
  have hhonest : Regime.At { c with honest := True } v h := hat.of_honest fun _ => hh
  obtain ⟨hnamed, hknown⟩ := hat.readable hfit
  obtain ⟨v', hat', hid, p, root, stored, es, hupdated, hstored⟩ := hhonest.result
    (Indexer.tries_updateProject (c := { c with honest := True }) hs hnamed hknown id force) hrun
    hsupply
  obtain rfl := hupdated.project.symm.trans hid
  exact ⟨v', p, root, stored, es, hat'.of_honest fun hc' => absurd hc' hc, rfl, hupdated,
    hstored.resolve_right fun hnone => hnone.1 trivial⟩

end

/-- The surroundings of a history look like a scene, if all files were readable in it. -/
theorem History.at_readable {c : Regime} (ho : ¬ c.orderly) (hc : ¬ c.honest) {h : Host}
    (hist : History c.collection (fun _ h => h.Readable c.known) h)
    (hsupply : h.nextId ≤ Uuid.supply) : ∃ v, c.At v h :=
  hist.at_scene hc (fun _ _ hfit => ⟨hfit.1, hfit.2, fun _ h => absurd h ho⟩) hsupply

/-- What is there of a project in step with a tree. -/
theorem Tracks.mirrors {c : Regime} (ho : ¬ c.orderly) (hc : ¬ c.honest)
    (apart : Sha256.TellsApart c.known) {id : Uuid} {path : String} {patterns : List String}
    {tree : List (String × ByteArray)} {h : Host}
    (ht : Tracks c.collection c.known id path patterns tree h) (hsupply : h.nextId ≤ Uuid.supply) :
    ∃ v, c.At v h ∧ v.Mirrors id path patterns tree := by
  -- only the last run counts, but for an update, which goes by what was there before
  induction ht with
  | index before hs hfit hh hroot hrun hid =>
    obtain ⟨v, hat⟩ := before.at_readable ho hc (Host.supplied_before_run hrun hsupply)
    obtain ⟨v', root', hat', hindexed⟩ := hat.indexes hc hs hfit hh hrun hsupply
    rw [hat.disk] at hroot ⊢
    obtain rfl := Except.ok.inj (hroot.symm.trans hindexed.valid)
    exact ⟨v', hat', hid ▸ hindexed.mirrors trivial (hat.readable hfit).1⟩
  | reparse before hs hfit hh hp hroot hrun =>
    obtain ⟨v, hat⟩ := before.at_readable ho hc (Host.supplied_before_run hrun hsupply)
    obtain ⟨v', p, root', stored, es, hat', rfl, hupdated, hread⟩ :=
      hat.updates hc hs hfit hh hrun hsupply
    obtain ⟨hpath, hpatterns⟩ := hat.eq_of_mem_points hp hupdated.known
    rw [hpath, hat.disk] at hroot
    rw [hpath, hpatterns, hat.disk]
    obtain rfl := Except.ok.inj (hroot.symm.trans hupdated.valid)
    obtain ⟨hnamed, hknown⟩ := hat.readable hfit
    obtain ⟨hfiles, hwhole, _⟩ := hupdated.refreshes hnamed hknown apart hat.sound hread nofun nofun
    exact ⟨v', hat', hupdated.mirrors hnamed hfiles hwhole⟩
  | update before hs hfit hh hroot hrun ih =>
    obtain ⟨v, hat, hmirrors⟩ := ih (Host.supplied_before_run hrun hsupply)
    obtain ⟨v', p, root', stored, es, hat', rfl, hupdated, hread⟩ :=
      hat.updates hc hs hfit hh hrun hsupply
    rw [hat.disk] at hroot ⊢
    obtain ⟨rfl, rfl⟩ := hmirrors.eq_project hupdated.known rfl
    obtain rfl := Except.ok.inj (hroot.symm.trans hupdated.valid)
    obtain ⟨hnamed, hknown⟩ := hat.readable hfit
    obtain ⟨hfiles, hwhole, _⟩ := hupdated.refreshes hnamed hknown apart hat.sound hread
      (fun _ => hmirrors.nodup_paths) fun _ => hmirrors.whole
    exact ⟨v', hat', hupdated.mirrors hnamed hfiles hwhole⟩
  | drift before hdrift ih =>
    obtain ⟨v, hat, hmirrors⟩ := ih (Nat.le_trans hdrift.nextId hsupply)
    exact ⟨_, hat.drift hdrift fun h => absurd h hc, ⟨hmirrors.project, hmirrors.whole,
      hmirrors.hashes, hmirrors.paths⟩⟩

/-! ## A small project in step -/

section

set_option maxRecDepth 100000

/-- The texts that the file of the small project has. -/
def sampleTexts (bytes : ByteArray) : Prop :=
  bytes = "def f():\n    pass\n".toUTF8 ∨ bytes = "def g():\n    pass\n".toUTF8

theorem tellsApart_sampleTexts : Sha256.TellsApart sampleTexts := by
  have hne : Sha256.digest "def f():\n    pass\n".toUTF8 ≠
      Sha256.digest "def g():\n    pass\n".toUTF8 := by
    decide +kernel
  rintro a b (rfl | rfl) (rfl | rfl) hsame
  · rfl
  · exact absurd hsame hne
  · exact absurd hsame.symm hne
  · rfl

theorem Host.readable_sampleTexts {h : Host} {text : String} (hdisk : h.disk = .sample text)
    (htext : sampleTexts text.toUTF8) : h.Readable sampleTexts := by
  rw [Readable, hdisk]
  exact ⟨FileSystem.wellNamed_sample text, fun _ _ hread => FileSystem.read_sample hread ▸ htext⟩

/-- Surroundings in which the project is indexed. -/
def Host.indexed (text : String) : Host :=
  ((Host.sample text []).attempt (Indexer.sample.indexProject "/r" [])).2

/-- Surroundings in which the project is indexed and its file has some text later. -/
def Host.indexedThen (text : String) : Host := (indexed "def f():\n    pass\n").later text []

/-- The same surroundings behind an update. -/
def Host.updatedThen (text : String) : Host :=
  ((indexedThen text).attempt (Indexer.sample.updateProject (.ofNat 1) false)).2

theorem Host.attempt_indexed {text : String} {o : IndexOutcome}
    (ho : (sample text []).result? (Indexer.sample.indexProject "/r" []) = some o) :
    (sample text []).attempt (Indexer.sample.indexProject "/r" []) = (.ok (.ok o), indexed text) := by
  rw [indexed]
  exact attempt_of_result? ho

theorem Host.memory_indexed (text : String) : ∃ s, (indexed text).store = .memory s := by
  rw [indexed]
  exact memory_attempt _ ⟨_, rfl⟩

theorem Host.attempt_updatedThen {text : String} {o : UpdateOutcome}
    (ho : (indexedThen text).result? (Indexer.sample.updateProject (.ofNat 1) false) = some o) :
    (indexedThen text).attempt (Indexer.sample.updateProject (.ofNat 1) false) =
      (.ok (.ok o), updatedThen text) := by
  rw [updatedThen]
  exact attempt_of_result? ho

theorem Host.readable_indexedThen {text : String} (htext : sampleTexts text.toUTF8) :
    (indexedThen text).Readable sampleTexts :=
  readable_sampleTexts (show _ = FileSystem.sample text from rfl) htext

/-- The project is still in step with the tree of the first text. -/
theorem tracks_indexedThen (text : String) : Tracks "points" sampleTexts (.ofNat 1) "/r" []
    (Indexer.sample.readings (FileSystem.sample "def f():\n    pass\n") "/r" [])
    (Host.indexedThen text) := by
  have hrun : ((Host.sample "def f():\n    pass\n" []).result?
      (Indexer.sample.indexProject "/r" [])).map (·.project) = some (.ofNat 1) := by
    decide +kernel
  obtain ⟨o, ho, hid⟩ := Option.map_eq_some_iff.mp hrun
  have hstart : History "points" (fun _ h => h.Readable sampleTexts)
      (Host.sample "def f():\n    pass\n" []) := .start ⟨_, rfl⟩ rfl
  have hindexed := Tracks.index (x := .sample) (o := o) hstart rfl
    (Host.readable_sampleTexts (show _ = FileSystem.sample "def f():\n    pass\n" from rfl) (.inl rfl))
    nofun (show _ = Except.ok "/r" from rfl) (Host.attempt_of_result? ho) hid
  exact .drift hindexed (Host.drifts_later (Host.memory_attempt _ ⟨_, rfl⟩) _ _)

end

end CodeAtlas
