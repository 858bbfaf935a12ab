import CodeAtlas.Proofs.Structure
import CodeAtlas.Proofs.Tracking
/-!
# Updates give what a run from the beginning gives

An update reads only what has changed, and a run that indexes a root reads everything. If a project
was in step with an earlier tree, both leave the same: the same is told about files and symbols, the
project has the same counts, and the document about the structure has the same text. Ids are not the
same, nor is the time of the last change of a file that was not read again.

Results:
1. `content_eq`: what is told about a file depends neither on its project nor on that time.
2. `At.contentOf_perm`, `At.recordsOf_eq`: what is told about a project that is there as a whole.
3. `refines_index_of_update`: after an update everything is as after a run from the beginning.
-/

namespace CodeAtlas

/-! ## What is told about a project -/

namespace Payload

/-- A payload without the id of its project and the time of the last change of its file. -/
def anonymous (p : Payload) : Payload := Keyed.erase "last_modified" (Keyed.erase "project_id" p)

/-- What is told about a file and its symbols. -/
def content (id : Uuid) (f : SourceFile) : List Payload :=
  (ofFile id f :: symbols id f).map anonymous

/-- The counts, the state and the configuration that a payload tells. -/
def record (p : Payload) : List (Option Json) :=
  [p.get? "file_count", p.get? "symbol_count", p.get? "status", p.get? "config"]

/-- What is told about a file depends neither on its project nor on the time of its last change. -/
theorem content_eq (id id' : Uuid) (f : SourceFile) : content id f = content id' f.timeless := by
  have hfile : anonymous (ofFile id f) = anonymous (ofFile id' f.timeless) := by
    simp [anonymous, ofFile, ofEntries, Keyed.erase_ofList, Keyed.erase_cons, SourceFile.timeless,
      SourceFile.modifiedAt, SourceFile.symbolCount]
  have hfunction : ∀ r, anonymous (ofFunction id f r) = anonymous (ofFunction id' f.timeless r) := by
    intro r
    simp [anonymous, ofFunction, ofEntries, Keyed.erase_ofList, Keyed.erase_cons,
      SourceFile.timeless, SourceFile.modifiedAt]
  have hclass : ∀ r, anonymous (ofClass id f r) = anonymous (ofClass id' f.timeless r) := by
    intro r
    simp [anonymous, ofClass, ofEntries, Keyed.erase_ofList, Keyed.erase_cons, SourceFile.timeless,
      SourceFile.modifiedAt]
  have hfunctions : f.timeless.functions = f.functions := rfl
  have hclasses : f.timeless.classes = f.classes := rfl
  simp only [content, symbols, List.map_cons, List.map_append, List.map_map, Function.comp_def,
    hfile, hfunction, hclass, hfunctions, hclasses]

theorem record_ofProject (p : Project) : record (ofProject p) =
    [some (.nat p.fileCount), some (.nat p.symbolCount), some (.str p.status.name),
      some (.obj p.config)] := by
  simp [record, ofProject, ofEntries, get?, Keyed.ofList, Keyed.get?_insert]

end Payload

namespace Host

/-- What the points tell about the files and symbols of a project. -/
def contentOf (h : Host) (collection : String) (id : Uuid) : List Payload :=
  ((h.tagged collection id).filter fun p => !decide p.IsProject).map Payload.anonymous

/-- What the points tell about a project as a whole. -/
def recordsOf (h : Host) (collection : String) (id : Uuid) : List (List (Option Json)) :=
  ((h.tagged collection id).filter fun p => decide p.IsProject).map Payload.record

end Host

/-- No payload of a file or symbol is one of a project. -/
theorem not_isProject_of_mem_flatMap {es : List IndexedFile} {p : Payload}
    (hp : p ∈ es.flatMap fun e => Payload.ofFile e.project e.file :: e.symbols) : ¬ p.IsProject := by
  obtain ⟨e, _, hp⟩ := List.mem_flatMap.mp hp
  rcases List.mem_cons.mp hp with rfl | hp
  · exact (Payload.isFile_ofFile e.project e.file).not_isProject
  · exact (IndexedFile.tells_of_mem_symbols hp).isSymbol.not_isProject

namespace Regime.At

variable {c : Regime} {v : Scene} {h : Host} {id : Uuid}

/-- What is told about files that are there as a whole. -/
theorem contentOf_perm (hat : c.At v h) (hwhole : ∀ e ∈ (v.index.tagged id).files, e.IsWhole) :
    (h.contentOf c.collection id).Perm (((v.index.tagged id).files.map fun e =>
      e.file.timeless).flatMap (Payload.content id)) := by
  have hprojects : ((v.index.tagged id).projects.map Payload.ofProject).filter
      (fun p => !decide p.IsProject) = [] := by
    refine List.filter_eq_nil_iff.mpr fun p hp => ?_
    obtain ⟨q, _, rfl⟩ := List.mem_map.mp hp
    simp [Payload.isProject_ofProject]
  have hfiles : ((v.index.tagged id).files.flatMap fun e =>
      Payload.ofFile e.project e.file :: e.symbols).filter (fun p => !decide p.IsProject) =
        (v.index.tagged id).files.flatMap fun e => Payload.ofFile e.project e.file :: e.symbols :=
    List.filter_eq_self.mpr fun p hp => by simpa using not_isProject_of_mem_flatMap hp
  have hperm := (hat.tagged_perm id).filter fun p => !decide p.IsProject
  rw [Index.payloads_contents, List.filter_append, hprojects, hfiles, List.nil_append] at hperm
  refine (hperm.map Payload.anonymous).trans (.of_eq ?_)
  rw [List.map_flatMap, List.flatMap_map]
  refine List.flatMap_congr fun e he => ?_
  rw [IndexedFile.symbols_of_whole (hwhole e he)]
  exact Payload.content_eq e.project id e.file

/-- What is told about the only project of an id. -/
theorem recordsOf_eq (hat : c.At v h) {p : Project} (hp : (v.index.tagged id).projects = [p]) :
    h.recordsOf c.collection id = [(Payload.ofProject p).record] := by
  have hfiles : ((v.index.tagged id).files.flatMap fun e =>
      Payload.ofFile e.project e.file :: e.symbols).filter (fun p => decide p.IsProject) = [] :=
    List.filter_eq_nil_iff.mpr fun p hp => by simpa using not_isProject_of_mem_flatMap hp
  have hperm := (hat.tagged_perm id).filter fun p => decide p.IsProject
  rw [Index.payloads_contents, hp, List.filter_append, hfiles, List.append_nil, List.map_singleton,
    List.filter_cons, if_pos (decide_eq_true (Payload.isProject_ofProject p)),
    List.filter_nil] at hperm
  rw [Host.recordsOf, List.perm_singleton.mp hperm, List.map_singleton]

end Regime.At

/-! ## Updates and runs from the beginning -/

/-- After an update of a project in step with some tree everything is as after a run that indexes the
tree from the beginning: what is told about files and symbols but for ids and times, what is told
about the project, and the text of the document about the structure. -/
theorem refines_index_of_update {collection : String} {known : ByteArray → Prop} {h h' g g' : Host}
    {x : Indexer} {id : Uuid} {path place : String} {patterns : List String}
    {tree : List (String × ByteArray)} {force : Bool} {o : UpdateOutcome} {o' : IndexOutcome}
    (apart : Sha256.TellsApart known) (before : Tracks collection known id path patterns tree h)
    (hs : x.store.collection = collection) (hfit : h.Readable known) (hh : h.Honest)
    (hrun : h.attempt (x.updateProject id force) = (.ok (.ok o), h'))
    (hsupply : h'.nextId ≤ Uuid.supply)
    (fresh : History collection (fun _ g => g.Readable known) g) (hg : g.Honest)
    (hdisk : g.disk = h.disk)
    (hplace : AllowedRoots.validate h.disk x.config.allowedRoots place =
      AllowedRoots.validate h.disk x.config.allowedRoots path)
    (hindex : g.attempt (x.indexProject place patterns) = (.ok (.ok o'), g'))
    (hsupply' : g'.nextId ≤ Uuid.supply) :
    (h'.contentOf collection id).Perm (g'.contentOf collection o'.project) ∧
      (∃ record, h'.recordsOf collection id = [record] ∧
        g'.recordsOf collection o'.project = [record]) ∧
      ∃ text, lastWrite? (OutputLayout.structureDocument o.outputDir) h'.changes = some text ∧
        lastWrite? (OutputLayout.structureDocument o'.outputDir) g'.changes = some text := by
  -- the update
  obtain ⟨v, hat, hmirrors⟩ := Tracks.mirrors (c := ⟨collection, False, False, known⟩) False.elim
    False.elim apart before (Host.supplied_before_run hrun hsupply)
  obtain ⟨v', p, root, stored, es, hat', rfl, hupdated, hread⟩ :=
    hat.updates False.elim hs hfit hh hrun hsupply
  obtain ⟨rfl, rfl⟩ := hmirrors.eq_project hupdated.known rfl
  obtain ⟨hnamed, hknown⟩ := hat.readable hfit
  obtain ⟨hfiles, hwhole, hsummaries⟩ := hupdated.refreshes hnamed hknown apart hat.sound hread
    (fun _ => hmirrors.nodup_paths) fun _ => hmirrors.whole
  obtain ⟨time, htagged⟩ := hupdated.tagged
  -- the run from the beginning
  have hfit' : g.Readable known := by
    rw [Host.Readable, hdisk]
    exact hfit
  obtain ⟨w, hatw⟩ := fresh.at_readable (c := ⟨collection, False, False, known⟩) False.elim
    False.elim (Host.supplied_before_run hindex hsupply')
  obtain ⟨w', root', hatw', hindexed⟩ := hatw.indexes False.elim hs hfit' hg hindex hsupply'
  have hsame : w.disk = v.disk := hatw.disk.symm.trans (hdisk.trans hat.disk)
  obtain rfl : root = root' := by
    have hvalid := hindexed.valid
    rw [hsame, ← hat.disk, hplace, hat.disk] at hvalid
    exact Except.ok.inj (hupdated.valid.symm.trans hvalid)
  obtain ⟨time', es', hes', hwhole', htagged'⟩ := hindexed.tagged trivial
  have hwritten' := hindexed.written
  rw [hsame] at hes' htagged' hwritten'
  refine ⟨?_, ?_, ?_⟩
  · have hfiles' : (w'.index.tagged o'.project).files.map (fun e => e.file.timeless) =
        (x.sources v.disk root p.excludePatterns).map SourceFile.timeless := by
      rw [htagged', ← hes']
      change es'.map (fun e => e.file.timeless) = _
      rw [List.map_map]
      rfl
    have hcontent := hatw'.contentOf_perm (by rwa [htagged'] :
      ∀ e ∈ (w'.index.tagged o'.project).files, e.IsWhole)
    rw [hfiles'] at hcontent
    refine (hat'.contentOf_perm hwhole).trans ((hfiles.flatMap_right _).trans (.trans ?_
      hcontent.symm))
    refine .of_eq (List.flatMap_congr fun f hf => ?_)
    obtain ⟨s, _, rfl⟩ := List.mem_map.mp hf
    exact (Payload.content_eq p.id o'.project s.timeless)
  · have hplain : p.config = (Indexer.started root p.excludePatterns o'.project).config :=
      (hat.sound.plain p hupdated.known)
    refine ⟨_, hat'.recordsOf_eq (congrArg Index.projects htagged), ?_⟩
    rw [hatw'.recordsOf_eq (congrArg Index.projects htagged'), Payload.record_ofProject,
      Payload.record_ofProject]
    simp only [Indexer.finished, hsummaries.length_eq, FileSummary.totalSymbols_perm hsummaries,
      hplain]
  · refine ⟨_, hat'.changes ▸ hupdated.written, ?_⟩
    rw [hatw'.changes, hwritten', renderStructure_perm hsummaries.symm]
    have hscan := Indexer.scannable_found (x := x) hnamed root p.excludePatterns
    have hpaths : ((x.sources v.disk root p.excludePatterns).map SourceFile.path).Nodup :=
      nodup_path_sources hscan
    rwa [List.map_map]

section

set_option maxRecDepth 100000

theorem refines_index_of_indexedThen : ∃ o o',
    (Host.indexedThen "def g():\n    pass\n").result?
      (Indexer.sample.updateProject (.ofNat 1) false) = some o ∧
    (Host.sample "def g():\n    pass\n" []).result? (Indexer.sample.indexProject "/r" []) = some o' ∧
    ((Host.updatedThen "def g():\n    pass\n").contentOf "points" (.ofNat 1)).Perm
      ((Host.indexed "def g():\n    pass\n").contentOf "points" o'.project) ∧
    (∃ record, (Host.updatedThen "def g():\n    pass\n").recordsOf "points" (.ofNat 1) = [record] ∧
      (Host.indexed "def g():\n    pass\n").recordsOf "points" o'.project = [record]) ∧
    ∃ text, lastWrite? (OutputLayout.structureDocument o.outputDir)
        (Host.updatedThen "def g():\n    pass\n").changes = some text ∧
      lastWrite? (OutputLayout.structureDocument o'.outputDir)
        (Host.indexed "def g():\n    pass\n").changes = some text := by
  have hruns : ((Host.indexedThen "def g():\n    pass\n").result?
        (Indexer.sample.updateProject (.ofNat 1) false)).isSome ∧
      (Host.updatedThen "def g():\n    pass\n").nextId ≤ Uuid.supply ∧
      ((Host.sample "def g():\n    pass\n" []).result? (Indexer.sample.indexProject "/r" [])).isSome ∧
      (Host.indexed "def g():\n    pass\n").nextId ≤ Uuid.supply := by
    decide +kernel
  obtain ⟨hupdate, hsupply, hindex, hsupply'⟩ := hruns
  obtain ⟨o, ho⟩ := Option.isSome_iff_exists.mp hupdate
  obtain ⟨o', ho'⟩ := Option.isSome_iff_exists.mp hindex
  have hrefines := refines_index_of_update (h := .indexedThen "def g():\n    pass\n")
    (g := .sample "def g():\n    pass\n" []) (x := .sample) tellsApart_sampleTexts
    (tracks_indexedThen _) rfl (Host.readable_indexedThen (.inr rfl)) nofun
    (Host.attempt_updatedThen ho) hsupply (.start ⟨_, rfl⟩ rfl) nofun rfl rfl
    (Host.attempt_indexed ho') hsupply'
  exact ⟨o, o', ho, ho', hrefines⟩

end

end CodeAtlas
