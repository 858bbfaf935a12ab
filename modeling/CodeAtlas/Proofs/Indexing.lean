import CodeAtlas.Indexing.Full
import CodeAtlas.Proofs.Documents
import CodeAtlas.Proofs.Parsing
import CodeAtlas.Proofs.Writing
/-!
# Indexing a project

A run that indexes a root writes its project, its files and the project again. When the first
writing begins, nothing is there of the project: its id is fresh, or what was there has been dropped.

Results:
1. `tries_beginProject`: the project is new, or what was there of it has been dropped.
2. `tries_file`: what is behind the storing of files finds them there with their project.
3. `tries_indexProject`: what a run that succeeds leaves in the index and in the document about the
   structure.
-/

namespace CodeAtlas

section

variable {c : Regime} {v : Scene} {err : Failure → Scene → Prop}

theorem tries_report (message : String) :
    c.Tries v (Attempt.report message) (fun _ v' => v' = v) err :=
  tries_lift spec_report

theorem tries_now : c.Tries v Attempt.now (fun _ v' => v' = v) err := tries_lift spec_now

theorem tries_freshId : c.Tries v Attempt.freshId
    (fun id v' => v' = { v with pending := id.render :: v.pending }) err :=
  tries_lift spec_freshId

end

namespace Indexer

variable {c : Regime} {v : Scene} {x : Indexer} {err : Failure → Scene → Prop}

/-! ## Looking at the files -/

/-- The files below a root that a scan finds. -/
def found (x : Indexer) (fs : FileSystem) (root : String) (patterns : List String) :
    List ScannedFile :=
  scan fs (x.excludes patterns) x.config.maxFileSize root

/-- What is parsed of the files below a root. -/
def sources (x : Indexer) (fs : FileSystem) (root : String) (patterns : List String) :
    List SourceFile :=
  fs.sources (x.found fs root patterns)

theorem scannable_found (hfs : v.disk.WellNamed) (root : String) (patterns : List String) :
    Scannable (x.found v.disk root patterns) :=
  scannable_scan hfs _ _ root

theorem tries_validateRoot (path : String) (herr : ∀ e, err e v) :
    c.Tries v (x.validateRoot path)
      (fun root v' => v' = v ∧
        AllowedRoots.validate v.disk x.config.allowedRoots path = .ok root) err := by
  refine tries_bind (tries_lift (spec_look (path :: x.config.allowedRoots)))
    fun fs v' h => ?_
  obtain ⟨rfl, rfl⟩ := h
  cases hroot : AllowedRoots.validate v'.disk x.config.allowedRoots path with
  | ok root => exact spec_pure ⟨rfl, rfl⟩
  | error e => exact spec_pure (herr e)

theorem tries_scanRoot (root : String) (patterns : List String) :
    c.Tries v (x.scanRoot root patterns)
      (fun r v' => v' = v ∧ r = (v.disk, x.found v.disk root patterns)) err := by
  refine tries_bind (tries_lift (spec_look [root])) fun fs v' h => ?_
  obtain ⟨rfl, rfl⟩ := h
  exact tries_pure ⟨rfl, rfl⟩

/-- An attempt that goes through a list and changes nothing but what it collects. -/
theorem tries_foldlM {α β : Type} {step : β → α → Attempt β} (next : β → α → β)
    (hstep : ∀ b a, c.Tries v (step b a) (fun b' v' => v' = v ∧ b' = next b a) err)
    (as : List α) (b : β) :
    c.Tries v (as.foldlM step b) (fun b' v' => v' = v ∧ b' = as.foldl next b) err := by
  induction as generalizing b with
  | nil => exact tries_pure ⟨rfl, rfl⟩
  | cons a as ih =>
    refine tries_bind (hstep b a) fun b' v' h => ?_
    obtain ⟨rfl, rfl⟩ := h
    exact ih _

/-- A run that parses files reads their sources. -/
theorem tries_parseFiles (fs : FileSystem) (word : String) (files : List ScannedFile) :
    c.Tries v (parseFiles fs word files)
      (fun run v' => v' = v ∧ run.files = fs.sources files ∧
        run.symbols = SourceFile.totalSymbols (fs.sources files)) err := by
  refine tries_mono (tries_foldlM (β := ParseRun) (fun run f => run.add f (ParseRun.read? fs f))
    (fun run f => ?_) files {}) (fun run v' h => ?_) fun _ _ h => h
  · dsimp only
    split
    · exact tries_bind_at (tries_report _) fun _ => tries_pure ⟨rfl, rfl⟩
    · exact tries_pure ⟨rfl, rfl⟩
  · obtain ⟨rfl, rfl⟩ := h
    refine ⟨rfl, ?_, ?_⟩
    · rw [ParseRun.files_foldl_add, List.nil_append]
    · rw [ParseRun.symbols_foldl_add, Nat.zero_add]

/-! ## The project -/

/-- A project before its files are there. -/
def started (root : String) (patterns : List String) (id : Uuid) : Project :=
  ({ id, name := projectName root, rootPath := root } : Project).setExcludePatterns patterns

theorem isPlain_started (root : String) (patterns : List String) (id : Uuid) :
    (started root patterns id).IsPlain ∧ (started root patterns id).excludePatterns = patterns := by
  have hstrings : ∀ texts : List String, Json.strs (.strings texts) = texts := by
    intro texts
    rw [Json.strs, Json.strings, Json.arr?, Option.getD_some, List.filterMap_map]
    exact List.filterMap_some
  have hpatterns : (started root patterns id).excludePatterns = patterns := hstrings patterns
  refine ⟨?_, hpatterns⟩
  rw [Project.IsPlain, hpatterns]
  rfl

/-- A project of which nothing is there but its place. -/
structure Begins (c : Regime) (v : Scene) (p : Project) : Prop where
  admits : v.Admits p
  roots : c.orderly → ∀ q ∈ v.index.projects, q.rootPath = p.rootPath → q.id = p.id
  same : ∀ q ∈ v.index.projects, q.id = p.id → q.rootPath = p.rootPath
  nothing : c.honest → v.index.tagged p.id = {}

theorem Begins.no_file {p : Project} (h : Begins c v p) (hh : c.honest) {e : IndexedFile}
    (he : e ∈ v.index.files) : e.project ≠ p.id := by
  intro hid
  have hmem : e ∈ (v.index.tagged p.id).files := List.mem_filter.mpr ⟨he, beq_iff_eq.mpr hid⟩
  rw [h.nothing hh] at hmem
  cases hmem

/-- The project is new, or what was there of it has been dropped. -/
theorem tries_beginProject (hs : x.store.collection = c.collection) (hc : c.orderly → c.honest)
    (root : String) (patterns : List String) :
    c.Tries v (x.beginProject root patterns)
      (fun p v' => p = started root patterns p.id ∧ v'.disk = v.disk ∧ Begins c v' p ∧
        v.Retains (fun q => (q.id = p.id ∧ q.rootPath = p.rootPath) ∧ v.HasLost q v') v' ∧
        (c.orderly → ∀ q ∈ v.index.projects, q.rootPath = root → p.id = q.id))
      fun _ v' => v'.index.projects = v.index.projects := by
  refine tries_bind_at tries_freshId fun id => ?_
  refine tries_bind (tries_mono_err (SymbolStore.tries_findByRoot hs root)
    fun _ _ h => congrArg (·.index.projects) h) fun found v₂ h => ?_
  obtain ⟨rfl, ⟨p, hp, rfl, rfl⟩ | ⟨rfl, hnone⟩⟩ := h
  · refine tries_of_sound fun hsound => ?_
    have hroots := hsound.id_of_root hp
    have hsame := hsound.root_of_id hp
    refine tries_bind (tries_mono_err (SymbolStore.tries_deleteProject hs p.id)
      fun _ _ h => congrArg (·.index.projects) h) fun known v₃ h => ?_
    -- the project that was found is dropped, unless it is not there any more
    rcases h with ⟨_, _, rfl⟩ | ⟨_, rfl, hunknown⟩
    · refine tries_pure ⟨rfl, rfl, ⟨.inl List.mem_cons_self, fun ho q hq => ?_, fun q hq => ?_,
        fun _ => ?_⟩, ?_, fun ho q hq hroot => (hroots ho q hq hroot).symm⟩
      · exact hroots ho q (List.mem_of_mem_filter hq)
      · exact hsame q (List.mem_of_mem_filter hq)
      · exact Index.tagged_drop v.index p.id
      · refine (Scene.Retains.drop _ p.id).mono fun q hq hid => ?_
        exact ⟨⟨hid, hsame q hq hid⟩, hid ▸ ⟨rfl, rfl⟩⟩
    · refine tries_pure ⟨rfl, rfl, ⟨.inr ⟨p, hp, rfl⟩, hroots, hsame,
        fun hc => absurd rfl (hunknown hc p hp)⟩, .of_same rfl,
        fun ho q hq hroot => (hroots ho q hq hroot).symm⟩
  · refine tries_of_sound fun hsound => tries_pure ?_
    have hpending := hsound.tagged_of_pending List.mem_cons_self
    refine ⟨rfl, rfl, ⟨.inl List.mem_cons_self, fun ho q hq heq => ?_, fun q hq heq => ?_,
      fun _ => hpending⟩, .of_same rfl, fun ho q hq heq => ?_⟩
    · exact absurd heq (hnone (hc ho) q hq)
    · have hmem : q ∈ (v.index.tagged id).projects := List.mem_filter.mpr ⟨hq, beq_iff_eq.mpr heq⟩
      rw [show v.index.tagged id = {} from hpending] at hmem
      cases hmem
    · exact absurd heq (hnone (hc ho) q hq)

/-! ## Files of a project -/

/-- The scene after files of a project have been stored and the project has been written again. -/
structure Refiled (v : Scene) (p : Project) (files : List SourceFile) (es : List IndexedFile)
    (v' : Scene) : Prop where
  index : v'.index = (v.index.add es).put p
  guards : v'.guards = v.guards.filter (·.id != p.id.render)
  files : es.map IndexedFile.file = files
  whole : ∀ e ∈ es, e.project = p.id ∧ e.IsWhole
  retains : v.Retains (fun _ => False) v'

theorem Refiled.tagged {p : Project} {files : List SourceFile} {es : List IndexedFile} {v' : Scene}
    (h : Refiled v p files es v') :
    v'.index.tagged p.id = ⟨[p], (v.index.tagged p.id).files ++ es⟩ := by
  rw [h.index]
  exact Index.tagged_put_add v.index fun e he => (h.whole e he).1

/-- A run that stores files, and then writes their project with what it counts, goes on from there. -/
theorem tries_file {α : Type} {ok : α → Scene → Prop} {project : Project} {files : List SourceFile}
    {counted : Timestamp → Project} {rest : Timestamp → Attempt α}
    (hs : x.store.collection = c.collection) (howner : ∃ p ∈ v.index.projects, p.id = project.id)
    (hplain : project.IsPlain)
    (hcounted : ∀ time, (counted time).id = project.id ∧
      (counted time).rootPath = project.rootPath ∧ (counted time).IsPlain)
    (hsame : ∀ q ∈ v.index.projects, q.id = project.id → q.rootPath = project.rootPath)
    (hroot : c.orderly → ∀ q ∈ v.index.projects, q.rootPath = project.rootPath → q.id = project.id)
    (horigin : ∀ f ∈ files, f.StemsFrom c.known) (hpaths : (files.map SourceFile.path).Nodup)
    (hnew : c.orderly → ∀ e ∈ v.index.files, e.project = project.id →
      e.path ∉ files.map SourceFile.path)
    (hfails : ∀ e v', v.Retains (fun _ => False) v' → err e v')
    (hrest : ∀ time es v', Refiled v (counted time) files es v' → c.Tries v' (rest time) ok err) :
    c.Tries v (do
      x.storeOrMark project files
      let time ← Attempt.now
      let _ ← x.store.storeProject (counted time)
      rest time) ok err := by
  refine tries_bind (tries_mono_err
    (tries_storeOrMark hs howner hplain hsame hroot horigin hpaths hnew) hfails) fun _ v₁ h => ?_
  obtain ⟨es, pending, hfiles, hwhole, rfl⟩ := h
  refine tries_bind_at tries_now fun time => ?_
  obtain ⟨hid, hpath, hplain'⟩ := hcounted time
  rw [← hid] at howner hwhole hsame
  rw [← hpath] at hsame
  have hroot' : c.orderly → ∀ q ∈ v.index.projects, q.rootPath = (counted time).rootPath →
      q.id = (counted time).id := by
    rw [hid, hpath]
    exact hroot
  refine tries_bind_at (tries_mono_err (SymbolStore.tries_storeProject hs (.inr howner) hplain' hroot')
    ?_) fun _ => hrest time es _ ⟨rfl, rfl, hfiles, hwhole, ?_⟩
  · rintro e _ rfl
    exact hfails e _ (.of_same rfl)
  · exact Scene.Retains.trans (.of_same rfl) (.put hsame)

/-! ## Runs -/

/-- A project when its files are there. -/
def finished (p : Project) (files : List FileSummary) (time : Timestamp) : Project :=
  { p with
    status := .active
    fileCount := files.length
    symbolCount := FileSummary.totalSymbols files
    indexedAt := some time }

/-- What a run that has indexed a root leaves behind: `v` is the scene before it. -/
structure HasIndexed (c : Regime) (x : Indexer) (v : Scene) (path : String)
    (patterns : List String) (root : String) (o : IndexOutcome) (v' : Scene) : Prop where
  valid : AllowedRoots.validate v.disk x.config.allowedRoots path = .ok root
  outputDir : o.outputDir = x.config.outputDirFor root (projectName root)
  written : lastWrite? (OutputLayout.structureDocument o.outputDir) v'.changes =
    some (renderStructure ((x.sources v.disk root patterns).map SourceFile.summary)).toUTF8
  tagged : c.honest → ∃ time es, es.map IndexedFile.file = x.sources v.disk root patterns ∧
    (∀ e ∈ es, e.IsWhole) ∧ v'.index.tagged o.project =
      ⟨[finished (started root patterns o.project)
        ((x.sources v.disk root patterns).map SourceFile.summary) time], es⟩
  retains : v.Retains (fun _ => False) v'
  identity : c.orderly → ∀ q ∈ v.index.projects, q.rootPath = root → o.project = q.id

/-- The documents are written, and the index is left as it is. -/
theorem tries_writeAll (dir : String) (p : Project) (files : List SourceFile) :
    c.Tries v (writeAll dir p files)
      (fun _ v' => v'.index = v.index ∧
        lastWrite? (OutputLayout.structureDocument dir) v'.changes =
          some (renderStructure (files.map SourceFile.summary)).toUTF8)
      fun _ v' => v'.index = v.index := by
  refine tries_bind (Output.tries_clearFiles dir "") fun _ v₁ h₁ => ?_
  refine Output.tries_outline (fun _ _ h => h.trans h₁.index) fun v₂ h₂ => ?_
  refine tries_mono (Output.tries_writeFiles dir files) (fun _ v₃ h => ?_)
    fun _ _ h => h.trans (h₂.index.trans h₁.index)
  have h₃ := h₂.keeps h
  exact ⟨h₃.index.trans h₁.index, h₃.written⟩

theorem tries_indexProject (hs : x.store.collection = c.collection) (hc : c.orderly → c.honest)
    (hfs : v.disk.WellNamed) (hknown : ∀ path bytes, v.disk.read path = .ok bytes → c.known bytes)
    (path : String) (patterns : List String) :
    c.Tries v (x.indexProject path patterns)
      (fun o v' => ∃ root, HasIndexed c x v path patterns root o v')
      fun _ v' => v.Retains (fun p => AllowedRoots.validate v.disk x.config.allowedRoots path =
        .ok p.rootPath ∧ v.HasLost p v') v' := by
  refine tries_bind (tries_validateRoot path fun _ => .of_same rfl) fun root v₁ h => ?_
  obtain ⟨rfl, hroot⟩ := h
  refine tries_bind_at (tries_report _) fun _ => ?_
  -- once the project is written, none is gone, wherever the run ends
  have hkept : ∀ {w}, v₁.Retains (fun _ => False) w → v₁.Retains (fun p =>
      AllowedRoots.validate v₁.disk x.config.allowedRoots path = .ok p.rootPath ∧
        v₁.HasLost p w) w :=
    fun h => h.mono fun _ _ => False.elim
  refine tries_bind (tries_mono_err (tries_beginProject hs hc root patterns)
    fun _ _ h => .of_same h) fun p v₂ h => ?_
  obtain ⟨hp, hdisk, hbegins, hretains, hidentity⟩ := h
  have hplain : p.IsPlain := by
    rw [hp]
    exact (isPlain_started root patterns p.id).1
  refine tries_bind_at (tries_mono_err (SymbolStore.tries_storeProject hs hbegins.admits hplain
    hbegins.roots) ?_) fun _ => ?_
  · rintro _ _ rfl
    refine hretains.mono fun q _ ⟨⟨_, hpath⟩, hlost⟩ => ⟨?_, hlost⟩
    rw [hpath, hp]
    exact hroot
  have hput : v₁.Retains (fun _ => False) (v₂.put p) :=
    (hretains.mono fun _ _ h => h.1).restored hbegins.same
  refine tries_bind_at (tries_report _) fun _ => ?_
  refine tries_bind (tries_scanRoot root patterns) fun r v₃ h => ?_
  obtain ⟨rfl, rfl⟩ := h
  rw [show (v₂.put p).disk = v₁.disk from hdisk]
  refine tries_bind (tries_parseFiles _ _ _) fun run v₃ h => ?_
  obtain ⟨rfl, hfiles, hsymbols⟩ := h
  refine tries_bind_at (tries_report _) fun _ => ?_
  refine tries_bind_at (tries_report _) fun _ => ?_
  refine tries_of_sound fun hsound => ?_
  have hmem : p ∈ (v₂.put p).index.projects := List.mem_cons_self
  have hsame := hsound.root_of_id hmem
  have hroots := hsound.id_of_root hmem
  have hscan := scannable_found (x := x) hfs root patterns
  refine tries_file hs ⟨p, hmem, rfl⟩ hplain (fun _ => ⟨rfl, rfl, hplain⟩) hsame hroots
    (fun f hf => stemsFrom_of_mem_sources hscan hknown (hfiles ▸ hf))
    (hfiles ▸ nodup_path_sources hscan)
    (fun ho e he hid => absurd hid (hbegins.no_file (hc ho) he))
    (fun _ _ h => hkept (hput.trans h)) fun time es v₃ h₃ => ?_
  have hlast : v₁.Retains (fun _ => False) v₃ := hput.trans h₃.retains
  refine tries_bind_at (tries_report _) fun _ => ?_
  refine tries_bind (tries_mono_err (tries_writeAll _ _ _) fun _ w h =>
    hkept (hlast.trans (.of_same (congrArg Index.projects h)))) fun _ v₄ h => ?_
  obtain ⟨hindex, hwritten⟩ := h
  refine tries_bind_at (tries_report _) fun _ => ?_
  have hname : p.name = projectName root := congrArg Project.name hp
  refine tries_pure ⟨root, hroot, ?_, ?_, fun hh => ⟨time, es, h₃.files.trans hfiles,
    fun e he => (h₃.whole e he).2, ?_⟩, hlast.trans (.of_same (congrArg Index.projects hindex)),
    hidentity⟩
  · exact congrArg (x.config.outputDirFor root) hname
  · rw [hwritten, hfiles]
    rfl
  · have hp' : ({ p with
        status := .active
        fileCount := run.files.length
        symbolCount := run.symbols
        indexedAt := some time } : Project) = finished (started root patterns p.id)
          ((x.sources v₁.disk root patterns).map SourceFile.summary) time := by
      rw [← hp, finished, hfiles, hsymbols, List.length_map]
      rfl
    have hnothing : ((v₂.put p).index.tagged p.id).files = [] :=
      (congrArg Index.files (Index.tagged_put v₂.index p)).trans
        (congrArg Index.files (hbegins.nothing hh))
    rw [hindex]
    refine h₃.tagged.trans ?_
    rw [hnothing, List.nil_append]
    exact congrArg (fun q => Index.mk [q] es) hp'

end Indexer

end CodeAtlas
