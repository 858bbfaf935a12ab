import CodeAtlas.Proofs.FileDocuments
import CodeAtlas.Proofs.Tracking
/-!
# The documents about files after an update

An update writes the documents about the files that it has parsed again, and then takes those away that
were about files that are gone. What the files that are there have to have is what a run from the
beginning leaves. But if a file that is gone had the flat name of one that is there, then the document
that is taken away is about the latter: it may have been written a moment before.

Results:
1. `documents_of_indexProject`, `documents_of_updateProject`: what runs leave of the documents.
2. `Documents.renewed`, `Documents.Renewed.eq_iff`: what becomes of documents when those about changed
   files are refreshed and those about deleted files are dropped.
3. `documents_of_update`: after an update there is a document about each file that is not binary, unless
   a file that is gone had its flat name, and there is no other one.
-/

namespace CodeAtlas

open OutputLayout

/-! ## Runs -/

section

variable {h g : Host} {x : Indexer} {α β : Type}

/-- A first part of a run that changes no files. -/
theorem Host.run_bind_ok {a : Attempt α} {f : α → Attempt β} {y : β} (ha : a.Asks KeepsFiles)
    (hrun : Program.run serve (a >>= f).run h = (.ok (.ok y), g)) : ∃ r t, t.disk = h.disk ∧
      Program.run serve a.run h = (.ok (.ok r), t) ∧
        Program.run serve (f r).run t = (.ok (.ok y), g) := by
  obtain ⟨r, t, hfirst, hrest⟩ := run_attempt_bind_ok hrun
  have hdisk := disk_attempt ha (h := h)
  rw [show h.attempt a = (.ok (.ok r), t) from hfirst] at hdisk
  exact ⟨r, t, hdisk, hfirst, hrest⟩

/-- What going through a list gives, if each step that succeeds gives the next one. -/
theorem Host.run_foldlM_ok {step : β → α → Attempt β} (next : β → α → β)
    (hstep : ∀ (h g : Host) b a b', h.attempt (step b a) = (.ok (.ok b'), g) → b' = next b a)
    {as : List α} {b b' : β} (hrun : h.attempt (as.foldlM step b) = (.ok (.ok b'), g)) :
    b' = as.foldl next b := by
  induction as generalizing b h with
  | nil =>
    cases hrun
    rfl
  | cons a as ih =>
    obtain ⟨c, t, hfirst, hrest⟩ := run_attempt_bind_ok hrun
    cases hstep h t b a c hfirst
    exact ih hrest

namespace Indexer

theorem attempt_scanRoot (h : Host) (root : String) (patterns : List String) :
    h.attempt (x.scanRoot root patterns) =
      (.ok (.ok (h.disk, x.found h.disk root patterns)), h) := rfl

/-- Whatever is reported, the files of a run are the sources. -/
theorem files_of_parseFiles {fs : FileSystem} {word : String} {found : List ScannedFile}
    {run : ParseRun} (hrun : h.attempt (parseFiles fs word found) = (.ok (.ok run), g)) :
    run.files = fs.sources found := by
  have hfold : run = found.foldl (fun run f => run.add f (ParseRun.read? fs f)) {} := by
    refine Host.run_foldlM_ok _ (fun h g run f next hstep => ?_) hrun
    dsimp only at hstep
    split at hstep
    · obtain ⟨_, _, _, hpure⟩ := run_attempt_bind_ok hstep
      cases hpure
      rfl
    · cases hstep
      rfl
  rw [hfold, ParseRun.files_foldl_add, List.nil_append]

/-- A run that indexes a root leaves the documents about its sources, and no others. -/
theorem documents_of_indexProject {path : String} {patterns : List String} {o : IndexOutcome}
    (hrun : h.attempt (x.indexProject path patterns) = (.ok (.ok o), g)) : ∃ root,
      AllowedRoots.validate h.disk x.config.allowedRoots path = .ok root ∧
      o.outputDir = x.config.outputDirFor root (projectName root) ∧
      ∀ d, h.disk.HasRoom o.outputDir d → g.disk.Tends o.outputDir d ∧
        g.disk.documents d =
          (x.sources h.disk root patterns).foldl Documents.refresh fun _ => none := by
  obtain ⟨root, h₁, hvalid, hrun⟩ := run_attempt_bind_ok hrun
  have hattempt := (x.attempt_validateRoot h path).symm.trans hvalid
  obtain ⟨hroot, rfl⟩ := Prod.mk.inj hattempt
  have hroot := Except.ok.inj hroot
  -- no request before the documents changes a file
  have hquiet : ∀ {α : Type} {a : Attempt α}, a.Asks Request.IsPlain → a.Asks Host.KeepsFiles :=
    fun ha => ha.mono fun _ => Request.IsPlain.keepsTo
  have hnow : Program.Asks Host.KeepsFiles (ask .now) := Program.asks_perform trivial
  have hreport := asks_report (P := Host.KeepsFiles) fun _ => trivial
  obtain ⟨_, h₂, hdisk₂, _, hrun⟩ := Host.run_bind_ok (hreport _) hrun
  obtain ⟨p, h₃, hdisk₃, hbegin, hrun⟩ :=
    Host.run_bind_ok (x.within_beginProject root patterns).asks hrun
  have hname : p.name = projectName root := (x.within_beginProject root patterns).result hbegin p rfl
  obtain ⟨_, h₄, hdisk₄, _, hrun⟩ := Host.run_bind_ok (hquiet (x.store.asks_storeProject _)) hrun
  obtain ⟨_, h₅, hdisk₅, _, hrun⟩ := Host.run_bind_ok (hreport _) hrun
  obtain ⟨scanned, h₆, hscan, hrun⟩ := run_attempt_bind_ok hrun
  cases (attempt_scanRoot h₅ root patterns).symm.trans hscan
  obtain ⟨run, h₇, hdisk₇, hparse, hrun⟩ :=
    Host.run_bind_ok (asks_parseFiles (fun _ => trivial) _ _ _) hrun
  have hdisk : h₅.disk = h.disk := hdisk₅.trans (hdisk₄.trans (hdisk₃.trans hdisk₂))
  have hfiles : run.files = x.sources h.disk root patterns := by
    rw [files_of_parseFiles hparse, hdisk]
    rfl
  obtain ⟨_, h₈, hdisk₈, _, hrun⟩ := Host.run_bind_ok (hreport _) hrun
  obtain ⟨_, h₉, hdisk₉, _, hrun⟩ := Host.run_bind_ok (hreport _) hrun
  obtain ⟨_, h₁₀, hdisk₁₀, _, hrun⟩ := Host.run_bind_ok (hquiet (x.asks_storeOrMark _ _)) hrun
  obtain ⟨time, h₁₁, hdisk₁₁, _, hrun⟩ := Host.run_bind_ok (asks_lift hnow) hrun
  obtain ⟨_, h₁₂, hdisk₁₂, _, hrun⟩ := Host.run_bind_ok (hquiet (x.store.asks_storeProject _)) hrun
  obtain ⟨_, h₁₃, hdisk₁₃, _, hrun⟩ := Host.run_bind_ok (hreport _) hrun
  obtain ⟨_, h₁₄, hwrite, hrun⟩ := run_attempt_bind_ok hrun
  obtain ⟨_, h₁₅, hdisk₁₅, _, hrun⟩ := Host.run_bind_ok (hreport _) hrun
  cases hrun
  refine ⟨root, hroot, congrArg (x.config.outputDirFor root) hname, fun d hroom => ?_⟩
  have hbefore : h₁₃.disk = h.disk := by
    rw [hdisk₁₃, hdisk₁₂, hdisk₁₁, hdisk₁₀, hdisk₉, hdisk₈, hdisk₇, hdisk]
  rw [← hbefore] at hroom
  rw [hdisk₁₅, ← hfiles]
  exact documents_of_writeAll hroom hwrite

/-- An update refreshes the documents about the files that it has parsed again, and drops those about
the files that are gone. -/
theorem documents_of_updateProject {id : Uuid} {force : Bool} {o : UpdateOutcome}
    (hrun : h.attempt (x.updateProject id force) = (.ok (.ok o), g)) :
    ∃ p root t, h.attempt (x.knownProject id) = (.ok (.ok (p, root)), t) ∧
      (g.nextId ≤ Uuid.supply → t.nextId ≤ Uuid.supply) ∧
      o.outputDir = x.config.outputDirFor root p.name ∧
      ∀ d, h.disk.Tends o.outputDir d → g.disk.documents d =
        o.diff.deleted.foldl Documents.drop ((h.disk.sources (o.diff.toReparse.filterMap
          (Keyed.get? · (Snapshot.ofFiles h.disk
            (x.found h.disk root p.excludePatterns)).files))).foldl Documents.refresh
              (h.disk.documents d)) := by
  obtain ⟨⟨p, root⟩, h₁, hdisk₁, hknown, hrun⟩ := Host.run_bind_ok (x.keepsFiles_knownProject id) hrun
  refine ⟨p, root, h₁, hknown, Host.supplied_before_run hrun, ?_⟩
  -- no request before the documents changes a file
  have hquiet : ∀ {α : Type} {a : Attempt α}, a.Asks Request.IsPlain → a.Asks Host.KeepsFiles :=
    fun ha => ha.mono fun _ => Request.IsPlain.keepsTo
  have hnow : Program.Asks Host.KeepsFiles (ask .now) := Program.asks_perform trivial
  have hreport := asks_report (P := Host.KeepsFiles) fun _ => trivial
  obtain ⟨_, h₂, hdisk₂, _, hrun⟩ := Host.run_bind_ok (hreport _) hrun
  obtain ⟨stored, h₃, hdisk₃, _, hrun⟩ := Host.run_bind_ok
    ((x.store.reading_loadFiles id).harmless.mono fun _ => Request.IsHarmless.keepsTo) hrun
  obtain ⟨_, h₄, hdisk₄, _, hrun⟩ := Host.run_bind_ok (hreport _) hrun
  obtain ⟨_, h₅, hdisk₅, _, hrun⟩ := Host.run_bind_ok (hreport _) hrun
  obtain ⟨scanned, h₆, hscan, hrun⟩ := run_attempt_bind_ok hrun
  cases (attempt_scanRoot h₅ root p.excludePatterns).symm.trans hscan
  have hdisk : h₅.disk = h.disk := by rw [hdisk₅, hdisk₄, hdisk₃, hdisk₂, hdisk₁]
  obtain ⟨diff, h₇, hdisk₇, _, hrun⟩ :=
    Host.run_bind_ok (asks_changes (fun _ => trivial) force _ _) hrun
  obtain ⟨_, h₈, hdisk₈, _, hrun⟩ := Host.run_bind_ok (hquiet (x.asks_purge _ _)) hrun
  obtain ⟨run, h₉, hdisk₉, hparse, hrun⟩ :=
    Host.run_bind_ok (asks_parseFiles (fun _ => trivial) _ _ _) hrun
  have hfiles := files_of_parseFiles hparse
  obtain ⟨_, h₁₀, hdisk₁₀, _, hrun⟩ := Host.run_bind_ok (hquiet (x.asks_storeOrMark _ _)) hrun
  obtain ⟨time, h₁₁, hdisk₁₁, _, hrun⟩ := Host.run_bind_ok (asks_lift hnow) hrun
  obtain ⟨_, h₁₂, hdisk₁₂, _, hrun⟩ := Host.run_bind_ok (hquiet (x.store.asks_storeProject _)) hrun
  obtain ⟨_, h₁₃, hdisk₁₃, _, hrun⟩ := Host.run_bind_ok (hreport _) hrun
  obtain ⟨_, h₁₄, hproject, hrun⟩ := run_attempt_bind_ok hrun
  obtain ⟨_, h₁₅, hsummaries, hrun⟩ := run_attempt_bind_ok hrun
  obtain ⟨_, h₁₆, hwrite, hrun⟩ := run_attempt_bind_ok hrun
  obtain ⟨_, h₁₇, hremove, hrun⟩ := run_attempt_bind_ok hrun
  obtain ⟨_, h₁₈, hdisk₁₈, _, hrun⟩ := Host.run_bind_ok (hreport _) hrun
  cases hrun
  refine ⟨rfl, fun d htends => ?_⟩
  have hbefore : h₁₃.disk = h.disk := by
    rw [hdisk₁₃, hdisk₁₂, hdisk₁₁, hdisk₁₀, hdisk₉, hdisk₈, hdisk₇, hdisk]
  rw [← hbefore] at htends
  obtain ⟨htends, hdocs₁₄⟩ := Output.turns_writeProject _ h₁₃ h₁₄ _ htends hproject
  obtain ⟨htends, hdocs₁₅⟩ := Output.turns_writeStructure _ h₁₄ h₁₅ _ htends hsummaries
  obtain ⟨htends, hdocs₁₆⟩ := Output.turns_writeFiles _ h₁₅ h₁₆ _ htends hwrite
  obtain ⟨htends, hdocs₁₇⟩ := turns_removeDocuments _ h₁₆ h₁₇ _ htends hremove
  rw [hdisk₁₈, hdocs₁₇, hdocs₁₆, hdocs₁₅, hdocs₁₄, hbefore, hfiles, hdisk]
  rfl

end Indexer

end

/-! ## Changed and deleted files -/

theorem documentName_inj {path path' : String} :
    documentName path = documentName path' ↔ flatName path = flatName path' := by
  rw [documentName, documentName, String.append_left_inj]

theorem nodup_documentNames {files : List SourceFile}
    (h : (files.map fun f => flatName f.path).Nodup) :
    (files.map fun f => documentName f.path).Nodup := by
  have hnames := h.map fun a b (heq : a ++ ".yaml" = b ++ ".yaml") =>
    (String.append_left_inj _).mp heq
  rwa [List.map_map] at hnames

/-- A file has the flat name of one that was there before and is gone. -/
def SourceFile.Inherits (before after : List SourceFile) (f : SourceFile) : Prop :=
  ∃ e ∈ before, e.path ∉ after.map SourceFile.path ∧ flatName e.path = flatName f.path

instance (before after : List SourceFile) : DecidablePred (SourceFile.Inherits before after) :=
  fun _ => inferInstanceAs (Decidable (∃ e ∈ before, _))

theorem SourceFile.document?_eq_none {f : SourceFile} : f.document? = none ↔ f.status = .skipped := by
  rw [document?]
  split
  · next hskipped => exact iff_of_true rfl hskipped
  · next hwritten => exact iff_of_false (fun h => by cases h) hwritten

/-- The documents that an update makes of those about earlier files: under the name of each file that is
there is its document, unless the file inherits the name from one that is gone, and under other names is
none. -/
structure Documents.Renewed (before after : List SourceFile) (docs : Documents) : Prop where
  there : ∀ f ∈ after, docs (documentName f.path) =
    if f.Inherits before after then none else f.document?
  free : ∀ name, (∀ f ∈ after, documentName f.path ≠ name) → docs name = none

namespace Documents

variable {before after changed : List SourceFile} {gone : List String} {docs : Documents}

section

variable (hgone : ∀ path, path ∈ gone ↔
  path ∈ before.map SourceFile.path ∧ path ∉ after.map SourceFile.path)

include hgone

/-- The document of a file is dropped for one that is gone just if the file inherits its name. -/
theorem exists_gone_iff (f : SourceFile) :
    (∃ path ∈ gone, documentName path = documentName f.path) ↔ f.Inherits before after := by
  constructor
  · rintro ⟨path, hpath, hname⟩
    obtain ⟨hmem, hnot⟩ := (hgone path).mp hpath
    obtain ⟨e, he, rfl⟩ := List.mem_map.mp hmem
    exact ⟨e, he, hnot, documentName_inj.mp hname⟩
  · rintro ⟨e, he, hnot, hname⟩
    exact ⟨e.path, (hgone e.path).mpr ⟨List.mem_map_of_mem he, hnot⟩, documentName_inj.mpr hname⟩

/-- An earlier file whose name no file that is gone had is still there. -/
theorem mem_of_no_gone {name : String} (hnone : ¬ ∃ path ∈ gone, documentName path = name)
    {e : SourceFile} (he : e ∈ before) (hname : documentName e.path = name) :
    e.path ∈ after.map SourceFile.path := by
  by_contra hnot
  exact hnone ⟨e.path, (hgone e.path).mpr ⟨List.mem_map_of_mem he, hnot⟩, hname⟩

end

/-- Documents about changed files are refreshed, and those about files that are gone are dropped. -/
theorem renewed (hpaths : (before.map SourceFile.path).Nodup)
    (hnames : (after.map fun f => documentName f.path).Nodup)
    (hchanged : ∀ f ∈ changed, f ∈ after)
    (hgone : ∀ path, path ∈ gone ↔
      path ∈ before.map SourceFile.path ∧ path ∉ after.map SourceFile.path)
    (hkept : ∀ f ∈ after, f ∉ changed → ∃ e ∈ before, e.path = f.path ∧ e.document? = f.document?) :
    Renewed before after
      (gone.foldl drop (changed.foldl refresh (before.foldl refresh fun _ => none))) := by
  have hsame : ∀ f ∈ after, ∀ g ∈ after, documentName g.path = documentName f.path → g = f :=
    fun f hf g hg heq => List.inj_on_of_nodup_map hnames hg hf heq
  constructor
  · intro f hf
    rw [foldl_drop]
    simp only [exists_gone_iff hgone]
    split
    · rfl
    · next hnone =>
      rw [← exists_gone_iff hgone] at hnone
      by_cases hfile : f ∈ changed
      · exact foldl_refresh_of_mem hfile fun g hg => hsame f hf g (hchanged g hg)
      · rw [foldl_refresh_of_none fun g hg heq => hfile (hsame f hf g (hchanged g hg) heq ▸ hg)]
        obtain ⟨e, he, hpath, hdocument⟩ := hkept f hf hfile
        rw [← hpath, ← hdocument]
        refine foldl_refresh_of_mem he fun e' he' hname => ?_
        obtain ⟨f', hf', hpath'⟩ :=
          List.mem_map.mp (mem_of_no_gone hgone hnone he' (hname.trans (by rw [hpath])))
        refine List.inj_on_of_nodup_map hpaths he' he (hpath'.symm.trans ?_)
        rw [hsame f hf f' hf' (by rw [hpath', hname, hpath]), hpath]
  · intro name hfree
    rw [foldl_drop]
    split
    · rfl
    · next hnone =>
      rw [foldl_refresh_of_none fun f hf => hfree f (hchanged f hf)]
      refine foldl_refresh_of_none fun e he hname => ?_
      obtain ⟨f, hf, hpath⟩ := List.mem_map.mp (mem_of_no_gone hgone hnone he hname)
      exact hfree f hf (hpath ▸ hname)

/-- The documents are those that come of going through all files just if no file that is not binary
inherits its name. -/
theorem Renewed.eq_iff (h : Renewed before after docs)
    (hnames : (after.map fun f => documentName f.path).Nodup) :
    (docs = after.foldl refresh fun _ => none) ↔
      ∀ f ∈ after, f.Inherits before after → f.status = .skipped := by
  have hfresh : ∀ f ∈ after,
      after.foldl refresh (fun _ => none) (documentName f.path) = f.document? :=
    fun f hf => foldl_refresh_of_mem hf fun g hg heq => List.inj_on_of_nodup_map hnames hg hf heq
  constructor
  · intro heq f hf hinherits
    have hthere := h.there f hf
    rw [if_pos hinherits, heq, hfresh f hf] at hthere
    exact SourceFile.document?_eq_none.mp hthere
  · intro hskipped
    funext name
    by_cases hname : ∃ f ∈ after, documentName f.path = name
    · obtain ⟨f, hf, rfl⟩ := hname
      rw [h.there f hf, hfresh f hf]
      split
      · next hinherits => exact (SourceFile.document?_eq_none.mpr (hskipped f hf hinherits)).symm
      · rfl
    · have hfree : ∀ f ∈ after, documentName f.path ≠ name := fun f hf heq => hname ⟨f, hf, heq⟩
      rw [h.free name hfree, foldl_refresh_of_none hfree]

end Documents

/-! ## Updates -/

namespace Indexer

variable {x : Indexer} {c : Regime} {v v' : Scene} {root : String} {p : Project}

/-- The project that a run has indexed. -/
theorem HasIndexed.eq_project {path : String} {patterns : List String} {o : IndexOutcome}
    (h : HasIndexed c x v path patterns root o v') (hc : c.honest) (hp : p ∈ v'.index.projects)
    (hid : p.id = o.project) :
    p.name = projectName root ∧ p.rootPath = root ∧ p.excludePatterns = patterns := by
  obtain ⟨time, es, _, _, htagged⟩ := h.tagged hc
  have hmem : p ∈ (v'.index.tagged o.project).projects :=
    List.mem_filter.mpr ⟨hp, beq_iff_eq.mpr hid⟩
  rw [htagged] at hmem
  obtain rfl := List.mem_singleton.mp hmem
  exact ⟨rfl, rfl, (isPlain_started root patterns o.project).2⟩

namespace HasUpdated

variable {force : Bool} {stored : List StoredFile} {es : List IndexedFile} {o : UpdateOutcome}
  (h : HasUpdated x v force p root stored es o v') (hfs : v.disk.WellNamed)

include h hfs

/-- An update renews the documents about the files that were there. -/
theorem renewed (hknown : ∀ path bytes, v.disk.read path = .ok bytes → c.known bytes)
    (apart : Sha256.TellsApart c.known) (hsound : v.Sound c)
    (hstored : stored.Perm ((v.index.tagged p.id).files.map fun e => StoredFile.ofSource e.file))
    {before : List SourceFile}
    (hbefore : (v.index.tagged p.id).files.map IndexedFile.file = before)
    (hpaths : (before.map SourceFile.path).Nodup)
    (hnames : ((x.sources v.disk root p.excludePatterns).map fun f => documentName f.path).Nodup) :
    Documents.Renewed before (x.sources v.disk root p.excludePatterns)
      (o.diff.deleted.foldl Documents.drop ((v.disk.sources (o.diff.toReparse.filterMap
        (Keyed.get? · (Snapshot.ofFiles v.disk
          (x.found v.disk root p.excludePatterns)).files))).foldl Documents.refresh
            (before.foldl Documents.refresh fun _ => none))) := by
  subst hbefore
  have hscan := scannable_found (x := x) hfs root p.excludePatterns
  have hchanged : (v.disk.sources (o.diff.toReparse.filterMap (Keyed.get? · (Snapshot.ofFiles v.disk
      (x.found v.disk root p.excludePatterns)).files))).Perm
        ((x.sources v.disk root p.excludePatterns).filter (o.diff.toReparse.contains ·.path)) :=
    Snapshot.sources_reparse_perm hscan (HashDiff.nodup_toReparse o.diff)
  refine Documents.renewed hpaths hnames
    (fun f hf => List.mem_of_mem_filter (hchanged.mem_iff.mp hf)) (fun path => ?_)
    fun f hf hnot => ?_
  · rw [h.mem_deleted hfs]
    refine and_congr_left fun _ => ⟨?_, ?_⟩
    · rintro ⟨s, hs, rfl⟩
      obtain ⟨e, he, rfl⟩ := List.mem_map.mp (hstored.mem_iff.mp hs)
      exact List.mem_map_of_mem (List.mem_map_of_mem he)
    · intro hmem
      obtain ⟨f, hf, rfl⟩ := List.mem_map.mp hmem
      obtain ⟨e, he, rfl⟩ := List.mem_map.mp hf
      exact read_of_mem hstored he
  · have hreparse : f.path ∉ o.diff.toReparse := fun hmem =>
      hnot (hchanged.mem_iff.mpr (List.mem_filter.mpr ⟨hf, List.contains_iff_mem.mpr hmem⟩))
    obtain ⟨e, he, hpath, hunchanged⟩ :=
      h.exists_unchanged hfs hknown apart hsound hstored hf hreparse
    -- documents do not tell when a file was changed
    have hdocument : (e.file.modifiedAt f.modified).document? = f.document? :=
      congrArg SourceFile.document? hunchanged
    exact ⟨e.file, List.mem_map_of_mem he, hpath, hdocument⟩

end HasUpdated

end Indexer

/-- After an update the document about each file that is there is as the file is now, unless the file
inherits its flat name from one that is gone: then there is none, although it has been written. There are
no other documents. So the documents are those that a run from the beginning leaves just if no file that
is not binary inherits its name. -/
theorem documents_of_update {collection : String} {known : ByteArray → Prop}
    {h₀ h₁ h h' g g' : Host} {x : Indexer} {path root : String} {patterns : List String}
    {force : Bool} {o₀ o' : IndexOutcome} {o : UpdateOutcome} {d : List String}
    (apart : Sha256.TellsApart known)
    (before : History collection (fun _ h => h.Readable known) h₀)
    (hs : x.store.collection = collection) (hfit₀ : h₀.Readable known) (hh₀ : h₀.Honest)
    (hroot₀ : AllowedRoots.validate h₀.disk x.config.allowedRoots path = .ok root)
    (hroom : h₀.disk.HasRoom o₀.outputDir d)
    (hindex : h₀.attempt (x.indexProject path patterns) = (.ok (.ok o₀), h₁))
    (hdrift : h₁.Drifts h) (htends : h.disk.Tends o₀.outputDir d)
    (hdocs : h.disk.documents d = h₁.disk.documents d) (hfit : h.Readable known) (hh : h.Honest)
    (hroot : AllowedRoots.validate h.disk x.config.allowedRoots root = .ok root)
    (hnames : ((x.sources h.disk root patterns).map fun f => flatName f.path).Nodup)
    (hrun : h.attempt (x.updateProject o₀.project force) = (.ok (.ok o), h'))
    (hsupply : h'.nextId ≤ Uuid.supply) (hdisk : g.disk = h.disk)
    (hfresh : g.attempt (x.indexProject root patterns) = (.ok (.ok o'), g')) :
    (∀ f ∈ x.sources h.disk root patterns, h'.disk.documents d (documentName f.path) =
      if f.Inherits (x.sources h₀.disk root patterns) (x.sources h.disk root patterns) then none
      else f.document?) ∧
    (∀ name, (∀ f ∈ x.sources h.disk root patterns, documentName f.path ≠ name) →
      h'.disk.documents d name = none) ∧
    (h'.disk.documents d = g'.disk.documents d ↔ ∀ f ∈ x.sources h.disk root patterns,
      f.Inherits (x.sources h₀.disk root patterns) (x.sources h.disk root patterns) →
        f.status = .skipped) := by
  have hsupply₁ : h₁.nextId ≤ Uuid.supply :=
    Nat.le_trans hdrift.nextId (Host.supplied_before_run hrun hsupply)
  -- what the first run has left
  obtain ⟨v₀, hat₀⟩ := before.at_readable (c := ⟨collection, False, False, known⟩) False.elim
    False.elim (Host.supplied_before_run hindex hsupply₁)
  obtain ⟨v₁, root', hat₁, hindexed⟩ := hat₀.indexes False.elim hs hfit₀ hh₀ hindex hsupply₁
  have hvalid := hindexed.valid
  rw [← hat₀.disk] at hvalid
  cases hroot₀.symm.trans hvalid
  obtain ⟨root', hroot', hdir₀, hdocs₁⟩ := Indexer.documents_of_indexProject hindex
  cases hroot₀.symm.trans hroot'
  obtain ⟨_, hdocs₁⟩ := hdocs₁ d hroom
  -- what the update finds
  have hat : Regime.At ⟨collection, False, False, known⟩
      { v₁ with disk := h.disk, changes := h.changes } h := hat₁.drift hdrift False.elim
  obtain ⟨v', p, root', stored, es, _, hid, hupdated, hread⟩ :=
    hat.updates False.elim hs hfit hh hrun hsupply
  obtain ⟨hname, rfl, rfl⟩ := hindexed.eq_project trivial hupdated.known hid
  cases hroot.symm.trans hupdated.valid
  have hbefore : (v₁.index.tagged p.id).files.map IndexedFile.file =
      x.sources h₀.disk p.rootPath p.excludePatterns := by
    obtain ⟨_, _, hes₀, _, htagged⟩ := hindexed.tagged trivial
    rw [hid, htagged, hat₀.disk]
    exact hes₀
  have hpaths : ((x.sources h₀.disk p.rootPath p.excludePatterns).map SourceFile.path).Nodup :=
    nodup_path_sources (scannable_scan hfit₀.1 _ _ _)
  have hdifferent : ((x.sources h.disk p.rootPath p.excludePatterns).map
      fun f => documentName f.path).Nodup :=
    nodup_documentNames hnames
  -- what it leaves
  obtain ⟨_, root', t, hknown, hids, hdir, hdocs'⟩ := Indexer.documents_of_updateProject hrun
  obtain ⟨_, _, rfl, q, hq, hqid, hreread, hvalid⟩ :=
    hat.result (Indexer.tries_knownProject hs o₀.project) hknown (hids hsupply)
  cases Index.project_eq_of_id_eq hat.sound.nodup_ids hupdated.known hq (hid.trans hqid.symm)
  obtain rfl : p.rootPath = root' := Except.ok.inj (hroot.symm.trans hvalid)
  subst hreread
  have hsame : o.outputDir = o₀.outputDir :=
    hdir.trans ((congrArg (x.config.outputDirFor p.rootPath) hname).trans hdir₀.symm)
  rw [hsame] at hdocs'
  have hrenewed : Documents.Renewed (x.sources h₀.disk p.rootPath p.excludePatterns)
      (x.sources h.disk p.rootPath p.excludePatterns) (h'.disk.documents d) := by
    rw [hdocs' d htends, hdocs, hdocs₁]
    exact hupdated.renewed hfit.1 hfit.2 apart hat.sound hread hbefore hpaths hdifferent
  -- what a run from the beginning leaves
  obtain ⟨root', hroot', hdir', hdocs''⟩ := Indexer.documents_of_indexProject hfresh
  rw [hdisk] at hroot' hdocs''
  cases hroot.symm.trans hroot'
  rw [hdir'.trans hdir₀.symm] at hdocs''
  obtain ⟨_, hfresh⟩ := hdocs'' d htends.hasRoom
  refine ⟨hrenewed.there, hrenewed.free, ?_⟩
  rw [hfresh]
  exact hrenewed.eq_iff hdifferent

section

set_option maxRecDepth 100000

/-- All files below a node have bytes of a kind. -/
def DiskNode.HasOnly (P : ByteArray → Prop) (node : DiskNode) : Prop :=
  ∀ place content modified, node.at? place = some (.file content modified) → P content

theorem DiskNode.hasOnly_file {P : ByteArray → Prop} {content : ByteArray} (h : P content)
    (modified : Timestamp) : (file content modified).HasOnly P := by
  intro place content' modified' hfile
  cases place with
  | nil =>
    cases hfile
    exact h
  | cons name rest => cases hfile

theorem DiskNode.hasOnly_dir {P : ByteArray → Prop} {es : List (String × DiskNode)}
    (h : ∀ e ∈ es, e.2.HasOnly P) : (dir es).HasOnly P := by
  intro place content modified hfile
  cases place with
  | nil => cases hfile
  | cons name rest =>
    obtain ⟨child, hchild, hfile⟩ := Option.bind_eq_some_iff.mp hfile
    exact h _ (Keyed.mem_of_get? hchild) rest content modified hfile

theorem FileSystem.known_of_hasOnly {P : ByteArray → Prop} {fs : FileSystem} (h : fs.root.HasOnly P)
    {path : String} {bytes : ByteArray} (hread : fs.read path = .ok bytes) : P bytes := by
  obtain ⟨place, modified, hat⟩ := at?_of_read hread
  exact h place bytes modified hat

/-- Surroundings with a binary file in a directory. -/
def Host.nested : Host :=
  { disk := { root := .dir [("r", .dir [("a", .dir [("b.py", .file ⟨#[0]⟩ ⟨0, 0⟩)])])] } }

/-- A file system in which a text has the flat name of the binary file. -/
def FileSystem.flattened : FileSystem :=
  { root := .dir [("r", .dir [(".agents", .dir [("architecture", .dir [])]),
    ("a_b.py", .file "pass\n".toUTF8 ⟨0, 0⟩)])] }

/-- Surroundings in which the binary file has been indexed before it has become the text. -/
def Host.flattened : Host :=
  { (Host.nested.attempt (Indexer.sample.indexProject "/r" [])).2 with
    disk := .flattened
    faults := [] }

/-- The contents of the file. -/
def nestedContents (bytes : ByteArray) : Prop := bytes = ⟨#[0]⟩ ∨ bytes = "pass\n".toUTF8

theorem tellsApart_nestedContents : Sha256.TellsApart nestedContents := by
  have hne : Sha256.digest ⟨#[0]⟩ ≠ Sha256.digest "pass\n".toUTF8 := by decide +kernel
  rintro a b (rfl | rfl) (rfl | rfl) hsame
  · rfl
  · exact absurd hsame hne
  · exact absurd hsame.symm hne
  · rfl

theorem Host.readable_nested : nested.Readable nestedContents := by
  have hnames : IsName "r" ∧ IsName "a" ∧ IsName "b.py" := by decide
  obtain ⟨hr, ha, hb⟩ := hnames
  refine ⟨⟨List.pairwise_singleton _ _, hr, ⟨List.pairwise_singleton _ _, ha,
    ⟨List.pairwise_singleton _ _, hb, trivial, trivial⟩, trivial⟩, trivial⟩, fun _ _ hread => ?_⟩
  refine FileSystem.known_of_hasOnly ?_ hread
  exact DiskNode.hasOnly_dir <| List.forall_mem_singleton.mpr <| DiskNode.hasOnly_dir <|
    List.forall_mem_singleton.mpr <| DiskNode.hasOnly_dir <| List.forall_mem_singleton.mpr <|
      DiskNode.hasOnly_file (.inl rfl) _

theorem Host.readable_flattened : flattened.Readable nestedContents := by
  have hnames : (IsName "r" ∧ IsName ".agents" ∧ IsName "architecture" ∧ IsName "a_b.py") ∧
      ".agents" < "a_b.py" := by
    decide
  obtain ⟨⟨hr, hagents, harchitecture, hfile⟩, horder⟩ := hnames
  refine ⟨⟨List.pairwise_singleton _ _, hr, ⟨List.pairwise_pair.mpr horder, hagents,
    ⟨List.pairwise_singleton _ _, harchitecture, ⟨.nil, trivial⟩, trivial⟩, hfile, trivial, trivial⟩,
    trivial⟩, fun path bytes (hread : FileSystem.flattened.read path = .ok bytes) => ?_⟩
  refine FileSystem.known_of_hasOnly ?_ hread
  have hempty : (DiskNode.dir [("architecture", .dir [])]).HasOnly nestedContents :=
    DiskNode.hasOnly_dir <| List.forall_mem_singleton.mpr <| DiskNode.hasOnly_dir <|
      List.forall_mem_nil _
  exact DiskNode.hasOnly_dir <| List.forall_mem_singleton.mpr <| DiskNode.hasOnly_dir <|
    List.forall_mem_cons.mpr ⟨hempty, List.forall_mem_singleton.mpr <|
      DiskNode.hasOnly_file (.inr rfl) _⟩

theorem Host.drifts_flattened :
    (Host.nested.attempt (Indexer.sample.indexProject "/r" [])).2.Drifts Host.flattened := by
  have hdrifts : ∀ h : Host, (∃ s, h.store = .memory s) →
      h.Drifts { h with disk := .flattened, faults := [] } := by
    rintro h ⟨s, hs⟩
    exact ⟨⟨s, s, hs, hs, rfl⟩, Nat.le_refl _⟩
  exact hdrifts _ (Host.memory_attempt _ ⟨_, rfl⟩)

theorem FileSystem.hasRoom_nested :
    Host.nested.disk.HasRoom "/r/.agents/architecture" ["r", ".agents", "architecture"] := by
  have hunlinked : ∀ place, Host.nested.disk.link? place = none := by
    refine FileSystem.link?_of_unlinked ?_
    exact DiskNode.unlinked_dir <| List.forall_mem_singleton.mpr <| DiskNode.unlinked_dir <|
      List.forall_mem_singleton.mpr <| DiskNode.unlinked_dir <| List.forall_mem_singleton.mpr <|
        DiskNode.unlinked_file _ _
  have hnames : ∀ n ∈ ["r", ".agents", "architecture"], Path.IsPlain n := by decide
  refine ⟨headsTo_ofNames hnames fun _ _ => hunlinked _, fun hdir => ?_, fun _ _ => hunlinked _⟩
  cases hdir

theorem FileSystem.tends_flattened :
    FileSystem.flattened.Tends "/r/.agents/architecture" ["r", ".agents", "architecture"] := by
  refine ⟨?_, fun place _ => FileSystem.link?_of_unlinked ?_ place⟩
  · change FileSystem.lookUpWithin _ _ _ _ = _
    decide +kernel
  · have hempty : (DiskNode.dir [("architecture", .dir [])]).Unlinked :=
      DiskNode.unlinked_dir <| List.forall_mem_singleton.mpr <| DiskNode.unlinked_dir <|
        List.forall_mem_nil _
    exact DiskNode.unlinked_dir <| List.forall_mem_singleton.mpr <| DiskNode.unlinked_dir <|
      List.forall_mem_cons.mpr ⟨hempty, List.forall_mem_singleton.mpr <| DiskNode.unlinked_file _ _⟩

theorem Documents.foldl_refresh_of_skipped {files : List SourceFile}
    (h : ∀ f ∈ files, f.status = .skipped) :
    files.foldl refresh (fun _ => none) = fun _ => none := by
  induction files with
  | nil => rfl
  | cons f rest ih =>
    have hnone := SourceFile.document?_eq_none.mpr (h f List.mem_cons_self)
    rw [List.foldl_cons, refresh, hnone, Function.update_eq_self_iff.mpr rfl]
    exact ih fun g hg => h g (List.mem_cons_of_mem f hg)

/-- There is no document about the binary file. -/
theorem FileSystem.documents_flattened {g : Host} {o : IndexOutcome}
    (hrun : Host.nested.attempt (Indexer.sample.indexProject "/r" []) = (.ok (.ok o), g))
    (hdir : o.outputDir = "/r/.agents/architecture") :
    FileSystem.flattened.documents ["r", ".agents", "architecture"] =
      g.disk.documents ["r", ".agents", "architecture"] := by
  obtain ⟨root, hroot, _, hdocs⟩ := Indexer.documents_of_indexProject hrun
  have hfiles : AllowedRoots.validate Host.nested.disk ["/"] "/r" = .ok "/r" ∧
      ∀ f ∈ Indexer.sample.sources Host.nested.disk "/r" [], f.status = .skipped := by
    decide +kernel
  cases hroot.symm.trans hfiles.1
  rw [hdir] at hdocs
  obtain ⟨_, hdocs⟩ := hdocs _ FileSystem.hasRoom_nested
  rw [hdocs, Documents.foldl_refresh_of_skipped hfiles.2]
  rfl

/-- The document about the text is taken away for the binary file, although it has just been written. -/
theorem documents_of_update_flattened : ∃ o₀ o o',
    Host.nested.result? (Indexer.sample.indexProject "/r" []) = some o₀ ∧
    Host.flattened.result? (Indexer.sample.updateProject o₀.project false) = some o ∧
    Host.result? { disk := .flattened } (Indexer.sample.indexProject "/r" []) = some o' ∧
    (Host.flattened.attempt (Indexer.sample.updateProject o₀.project false)).2.disk.documents
        ["r", ".agents", "architecture"] = (fun _ => none) ∧
    (Host.flattened.attempt (Indexer.sample.updateProject o₀.project false)).2.disk.documents
        ["r", ".agents", "architecture"] ≠
      (Host.attempt { disk := .flattened } (Indexer.sample.indexProject "/r" [])).2.disk.documents
        ["r", ".agents", "architecture"] := by
  have hruns : ((Host.nested.result? (Indexer.sample.indexProject "/r" [])).map
        fun o => (o.project, o.outputDir)) = some (.ofNat 1, "/r/.agents/architecture") ∧
      (Host.flattened.result? (Indexer.sample.updateProject (.ofNat 1) false)).isSome ∧
      (Host.flattened.attempt (Indexer.sample.updateProject (.ofNat 1) false)).2.nextId ≤
        Uuid.supply ∧
      (Host.result? { disk := .flattened } (Indexer.sample.indexProject "/r" [])).isSome := by
    decide +kernel
  obtain ⟨hindex, hupdate, hsupply, hfresh⟩ := hruns
  obtain ⟨o₀, ho₀, hboth⟩ := Option.map_eq_some_iff.mp hindex
  obtain ⟨hid, hdir⟩ := Prod.mk.inj hboth
  obtain ⟨o, ho⟩ := Option.isSome_iff_exists.mp hupdate
  obtain ⟨o', ho'⟩ := Option.isSome_iff_exists.mp hfresh
  have hfiles : AllowedRoots.validate Host.nested.disk ["/"] "/r" = .ok "/r" ∧
      AllowedRoots.validate FileSystem.flattened ["/"] "/r" = .ok "/r" ∧
      ((Indexer.sample.sources FileSystem.flattened "/r" []).map fun f => flatName f.path).Nodup ∧
      (∀ f ∈ Indexer.sample.sources FileSystem.flattened "/r" [],
        f.Inherits (Indexer.sample.sources Host.nested.disk "/r" [])
          (Indexer.sample.sources FileSystem.flattened "/r" [])) ∧
      ∃ f ∈ Indexer.sample.sources FileSystem.flattened "/r" [], f.status ≠ .skipped := by
    decide +kernel
  obtain ⟨hroot₀, hroot, hnames, hinherits, hwritten⟩ := hfiles
  have hhonest : ∀ h : Host, h.faults = [] → h.Honest := by
    intro h hfaults f hf
    rw [hfaults] at hf
    cases hf
  have hrun₀ := Host.attempt_of_result? ho₀
  have hrun := Host.attempt_of_result? ho
  rw [← hid] at hrun hsupply
  have hroom := FileSystem.hasRoom_nested
  have htends := FileSystem.tends_flattened
  rw [← hdir] at hroom htends
  obtain ⟨hthere, hfree, hiff⟩ := documents_of_update (h := .flattened) (g := { disk := .flattened })
    tellsApart_nestedContents (.start ⟨_, rfl⟩ rfl) rfl Host.readable_nested (hhonest _ rfl) hroot₀
    hroom hrun₀ Host.drifts_flattened htends (FileSystem.documents_flattened hrun₀ hdir)
    Host.readable_flattened (hhonest _ rfl) hroot hnames hrun hsupply rfl
    (Host.attempt_of_result? ho')
  refine ⟨o₀, o, o', ho₀, hid ▸ ho, ho', funext fun name => ?_, fun hsame => ?_⟩
  · by_cases hname : ∃ f ∈ Indexer.sample.sources FileSystem.flattened "/r" [],
        documentName f.path = name
    · obtain ⟨f, hf, rfl⟩ := hname
      exact (hthere f hf).trans (if_pos (hinherits f hf))
    · exact hfree name fun f hf heq => hname ⟨f, hf, heq⟩
  · obtain ⟨f, hf, hne⟩ := hwritten
    exact hne (hiff.mp hsame f hf (hinherits f hf))

end

end CodeAtlas
