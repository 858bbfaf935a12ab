import CodeAtlas.Proofs.Opening
import CodeAtlas.Proofs.Separation
/-!
# The documents about single files

The documents about single files are those below one directory, each under the flat name of its file.
They are written and taken away one after another, so what the directory has in the end is what comes
of going through the files in this order. A document that has just been written may be taken away again
for another file with the same flat name.

Results:
1. `documents_write`, `documents_removeFile`, `documents_removeTree`: what single changes make of the
   documents.
2. `turns_writeFiles`, `turns_removeDocuments`: what going through files makes of them.
3. `documents_of_writeAll`: what is there when all documents have been written anew.
-/

namespace CodeAtlas

/-- The documents about single files: the bytes under each name. -/
abbrev Documents : Type := String → Option ByteArray

namespace OutputLayout

/-- The name of the document about a file. -/
def documentName (path : String) : String := flatName path ++ ".yaml"

end OutputLayout

open OutputLayout

namespace FileSystem

/-- The bytes of the file at a place. -/
def bytes? (fs : FileSystem) (place : List String) : Option ByteArray :=
  match fs.leaf? place with
  | some (.file content _) => some content
  | _ => none

/-- The documents about single files in an output directory. -/
def documents (fs : FileSystem) (d : List String) : Documents :=
  fun name => fs.bytes? (d ++ ["files", name])

variable {fs fs' : FileSystem} {dir path name : String} {d place : List String}

theorem bytes?_congr (h : fs'.leaf? place = fs.leaf? place) :
    fs'.bytes? place = fs.bytes? place := by
  rw [bytes?, bytes?, h]

theorem documents_congr
    (h : ∀ name, fs'.leaf? (d ++ ["files", name]) = fs.leaf? (d ++ ["files", name])) :
    fs'.documents d = fs.documents d :=
  funext fun name => bytes?_congr (h name)

/-- Where there is a document there is a directory for it. -/
theorem holds?_of_documents (h : fs.documents d name ≠ none) :
    fs.holds? (d ++ ["files", name]) ≠ none ∧ fs.holds? (d ++ ["files"]) = some .dir := by
  have hthere : fs.holds? (d ++ ["files", name]) ≠ none := fun hnone =>
    h (by rw [documents, bytes?, leaf?, hnone])
  have hbegins : d ++ ["files"] <+: d ++ ["files", name] := ⟨[name], by simp⟩
  exact ⟨hthere, holds?_above hthere hbegins fun heq => by simpa using congrArg List.length heq⟩

/-! ## Output directories -/

/-- A path heads for a place where nothing is or a directory that the path opens, and there are no
links there. -/
structure HasRoom (fs : FileSystem) (dir : String) (d : List String) : Prop where
  heads : fs.HeadsTo dir d
  opens : fs.holds? d = some .dir → fs.Opens dir d
  unlinked : ∀ place, d <+: place → fs.link? place = none

/-- A path opens a directory without links in it. -/
structure Tends (fs : FileSystem) (dir : String) (d : List String) : Prop where
  opens : fs.Opens dir d
  unlinked : ∀ place, d <+: place → fs.link? place = none

theorem Tends.hasRoom (h : fs.Tends dir d) : fs.HasRoom dir d :=
  ⟨h.opens.headsTo, fun _ => h.opens, h.unlinked⟩

theorem Tends.of_keepsWays (h : fs.Tends dir d) (hways : fs.KeepsWays fs') {c : DiskChange}
    (happly : c.apply fs = .ok fs') : fs'.Tends dir d :=
  ⟨h.opens.of_keepsWays hways, fun place hplace => c.link?_of_apply happly (h.unlinked place hplace)⟩

/-- New directories are no documents. -/
theorem documents_makeDirs (h : fs.makeDirs path = .ok fs') (d : List String) :
    fs'.documents d = fs.documents d :=
  documents_congr fun _ => leaf?_makeDirs h _

/-- Where a name can be put into a directory, the directory is opened. -/
theorem HeadsTo.opens_of_placeOf (h : fs.HeadsTo dir d) (hname : Path.IsPlain name)
    (hplace : fs.placeOf (Path.join dir name) = .ok place) :
    fs.Opens dir d ∧ place = d ++ [name] := by
  obtain ⟨p, hopens, rfl⟩ := opens_of_placeOf_join hname hplace
  cases h p hopens.heading?_eq
  exact ⟨hopens, rfl⟩

theorem HeadsTo.opens_of_write (h : fs.HeadsTo dir d) (hname : Path.IsPlain name)
    {content : ByteArray} (hwrite : fs.write (Path.join dir name) content = .ok fs') :
    fs.Opens dir d := by
  obtain ⟨place, hplace, _⟩ := write_eq_ok hwrite
  obtain ⟨own, hown, _⟩ := placeOf_of_writePlace hplace
  exact (h.opens_of_placeOf hname hown).1

namespace Tends

variable (h : fs.Tends dir d)

include h

theorem unlinked_append (rest : List String) : fs.link? (d ++ rest) = none :=
  h.unlinked _ (List.prefix_append d rest)

/-- The place of a document about a single file, if there is a directory for it. -/
theorem placeOf_fileDocument (hplace : fs.placeOf (fileDocument dir path) = .ok place) :
    fs.holds? (d ++ ["files"]) = some .dir ∧ place = d ++ ["files", documentName path] := by
  obtain ⟨q, hopens, rfl⟩ := opens_of_placeOf_join (plain_documentName path) hplace
  obtain ⟨rfl, hdir⟩ := hopens.of_join (by decide) h.opens.headsTo (h.unlinked_append ["files"])
  exact ⟨hdir, List.append_assoc d ["files"] [documentName path]⟩

/-! ## Changes -/

/-- Documents about the project as a whole are not among those about single files. -/
theorem documents_write_top (hname : Path.IsPlain name) {content : ByteArray}
    (hwrite : fs.write (Path.join dir name) content = .ok fs') :
    fs'.documents d = fs.documents d := by
  obtain ⟨place, hplace, rfl⟩ := write_eq_ok hwrite
  obtain ⟨hne, hdir, _⟩ := writePlace_eq_ok hplace
  cases h.opens.headsTo.writePlace_join hname (h.unlinked_append [name]) hplace
  refine documents_congr fun other => leaf?_put_file hne hdir content _ fun heq => ?_
  simpa using congrArg List.length heq

/-- A document about a file is written under its name. -/
theorem documents_write {content : ByteArray}
    (hwrite : fs.write (fileDocument dir path) content = .ok fs') :
    fs'.documents d = Function.update (fs.documents d) (documentName path) (some content) := by
  obtain ⟨place, hplace, rfl⟩ := write_eq_ok hwrite
  obtain ⟨hne, hnot, _⟩ := writePlace_eq_ok hplace
  obtain ⟨own, hown, hcases⟩ := placeOf_of_writePlace hplace
  obtain ⟨hdir, rfl⟩ := h.placeOf_fileDocument hown
  have hsame : d ++ ["files", documentName path] = place := by
    rcases hcases with hsame | ⟨target, htarget⟩
    · exact hsame
    · cases (h.unlinked_append _).symm.trans htarget
  subst hsame
  refine (Function.update_eq_iff.mpr ⟨?_, fun name hname => ?_⟩).symm
  · have hparent : fs.holds? (d ++ ["files", documentName path]).dropLast = some .dir := by
      rwa [List.append_cons, List.dropLast_concat]
    have hput := holds?_put hparent (.file content fs.clock) []
    rw [List.append_nil] at hput
    rw [documents, bytes?, leaf?, hput]
    rfl
  · refine (bytes?_congr (leaf?_put_file hne hnot content _ fun heq => hname ?_)).symm
    simpa using heq

/-- Taking the document about a file away leaves the directory, and the other documents. -/
theorem documents_removeFile (hremove : fs.removeFile (fileDocument dir path) = .ok fs') :
    fs'.Tends dir d ∧
      fs'.documents d = Function.update (fs.documents d) (documentName path) none := by
  obtain ⟨place, hplace, hnot, rfl⟩ := removeFile_eq_ok hremove
  obtain ⟨hdir, rfl⟩ := h.placeOf_fileDocument hplace
  constructor
  · exact h.of_keepsWays (keepsWays_of_leaf (fun _ hother => holds?_erase_elsewhere hother) hnot
      (h.unlinked_append _) rfl) (c := .removeFile (fileDocument dir path)) hremove
  · refine (Function.update_eq_iff.mpr ⟨?_, fun name hname => ?_⟩).symm
    · rw [documents, bytes?, leaf?, holds?_erase (placeOf_ne_nil hplace) List.prefix_rfl]
    · refine (bytes?_congr (leaf?_congr (holds?_erase_elsewhere fun hbegins => hname ?_))).symm
      simpa using (hbegins.eq_of_length (by simp)).symm

/-- Where there is no document to be taken away, there is none. -/
theorem documents_of_notFound
    (hremove : fs.removeFile (fileDocument dir path) = .error .notFound) :
    fs.documents d (documentName path) = none := by
  refine Classical.byContradiction fun hthere => ?_
  obtain ⟨hfile, hdir⟩ := holds?_of_documents hthere
  have hopens := h.opens.join (by decide) (by decide) hdir
  rw [removeFile] at hremove
  rcases hopens.placeOf_join (plain_documentName path) with hplace | ⟨e, hplace, he⟩
  · rw [show fs.placeOf (fileDocument dir path) = .ok (d ++ ["files"] ++ [documentName path]) from
      hplace, List.append_assoc] at hremove
    dsimp only [bind, Except.bind] at hremove
    split at hremove
    · next hnone => exact hfile (congrArg (Option.map DiskNode.entry) hnone)
    · cases hremove
    · cases hremove
  · rw [show fs.placeOf (fileDocument dir path) = .error e from hplace] at hremove
    exact he (Except.error.inj hremove)

end Tends

namespace HasRoom

variable (h : fs.HasRoom dir d)

include h

/-- When the directory of the documents about single files is taken away, there are none. -/
theorem documents_removeTree (hremove : fs.removeTree (filesDir dir) = .ok fs') :
    fs'.HeadsTo dir d ∧ (∀ place, d <+: place → fs'.link? place = none) ∧
      fs'.documents d = fun _ => none := by
  obtain ⟨place, hplace, rfl⟩ := removeTree_eq_ok hremove
  obtain ⟨_, rfl⟩ := h.heads.opens_of_placeOf (by decide) hplace
  have hunlinked : ∀ place, d <+: place → (fs.erase (d ++ ["files"])).link? place = none :=
    fun place hplace => DiskChange.link?_of_apply (c := .removeTree (filesDir dir)) hremove
      (h.unlinked place hplace)
  refine ⟨h.heads.congr (ToolCall.link?_eq h.unlinked (fun place hplace => ?_) hunlinked) rfl,
    hunlinked, ?_⟩
  · exact leaf?_congr (holds?_erase_elsewhere fun hbegins =>
      hplace ((List.prefix_append d _).trans hbegins))
  · funext name
    rw [documents, bytes?, leaf?, holds?_erase (placeOf_ne_nil hplace) ⟨[name], by simp⟩]

theorem documents_of_notFound (hremove : fs.removeTree (filesDir dir) = .error .notFound) :
    fs.documents d = fun _ => none := by
  funext name
  refine Classical.byContradiction fun hthere => ?_
  obtain ⟨_, hdir⟩ := holds?_of_documents hthere
  have hd : fs.holds? d = some .dir :=
    holds?_above (by rw [hdir]; exact Option.some_ne_none _) (List.prefix_append d ["files"])
      fun heq => by simpa using congrArg List.length heq
  have hopens := h.opens hd
  rw [removeTree] at hremove
  have hfiles : Path.IsPlain "files" := by decide
  rcases hopens.placeOf_join hfiles with hplace | ⟨e, hplace, he⟩
  · rw [filesDir, hplace] at hremove
    dsimp only [bind, Except.bind] at hremove
    split at hremove
    · next hnone =>
      rw [holds?, hnone] at hdir
      cases hdir
    · cases hremove
    · cases hremove
  · rw [filesDir, hplace] at hremove
    exact he (Except.error.inj hremove)

end HasRoom

end FileSystem

/-! ## Going through files -/

/-- The bytes of the document about a file. There is none about a file that is binary. -/
def SourceFile.document? (f : SourceFile) : Option ByteArray :=
  if f.status = .skipped then none else some (FileDocument.ofFile f).render.toUTF8

namespace Documents

/-- The documents when that about a file has been brought up to date. -/
def refresh (docs : Documents) (f : SourceFile) : Documents :=
  Function.update docs (documentName f.path) f.document?

/-- The documents without that about a file. -/
def drop (docs : Documents) (path : String) : Documents :=
  Function.update docs (documentName path) none

variable {docs : Documents} {name : String}

/-- What is dropped is gone, and nothing else. -/
theorem foldl_drop (paths : List String) (docs : Documents) (name : String) :
    paths.foldl drop docs name =
      if ∃ path ∈ paths, documentName path = name then none else docs name := by
  induction paths generalizing docs with
  | nil => simp
  | cons path rest ih =>
    rw [List.foldl_cons, ih, drop, Function.update_apply]
    by_cases hpath : documentName path = name
    · simp [hpath]
    · simp [hpath, Ne.symm hpath]

theorem foldl_refresh_of_none {files : List SourceFile}
    (h : ∀ f ∈ files, documentName f.path ≠ name) : files.foldl refresh docs name = docs name := by
  induction files generalizing docs with
  | nil => rfl
  | cons f rest ih =>
    rw [List.foldl_cons, ih fun g hg => h g (List.mem_cons_of_mem f hg), refresh,
      Function.update_of_ne (h f List.mem_cons_self).symm]

/-- The document about a file is there if no other file has its name. -/
theorem foldl_refresh_of_mem {files : List SourceFile} {f : SourceFile} (hf : f ∈ files)
    (hone : ∀ g ∈ files, documentName g.path = documentName f.path → g = f) :
    files.foldl refresh docs (documentName f.path) = f.document? := by
  induction files generalizing docs with
  | nil => cases hf
  | cons g rest ih =>
    rw [List.foldl_cons]
    by_cases hrest : f ∈ rest
    · exact ih hrest fun g' hg' => hone g' (List.mem_cons_of_mem g hg')
    · obtain rfl := (List.mem_cons.mp hf).resolve_right hrest
      rw [foldl_refresh_of_none fun g hg heq => hrest (hone g (List.mem_cons_of_mem f hg) heq ▸ hg),
        refresh, Function.update_self]

end Documents

/-! ## Runs -/

section

variable {h g : Host} {dir path name : String} {d : List String} {α β : Type}

/-- A change is made, or the disk refuses it. -/
theorem Output.change_cases (h : Host) (c : DiskChange) :
    (∃ g, h.attempt (change c) = (.ok (.ok ()), g) ∧ c.apply h.disk = .ok g.disk) ∨
      ∃ refusal, h.attempt (change c) = (.ok (.error refusal.failure), h) ∧
        c.apply h.disk = .error refusal := by
  cases happly : c.apply h.disk with
  | ok fs =>
    have hserve : Host.serve (.change c) h =
        (.ok (.ok ()), { h with disk := fs, changes := c :: h.changes }) := by
      rw [Host.serve, happly]
    exact .inl ⟨_, run_bind_of_ok (run_ask hserve) _, rfl⟩
  | error refusal =>
    have hserve : Host.serve (.change c) h = (.ok (.error refusal), h) := by
      rw [Host.serve, happly]
    exact .inr ⟨refusal, run_bind_of_ok (run_ask hserve) _, rfl⟩

theorem Output.run_change {c : DiskChange} {r : Unit}
    (hrun : h.attempt (Output.change c) = (.ok (.ok r), g)) : c.apply h.disk = .ok g.disk := by
  obtain ⟨t, hchange, happly⟩ | ⟨refusal, hchange, _⟩ := change_cases h c
  · cases hchange.symm.trans hrun
    exact happly
  · cases hchange.symm.trans hrun

theorem Output.run_remove {c : DiskChange} {r : Bool}
    (hrun : h.attempt (Output.remove c) = (.ok (.ok r), g)) :
    c.apply h.disk = .ok g.disk ∨ c.apply h.disk = .error .notFound ∧ g.disk = h.disk := by
  obtain ⟨result, t, hask, hrun⟩ := run_bind_ok hrun
  have hserve := run_ask_ok hask
  rw [Host.serve] at hserve
  split at hserve
  · next disk happly =>
    cases hserve
    cases hrun
    exact .inl happly
  · next e happly =>
    cases hserve
    cases e with
    | notFound =>
      cases hrun
      exact .inr ⟨happly, rfl⟩
    | _ => cases hrun

/-- A text is written when the directories above it are there. -/
theorem Output.run_writeText {text : String} {r : Unit}
    (hrun : h.attempt (Output.writeText path text) = (.ok (.ok r), g)) : ∃ fs,
      (fs = h.disk ∨ ∃ above, h.disk.makeDirs above = .ok fs) ∧
        fs.write path text.toUTF8 = .ok g.disk := by
  rw [writeText] at hrun
  split at hrun
  · next above _ =>
    obtain ⟨_, t, hdirs, hrun⟩ := run_attempt_bind_ok hrun
    exact ⟨t.disk, .inr ⟨above, run_change hdirs⟩, run_change hrun⟩
  · exact ⟨h.disk, .inl rfl, run_change hrun⟩

/-- If an attempt succeeds, an output directory without links goes on to be one, and its documents about
single files become others. -/
def Attempt.Turns (a : Attempt α) (dir : String) (d : List String) (next : Documents → Documents) :
    Prop :=
  ∀ (h g : Host) (r : α), h.disk.Tends dir d → h.attempt a = (.ok (.ok r), g) →
    g.disk.Tends dir d ∧ g.disk.documents d = next (h.disk.documents d)

theorem turns_bind {a : Attempt α} {f : α → Attempt β} {next later : Documents → Documents}
    (ha : a.Turns dir d next) (hf : ∀ r, (f r).Turns dir d later) :
    (a >>= f).Turns dir d fun docs => later (next docs) := by
  intro h g r htends hrun
  obtain ⟨x, t, hfirst, hrun⟩ := run_attempt_bind_ok hrun
  obtain ⟨htends, hfirst⟩ := ha h t x htends hfirst
  obtain ⟨htends, hlast⟩ := hf x t g r htends hrun
  exact ⟨htends, hlast.trans (congrArg later hfirst)⟩

theorem turns_of_keepsFiles {a : Attempt α} (ha : a.Asks Host.KeepsFiles) : a.Turns dir d id := by
  intro h g r htends hrun
  have hdisk := Host.disk_attempt ha (h := h)
  rw [hrun] at hdisk
  exact ⟨hdisk ▸ htends, congrArg (·.documents d) hdisk⟩

namespace Output

theorem turns_writeText {next : Documents → Documents} (text : String)
    (hwrite : ∀ fs fs' : FileSystem, fs.Tends dir d → fs.write path text.toUTF8 = .ok fs' →
      fs'.documents d = next (fs.documents d)) : (writeText path text).Turns dir d next := by
  intro h g r htends hrun
  obtain ⟨fs, habove, hrun⟩ := run_writeText hrun
  have hfs : fs.Tends dir d ∧ fs.documents d = h.disk.documents d := by
    rcases habove with rfl | ⟨above, hdirs⟩
    · exact ⟨htends, rfl⟩
    · exact ⟨htends.of_keepsWays (FileSystem.keepsWays_makeDirs hdirs) (c := .makeDirs above) hdirs,
        FileSystem.documents_makeDirs hdirs d⟩
  have hways := FileSystem.keepsWays_write hrun
  refine ⟨hfs.1.of_keepsWays hways (c := .write path text.toUTF8) hrun, ?_⟩
  rw [hwrite fs g.disk hfs.1 hrun, hfs.2]

theorem turns_writeProject (p : Project) : (writeProject dir p).Turns dir d id :=
  turns_writeText _ fun _ _ htends hwrite => htends.documents_write_top (by decide) hwrite

theorem turns_writeStructure (files : List FileSummary) : (writeStructure dir files).Turns dir d id :=
  turns_writeText _ fun _ _ htends hwrite => htends.documents_write_top (by decide) hwrite

theorem turns_removeFile (path : String) :
    (Output.removeFile dir path).Turns dir d fun docs => docs.drop path := by
  intro h g r htends hrun
  rcases run_remove hrun with happly | ⟨happly, hsame⟩
  · exact htends.documents_removeFile happly
  · rw [hsame]
    refine ⟨htends, (Function.update_eq_self_iff.mpr ?_).symm⟩
    exact (htends.documents_of_notFound happly).symm

/-- The document about the project is written into a directory that the path opens from then on. -/
theorem tends_of_writeProject {p : Project} {r : Unit} (hheads : h.disk.HeadsTo dir d)
    (hunlinked : ∀ place, d <+: place → h.disk.link? place = none)
    (hrun : h.attempt (writeProject dir p) = (.ok (.ok r), g)) :
    g.disk.Tends dir d ∧ g.disk.documents d = h.disk.documents d := by
  obtain ⟨fs, habove, hwrite⟩ := run_writeText hrun
  have hsame : (∀ place, fs.leaf? place = h.disk.leaf? place) ∧ fs.current = h.disk.current := by
    rcases habove with rfl | ⟨above, hdirs⟩
    · exact ⟨fun _ => rfl, rfl⟩
    · exact ⟨FileSystem.leaf?_makeDirs hdirs,
        DiskChange.current_of_apply (c := .makeDirs above) hdirs⟩
  have hlinks : fs.link? = h.disk.link? := funext fun place => by
    rw [FileSystem.link?_of_leaf?, hsame.1, ← FileSystem.link?_of_leaf?]
  have htends : fs.Tends dir d :=
    ⟨(hheads.congr hlinks hsame.2).opens_of_write (by decide) hwrite,
      fun place hplace => hlinks ▸ hunlinked place hplace⟩
  refine ⟨htends.of_keepsWays (FileSystem.keepsWays_write hwrite) (c := .write _ _) hwrite, ?_⟩
  rw [htends.documents_write_top (by decide) hwrite]
  exact FileSystem.documents_congr fun _ => hsame.1 _

/-- Writing the documents about files goes through them one after another. -/
theorem turns_writeFiles (files : List SourceFile) :
    (writeFiles dir files).Turns dir d fun docs => files.foldl Documents.refresh docs := by
  induction files with
  | nil => exact turns_of_keepsFiles (asks_pure _)
  | cons f rest ih =>
    rw [writeFiles]
    split
    · next hskipped =>
      have hone : (Output.removeFile dir f.path).Turns dir d (·.refresh f) := by
        simp only [Documents.refresh, SourceFile.document?, if_pos hskipped]
        exact turns_removeFile f.path
      exact turns_bind hone fun _ => ih
    · next hwritten =>
      have hone : (writeFile dir f).Turns dir d (·.refresh f) := by
        refine turns_writeText _ fun fs fs' htends hwrite => ?_
        rw [htends.documents_write hwrite, Documents.refresh, SourceFile.document?, if_neg hwritten]
      exact turns_bind hone fun _ => ih

end Output

/-- So does taking documents away. -/
theorem turns_removeDocuments (paths : List String) :
    (Indexer.removeDocuments dir paths).Turns dir d fun docs => paths.foldl Documents.drop docs := by
  induction paths with
  | nil => exact turns_of_keepsFiles (asks_pure _)
  | cons path rest ih => exact turns_bind (Output.turns_removeFile path) fun _ => ih

/-- When all documents have been written anew, those about single files are those that come of going
through the files, and no others. -/
theorem documents_of_writeAll {p : Project} {files : List SourceFile} {r : Unit}
    (hroom : h.disk.HasRoom dir d)
    (hrun : h.attempt (Indexer.writeAll dir p files) = (.ok (.ok r), g)) :
    g.disk.Tends dir d ∧ g.disk.documents d = files.foldl Documents.refresh fun _ => none := by
  obtain ⟨_, h₁, hclear, hrun⟩ := run_attempt_bind_ok hrun
  obtain ⟨_, h₁', hclear, hpure⟩ := run_attempt_bind_ok hclear
  cases hpure
  have hcleared : h₁.disk.HeadsTo dir d ∧ (∀ place, d <+: place → h₁.disk.link? place = none) ∧
      h₁.disk.documents d = fun _ => none := by
    rcases Output.run_remove hclear with happly | ⟨happly, hsame⟩
    · exact hroom.documents_removeTree happly
    · rw [hsame]
      exact ⟨hroom.heads, hroom.unlinked, hroom.documents_of_notFound happly⟩
  obtain ⟨hheads, hunlinked, hnone⟩ := hcleared
  obtain ⟨_, h₂, hproject, hrun⟩ := run_attempt_bind_ok hrun
  obtain ⟨htends, hdocs⟩ := Output.tends_of_writeProject hheads hunlinked hproject
  obtain ⟨_, h₃, hsummaries, hrun⟩ := run_attempt_bind_ok hrun
  obtain ⟨htends, hdocs'⟩ := Output.turns_writeStructure _ h₂ h₃ _ htends hsummaries
  obtain ⟨htends, hfiles⟩ := Output.turns_writeFiles files h₃ g r htends hrun
  refine ⟨htends, hfiles.trans ?_⟩
  rw [hdocs', id, hdocs, hnone]

end

end CodeAtlas
