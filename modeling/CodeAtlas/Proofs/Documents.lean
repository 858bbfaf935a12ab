import CodeAtlas.Document.Output
import CodeAtlas.Proofs.Scene
/-!
# Writing documents

Documents are written to the files and leave the index as it is. The document about the structure of
a project is not at the path of any document about a single file, so what was written there is not
written over.

Results:
1. `fileDocument_ne_structureDocument`: the paths of documents are different.
2. `tries_writeText`: what is written last at a path.
3. `tries_writeFiles`, `tries_clearFiles`: the other documents leave that about the structure.
4. `tries_outline`: what is behind the writing of the structure finds it written.
-/

namespace CodeAtlas

/-- What was written last at a path. -/
def lastWrite? (path : String) : List DiskChange → Option ByteArray
  | [] => none
  | .write place content :: earlier =>
    if place = path then some content else lastWrite? path earlier
  | _ :: earlier => lastWrite? path earlier

/-! ## Paths -/

namespace OutputLayout

/-- What is put in front of a name below a directory. -/
def below (dir : String) : String := if dir == "" || Text.endsWith "/" dir then dir else dir ++ "/"

theorem join_of_relative {dir name : String} (h : Path.isAbsolute name = false) :
    Path.join dir name = below dir ++ name := by
  rw [Path.join, h, below]
  split
  · contradiction
  · split <;> rfl

theorem below_eq_append (dir : String) : ∃ rest, below dir = dir ++ rest := by
  rw [below]
  split
  · exact ⟨"", String.append_empty.symm⟩
  · exact ⟨"/", rfl⟩

/-- A name that was made flat is no absolute path. -/
theorem isAbsolute_flatName_append (path : String) :
    Path.isAbsolute (flatName path ++ ".yaml") = false := by
  rw [Path.isAbsolute, Text.startsWith, flatName, String.toList_append, String.toList_map]
  cases path.toList with
  | nil => rfl
  | cons c cs =>
    by_cases hc : c = '/'
    · subst hc
      rfl
    · have hne : ('/' == if (c == '/' || c == '\\') = true then '_' else c) = false := by
        split
        · decide
        · exact beq_eq_false_iff_ne.mpr fun heq => hc heq.symm
      change (('/' == if (c == '/' || c == '\\') = true then '_' else c) && true) = false
      rw [hne]
      rfl

theorem fileDocument_ne_structureDocument (dir path : String) :
    fileDocument dir path ≠ structureDocument dir := by
  intro h
  rw [fileDocument, filesDir, structureDocument, join_of_relative (isAbsolute_flatName_append path),
    join_of_relative (show Path.isAbsolute "files" = false by decide),
    join_of_relative (show Path.isAbsolute "structure.yaml" = false by decide)] at h
  obtain ⟨rest, hrest⟩ := below_eq_append (below dir ++ "files")
  rw [hrest] at h
  have hchars := congrArg String.toList h
  simp only [String.toList_append, List.append_assoc] at hchars
  have hfirst := congrArg List.head? (List.append_cancel_left hchars)
  exact absurd hfirst (by simp)

end OutputLayout

/-! ## Changes -/

namespace Output

variable {c : Regime} {v : Scene}

/-- A scene that differs from another one in files at most, and not in what was written last at a
path. -/
structure Keeps (path : String) (v v' : Scene) : Prop where
  index : v'.index = v.index
  guards : v'.guards = v.guards
  written : lastWrite? path v'.changes = lastWrite? path v.changes

theorem Keeps.refl (path : String) (v : Scene) : Keeps path v v := ⟨rfl, rfl, rfl⟩

theorem Keeps.trans {path : String} {v v' v'' : Scene} (h : Keeps path v v')
    (h' : Keeps path v' v'') : Keeps path v v'' :=
  ⟨h'.index.trans h.index, h'.guards.trans h.guards, h'.written.trans h.written⟩

theorem tries_change (change : DiskChange) :
    c.Tries v (Output.change change)
      (fun _ v' => ∃ disk, v' = { v with disk, changes := change :: v.changes })
      fun _ v' => v' = v := by
  refine spec_bind (spec_change (fun result v' =>
    (result = .ok () → ∃ disk, v' = { v with disk, changes := change :: v.changes }) ∧
      ∀ e, result = .error e → v' = v)
    (fun disk => ⟨fun _ => ⟨disk, rfl⟩, fun _ => nofun⟩) fun _ => ⟨nofun, fun _ _ => rfl⟩)
    fun result v' h => ?_
  cases result with
  | ok _ => exact spec_pure (h.1 rfl)
  | error e => exact spec_pure (h.2 e rfl)

theorem tries_remove {change : DiskChange} {path : String}
    (hchange : ∀ earlier, lastWrite? path (change :: earlier) = lastWrite? path earlier) :
    c.Tries v (remove change) (fun _ v' => Keeps path v v') fun _ v' => v'.index = v.index := by
  refine spec_bind (spec_change (fun _ v' => Keeps path v v')
    (fun _ => ⟨rfl, rfl, hchange _⟩) fun _ => Keeps.refl path v) fun result v' h => ?_
  split
  · exact spec_pure h
  · exact spec_pure h
  · exact spec_pure h.index

/-- The scene after a text has been written: the text is what was written last at its path, and
elsewhere nothing is written. -/
structure Wrote (path text : String) (v v' : Scene) : Prop where
  index : v'.index = v.index
  guards : v'.guards = v.guards
  written : lastWrite? path v'.changes = some text.toUTF8
  elsewhere : ∀ other, path ≠ other → lastWrite? other v'.changes = lastWrite? other v.changes

theorem Wrote.keeps {path text other : String} {v v' : Scene} (h : Wrote path text v v')
    (hne : path ≠ other) : Keeps other v v' :=
  ⟨h.index, h.guards, h.elsewhere other hne⟩

theorem tries_writeText (path text : String) :
    c.Tries v (writeText path text) (fun _ v' => Wrote path text v v')
      fun _ v' => v'.index = v.index := by
  have hwrite : ∀ v₁, (∀ other, Keeps other v v₁) →
      c.Tries v₁ (Output.change (.write path text.toUTF8)) (fun _ v' => Wrote path text v v')
        fun _ v' => v'.index = v.index := by
    intro v₁ hv₁
    refine tries_mono (tries_change _) ?_ ?_
    · rintro _ v₂ ⟨disk, rfl⟩
      refine ⟨(hv₁ path).index, (hv₁ path).guards, if_pos rfl, fun other hne => ?_⟩
      exact (if_neg hne).trans (hv₁ other).written
    · rintro _ v₂ rfl
      exact (hv₁ path).index
  rw [writeText]
  split
  · refine tries_bind (tries_mono_err (tries_change _)
      fun _ _ h => congrArg Scene.index h) fun _ v₁ h => ?_
    obtain ⟨disk, rfl⟩ := h
    exact hwrite _ fun other => ⟨rfl, rfl, rfl⟩
  · exact hwrite v fun other => Keeps.refl other v

/-! ## Documents about single files -/

theorem tries_removeFile (dir path other : String) :
    c.Tries v (removeFile dir path) (fun _ v' => Keeps other v v') fun _ v' => v'.index = v.index :=
  tries_remove fun _ => rfl

theorem tries_clearFiles (dir other : String) :
    c.Tries v (clearFiles dir) (fun _ v' => Keeps other v v') fun _ v' => v'.index = v.index :=
  tries_bind (tries_remove fun _ => rfl) fun _ _ h => tries_pure h

/-- The documents about single files leave that about the structure. -/
theorem tries_writeFiles (dir : String) (files : List SourceFile) :
    c.Tries v (writeFiles dir files)
      (fun _ v' => Keeps (OutputLayout.structureDocument dir) v v')
      fun _ v' => v'.index = v.index := by
  induction files generalizing v with
  | nil => exact tries_pure (Keeps.refl _ v)
  | cons f rest ih =>
    have hrest : ∀ v₁, Keeps (OutputLayout.structureDocument dir) v v₁ →
        c.Tries v₁ (writeFiles dir rest)
          (fun _ v' => Keeps (OutputLayout.structureDocument dir) v v')
          fun _ v' => v'.index = v.index :=
      fun _ hv₁ => tries_mono ih (fun _ _ h => hv₁.trans h) fun _ _ h => h.trans hv₁.index
    rw [writeFiles]
    split
    · exact tries_bind (tries_removeFile dir f.path _) fun _ v₁ hv₁ => hrest v₁ hv₁
    · refine tries_bind (tries_writeText _ _) fun _ v₁ hv₁ => hrest v₁ ?_
      exact hv₁.keeps (OutputLayout.fileDocument_ne_structureDocument dir f.path)

/-! ## The document about the structure -/

/-- The scene after the files of a project have been written down: the index is as it was. -/
structure Outlines (dir : String) (files : List FileSummary) (v v' : Scene) : Prop where
  index : v'.index = v.index
  guards : v'.guards = v.guards
  written : lastWrite? (OutputLayout.structureDocument dir) v'.changes =
    some (renderStructure files).toUTF8

theorem Outlines.keeps {dir : String} {files : List FileSummary} {v v' v'' : Scene}
    (h : Outlines dir files v v') (h' : Keeps (OutputLayout.structureDocument dir) v' v'') :
    Outlines dir files v v'' :=
  ⟨h'.index.trans h.index, h'.guards.trans h.guards, h'.written.trans h.written⟩

/-- A run that writes the documents about a project and its structure goes on from there. -/
theorem tries_outline {α : Type} {dir : String} {p : Project} {files : List FileSummary}
    {rest : Attempt α} {ok : α → Scene → Prop} {err : Failure → Scene → Prop}
    (hfails : ∀ e v', v'.index = v.index → err e v')
    (hrest : ∀ v', Outlines dir files v v' → c.Tries v' rest ok err) :
    c.Tries v (do writeProject dir p; writeStructure dir files; rest) ok err := by
  refine tries_bind (tries_mono_err (tries_writeText _ _) hfails) fun _ v₁ h₁ => ?_
  refine tries_bind (tries_mono_err (tries_writeText _ _)
    fun e v' h => hfails e v' (h.trans h₁.index)) fun _ v₂ h₂ => ?_
  exact hrest v₂ ⟨h₂.index.trans h₁.index, h₂.guards.trans h₁.guards, h₂.written⟩

end Output

end CodeAtlas
