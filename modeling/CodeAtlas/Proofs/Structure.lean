import CodeAtlas.Document.Structure
import CodeAtlas.Proofs.Keyed
import Mathlib.Data.List.Nodup
/-!
# The tree of the files does not depend on their order

Files with different paths go to different places of the tree, so it does not matter which of them is
put there first.

Results:
1. `splitOn_inj`: a path is told by the pieces that it falls apart into.
2. `insert_comm`: files at different places may be put there in any order.
3. `renderStructure_perm`: so may all files of the document about the structure.
-/

namespace CodeAtlas

namespace Text

/-- The pieces with the separator between them. -/
def joinChars (separator : Char) : List (List Char) → List Char
  | [] => []
  | [piece] => piece
  | piece :: rest => piece ++ separator :: joinChars separator rest

theorem joinChars_splitOnChars (separator : Char) (cs : List Char) :
    joinChars separator (splitOnChars (· == separator) cs) = cs := by
  induction cs with
  | nil => rfl
  | cons c rest ih =>
    rw [splitOnChars]
    cases hpieces : splitOnChars (· == separator) rest with
    | nil => exact absurd hpieces (splitOnChars_ne_nil _ _)
    | cons first others =>
      rw [hpieces] at ih
      split
      · next hc =>
        rw [joinChars, ih, beq_iff_eq.mp hc]
        · rfl
        · exact List.cons_ne_nil first others
      · cases others with
        | nil => exact congrArg (c :: ·) ih
        | cons second others => exact congrArg (c :: ·) ih

/-- A text is told by its pieces. -/
theorem splitOn_inj {separator : Char} {s t : String}
    (h : splitOn (· == separator) s = splitOn (· == separator) t) : s = t := by
  have hpieces : splitOnChars (· == separator) s.toList = splitOnChars (· == separator) t.toList :=
    List.map_injective_iff.mpr (fun _ _ => String.ofList_inj.mp) h
  have hchars := congrArg (joinChars separator) hpieces
  rw [joinChars_splitOnChars, joinChars_splitOnChars] at hchars
  exact String.toList_inj.mp hchars

end Text

namespace DirectoryTree

/-- Files at different places may be put there in any order. -/
theorem insert_comm {f g : FileSummary} {name other : String} {dirs dirs' : List String}
    (h : (dirs, name) ≠ (dirs', other)) (tree : DirectoryTree) :
    insert f name dirs (insert g other dirs' tree) =
      insert g other dirs' (insert f name dirs tree) := by
  induction dirs generalizing dirs' tree with
  | nil =>
    obtain ⟨ds, fs⟩ := tree
    cases dirs' with
    | nil =>
      have hne : name ≠ other := fun heq => h (heq ▸ rfl)
      simp only [insert, Keyed.insert_comm hne]
    | cons dir' rest' => rfl
  | cons dir rest ih =>
    obtain ⟨ds, fs⟩ := tree
    cases dirs' with
    | nil => rfl
    | cons dir' rest' =>
      simp only [insert]
      by_cases hdir : dir = dir'
      · -- both go on below one directory
        subst hdir
        have hrest : (rest, name) ≠ (rest', other) := by
          intro heq
          cases heq
          exact h rfl
        simp only [Keyed.get?_insert, if_true, Option.getD_some, Keyed.insert_insert, ih hrest]
      · have hdir' : ¬ dir' = dir := fun heq => hdir heq.symm
        simp only [Keyed.get?_insert, if_neg hdir, if_neg hdir', Keyed.insert_comm hdir]

/-- The tree of files with different paths does not depend on their order. -/
theorem ofFiles_perm {files files' : List FileSummary} (h : files.Perm files')
    (hpaths : (files.map FileSummary.path).Nodup) : ofFiles files = ofFiles files' := by
  refine h.foldl_eq' (fun f hf g hg tree => ?_) empty
  by_cases hpath : f.path = g.path
  · rw [List.inj_on_of_nodup_map hpaths hf hg hpath]
  · refine insert_comm (fun heq => hpath (@Text.splitOn_inj '/' _ _ ?_)) tree
    -- a path has at least one piece, so it is told by the last one and those before
    have hlast : ∀ s : String, (Text.splitOn (· == '/') s).dropLast ++
        [(Text.splitOn (· == '/') s).getLast?.getD ""] = Text.splitOn (· == '/') s := by
      intro s
      have hne : Text.splitOn (· == '/') s ≠ [] := fun hnil =>
        Text.splitOnChars_ne_nil _ _ (List.map_eq_nil_iff.mp hnil)
      rw [List.getLast?_eq_some_getLast hne, Option.getD_some]
      exact List.dropLast_concat_getLast hne
    have hdirs := congrArg Prod.fst heq
    have hname := congrArg Prod.snd heq
    rw [← hlast f.path, ← hlast g.path]
    simp only at hdirs hname
    rw [hdirs, hname]

end DirectoryTree

/-- The document about the structure does not depend on the order of the files. -/
theorem renderStructure_perm {files files' : List FileSummary} (h : files.Perm files')
    (hpaths : (files.map FileSummary.path).Nodup) :
    renderStructure files = renderStructure files' := by
  rw [renderStructure, renderStructure, structureOf, structureOf,
    DirectoryTree.ofFiles_perm h hpaths]

end CodeAtlas
