import CodeAtlas.Proofs.Tagged
/-!
# Runs that read everything anew

A run that indexes a root, or updates its project by force, reads every file. If it succeeds, what
bears the id of the project is the project, its files and their symbols, and nothing is left of
earlier runs, whatever has become of them.

Results:
1. `holds_of_tagged`: the part of a project in an index, as points.
2. `HasUpdated.all_of_force`: an update by force writes all files and keeps none.
3. `holds_of_full_run`: what a run that reads everything leaves.
-/

namespace CodeAtlas

/-! ## Points of a project -/

/-- What bears the id of a project is the project, which is active, and some files with all of
their symbols, which the project counts. -/
def Host.Holds (h : Host) (collection : String) (id : Uuid) (files : List SourceFile) : Prop :=
  ∃ p : Project, p.id = id ∧ p.status = .active ∧ p.fileCount = files.length ∧
    p.symbolCount = (files.flatMap (Payload.symbols id)).length ∧
    (h.tagged collection id).Perm
      (.ofProject p :: files.flatMap fun f => .ofFile id f :: Payload.symbols id f)

theorem SourceFile.totalSymbols_eq (id : Uuid) (files : List SourceFile) :
    totalSymbols files = (files.flatMap (Payload.symbols id)).length := by
  induction files with
  | nil => rfl
  | cons f rest ih =>
    rw [List.flatMap_cons, List.length_append, Payload.length_symbols, ← ih]
    rfl

section

variable {c : Regime} {v : Scene} {h : Host}

/-- The part of a project in an index, as points. -/
theorem holds_of_tagged (hat : c.At v h) {id : Uuid} {p : Project} {es : List IndexedFile}
    {files : List SourceFile} (htagged : v.index.tagged id = ⟨[p], es⟩) (hid : p.id = id)
    (hwhole : ∀ e ∈ es, e.IsWhole) (hfiles : (es.map IndexedFile.file).Perm files)
    (hactive : p.status = .active) (hcount : p.fileCount = files.length)
    (hsymbols : p.symbolCount = SourceFile.totalSymbols files) :
    h.Holds c.collection id files := by
  subst hid
  refine ⟨p, rfl, hactive, hcount, hsymbols.trans (SourceFile.totalSymbols_eq p.id files), ?_⟩
  have hes : ∀ e ∈ es, e.project = p.id ∧ e.IsWhole := by
    intro e he
    have hmem : e ∈ (v.index.tagged p.id).files := by
      rw [htagged]
      exact he
    exact ⟨beq_iff_eq.mp (List.mem_filter.mp hmem).2, hwhole e he⟩
  refine (hat.tagged_perm p.id).trans ?_
  have hpayloads : (es.flatMap fun e => Payload.ofFile e.project e.file :: e.symbols) =
      (es.map IndexedFile.file).flatMap fun f => .ofFile p.id f :: Payload.symbols p.id f := by
    rw [List.flatMap_map]
    refine List.flatMap_congr fun e he => ?_
    obtain ⟨hproject, hwhole⟩ := hes e he
    rw [IndexedFile.symbols_of_whole hwhole, hproject]
  rw [htagged, Index.payloads_contents, hpayloads]
  exact (hfiles.flatMap_right _).cons _

end

/-! ## Runs -/

namespace Indexer

variable {x : Indexer} {v v' : Scene} {p : Project} {root : String} {stored : List StoredFile}
  {es : List IndexedFile} {o : UpdateOutcome}

/-- An update by force writes all files and keeps none. -/
theorem HasUpdated.all_of_force (h : HasUpdated x v true p root stored es o v')
    (hfs : v.disk.WellNamed)
    (hstored : stored.Perm ((v.index.tagged p.id).files.map fun e => StoredFile.ofSource e.file)) :
    (es.map IndexedFile.file).Perm (x.sources v.disk root p.excludePatterns) ∧
      (v.index.tagged p.id).files.filter (fun e => !o.diff.toPurge.contains e.path) = [] ∧
      (mergeSummaries stored (x.current v.disk root p.excludePatterns) o.diff.toReparse
        (es.map IndexedFile.file)).Perm
          ((x.sources v.disk root p.excludePatterns).map SourceFile.summary) := by
  -- with force every path that is there is parsed again
  have hreparse : ∀ path, path ∈ o.diff.toReparse ↔
      path ∈ Keyed.keys (x.current v.disk root p.excludePatterns) := by
    intro path
    rw [h.diff]
    exact HashDiff.mem_toReparse_force (sorted_current hfs root p.excludePatterns)
  have hall : (x.sources v.disk root p.excludePatterns).filter
      (o.diff.toReparse.contains ·.path) = x.sources v.disk root p.excludePatterns := by
    refine List.filter_eq_self.mpr fun s hs => List.contains_iff_mem.mpr ?_
    exact (hreparse s.path).mpr ((mem_keys_current hfs).mpr (List.mem_map_of_mem hs))
  have hfiles := h.files
  rw [hall] at hfiles
  refine ⟨hfiles, ?_, ?_⟩
  · refine List.filter_eq_nil_iff.mpr fun e he => ?_
    have hpath : e.path ∈ o.diff.toPurge := by
      rw [h.diff, HashDiff.mem_toPurge_iff, ← h.diff, hreparse]
      by_cases hcurrent : e.path ∈ Keyed.keys (x.current v.disk root p.excludePatterns)
      · exact .inl hcurrent
      · refine .inr ⟨mem_keys_hashes.mpr ⟨StoredFile.ofSource e.file, ?_, rfl⟩, hcurrent⟩
        exact hstored.mem_iff.mpr (List.mem_map_of_mem he)
    simp [hpath]
  · have hnone : stored.filter (fun f =>
        Keyed.contains f.path (x.current v.disk root p.excludePatterns) &&
          !o.diff.toReparse.contains f.path) = [] := by
      refine List.filter_eq_nil_iff.mpr fun f _ hkept => ?_
      obtain ⟨hcurrent, hnot⟩ := (Bool.and_eq_true _ _).mp hkept
      have hmem := (hreparse f.path).mpr (Keyed.contains_iff.mp hcurrent)
      simp [hmem] at hnot
    refine (mergeSummaries_perm _ _ _ _).trans ?_
    rw [hnone]
    exact hfiles.map _

end Indexer

/-- A run that reads everything and succeeds leaves of a project what it has read and nothing else,
whatever has become of earlier runs. -/
theorem holds_of_full_run {collection : String} {h h' : Host} {x : Indexer}
    (hist : History collection (fun _ h => h.disk.WellNamed) h)
    (hs : x.store.collection = collection) (hfs : h.disk.WellNamed) (hh : h.Honest)
    (hsupply : h'.nextId ≤ Uuid.supply) :
    (∀ path patterns o, h.attempt (x.indexProject path patterns) = (.ok (.ok o), h') →
      ∃ root, AllowedRoots.validate h.disk x.config.allowedRoots path = .ok root ∧
        h'.Holds collection o.project (x.sources h.disk root patterns)) ∧
    ∀ id o, h.attempt (x.updateProject id true) = (.ok (.ok o), h') →
      o.project = id ∧ ∃ p root, (id.render, .ofProject p) ∈ h.points collection ∧
        AllowedRoots.validate h.disk x.config.allowedRoots p.rootPath = .ok root ∧
        h'.Holds collection id (x.sources h.disk root p.excludePatterns) := by
  -- what failed readings have hidden from earlier runs does not matter to a full one
  have hscene : ∀ {α : Type} {a : Attempt α} {r}, h.attempt a = (r, h') →
      ∃ v, Regime.At ⟨collection, False, True, fun _ => True⟩ v h := by
    intro α a r hrun
    have hbefore : h.nextId ≤ Uuid.supply := Host.supplied_before_run hrun hsupply
    have hfits : ∀ call h, h.disk.WellNamed →
        Regime.Fits ⟨collection, False, False, fun _ => True⟩ call h :=
      fun call h hfs => ⟨hfs, fun _ _ _ => trivial, fun _ => False.elim⟩
    obtain ⟨v, hat⟩ := History.at_scene id hfits hist hbefore
    exact ⟨v, hat.of_honest fun _ => hh⟩
  constructor
  · intro path patterns o hrun
    obtain ⟨v, hat⟩ := hscene hrun
    obtain ⟨v', hat', root, hindexed⟩ := hat.result (Indexer.tries_indexProject hs False.elim
      (hat.disk ▸ hfs) (fun _ _ _ => trivial) path patterns) hrun hsupply
    obtain ⟨time, es, hes, hwhole, htagged⟩ := hindexed.tagged trivial
    rw [hat.disk]
    refine ⟨root, hindexed.valid, ?_⟩
    exact holds_of_tagged hat' htagged rfl hwhole (.of_eq hes) rfl (List.length_map _) rfl
  · intro id o hrun
    obtain ⟨v, hat⟩ := hscene hrun
    obtain ⟨v', hat', hid, p, root, stored, es, hupdated, hstored⟩ :=
      hat.result (Indexer.tries_updateProject hs (hat.disk ▸ hfs) (fun _ _ _ => trivial) id true)
        hrun hsupply
    obtain rfl : p.id = id := hupdated.project.symm.trans hid
    have hread := hstored.resolve_right fun h => h.1 trivial
    obtain ⟨hfiles, hnone, hmerged⟩ := hupdated.all_of_force (hat.disk ▸ hfs) hread
    obtain ⟨time, htagged⟩ := hupdated.tagged
    rw [hnone, List.nil_append] at htagged
    refine ⟨hid, p, root, ?_, hat.disk ▸ hupdated.valid, ?_⟩
    · exact hat.points_perm.mem_iff.mpr (Index.mem_contents_of_project hupdated.known)
    · rw [hat.disk]
      refine holds_of_tagged hat' htagged rfl hupdated.whole hfiles rfl ?_ ?_
      · exact hmerged.length_eq.trans (List.length_map _)
      · exact FileSummary.totalSymbols_perm hmerged

section

set_option maxRecDepth 100000

/-- Surroundings behind a run that has written a project but not all of its files, when the text of
the file has changed. -/
def Host.cutShort : Host :=
  ((Host.sample "def f():\n    pass\n" [⟨"upsert", .failure (.storage "full"), 1⟩]).attempt
    ((ToolCall.index "/r" []).run .sample)).2.later "def g():\n    pass\n" []

theorem holds_of_cutShort :
    (∃ o : IndexOutcome, (Host.cutShort.attempt (Indexer.sample.indexProject "/r" [])).2.Holds
      "points" o.project (Indexer.sample.sources Host.cutShort.disk "/r" [])) ∧
    ∃ p root, ((Uuid.ofNat 1).render, .ofProject p) ∈ Host.cutShort.points "points" ∧
      AllowedRoots.validate Host.cutShort.disk ["/"] p.rootPath = .ok root ∧
      (Host.cutShort.attempt (Indexer.sample.updateProject (.ofNat 1) true)).2.Holds "points"
        (.ofNat 1) (Indexer.sample.sources Host.cutShort.disk root p.excludePatterns) := by
  have hist : History "points" (fun _ h => h.disk.WellNamed) Host.cutShort :=
    .drift (.run (.start ⟨_, rfl⟩ rfl) rfl (FileSystem.wellNamed_sample _))
      (Host.drifts_later (Host.memory_attempt _ ⟨_, rfl⟩) _ _)
  have hsupply : (Host.cutShort.attempt (Indexer.sample.indexProject "/r" [])).2.nextId ≤
      Uuid.supply ∧ (Host.cutShort.attempt
        (Indexer.sample.updateProject (.ofNat 1) true)).2.nextId ≤ Uuid.supply ∧
      (Host.cutShort.result? (Indexer.sample.indexProject "/r" [])).isSome ∧
      (Host.cutShort.result? (Indexer.sample.updateProject (.ofNat 1) true)).isSome := by
    decide +kernel
  obtain ⟨hindex, hupdate, hindexed, hupdated⟩ := hsupply
  obtain ⟨o, ho⟩ := Option.isSome_iff_exists.mp hindexed
  obtain ⟨o', ho'⟩ := Option.isSome_iff_exists.mp hupdated
  constructor
  · obtain ⟨root, hroot, hholds⟩ := (holds_of_full_run hist rfl (FileSystem.wellNamed_sample _)
      nofun hindex).1 "/r" [] o (Host.attempt_of_result? ho)
    obtain rfl : "/r" = root := Except.ok.inj hroot
    exact ⟨o, hholds⟩
  · exact ((holds_of_full_run hist rfl (FileSystem.wellNamed_sample _) nofun hupdate).2 (.ofNat 1)
      o' (Host.attempt_of_result? ho')).2

/-- Surroundings in which a project is indexed, the text of its file has changed, and the next
reading of a single project fails as if there were no collection. -/
def Host.forgetful : Host :=
  ((Host.sample "def f():\n    pass\n" []).attempt ((ToolCall.index "/r" []).run .sample)).2.later
    "def g():\n    pass\n" [⟨"retrieve", .failure (.notFound "gone"), 0⟩]

/-- If a reading of the run itself may fail in this way, what was there may be left. -/
theorem not_holds_of_notFound :
    ¬ ∀ (collection : String) (h h' : Host) (x : Indexer) (path : String) (patterns : List String)
        (o : IndexOutcome), History collection (fun _ h => h.disk.WellNamed) h →
      x.store.collection = collection → h.disk.WellNamed → h'.nextId ≤ Uuid.supply →
        h.attempt (x.indexProject path patterns) = (.ok (.ok o), h') →
          ∃ root, AllowedRoots.validate h.disk x.config.allowedRoots path = .ok root ∧
            h'.Holds collection o.project (x.sources h.disk root patterns) := by
  intro hall
  have hist : History "points" (fun _ h => h.disk.WellNamed) Host.forgetful :=
    .drift (.run (.start ⟨_, rfl⟩ rfl) rfl (FileSystem.wellNamed_sample _))
      (Host.drifts_later (Host.memory_attempt _ ⟨_, rfl⟩) _ _)
  have hrun : (Host.forgetful.result? (Indexer.sample.indexProject "/r" [])).map (·.project) =
      some (.ofNat 1) ∧
      (Host.forgetful.attempt (Indexer.sample.indexProject "/r" [])).2.nextId ≤ Uuid.supply ∧
      ((Host.forgetful.attempt (Indexer.sample.indexProject "/r" [])).2.tagged "points"
        (.ofNat 1)).length = 5 ∧
      ((Indexer.sample.sources Host.forgetful.disk "/r" []).flatMap fun f =>
        Payload.ofFile (.ofNat 1) f :: Payload.symbols (.ofNat 1) f).length = 2 := by
    decide +kernel
  obtain ⟨hproject, hsupply, htagged, hsources⟩ := hrun
  obtain ⟨o, ho, hid⟩ := Option.map_eq_some_iff.mp hproject
  obtain ⟨root, hroot, p, _, _, _, _, hperm⟩ := hall "points" Host.forgetful _ .sample "/r" [] o
    hist rfl (FileSystem.wellNamed_sample _) hsupply (Host.attempt_of_result? ho)
  obtain rfl : "/r" = root := Except.ok.inj hroot
  have hlength := hperm.length_eq
  rw [hid, List.length_cons, htagged, hsources] at hlength
  exact absurd hlength (by decide)

end

end CodeAtlas
