import CodeAtlas.Proofs.History
/-!
# Collections are well formed at any time

Each root has one project, each file has one point, and no point of a file or symbol is left behind
by those that it belongs to. This holds after every request of every call, whatever fails: what a
run has not done yet or has given up never shows as a point that has no place.

There is one way out. A reading that fails with `notFound` reads as if there were no collection; when
that happens while a root is indexed, the project that the root already has is not seen, and the root
gets a second one.

Results:
1. `wellFormed_of_orderly`: the points of an orderly index are well formed.
2. `wellFormed_of_mem_states`: they are, after every request of every call of a history.
-/

namespace CodeAtlas

/-- What holds of the points of a collection, given by their ids and payloads, at any time. -/
structure WellFormed (points : List (String × Payload)) : Prop where
  /-- Different projects have different roots. -/
  roots : points.Pairwise fun a b =>
    a.2.IsProject → b.2.IsProject → a.2.rootPath? ≠ b.2.rootPath?
  /-- Files and symbols have a project that is there. -/
  owned : ∀ a ∈ points, a.2.IsFile ∨ a.2.IsSymbol →
    ∃ b ∈ points, b.2.IsProject ∧ a.2.projectId? = some b.1
  /-- Different files of a project have different paths. -/
  files : points.Pairwise fun a b => a.2.IsFile → b.2.IsFile →
    a.2.projectId? = b.2.projectId? → a.2.filePath? ≠ b.2.filePath?
  /-- Symbols have a file that is there, in the version that they were read from. -/
  symbols : ∀ a ∈ points, a.2.IsSymbol → ∃ b ∈ points, b.2.IsFile ∧
    b.2.projectId? = a.2.projectId? ∧ b.2.filePath? = a.2.filePath? ∧
    b.2.contentHash? = a.2.contentHash?

/-! ## Orderly indexes -/

section

variable {e e' : IndexedFile} {a b : String × Payload}

theorem IndexedFile.not_isProject (h : a ∈ e.points) : ¬ a.2.IsProject := by
  rcases IndexedFile.mem_points h with rfl | h
  · exact (Payload.isFile_ofFile e.project e.file).not_isProject
  · exact (Payload.mem_symbols h).isSymbol.not_isProject

/-- The point of a file comes first, and the others are those of symbols. -/
theorem IndexedFile.pairwise_points {R : String × Payload → String × Payload → Prop}
    (h : ∀ a b, b.2.IsSymbol → R a b) (e : IndexedFile) : e.points.Pairwise R := by
  have hsymbols : ∀ b ∈ ((e.source.ids.map Uuid.render).zip
      (Payload.symbols e.project e.file)).take e.written, b.2.IsSymbol := fun b hb =>
    (Payload.mem_symbols (List.of_mem_zip (List.mem_of_mem_take hb)).2).isSymbol
  refine List.pairwise_cons.mpr ⟨fun b hb => h _ b (hsymbols b hb), ?_⟩
  exact List.pairwise_of_forall_mem_list fun a _ b hb => h a b (hsymbols b hb)

end

section

variable {ix : Index}

theorem Index.isProject_of_mem_projects {a : String × Payload}
    (h : a ∈ ix.projects.map fun p => (p.id.render, Payload.ofProject p)) : a.2.IsProject := by
  obtain ⟨p, _, rfl⟩ := List.mem_map.mp h
  exact Payload.isProject_ofProject p

theorem Index.not_isProject_of_mem_files {a : String × Payload}
    (h : a ∈ ix.files.flatMap IndexedFile.points) : ¬ a.2.IsProject := by
  obtain ⟨e, _, ha⟩ := List.mem_flatMap.mp h
  exact IndexedFile.not_isProject ha

namespace Index.Orderly

variable (h : ix.Orderly)

include h

/-- Only projects have a root, and each of them its own. -/
theorem pairwise_roots : ix.contents.Pairwise fun a b =>
    a.2.IsProject → b.2.IsProject → a.2.rootPath? ≠ b.2.rootPath? := by
  refine List.pairwise_append.mpr ⟨?_, ?_, ?_⟩
  · refine List.pairwise_map.mpr ((List.pairwise_map.mp h.roots).imp fun hne _ _ => ?_)
    simpa using hne
  · exact List.pairwise_of_forall_mem_list fun a ha _ _ hproject =>
      absurd hproject (not_isProject_of_mem_files ha)
  · exact fun _ _ b hb _ hproject => absurd hproject (not_isProject_of_mem_files hb)

theorem exists_project {a : String × Payload} (ha : a ∈ ix.contents)
    (htype : a.2.IsFile ∨ a.2.IsSymbol) :
    ∃ b ∈ ix.contents, b.2.IsProject ∧ a.2.projectId? = some b.1 := by
  rcases mem_contents ha with ⟨p, _, rfl⟩ | ⟨e, he, hpoint⟩
  · have hproject := Payload.isProject_ofProject p
    rcases htype with htype | htype
    · exact absurd hproject htype.not_isProject
    · exact absurd hproject htype.not_isProject
  · obtain ⟨p, hp, hid⟩ := h.owned e he
    refine ⟨_, mem_contents_of_project hp, Payload.isProject_ofProject p, ?_⟩
    rw [(IndexedFile.tells_of_mem_points hpoint).1, hid]

/-- Of the points of a file one is that of the file, and different files have different keys. -/
theorem pairwise_files : ix.contents.Pairwise fun a b => a.2.IsFile → b.2.IsFile →
    a.2.projectId? = b.2.projectId? → a.2.filePath? ≠ b.2.filePath? := by
  refine List.pairwise_append.mpr ⟨?_, List.pairwise_flatMap.mpr ⟨fun e _ => ?_, ?_⟩, ?_⟩
  · exact List.pairwise_of_forall_mem_list fun a ha _ _ hfile =>
      absurd (isProject_of_mem_projects ha) hfile.not_isProject
  · exact IndexedFile.pairwise_points (fun _ _ hsymbol _ hfile => absurd hfile hsymbol.not_isFile) e
  · refine (List.pairwise_map.mp h.once).imp fun {e e'} hne a ha b hb _ _ hid hpath => ?_
    obtain ⟨haid, hapath⟩ := IndexedFile.tells_of_mem_points ha
    obtain ⟨hbid, hbpath⟩ := IndexedFile.tells_of_mem_points hb
    rw [haid, hbid, Option.some_inj, Uuid.render_inj] at hid
    rw [hapath, hbpath, Option.some_inj] at hpath
    exact hne (Prod.ext hid hpath)
  · exact fun a ha _ _ hfile => absurd (isProject_of_mem_projects ha) hfile.not_isProject

omit h in
theorem exists_file {a : String × Payload} (ha : a ∈ ix.contents) (htype : a.2.IsSymbol) :
    ∃ b ∈ ix.contents, b.2.IsFile ∧ b.2.projectId? = a.2.projectId? ∧
      b.2.filePath? = a.2.filePath? ∧ b.2.contentHash? = a.2.contentHash? := by
  rcases mem_contents ha with ⟨p, _, rfl⟩ | ⟨e, he, hpoint⟩
  · exact absurd (Payload.isProject_ofProject p) htype.not_isProject
  · rcases IndexedFile.mem_points hpoint with rfl | hsymbol
    · exact absurd (Payload.isFile_ofFile e.project e.file) htype.not_isFile
    · refine ⟨_, mem_contents_of_file he List.mem_cons_self, Payload.isFile_ofFile _ _, ?_⟩
      obtain ⟨_, hid, hpath, hhash⟩ := Payload.mem_symbols hsymbol
      rw [hid, hpath, hhash]
      exact ⟨Payload.projectId?_ofFile _ _, Payload.filePath?_ofFile _ _,
        Payload.contentHash?_ofFile _ _⟩

end Index.Orderly

end

/-- The points of an orderly index are well formed. -/
theorem wellFormed_of_orderly {ix : Index} (h : ix.Orderly) {points : List (String × Payload)}
    (hperm : points.Perm ix.contents) : WellFormed points where
  roots := (hperm.pairwise_iff fun hab hb ha => (hab ha hb).symm).mpr h.pairwise_roots
  owned a ha htype := by
    obtain ⟨b, hb, hproject⟩ := h.exists_project (hperm.mem_iff.mp ha) htype
    exact ⟨b, hperm.mem_iff.mpr hb, hproject⟩
  files := (hperm.pairwise_iff fun hab hb ha hid => (hab ha hb hid.symm).symm).mpr h.pairwise_files
  symbols a ha htype := by
    obtain ⟨b, hb, hfile⟩ := Index.Orderly.exists_file (hperm.mem_iff.mp ha) htype
    exact ⟨b, hperm.mem_iff.mpr hb, hfile⟩

/-! ## Histories -/

/-- The names of files are names, and if a project is indexed as a whole, no reading fails as if
there were no collection. -/
def Undeceived (call : ToolCall) (h : Host) : Prop :=
  h.disk.WellNamed ∧ (call.IsIndex → h.Honest)

/-- After every request of every call of a history the points are well formed, whatever fails. -/
theorem wellFormed_of_mem_states {collection : String} {h h' : Host} {x : Indexer}
    {call : ToolCall} (hist : History collection Undeceived h)
    (hs : x.store.collection = collection) (hfit : Undeceived call h)
    (hmem : h' ∈ Program.states Host.serve (call.run x).run h)
    (hsupply : h'.nextId ≤ Uuid.supply) : WellFormed (h'.points collection) := by
  -- nothing is taken for granted but that indexes are orderly
  have hfits : ∀ call h, Undeceived call h →
      Regime.Fits ⟨collection, True, False, fun _ => True⟩ call h :=
    fun call h hfit => ⟨hfit.1, fun _ _ _ => trivial, fun hindex _ => hfit.2 hindex⟩
  have hbefore : h.nextId ≤ Uuid.supply :=
    @Program.rely_of_states _ _ _ _ Host.serve (·.nextId ≤ Uuid.supply) Host.supplied_before _ h h'
      hmem hsupply
  obtain ⟨v, hat⟩ := History.at_scene id hfits hist hbefore
  obtain ⟨v', hat'⟩ := hat.keeps_call id hs (hfits _ _ hfit) hmem hsupply
  exact wellFormed_of_orderly (hat'.sound.orderly trivial) hat'.points_perm

section

set_option maxRecDepth 100000

/-- Surroundings behind a run that has failed between the project and its files. -/
def Host.behindFailure : Host :=
  ((Host.sample "def f():\n    pass\n" [⟨"upsert", .failure (.storage "full"), 1⟩]).attempt
    ((ToolCall.index "/r" []).run .sample)).2.later "def f():\n    pass\n" []

theorem wellFormed_behindFailure :
    WellFormed ((Host.behindFailure.attempt ((ToolCall.index "/r" []).run .sample)).2.points
      "points") := by
  have hhonest : (Host.sample "def f():\n    pass\n"
      [⟨"upsert", .failure (.storage "full"), 1⟩]).Honest := by
    intro f hf hop
    cases List.mem_singleton.mp hf
    exact absurd hop (by decide)
  have hfresh : Host.behindFailure.nextId <
      (Host.behindFailure.attempt ((ToolCall.index "/r" []).run .sample)).2.nextId ∧
      (Host.behindFailure.attempt ((ToolCall.index "/r" []).run .sample)).2.nextId ≤
        Uuid.supply := by
    decide +kernel
  have hist : History "points" Undeceived Host.behindFailure :=
    .drift (.run (.start ⟨_, rfl⟩ rfl) rfl ⟨FileSystem.wellNamed_sample _, fun _ => hhonest⟩)
      (Host.drifts_later (Host.memory_attempt _ ⟨_, rfl⟩) _ _)
  exact wellFormed_of_mem_states hist rfl ⟨FileSystem.wellNamed_sample _, fun _ => nofun⟩
    (Host.attempt_mem_states hfresh.1) hfresh.2

/-- Surroundings in which a project is indexed and the next reading of all projects fails as if
there were no collection. -/
def Host.deceiving : Host :=
  ((Host.sample "def f():\n    pass\n" []).attempt ((ToolCall.index "/r" []).run .sample)).2.later
    "def f():\n    pass\n" [⟨"scroll", .failure (.notFound "gone"), 0⟩]

/-- If readings may fail in this way, a root may get two projects. -/
theorem not_wellFormed_of_notFound :
    ¬ ∀ (collection : String) (h h' : Host) (x : Indexer) (call : ToolCall),
      History collection (fun _ h => h.disk.WellNamed) h → x.store.collection = collection →
        h.disk.WellNamed → h' ∈ Program.states Host.serve (call.run x).run h →
          h'.nextId ≤ Uuid.supply → WellFormed (h'.points collection) := by
  intro hall
  have hfresh : Host.deceiving.nextId <
      (Host.deceiving.attempt ((ToolCall.index "/r" []).run .sample)).2.nextId ∧
      (Host.deceiving.attempt ((ToolCall.index "/r" []).run .sample)).2.nextId ≤ Uuid.supply ∧
      ¬ ((Host.deceiving.attempt ((ToolCall.index "/r" []).run .sample)).2.points
        "points").Pairwise fun a b =>
          a.2.IsProject → b.2.IsProject → a.2.rootPath? ≠ b.2.rootPath? := by
    decide +kernel
  have hist : History "points" (fun _ h => h.disk.WellNamed) Host.deceiving :=
    .drift (.run (.start ⟨_, rfl⟩ rfl) rfl (FileSystem.wellNamed_sample _))
      (Host.drifts_later (Host.memory_attempt _ ⟨_, rfl⟩) _ _)
  exact hfresh.2.2 (hall "points" Host.deceiving _ .sample (.index "/r" []) hist rfl
    (FileSystem.wellNamed_sample _) (Host.attempt_mem_states hfresh.1) hfresh.2.1).roots

end

end CodeAtlas
