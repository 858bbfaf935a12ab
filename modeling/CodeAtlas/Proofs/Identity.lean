import CodeAtlas.Proofs.Tracking
/-!
# The id of a root

A root that is indexed again keeps the id of its project, as long as the project is still known. Of
all calls two kinds may take a project away: one that deletes it, if it succeeds, and one that indexes
its root again, if it fails in one place. The latter deletes the project before it writes the new one,
and if this first writing fails, nothing is left that tells the id.

Results:
1. `ToolCall.tries_retains`: what calls take away.
2. `Spares.known`: a project stays known as long as it is spared.
3. `sameProject_of_spared`: the root of a project that is spared is indexed under the same id.
-/

namespace CodeAtlas

/-! ## Calls -/

/-- The call is to index a root. -/
def ToolCall.Indexes (x : Indexer) (fs : FileSystem) (root : String) (call : ToolCall) : Prop :=
  ∃ path patterns, call = .index path patterns ∧
    AllowedRoots.validate fs x.config.allowedRoots path = .ok root

/-- A call that succeeds takes away the project that it is to delete. One that fails may take away that
of the root that it is to index, and then it has done nothing else. -/
theorem ToolCall.tries_retains {c : Regime} {v : Scene} {x : Indexer}
    (hs : x.store.collection = c.collection) (hfs : v.disk.WellNamed)
    (hknown : ∀ path bytes, v.disk.read path = .ok bytes → c.known bytes) (call : ToolCall)
    (hindex : call.IsIndex → c.orderly → c.honest) :
    c.Tries v (call.run x) (fun _ v' => v.Retains (fun p => call = .delete p.id) v')
      fun _ v' => v.Retains (fun p => call.Indexes x v.disk p.rootPath ∧ v.HasLost p v') v' := by
  cases call with
  | index path patterns =>
    refine tries_bind (tries_mono_err (Indexer.tries_indexProject hs (hindex trivial) hfs hknown path
      patterns) fun _ _ h => h.mono fun p _ ⟨hroot, hlost⟩ =>
        ⟨⟨path, patterns, rfl, hroot⟩, hlost⟩) fun _ v' ⟨_, h⟩ => tries_pure ?_
    exact h.retains.mono fun _ _ => False.elim
  | update id force =>
    refine tries_bind (tries_mono_err (Indexer.tries_updateProject hs hfs hknown id force)
      fun _ _ h => h.mono fun _ _ => False.elim) fun _ v' h => tries_pure ?_
    obtain ⟨_, _, _, _, _, hupdated, _⟩ := h
    exact hupdated.retains.mono fun _ _ => False.elim
  | search query project limit =>
    exact tries_bind (tries_lift (SymbolStore.spec_search query project limit))
      fun _ v' hv => tries_pure (.of_same (congrArg (·.index.projects) hv))
  | list =>
    exact tries_bind (tries_lift (SymbolStore.spec_listProjects hs))
      fun _ v' hv => tries_pure (.of_same (congrArg (·.index.projects) hv))
  | delete id =>
    refine tries_bind (tries_mono_err (SymbolStore.tries_deleteProject hs id)
      fun _ _ hv => .of_same (congrArg (·.index.projects) hv)) fun deleted v' h => ?_
    rcases h with ⟨rfl, _, rfl⟩ | ⟨rfl, rfl, _⟩
    · exact tries_pure ((Scene.Retains.drop v id).mono fun p _ hid => congrArg delete hid.symm)
    · exact tries_throw (.of_same rfl)

/-! ## Projects that stay known -/

namespace Host

/-- A project with an id and a root is known. -/
def Knows (h : Host) (collection : String) (id : Uuid) (root : String) : Prop :=
  ∃ p : Project, p.id = id ∧ p.rootPath = root ∧ (id.render, .ofProject p) ∈ h.points collection

/-- Neither points nor files have changed but that the points that bear the id of a project are
gone. -/
def HasLost (h : Host) (collection : String) (id : Uuid) (h' : Host) : Prop :=
  (h'.points collection).Perm
      ((h.points collection).filter fun e => e.2.projectId? != some id.render) ∧
    h'.changes = h.changes

end Host

/-- Later surroundings. In between no call has deleted the project of an id, and none that has failed
to index its root has lost it. -/
inductive Spares (collection : String) (id : Uuid) (root : String) (g : Host) : Host → Prop
  | refl : Spares collection id root g g
  | run {h h' : Host} {x : Indexer} {call : ToolCall} {r : Except Failure Json}
    (before : Spares collection id root g h) (hs : x.store.collection = collection)
    (hfit : Undeceived call h) (hrun : h.attempt (call.run x) = (.ok r, h'))
    (hdelete : ∀ payload, r = .ok payload → call ≠ .delete id)
    (hindex : ∀ e, r = .error e → call.Indexes x h.disk root → ¬ h.HasLost collection id h') :
    Spares collection id root g h'
  | drift {h h' : Host} (before : Spares collection id root g h) (hdrift : h.Drifts h') :
    Spares collection id root g h'

section

variable {c : Regime} {v v' : Scene} {h h' : Host}

/-- What an attempt gives or how it fails is as it was judged. -/
theorem Regime.At.outcome {α : Type} {a : Attempt α} {ok : α → Scene → Prop}
    {err : Failure → Scene → Prop} (hat : c.At v h) (ha : c.Tries v a ok err)
    {r : Except Failure α} (hrun : h.attempt a = (.ok r, h')) (hs : h'.nextId ≤ Uuid.supply) :
    ∃ v', c.At v' h' ∧ Regime.onResult ok err r v' :=
  (ha h hat).result Host.supplied_before hrun hs

/-- What is known of a project is told by a project of the index. -/
theorem Regime.At.knows_iff (hat : c.At v h) {id : Uuid} {root : String} :
    h.Knows c.collection id root ↔ ∃ p ∈ v.index.projects, p.id = id ∧ p.rootPath = root := by
  constructor
  · rintro ⟨p, rfl, rfl, hp⟩
    rcases Index.mem_contents (hat.points_perm.mem_iff.mp hp) with ⟨q, hq, heq⟩ | ⟨e, _, he⟩
    · have hid : q.id = p.id := (Uuid.render_inj.mp (congrArg Prod.fst heq)).symm
      have hroot : some p.rootPath = some q.rootPath := by
        rw [← Payload.rootPath?_ofProject p, ← Payload.rootPath?_ofProject q]
        exact congrArg (fun e => e.2.rootPath?) heq
      exact ⟨q, hq, hid, (Option.some.inj hroot).symm⟩
    · exact absurd (Payload.isProject_ofProject p) (IndexedFile.not_isProject he)
  · rintro ⟨p, hp, rfl, rfl⟩
    exact ⟨p, rfl, rfl, hat.points_perm.mem_iff.mpr (Index.mem_contents_of_project hp)⟩

/-- What is lost of a scene is lost of the surroundings. -/
theorem Regime.At.hasLost (hat : c.At v h) (hat' : c.At v' h') {p : Project}
    (hlost : v.HasLost p v') : h.HasLost c.collection p.id h' := by
  have hchoice : ∀ e ∈ v.index.contents,
      (!(SymbolStore.projectFilter p.id).accepts e.2) = (e.2.projectId? != some p.id.render) := by
    intro e _
    rw [bne, Bool.not_inj_iff, Bool.eq_iff_iff, Payload.accepts_projectFilter, beq_iff_eq]
  refine ⟨hat'.points_perm.trans ?_, ?_⟩
  · rw [hlost.1, Index.contents_drop, List.filter_congr hchoice]
    exact (hat.points_perm.filter _).symm
  · rw [hat'.changes, hat.changes]
    exact hlost.2

end

section

variable {collection : String}

/-- The regime of histories in which no root has two projects. -/
def orderlyRegime (collection : String) : Regime := ⟨collection, True, False, fun _ => True⟩

theorem Undeceived.fits {call : ToolCall} {h : Host} (hfit : Undeceived call h) :
    (orderlyRegime collection).Fits call h :=
  ⟨hfit.1, fun _ _ _ => trivial, fun hindex _ => hfit.2 hindex⟩

/-- Ids that are left behind a sequence of calls were left before. -/
theorem Spares.supplied {id : Uuid} {root : String} {g h : Host}
    (hspares : Spares collection id root g h) (hsupply : h.nextId ≤ Uuid.supply) :
    g.nextId ≤ Uuid.supply := by
  induction hspares with
  | refl => exact hsupply
  | @run h h' x call r before _ _ hrun _ _ ih =>
    refine ih (Host.supplied_before_attempt (a := call.run x) ?_)
    rw [hrun]
    exact hsupply
  | drift before hdrift ih => exact ih (Nat.le_trans hdrift.nextId hsupply)

/-- A project that is spared stays known. -/
theorem Spares.known {id : Uuid} {root : String} {g h : Host} {v : Scene}
    (hspares : Spares collection id root g h) (hat : (orderlyRegime collection).At v g)
    (hknows : g.Knows collection id root) (hsupply : h.nextId ≤ Uuid.supply) :
    ∃ v', (orderlyRegime collection).At v' h ∧ h.Knows collection id root := by
  induction hspares with
  | refl => exact ⟨v, hat, hknows⟩
  | @run h h' x call r before hs hfit hrun hdelete hindex ih =>
    obtain ⟨v₁, hat₁, hknows₁⟩ := ih (Host.supplied_before_run hrun hsupply)
    obtain ⟨hnamed, hknown, hhonest⟩ : (orderlyRegime collection).Fits call h := hfit.fits
    rw [hat₁.disk] at hnamed hknown
    obtain ⟨v₂, hat₂, hresult⟩ := hat₁.trusting.outcome (ToolCall.tries_retains
      (c := (orderlyRegime collection).trusting h) hs hnamed hknown call hhonest) hrun hsupply
    have hat₂' := hat₂.of_trusting fun h => h
    refine ⟨v₂, hat₂', ?_⟩
    obtain ⟨p, hp, rfl, rfl⟩ := hat₁.knows_iff.mp hknows₁
    cases r with
    | ok payload =>
      rcases hresult p hp with hdeletes | hkeeps
      · exact absurd hdeletes (hdelete payload rfl)
      · exact hat₂'.knows_iff.mpr hkeeps
    | error e =>
      rcases hresult p hp with ⟨hindexes, hlost⟩ | hkeeps
      · rw [← hat₁.disk] at hindexes
        exact absurd (hat₁.hasLost hat₂' hlost) (hindex e rfl hindexes)
      · exact hat₂'.knows_iff.mpr hkeeps
  | drift before hdrift ih =>
    obtain ⟨v₁, hat₁, hknows₁⟩ := ih (Nat.le_trans hdrift.nextId hsupply)
    have hat₂ := hat₁.drift hdrift fun h => h.elim
    exact ⟨_, hat₂, hat₂.knows_iff.mpr (hat₁.knows_iff.mp hknows₁)⟩

/-- What a run that indexes a root leaves, whatever else is there. -/
theorem Undeceived.indexes {v : Scene} {h h' : Host} {x : Indexer} {path root : String}
    {patterns : List String} {o : IndexOutcome} (hfit : Undeceived (.index path patterns) h)
    (hat : (orderlyRegime collection).At v h) (hs : x.store.collection = collection)
    (hroot : AllowedRoots.validate h.disk x.config.allowedRoots path = .ok root)
    (hrun : h.attempt (x.indexProject path patterns) = (.ok (.ok o), h'))
    (hsupply : h'.nextId ≤ Uuid.supply) :
    (∃ v', (orderlyRegime collection).At v' h') ∧ h'.Knows collection o.project root ∧
      ∀ id, h.Knows collection id root → o.project = id := by
  have hhonest := hfit.2 trivial
  obtain ⟨v', hat', root', hindexed⟩ := hat.trusting.result (Indexer.tries_indexProject
    (c := (orderlyRegime collection).trusting h) hs (fun _ => hhonest) (hat.disk ▸ hfit.1)
    (fun _ _ _ => trivial) path patterns) hrun hsupply
  rw [hat.disk] at hroot
  obtain rfl := Except.ok.inj (hroot.symm.trans hindexed.valid)
  have hat'' := hat'.of_trusting fun h => h
  refine ⟨⟨v', hat''⟩, hat''.knows_iff.mpr ?_, fun id hknows => ?_⟩
  · obtain ⟨time, es, _, _, htagged⟩ := hindexed.tagged hhonest
    have hmem : Indexer.finished (Indexer.started root patterns o.project)
        ((x.sources v.disk root patterns).map SourceFile.summary) time ∈
          (v'.index.tagged o.project).projects := by
      rw [htagged]
      exact List.mem_singleton.mpr rfl
    exact ⟨_, List.mem_of_mem_filter hmem, rfl, rfl⟩
  · obtain ⟨p, hp, rfl, hpath⟩ := hat.knows_iff.mp hknows
    exact hindexed.identity trivial p hp hpath

/-- A project that is spared stays known, and its root is indexed under the same id again. -/
theorem sameProject_of_spared {g g' h : Host} {x : Indexer} {path root : String}
    {patterns : List String} {o : IndexOutcome} (hist : History collection Undeceived g)
    (hs : x.store.collection = collection) (hfit : Undeceived (.index path patterns) g)
    (hroot : AllowedRoots.validate g.disk x.config.allowedRoots path = .ok root)
    (hrun : g.attempt (x.indexProject path patterns) = (.ok (.ok o), g'))
    (hspares : Spares collection o.project root g' h) (hsupply : h.nextId ≤ Uuid.supply) :
    h.Knows collection o.project root ∧
      ∀ (y : Indexer) (path' : String) (patterns' : List String) (o' : IndexOutcome) (h' : Host),
        y.store.collection = collection → Undeceived (.index path' patterns') h →
          AllowedRoots.validate h.disk y.config.allowedRoots path' = .ok root →
            h.attempt (y.indexProject path' patterns') = (.ok (.ok o'), h') →
              h'.nextId ≤ Uuid.supply → o'.project = o.project := by
  have hlater : g'.nextId ≤ Uuid.supply := hspares.supplied hsupply
  have hbefore : g.nextId ≤ Uuid.supply := Host.supplied_before_run hrun hlater
  obtain ⟨v, hat⟩ := History.at_scene (c := orderlyRegime collection) (fun h => h)
    (fun _ _ hfit => hfit.fits) hist hbefore
  obtain ⟨⟨v₁, hat₁⟩, hknows, _⟩ := hfit.indexes hat hs hroot hrun hlater
  obtain ⟨v₂, hat₂, hknows₂⟩ := hspares.known hat₁ hknows hsupply
  refine ⟨hknows₂, fun y path' patterns' o' h' hy hfit' hroot' hrun' hsupply' => ?_⟩
  obtain ⟨_, _, hsame⟩ := hfit'.indexes hat₂ hy hroot' hrun' hsupply'
  exact hsame _ hknows₂

end

section

set_option maxRecDepth 100000

/-- Surroundings in which a project is indexed and the writing of points fails a little later. -/
def Host.stumbling (skip : Nat) : Host :=
  (Host.indexed "def f():\n    pass\n").later "def g():\n    pass\n"
    [⟨"upsert", .failure (.storage "full"), skip⟩]

/-- The same surroundings behind a run that was to index the project again. -/
def Host.stumbled (skip : Nat) : Host :=
  ((stumbling skip).attempt ((ToolCall.index "/r" []).run .sample)).2.later "def g():\n    pass\n" []

theorem sameProject_of_stumbled :
    (Host.stumbled 1).Knows "points" (.ofNat 1) "/r" ∧
      ((Host.stumbled 1).result? (Indexer.sample.indexProject "/r" [])).map (·.project) =
        some (.ofNat 1) := by
  have hfirst : ((Host.sample "def f():\n    pass\n" []).result?
      (Indexer.sample.indexProject "/r" [])).map (·.project) = some (.ofNat 1) := by
    decide +kernel
  have hstumbles : ((Host.stumbling 1).failure? ((ToolCall.index "/r" []).run .sample)).isSome ∧
      (((Host.stumbling 1).attempt ((ToolCall.index "/r" []).run .sample)).2.points
        "points").length = 1 ∧
      (((Host.stumbling 1).points "points").filter fun e =>
        e.2.projectId? != some (Uuid.ofNat 1).render).length = 0 ∧
      ((Host.stumbled 1).result? (Indexer.sample.indexProject "/r" [])).isSome ∧
      (Host.stumbled 1).nextId ≤ Uuid.supply ∧
      ((Host.stumbled 1).attempt (Indexer.sample.indexProject "/r" [])).2.nextId ≤ Uuid.supply := by
    decide +kernel
  obtain ⟨o, ho, hid⟩ := Option.map_eq_some_iff.mp hfirst
  obtain ⟨hfails, hpoints, hothers, hagain, hsupply, hsupply'⟩ := hstumbles
  obtain ⟨e, he⟩ := Option.isSome_iff_exists.mp hfails
  obtain ⟨o', ho'⟩ := Option.isSome_iff_exists.mp hagain
  have hhonest : (Host.stumbling 1).Honest := by
    intro f hf hop
    cases List.mem_singleton.mp hf
    exact absurd hop (by decide)
  -- the run has written the project again
  have hkept : ¬ (Host.stumbling 1).HasLost "points" o.project
      ((Host.stumbling 1).attempt ((ToolCall.index "/r" []).run .sample)).2 := by
    intro hlost
    have hlength := hlost.1.length_eq
    rw [hid, hpoints, hothers] at hlength
    cases hlength
  have hindexed : (Host.indexed "def f():\n    pass\n").Drifts (Host.stumbling 1) :=
    Host.drifts_later (Host.memory_indexed _) _ _
  have hlater : ((Host.stumbling 1).attempt ((ToolCall.index "/r" []).run .sample)).2.Drifts
      (Host.stumbled 1) :=
    Host.drifts_later (Host.memory_attempt _ (Host.memory_later (Host.memory_indexed _) _ _)) _ _
  have hspares : Spares "points" o.project "/r" (Host.indexed "def f():\n    pass\n")
      (Host.stumbled 1) :=
    .drift (.run (x := .sample) (.drift .refl hindexed) rfl
      ⟨FileSystem.wellNamed_sample _, fun _ => hhonest⟩ (Host.attempt_of_failure? he) nofun
      fun _ _ _ => hkept) hlater
  have hstart : History "points" Undeceived (Host.sample "def f():\n    pass\n" []) :=
    .start ⟨_, rfl⟩ rfl
  obtain ⟨hknows, hsame⟩ := sameProject_of_spared (x := .sample) hstart rfl
    ⟨FileSystem.wellNamed_sample _, fun _ => nofun⟩ (show _ = Except.ok "/r" from rfl)
    (Host.attempt_indexed ho) hspares hsupply
  rw [hid] at hknows hsame
  refine ⟨hknows, ?_⟩
  rw [ho', Option.map_some, hsame .sample "/r" [] o' _ rfl
    ⟨FileSystem.wellNamed_sample _, fun _ => nofun⟩ rfl (Host.attempt_of_result? ho') hsupply']

/-- If the first writing of the run fails, the project is lost, and the root gets another id. -/
example : ((Host.stumbled 0).points "points").length = 0 ∧
    ((Host.stumbled 0).result? (Indexer.sample.indexProject "/r" [])).map (·.project) =
      some (.ofNat 5) := by
  decide +kernel

end

end CodeAtlas
