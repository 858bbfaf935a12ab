import CodeAtlas.Proofs.Amid
import CodeAtlas.Proofs.Places
import CodeAtlas.Proofs.ReadsFirst
import CodeAtlas.Tool.Run
/-!
# What runs do to files

A run changes files for its documents alone, and all of these belong below one output directory. Which
one this is turns out before anything is changed: it depends on the root and the name of the project
that a call works on.

Results:
1. `Asks.keeps`: what requests keep holds in all states of a run.
2. `ToolCall.WorksOn`: which project a call works on.
3. `ToolCall.keeps_run`: all states of a run have what the changes for its documents keep.
-/

namespace CodeAtlas

/-! ## Programs -/

namespace Program

variable {R : Type} {A : R → Type} {σ α β : Type} {serve : Service A σ}

theorem states_bind (p : Program A α) (f : α → Program A β) (s : σ) :
    states serve (p >>= f) s = states serve p s ++
      match run serve p s with
      | (.ok a, t) => states serve (f a) t
      | (.error _, _) => [] := by
  induction p generalizing s with
  | pure a => rfl
  | ask r next ih =>
    change states serve (ask r fun answer => next answer >>= f) s = _
    rw [states, states, run]
    cases hserve : serve r s with
    | mk result t =>
      cases result with
      | ok answer => exact congrArg (t :: ·) (ih answer t)
      | error crash => rfl

/-- What the requests of a run keep holds in all of its states. -/
theorem Asks.keeps {P : R → Prop} {p : Program A α} (hp : p.Asks P) {J : σ → Prop} {s : σ} (hs : J s)
    (hJ : ∀ r t, P r → t ∈ s :: states serve p s → J t → J (serve r t).2) {t : σ}
    (ht : t ∈ states serve p s) : J t := by
  induction hp generalizing s with
  | pure => cases ht
  | @ask r next first later ih =>
    have hnext := hJ r s first List.mem_cons_self hs
    rw [states] at hJ ht
    split at ht
    · next answer t' hserve =>
      rw [hserve] at hnext
      rcases List.mem_cons.mp ht with rfl | ht
      · exact hnext
      · refine ih answer hnext (fun r t hr ht => hJ r t hr ?_) ht
        rw [hserve]
        exact List.mem_cons_of_mem s ht
    · next crash t' hserve =>
      rw [hserve] at hnext
      cases List.mem_singleton.mp ht
      exact hnext

theorem Within.asks {P : R → Prop} {Q : α → Prop} {p : Program A α}
    (hp : p.Within P (fun _ _ => True) Q) : p.Asks P := by
  induction p with
  | pure => exact .pure
  | ask r next ih => exact .ask hp.1 fun answer => ih answer (hp.2 answer trivial)

/-- What a program gives is as it was judged. -/
theorem Within.result {P : R → Prop} {Q : α → Prop} {p : Program A α}
    (hp : p.Within P (fun _ _ => True) Q) {s t : σ} {a : α} (hrun : run serve p s = (.ok a, t)) :
    Q a := by
  induction p generalizing s with
  | pure b =>
    cases hrun
    exact hp
  | ask r next ih =>
    rw [run] at hrun
    split at hrun
    · next answer u _ => exact ih answer (hp.2 answer trivial) hrun
    · cases hrun

theorem Asks.within {P : R → Prop} {G : (r : R) → A r → Prop} {p : Program A α} (hp : p.Asks P) :
    p.Within P G fun _ => True := by
  induction hp with
  | pure => trivial
  | ask first _ ih => exact ⟨first, fun answer _ => ih answer⟩

end Program

/-! ## Surroundings -/

namespace Host

/-- Files are not changed. -/
abbrev KeepsFiles : Request → Prop := Request.KeepsTo fun _ => False

variable {h t : Host} {α β : Type}

theorem disk_serve {r : Request} (hr : KeepsFiles r) (h : Host) : (serve r h).2.disk = h.disk := by
  cases r with
  | client call =>
    have htakes := h.takes_call call
    rw [serve]
    generalize h.answerCall call = answer at htakes ⊢
    cases htakes with
    | failed | crashed | absent | reached => rfl
  | change c => exact hr.elim
  | hasReached m => cases m <;> rfl
  | reach m => cases m <;> rfl
  | _ => rfl

/-- A change is made or refused. -/
theorem disk_change (c : DiskChange) (h : Host) :
    c.apply h.disk = .ok (serve (.change c) h).2.disk ∨
      (serve (.change c) h).2.disk = h.disk := by
  rw [serve]
  split
  · next disk happly => exact .inl happly
  · exact .inr rfl

theorem disk_states {a : Attempt α} (ha : a.Asks KeepsFiles)
    (ht : t ∈ Program.states serve a.run h) : t.disk = h.disk :=
  Program.Asks.keeps (J := fun t => t.disk = h.disk) ha rfl
    (fun _ t hr _ hdisk => (disk_serve hr t).trans hdisk) ht

theorem disk_attempt {a : Attempt α} (ha : a.Asks KeepsFiles) : (h.attempt a).2.disk = h.disk := by
  rcases Program.run_mem_states_or_eq serve a.run h with hmem | heq
  · exact disk_states ha hmem
  · exact congrArg disk heq

/-- The states of a run are those of its first part, and of its second part if the first one
succeeds. -/
theorem mem_states_bind {a : Attempt α} {f : α → Attempt β}
    (ht : t ∈ Program.states serve (a >>= f).run h) : t ∈ Program.states serve a.run h ∨
      ∃ r g, h.attempt a = (.ok (.ok r), g) ∧ t ∈ Program.states serve (f r).run g := by
  change t ∈ Program.states serve (a.run >>= ExceptT.bindCont f : Plan (Except Failure β)) h at ht
  rw [Program.states_bind] at ht
  refine (List.mem_append.mp ht).imp_right fun ht => ?_
  split at ht
  · next result g hrun =>
    cases result with
    | ok r => exact ⟨r, g, hrun, ht⟩
    | error e => cases ht
  · cases ht

theorem states_subset {a : Attempt α} {f : α → Attempt β} {r : α} {g : Host}
    (ha : h.attempt a = (.ok (.ok r), g)) (ht : t ∈ g :: Program.states serve (f r).run g) :
    t ∈ h :: Program.states serve (a >>= f).run h := by
  change t ∈ h :: Program.states serve (a.run >>= ExceptT.bindCont f : Plan (Except Failure β)) h
  rw [Program.states_bind, show Program.run serve a.run h = (.ok (.ok r), g) from ha]
  rcases List.mem_cons.mp ht with rfl | ht
  · rcases Program.run_mem_states_or_eq serve a.run h with hmem | heq
    · rw [show Program.run serve a.run h = (.ok (.ok r), t) from ha] at hmem
      exact List.mem_cons_of_mem h (List.mem_append_left _ hmem)
    · rw [show Program.run serve a.run h = (.ok (.ok r), t) from ha] at heq
      exact heq ▸ List.mem_cons_self
  · exact List.mem_cons_of_mem h (List.mem_append_right _ ht)

/-- What holds of the files before a run that changes none at first holds in all of its states, if the
changes keep it that what comes first allows. -/
theorem keeps_states_bind {a : Attempt α} {f : α → Attempt β} {P : DiskChange → Prop}
    (ha : a.Asks KeepsFiles) {J : FileSystem → Prop} (hh : J h.disk)
    (hf : ∀ r g, h.attempt a = (.ok (.ok r), g) → (f r).Asks (Request.KeepsTo P))
    (hJ : ∀ c t fs, P c → t ∈ h :: Program.states serve (a >>= f).run h → J t.disk →
      c.apply t.disk = .ok fs → J fs)
    (ht : t ∈ Program.states serve (a >>= f).run h) : J t.disk := by
  rcases mem_states_bind ht with ht | ⟨r, g, hrun, ht⟩
  · rwa [disk_states ha ht]
  · have hdisk : g.disk = h.disk := by
      have := disk_attempt ha (h := h)
      rwa [hrun] at this
    refine Program.Asks.keeps (J := fun t => J t.disk) (hf r g hrun) (by rwa [hdisk])
      (fun req t hreq ht hJt => ?_) ht
    cases req with
    | change c =>
      rcases disk_change c t with happly | hsame
      · exact hJ c t _ hreq (states_subset hrun ht) hJt happly
      · rwa [hsame]
    | _ => rwa [disk_serve (by trivial)]

end Host

/-! ## Which files are changed -/

namespace SymbolStore

variable (s : SymbolStore)

theorem keepsFiles_embedQuery (query : String) :
    Program.Asks Host.KeepsFiles (s.embedQuery query) := by
  rw [embedQuery]
  split
  · exact .pure
  · exact Program.asks_bind (Program.asks_perform trivial) fun _ => .pure

theorem keepsFiles_deleteProject (id : Uuid) : (s.deleteProject id).Asks Host.KeepsFiles := by
  refine asks_bind ((s.reading_loadProject id).harmless.mono fun _ =>
    Request.IsHarmless.keepsTo) fun found => ?_
  split
  · exact asks_pure _
  · exact asks_bind (asks_call s _ trivial fun _ => trivial) fun _ => asks_pure _

end SymbolStore

namespace Indexer

variable (x : Indexer) {P : Request → Prop}

theorem keepsFiles_knownProject (id : Uuid) : (x.knownProject id).Asks Host.KeepsFiles :=
  (x.reading_knownProject id).harmless.mono fun _ => Request.IsHarmless.keepsTo

/-- The project of a root is named for its directory. -/
theorem within_beginProject (root : String) (patterns : List String) :
    (x.beginProject root patterns).run.Within Host.KeepsFiles (fun _ _ => True)
      fun result => ∀ p, result = .ok p → p.name = projectName root := by
  refine SymbolStore.within_lift_bind (Q := fun _ => True) ⟨trivial, fun _ _ => trivial⟩ fun id _ => ?_
  refine Program.within_bind (Program.Asks.within ((x.store.reading_findByRoot root).harmless.mono
    fun _ => Request.IsHarmless.keepsTo)) fun found _ => ?_
  cases found with
  | error e => exact fun _ h => by cases h
  | ok found =>
    cases found with
    | none =>
      intro p hp
      cases hp
      rfl
    | some old =>
      refine Program.within_bind (Program.Asks.within (x.store.keepsFiles_deleteProject old.id))
        fun deleted _ => ?_
      cases deleted with
      | error e => exact fun _ h => by cases h
      | ok deleted =>
        intro p hp
        cases hp
        rfl

/-- Once the root is known, indexing changes files for the documents of its project. -/
theorem indexProject_eq (path : String) (patterns : List String) :
    ∃ rest : String → Attempt IndexOutcome, x.indexProject path patterns =
      x.validateRoot path >>= rest ∧ ∀ root, (rest root).Asks (Request.KeepsTo
        (DiskChange.IsOutput True (x.config.outputDirFor root (projectName root)))) := by
  refine ⟨_, rfl, fun root => Program.Within.asks (Q := fun _ => True) ?_⟩
  refine SymbolStore.within_lift_bind (Q := fun _ => True) ⟨trivial, fun _ _ => trivial⟩
    fun _ _ => ?_
  refine Program.within_bind ((x.within_beginProject root patterns).mono
    (fun _ => Request.KeepsTo.mono fun _ h => h.elim) fun _ h => h) fun result hname => ?_
  cases result with
  | error e => trivial
  | ok project =>
    rw [← hname project rfl]
    have hstore : ∀ p, (x.store.storeProject p).Asks (Request.KeepsTo
        (DiskChange.IsOutput True (x.config.outputDirFor root project.name))) :=
      fun p => (x.store.asks_storeProject p).mono fun _ => Request.IsPlain.keepsTo
    have hnow : ∀ allowed, Program.Asks (Request.KeepsTo allowed) (ask .now) :=
      fun _ => Program.asks_perform trivial
    refine Program.Asks.within ?_
    exact asks_bind (hstore _) fun _ =>
      asks_bind (asks_report (fun _ => trivial) _) fun _ =>
      asks_bind (x.asks_scanRoot (fun _ => trivial) root patterns) fun _ =>
      asks_bind (asks_parseFiles (fun _ => trivial) _ _ _) fun _ =>
      asks_bind (asks_report (fun _ => trivial) _) fun _ =>
      asks_bind (asks_report (fun _ => trivial) _) fun _ =>
      asks_bind ((x.asks_storeOrMark _ _).mono fun _ => Request.IsPlain.keepsTo) fun _ =>
      asks_bind (asks_lift (hnow _)) fun _ => asks_bind (hstore _) fun _ =>
      asks_bind (asks_report (fun _ => trivial) _) fun _ =>
      asks_bind (asks_writeAll (fun _ h => h) _ _) fun _ =>
      asks_bind (asks_report (fun _ => trivial) _) fun _ => asks_pure _

/-- Once the project is known, an update changes files for its documents. -/
theorem updateProject_eq (id : Uuid) (force : Bool) :
    ∃ rest : Project × String → Attempt UpdateOutcome, x.updateProject id force =
      x.knownProject id >>= rest ∧ ∀ r, (rest r).Asks (Request.KeepsTo
        (DiskChange.IsOutput False (x.config.outputDirFor r.2 r.1.name))) := by
  refine ⟨_, rfl, fun r => ?_⟩
  have hreading : ∀ {α : Type} {a : Attempt α}, a.IsReading → a.Asks (Request.KeepsTo
      (DiskChange.IsOutput False (x.config.outputDirFor r.2 r.1.name))) :=
    fun ha => ha.harmless.mono fun _ => Request.IsHarmless.keepsTo
  have hnow : ∀ allowed, Program.Asks (Request.KeepsTo allowed) (ask .now) :=
    fun _ => Program.asks_perform trivial
  exact asks_bind (hreading (reading_report _)) fun _ =>
    asks_bind (hreading (x.store.reading_loadFiles id)) fun _ =>
    asks_bind (hreading (reading_report _)) fun _ => asks_bind (hreading (reading_report _)) fun _ =>
    asks_bind (x.asks_scanRoot (fun _ => trivial) _ _) fun _ =>
    asks_bind (asks_changes (fun _ => trivial) force _ _) fun _ =>
    asks_bind ((x.asks_purge _ _).mono fun _ => Request.IsPlain.keepsTo) fun _ =>
    asks_bind (asks_parseFiles (fun _ => trivial) _ _ _) fun _ =>
    asks_bind ((x.asks_storeOrMark _ _).mono fun _ => Request.IsPlain.keepsTo) fun _ =>
    asks_bind (asks_lift (hnow _)) fun _ =>
    asks_bind ((x.store.asks_storeProject _).mono fun _ => Request.IsPlain.keepsTo) fun _ =>
    asks_bind (hreading (reading_report _)) fun _ =>
    asks_bind (Output.asks_writeProject (fun _ h => h) _) fun _ =>
    asks_bind (Output.asks_writeStructure (fun _ h => h) _) fun _ =>
    asks_bind (Output.asks_writeFiles (fun _ h => h) _) fun _ =>
    asks_bind (asks_removeDocuments (fun _ h => h) _) fun _ =>
    asks_bind (hreading (reading_report _)) fun _ => asks_pure _

/-- The surroundings do not change by looking for the place of a root. -/
theorem attempt_validateRoot (h : Host) (path : String) : h.attempt (x.validateRoot path) =
    (.ok (AllowedRoots.validate h.disk x.config.allowedRoots path), h) := rfl

end Indexer

/-! ## Runs -/

namespace ToolCall

/-- The root and the name of the project that a call works on in some surroundings. -/
def WorksOn (x : Indexer) (h : Host) : ToolCall → String → String → Prop
  | index path _, root, name =>
    AllowedRoots.validate h.disk x.config.allowedRoots path = .ok root ∧
      name = Indexer.projectName root
  | update id _, root, name =>
    ∃ p g, h.attempt (x.knownProject id) = (.ok (.ok (p, root)), g) ∧ name = p.name
  | _, _, _ => False

/-- The changes that a call may make for the documents about its project. -/
def Writes (x : Indexer) (h : Host) (call : ToolCall) (c : DiskChange) : Prop :=
  ∃ root name, call.WorksOn x h root name ∧
    c.IsOutput call.IsIndex (x.config.outputDirFor root name)

variable {x : Indexer} {h t : Host} {call : ToolCall}

/-- What holds of the files before a run holds in all of its states, if the changes for its documents
keep it. -/
theorem keeps_run {J : FileSystem → Prop} (hh : J h.disk)
    (hJ : ∀ c t fs, call.Writes x h c → t ∈ h :: Program.states Host.serve (call.run x).run h →
      J t.disk → c.apply t.disk = .ok fs → J fs)
    (ht : t ∈ Program.states Host.serve (call.run x).run h) : J t.disk := by
  -- of the calls only two write documents, and those below the root that they work on
  have hquiet : (call.run x).Asks Host.KeepsFiles → J t.disk := fun hcall => by
    rwa [Host.disk_states hcall ht]
  cases call with
  | index path patterns =>
    obtain ⟨rest, heq, hrest⟩ := x.indexProject_eq path patterns
    rw [run, heq, bind_assoc] at ht hJ
    refine Host.keeps_states_bind (x.asks_validateRoot (fun _ => trivial) path) hh
      (P := Writes x h (index path patterns)) (fun root g hrun => ?_) hJ ht
    rw [x.attempt_validateRoot] at hrun
    refine asks_bind ((hrest root).mono fun _ => Request.KeepsTo.mono fun c hc => ?_)
      fun _ => asks_pure _
    exact ⟨root, _, ⟨Except.ok.inj (congrArg Prod.fst hrun), rfl⟩, hc⟩
  | update id force =>
    obtain ⟨rest, heq, hrest⟩ := x.updateProject_eq id force
    rw [run, heq, bind_assoc] at ht hJ
    refine Host.keeps_states_bind (x.keepsFiles_knownProject id) hh
      (P := Writes x h (update id force)) (fun r g hrun => ?_) hJ ht
    refine asks_bind ((hrest r).mono fun _ => Request.KeepsTo.mono fun c hc => ?_)
      fun _ => asks_pure _
    exact ⟨r.2, _, ⟨r.1, g, hrun, rfl⟩, hc⟩
  | search query project limit =>
    refine hquiet (asks_bind (asks_lift ?_) fun _ => asks_pure _)
    exact Program.asks_bind (x.store.keepsFiles_embedQuery query) fun vector =>
      Program.asks_bind (Program.asks_perform trivial) fun hits => by cases hits <;> exact .pure
  | list =>
    refine hquiet (asks_bind (asks_lift ?_) fun _ => asks_pure _)
    refine Program.asks_bind ((x.store.reading_loadProjects).harmless.mono fun _ =>
      Request.IsHarmless.keepsTo) fun result => ?_
    cases result <;> exact .pure
  | delete id =>
    refine hquiet (asks_bind (x.store.keepsFiles_deleteProject id) fun deleted => ?_)
    split
    · exact asks_pure _
    · exact asks_throw _

end ToolCall

end CodeAtlas
