import CodeAtlas.Proofs.Updating
import CodeAtlas.Tool.Run
/-!
# Histories

A history is a sequence of calls of tools, one after another, on one collection that has no points
at the beginning. Between the calls anything else may change: the files, the time, and the faults
that wait. What is known of a history is a scene that the surroundings look like, and a call leads
from such surroundings to others, at each request.

Results:
1. `tries_run`: no call leads away from scenes.
2. `History.at_scene`: the surroundings of a history look like a scene.
3. `At.keeps_run`, `At.result`: so do those after each request of a further run, and what a run gives
   is as it was judged.
-/

namespace CodeAtlas

namespace ToolCall

/-- Whether a project is indexed as a whole. -/
def IsIndex : ToolCall → Prop
  | index _ _ => True
  | _ => False

end ToolCall

/-! ## Calls of tools -/

section

variable {c : Regime} {v : Scene} {x : Indexer}

theorem SymbolStore.spec_embedQuery {s : SymbolStore} (query : String) :
    c.Spec v (s.embedQuery query) fun _ v' => v' = v := by
  rw [embedQuery]
  split
  · exact spec_pure rfl
  · refine spec_bind spec_embed fun _ v' hv => ?_
    exact spec_pure hv

/-- A search reads, and what goes wrong is no failure. -/
theorem SymbolStore.spec_search {s : SymbolStore} (query : String) (project : Option Uuid)
    (limit : Nat) : c.Spec v (s.search query project limit) fun _ v' => v' = v := by
  refine spec_bind (spec_embedQuery query) fun vector v' hv => ?_
  subst hv
  have hclient : c.Spec v' (ask (.client (.search s.collection vector (searchFilter project) limit)))
      fun _ v'' => v'' = v' := by
    refine spec_client _ (fun _ _ => rfl) (fun _ h => h.elim) fun hsound cs hcs => ?_
    exact ⟨v', .refl hsound hcs, rfl⟩
  refine spec_bind hclient fun result v'' hv => ?_
  cases result with
  | ok hits => exact spec_pure hv
  | error e => exact spec_pure hv

theorem SymbolStore.spec_listProjects {s : SymbolStore} (hs : s.collection = c.collection) :
    c.Spec v s.listProjects fun _ v' => v' = v := by
  refine spec_bind (tries_loadProjects hs) fun result v' h => ?_
  cases result with
  | ok found => exact spec_pure h.1
  | error e => exact spec_pure h

/-- No call leads away from scenes. -/
theorem ToolCall.tries_run (hs : x.store.collection = c.collection) (hfs : v.disk.WellNamed)
    (hknown : ∀ path bytes, v.disk.read path = .ok bytes → c.known bytes) (call : ToolCall)
    (hindex : call.IsIndex → c.orderly → c.honest) :
    c.Tries v (call.run x) (fun _ _ => True) fun _ _ => True := by
  cases call with
  | index path patterns =>
    exact tries_bind (tries_mono_err (Indexer.tries_indexProject hs (hindex trivial) hfs hknown path
      patterns) fun _ _ _ => trivial) fun _ _ _ => tries_pure trivial
  | update id force =>
    exact tries_bind (tries_mono_err (Indexer.tries_updateProject hs hfs hknown id force)
      fun _ _ _ => trivial) fun _ _ _ => tries_pure trivial
  | search query project limit =>
    exact tries_bind (tries_lift (SymbolStore.spec_search query project limit))
      fun _ _ _ => tries_pure trivial
  | list =>
    exact tries_bind (tries_lift (SymbolStore.spec_listProjects hs)) fun _ _ _ => tries_pure trivial
  | delete id =>
    refine tries_bind (tries_mono_err (SymbolStore.tries_deleteProject hs id)
      fun _ _ _ => trivial) fun deleted v' _ => ?_
    split
    · exact tries_pure trivial
    · exact tries_throw trivial

end

/-! ## Ids -/

namespace Host

/-- Ids that were given out stay given out. -/
theorem nextId_le_serve (r : Request) (h : Host) : h.nextId ≤ (serve r h).2.nextId := by
  cases r with
  | client call => exact Nat.le_of_eq (h.after_answerCall call).2.1.symm
  | freshId => exact Nat.le_succ _
  | change change =>
    simp only [serve]
    split <;> exact Nat.le_refl _
  | hasReached m => cases m <;> exact Nat.le_refl _
  | reach m => cases m <;> exact Nat.le_refl _
  | _ => exact Nat.le_refl _

theorem supplied_before (r : Request) (h : Host) (hs : (serve r h).2.nextId ≤ Uuid.supply) :
    h.nextId ≤ Uuid.supply :=
  Nat.le_trans (nextId_le_serve r h) hs

theorem supplied_before_attempt {α : Type} {a : Attempt α} {h : Host}
    (hs : (h.attempt a).2.nextId ≤ Uuid.supply) : h.nextId ≤ Uuid.supply :=
  @Program.rely_of_run _ _ _ _ serve (·.nextId ≤ Uuid.supply) supplied_before a.run h hs

/-- Where a run ends with ids left, there were some left at its beginning. -/
theorem supplied_before_run {α : Type} {p : Plan α} {h g : Host} {r : Except Crash α}
    (hrun : Program.run serve p h = (r, g)) (hs : g.nextId ≤ Uuid.supply) :
    h.nextId ≤ Uuid.supply := by
  refine @Program.rely_of_run _ _ _ _ serve (·.nextId ≤ Uuid.supply) supplied_before p h ?_
  rwa [hrun]

end Host

/-! ## Runs -/

namespace Regime.At

variable {c : Regime} {v : Scene} {h h' : Host} {α : Type} {a : Attempt α}
  {ok : α → Scene → Prop} {err : Failure → Scene → Prop}

/-- Surroundings that are honest look like scenes of a regime that takes this for granted. -/
theorem of_honest (hat : c.At v h) {honest : Prop} (hh : honest → h.Honest) :
    Regime.At { c with honest } v h :=
  { hat with honest := hh, sound := { hat.sound with } }

/-- After each request of a run the surroundings look like a scene. -/
theorem keeps_run (hat : c.At v h) (ha : c.Tries v a ok err)
    (hmem : h' ∈ Program.states Host.serve a.run h) (hs : h'.nextId ≤ Uuid.supply) :
    ∃ v', c.At v' h' :=
  (ha h hat).keeps Host.supplied_before hmem hs

/-- After a run the surroundings look like a scene. -/
theorem kept_run (hat : c.At v h) (ha : c.Tries v a ok err)
    (hs : (h.attempt a).2.nextId ≤ Uuid.supply) : ∃ v', c.At v' (h.attempt a).2 :=
  (ha h hat).kept Host.supplied_before ⟨v, hat⟩ hs

/-- What a run gives is as it was judged. -/
theorem result (hat : c.At v h) (ha : c.Tries v a ok err) {r : α}
    (hrun : h.attempt a = (.ok (.ok r), h')) (hs : h'.nextId ≤ Uuid.supply) :
    ∃ v', c.At v' h' ∧ ok r v' :=
  (ha h hat).result Host.supplied_before hrun hs

end Regime.At

/-! ## Histories -/

namespace Host

/-- The points of a collection: their ids and payloads. -/
def points (h : Host) (collection : String) : List (String × Payload) :=
  ((Keyed.get? collection h.store.toMemory.collections).map Collection.entries).getD []

/-- A store in memory stays in memory. -/
theorem memory_serve (r : Request) (h : Host) (hs : ∃ s, h.store = .memory s) :
    ∃ s, (serve r h).2.store = .memory s := by
  obtain ⟨s, hs⟩ := hs
  cases r with
  | client call =>
    have htakes := h.takes_call call
    rw [serve]
    generalize h.answerCall call = answer at htakes ⊢
    cases htakes with
    | failed | crashed | absent => exact ⟨s, hs⟩
    | reached => exact ⟨_, by rw [answerCall.go, show (h.noted call).store = _ from hs]; rfl⟩
  | change change =>
    simp only [serve]
    split <;> exact ⟨s, hs⟩
  | hasReached m => cases m <;> exact ⟨s, hs⟩
  | reach m => cases m <;> exact ⟨s, hs⟩
  | _ => exact ⟨s, hs⟩

theorem memory_attempt {α : Type} (a : Attempt α) {h : Host} (hs : ∃ s, h.store = .memory s) :
    ∃ s, (h.attempt a).2.store = .memory s :=
  Program.run_keeps memory_serve a.run hs

/-- What a run gives, if it succeeds. -/
def result? {α : Type} (h : Host) (a : Attempt α) : Option α :=
  match (h.attempt a).1 with
  | .ok (.ok r) => some r
  | _ => none

theorem attempt_of_result? {α : Type} {h : Host} {a : Attempt α} {r : α}
    (hr : h.result? a = some r) : h.attempt a = (.ok (.ok r), (h.attempt a).2) := by
  rw [result?] at hr
  split at hr
  · next r' heq =>
    cases hr
    rw [← heq]
  · cases hr

/-- How a run fails, if it does. -/
def failure? {α : Type} (h : Host) (a : Attempt α) : Option Failure :=
  match (h.attempt a).1 with
  | .ok (.error e) => some e
  | _ => none

theorem attempt_of_failure? {α : Type} {h : Host} {a : Attempt α} {e : Failure}
    (he : h.failure? a = some e) : h.attempt a = (.ok (.error e), (h.attempt a).2) := by
  rw [failure?] at he
  split at he
  · next e' heq =>
    cases he
    rw [← heq]
  · cases he

/-- Where a run ends that has given an id out is after one of its requests. -/
theorem attempt_mem_states {α : Type} {a : Attempt α} {h : Host}
    (hfresh : h.nextId < (h.attempt a).2.nextId) :
    (h.attempt a).2 ∈ Program.states serve a.run h :=
  (Program.run_mem_states_or_eq serve a.run h).resolve_right fun heq =>
    absurd (congrArg nextId heq) (Nat.ne_of_gt hfresh)

/-- Other surroundings with the same points, in which no id is given out again. -/
structure Drifts (h h' : Host) : Prop where
  store : ∃ s s', h.store = .memory s ∧ h'.store = .memory s' ∧ s'.collections = s.collections
  nextId : h.nextId ≤ h'.nextId

end Host

/-- Surroundings to which calls of tools have led on a collection that had no points. The calls were
made in surroundings that were fit for them. -/
inductive History (collection : String) (fit : ToolCall → Host → Prop) : Host → Prop
  | start {h : Host} (hstore : ∃ s, h.store = .memory s) (hpoints : h.points collection = []) :
    History collection fit h
  | run {h : Host} {x : Indexer} {call : ToolCall} (before : History collection fit h)
    (hs : x.store.collection = collection) (hfit : fit call h) :
    History collection fit (h.attempt (call.run x)).2
  | drift {h h' : Host} (before : History collection fit h) (hdrift : h.Drifts h') :
    History collection fit h'

section

variable {c : Regime}

/-- The points of surroundings that look like a scene are those that its index stands for. -/
theorem Regime.At.points_perm {v : Scene} {h : Host} (hat : c.At v h) :
    (h.points c.collection).Perm v.index.contents := by
  obtain ⟨s, hs, hdescribes⟩ := hat.store
  rw [Host.points, hs, VectorStore.toMemory]
  cases hcol : Keyed.get? c.collection s.collections with
  | none =>
    rw [hcol] at hdescribes
    rw [show v.index = {} from hdescribes.1]
    exact .refl _
  | some col =>
    rw [hcol] at hdescribes
    exact hdescribes.1.2

theorem at_of_no_points {h : Host} (hstore : ∃ s, h.store = .memory s)
    (hpoints : h.points c.collection = []) (hh : c.honest → h.Honest) :
    c.At ⟨{}, [], h.disk, h.changes, []⟩ h := by
  obtain ⟨s, hs⟩ := hstore
  refine ⟨⟨fun _ => .empty, nofun, nofun, .nil, nofun⟩, ⟨s, hs, ?_, nofun⟩, hh, rfl, rfl, ?_⟩
  · rw [Host.points, hs, VectorStore.toMemory] at hpoints
    cases hcol : Keyed.get? c.collection s.collections with
    | none => rfl
    | some col =>
      rw [hcol] at hpoints
      have hnone : col.points = [] := List.map_eq_nil_iff.mp hpoints
      refine ⟨⟨?_, ?_⟩, ?_⟩
      · rw [hnone]
        exact .nil
      · rw [hnone]
        exact nofun
      · rw [Collection.entries, hnone]
        exact .refl _
  · rintro t (ht | ⟨e, he, _⟩)
    · cases ht
    · cases he

/-- What a scene is about does not drift. -/
theorem Regime.At.drift {v : Scene} {h h' : Host} (hat : c.At v h) (hdrift : h.Drifts h')
    (hh : c.honest → h'.Honest) :
    c.At { v with disk := h'.disk, changes := h'.changes } h' := by
  obtain ⟨s, s', hs, hs', hsame⟩ := hdrift.store
  obtain ⟨t, ht, hdescribes⟩ := hat.store
  have hst : t = s := by
    rw [ht] at hs
    cases hs
    rfl
  refine ⟨{ hat.sound with }, ⟨s', hs', ?_⟩, hh, rfl, rfl, fun t ht => ?_⟩
  · rw [hsame, ← hst]
    exact hdescribes
  · obtain ⟨n, hn, heq⟩ := hat.issued t ht
    exact ⟨n, Nat.lt_of_lt_of_le hn hdrift.nextId, heq⟩

/-- The surroundings are fit for a call: all names of files are names, what may be read is known,
and if indexes are to be orderly, no reading of a call that indexes a project fails as if there were
no collection. -/
structure Regime.Fits (c : Regime) (call : ToolCall) (h : Host) : Prop where
  named : h.disk.WellNamed
  known : ∀ path bytes, h.disk.read path = .ok bytes → c.known bytes
  honest : call.IsIndex → c.orderly → h.Honest

/-- The regime in which the surroundings are taken to be as honest as they are. -/
def Regime.trusting (c : Regime) (h : Host) : Regime := { c with honest := h.Honest }

namespace Regime.At

variable {v : Scene} {h h' : Host} {x : Indexer} {call : ToolCall}

theorem trusting (hat : c.At v h) : (c.trusting h).At v h := hat.of_honest id

theorem of_trusting (hc : ¬ c.honest) (hat : (c.trusting h).At v h') : c.At v h' :=
  hat.of_honest fun hh => absurd hh hc

theorem tries_run (hat : c.At v h) (hs : x.store.collection = c.collection)
    (hfit : c.Fits call h) :
    (c.trusting h).Tries v (call.run x) (fun _ _ => True) fun _ _ => True := by
  have hnamed := hfit.named
  have hknown := hfit.known
  rw [hat.disk] at hnamed hknown
  exact ToolCall.tries_run (c := c.trusting h) hs hnamed hknown call hfit.honest

/-- No call leads away from scenes, at any of its requests. -/
theorem keeps_call (hat : c.At v h) (hc : ¬ c.honest) (hs : x.store.collection = c.collection)
    (hfit : c.Fits call h) (hmem : h' ∈ Program.states Host.serve (call.run x).run h)
    (hsupply : h'.nextId ≤ Uuid.supply) : ∃ v', c.At v' h' := by
  obtain ⟨v', hat'⟩ := hat.trusting.keeps_run (hat.tries_run hs hfit) hmem hsupply
  exact ⟨v', hat'.of_trusting hc⟩

theorem kept_call (hat : c.At v h) (hc : ¬ c.honest) (hs : x.store.collection = c.collection)
    (hfit : c.Fits call h) (hsupply : (h.attempt (call.run x)).2.nextId ≤ Uuid.supply) :
    ∃ v', c.At v' (h.attempt (call.run x)).2 := by
  obtain ⟨v', hat'⟩ := hat.trusting.kept_run (hat.tries_run hs hfit) hsupply
  exact ⟨v', hat'.of_trusting hc⟩

end Regime.At

/-- The surroundings of a history look like a scene. -/
theorem History.at_scene (hc : ¬ c.honest) {fit : ToolCall → Host → Prop}
    (hfit : ∀ call h, fit call h → c.Fits call h) {h : Host}
    (hist : History c.collection fit h) (hs : h.nextId ≤ Uuid.supply) : ∃ v, c.At v h := by
  induction hist with
  | start hstore hpoints => exact ⟨_, at_of_no_points hstore hpoints fun hh => absurd hh hc⟩
  | run before hcollection hcall ih =>
    obtain ⟨v, hat⟩ := ih (Host.supplied_before_attempt hs)
    exact hat.kept_call hc hcollection (hfit _ _ hcall) hs
  | drift before hdrift ih =>
    obtain ⟨v, hat⟩ := ih (Nat.le_trans hdrift.nextId hs)
    exact ⟨_, hat.drift hdrift fun hh => absurd hh hc⟩

end

/-! ## A small project -/

/-- A file system with one file below a directory. -/
def FileSystem.sample (text : String) : FileSystem :=
  { root := .dir [("r", .dir [("a.py", .file text.toUTF8 ⟨0, 0⟩)])] }

/-- Surroundings in which nothing is known of the file yet. -/
def Host.sample (text : String) (faults : List Fault) : Host :=
  { disk := .sample text, faults }

/-- The same surroundings later, when the file has another text and other faults wait. -/
def Host.later (h : Host) (text : String) (faults : List Fault) : Host :=
  { h with disk := .sample text, faults }

theorem Host.memory_later {h : Host} (hs : ∃ s, h.store = .memory s) (text : String)
    (faults : List Fault) : ∃ s, (h.later text faults).store = .memory s := hs

theorem Host.drifts_later {h : Host} (hs : ∃ s, h.store = .memory s) (text : String)
    (faults : List Fault) : h.Drifts (h.later text faults) where
  store := by
    obtain ⟨s, hs⟩ := hs
    exact ⟨s, s, hs, hs, rfl⟩
  nextId := Nat.le_refl _

/-- An indexer that may index everything and does nothing again. -/
def Indexer.sample : Indexer where
  config := { allowedRoots := ["/"], defaultExcludes := [] }
  store := { collection := "points", vectorSize := 0, retry := .none }

/-- Below a directory with one entry there is what is below the entry. -/
theorem DiskNode.at?_single {name : String} {child found : DiskNode} {place : List String}
    (h : (dir [(name, child)]).at? place = some found) :
    found = dir [(name, child)] ∨ ∃ rest, child.at? rest = some found := by
  cases place with
  | nil =>
    cases h
    exact .inl rfl
  | cons first rest =>
    rw [at?, Option.bind_eq_some_iff] at h
    obtain ⟨node, hnode, hrest⟩ := h
    cases List.mem_singleton.mp (Keyed.mem_of_get? hnode)
    exact .inr ⟨rest, hrest⟩

/-- What can be read are the bytes of a file at some place. -/
theorem FileSystem.at?_of_read {fs : FileSystem} {path : String} {bytes : ByteArray}
    (h : fs.read path = .ok bytes) : ∃ place modified, fs.at? place = some (.file bytes modified) := by
  unfold read find at h
  cases hresolve : fs.resolve path with
  | error e =>
    rw [hresolve] at h
    cases h
  | ok place =>
    rw [hresolve] at h
    cases hat : fs.at? place with
    | none =>
      simp only [bind, Except.bind, hat] at h
      cases h
    | some node =>
      simp only [bind, Except.bind, hat] at h
      cases node with
      | file content modified =>
        cases h
        exact ⟨place, modified, hat⟩
      | link target => cases h
      | dir es => cases h

/-- What can be read is the text of the file. -/
theorem FileSystem.read_sample {text path : String} {bytes : ByteArray}
    (h : (sample text).read path = .ok bytes) : bytes = text.toUTF8 := by
  obtain ⟨place, modified, hat⟩ := at?_of_read h
  rcases DiskNode.at?_single hat with hdir | ⟨rest, hat⟩
  · cases hdir
  · rcases DiskNode.at?_single hat with hdir | ⟨rest, hat⟩
    · cases hdir
    · cases rest with
      | nil =>
        cases hat
        rfl
      | cons first rest => cases hat

theorem FileSystem.wellNamed_sample (text : String) : (sample text).WellNamed := by
  have hdir : IsName "r" := by decide
  have hfile : IsName "a.py" := by decide
  exact ⟨List.pairwise_singleton _ _, hdir, ⟨List.pairwise_singleton _ _, hfile, trivial, trivial⟩,
    trivial⟩

end CodeAtlas
