import CodeAtlas.Proofs.Changes
import CodeAtlas.Proofs.Repeating
import CodeAtlas.SymbolStore.Files
/-!
# What the operations of a store do to scenes

Each operation has one judgement. A failure leaves the scene as it was, except that writing files
may stop after any batch.

Results:
1. `tries_call`: repeating a call does not change what it may lead to.
2. `tries_storeProject`, `tries_deleteProject`, `tries_storeFiles`, `tries_deleteFiles`: writing.
3. `tries_scrollAll`, `tries_loadProject`, `tries_findByRoot`, `tries_loadFiles`: reading.
-/

namespace CodeAtlas

/-- An attempt that leaves the scene as it is, whatever comes of it. -/
def Regime.Leaves {α : Type} (c : Regime) (v : Scene) (a : Attempt α) : Prop :=
  c.Tries v a (fun _ v' => v' = v) fun _ v' => v' = v

namespace Collections

/-- Putting a collection in its place. -/
theorem get?_changing (cs : Collections) (collection : String)
    (f : Collection → Except Failure Collection) :
    (Keyed.get? collection cs = none ∧
        cs.changing collection f = (.error (missing collection), cs)) ∨
      ∃ col, Keyed.get? collection cs = some col ∧
        ((∃ col', f col = .ok col' ∧ (cs.changing collection f).1 = .ok () ∧
            Keyed.get? collection (cs.changing collection f).2 = some col') ∨
          ∃ e, f col = .error e ∧ cs.changing collection f = (.error e, cs)) := by
  cases hcol : Keyed.get? collection cs with
  | none => exact .inl ⟨rfl, by simp [changing, require, hcol, Except.bind]⟩
  | some col =>
    refine .inr ⟨col, rfl, ?_⟩
    cases hf : f col with
    | ok col' =>
      refine .inl ⟨col', rfl, ?_, ?_⟩
      · simp [changing, require, hcol, Except.bind, hf]
      · simp [changing, require, hcol, Except.bind, hf, Keyed.get?_insert]
    | error e => exact .inr ⟨e, rfl, by simp [changing, require, hcol, Except.bind, hf]⟩

end Collections

namespace SymbolStore

variable {c : Regime} {v : Scene} {s : SymbolStore}

/-! ## Calls -/

theorem spec_attempts {call : ClientCall} {ok : call.Answer → Scene → Prop} {err : Failure → Prop}
    (h : c.Spec v (ask (.client call)) (Regime.onResult ok fun e v' => v' = v ∧ err e))
    (policy : RetryPolicy) (left attempt : Nat) :
    c.Spec v (policy.attempts (fun nanos => ask (.pause nanos)) (ask (.client call)) left attempt)
      (Regime.onResult ok fun e v' => v' = v ∧ err e) := by
  induction left generalizing attempt with
  | zero => exact h
  | succ left ih =>
    rw [RetryPolicy.attempts]
    refine spec_bind h fun r v' hr => ?_
    cases r with
    | ok a => exact spec_pure hr
    | error e =>
      obtain ⟨rfl, he⟩ := hr
      dsimp only
      split
      · refine spec_bind_at spec_pause fun _ => ?_
        exact ih (attempt + 1)
      · exact spec_pure ⟨rfl, he⟩

/-- Repeating a call does not change what it may lead to. -/
theorem tries_call {call : ClientCall} (ok : call.Answer → Scene → Prop) (err : Failure → Prop)
    (hfail : ∀ e, c.Allows call.operation e → err e)
    (habsent : ∀ result, SeemsAbsent call result →
      Regime.onResult ok (fun e v' => v' = v ∧ err e) result v)
    (hserve : v.Sound c → ∀ cs : Collections, v.Describes (Keyed.get? c.collection cs) →
      ∃ v', v.Becomes c (Keyed.get? c.collection (cs.answer call).2) v' ∧
        Regime.onResult ok (fun e v' => v' = v ∧ err e) (cs.answer call).1 v') :
    c.Tries v (s.call call) ok fun e v' => v' = v ∧ err e :=
  spec_attempts (spec_client _ (fun e he => ⟨rfl, hfail e he⟩) habsent hserve) s.retry _ _

/-- Calls that only read. -/
theorem tries_read {call : ClientCall} (ok : call.Answer → Scene → Prop) (err : Failure → Prop)
    (hfail : ∀ e, c.Allows call.operation e → err e)
    (habsent : ∀ result, SeemsAbsent call result →
      Regime.onResult ok (fun e v' => v' = v ∧ err e) result v)
    (hread : ∀ cs : Collections, (cs.answer call).2 = cs)
    (hserve : ∀ cs : Collections, v.index.Describes (Keyed.get? c.collection cs) →
      Regime.onResult ok (fun e v' => v' = v ∧ err e) (cs.answer call).1 v) :
    c.Tries v (s.call call) ok fun e v' => v' = v ∧ err e := by
  refine tries_call ok err hfail habsent fun hsound cs hcs => ?_
  refine ⟨v, ?_, hserve cs hcs.1⟩
  rw [hread]
  exact .refl hsound hcs

/-- What a change of the collection means for the scene. -/
theorem scene_of_changing {f : Collection → Except Failure Collection} {v' : Scene}
    (hchange : ∀ col col', f col = .ok col' → v.Describes (some col) → v.Becomes c (some col') v')
    (hsound : v.Sound c) (cs : Collections) (hcs : v.Describes (Keyed.get? c.collection cs)) :
    ∃ w, v.Becomes c (Keyed.get? c.collection (cs.changing c.collection f).2) w ∧
      Regime.onResult (fun _ w => w = v') (fun _ w => w = v ∧ True)
        (cs.changing c.collection f).1 w := by
  have unchanged : ∀ e, cs.changing c.collection f = (.error e, cs) →
      ∃ w, v.Becomes c (Keyed.get? c.collection (cs.changing c.collection f).2) w ∧
        Regime.onResult (fun _ w => w = v') (fun _ w => w = v ∧ True)
          (cs.changing c.collection f).1 w := by
    intro e he
    rw [he]
    exact ⟨v, .refl hsound hcs, rfl, trivial⟩
  rcases Collections.get?_changing cs c.collection f with
    ⟨_, he⟩ | ⟨col, hcol, ⟨col', hf, hresult, hget⟩ | ⟨e, _, he⟩⟩
  · exact unchanged _ he
  · rw [hcol] at hcs
    rw [hget, hresult]
    exact ⟨v', hchange col col' hf hcs, rfl⟩
  · exact unchanged e he

theorem tries_upsert {points : List Point} (v' : Scene) (hs : s.collection = c.collection)
    (hchange : v.Sound c → ∀ col, v.Describes (some col) →
      v.Becomes c (some (col.upsert points)) v') :
    c.Tries v (s.call (.upsert s.collection points)) (fun _ v'' => v'' = v')
      fun _ v'' => v'' = v := by
  refine tries_mono_err (tries_call (fun _ v'' => v'' = v') (fun _ => True)
    (fun _ _ => trivial) (fun _ h => h.elim) fun hsound cs hcs => ?_) fun _ _ h => h.1
  rw [hs]
  refine scene_of_changing (fun col col' hf hcol => ?_) hsound cs hcs
  obtain ⟨_, rfl⟩ := Collections.upsert_eq_ok hf
  exact hchange hsound col hcol

theorem tries_delete {filter : Filter} (v' : Scene) (hs : s.collection = c.collection)
    (hfilter : filter.isEmpty = false)
    (hchange : v.Sound c → ∀ col, v.Describes (some col) →
      v.Becomes c (some (col.delete filter)) v') :
    c.Tries v (s.call (.delete s.collection filter)) (fun _ v'' => v'' = v')
      fun _ v'' => v'' = v := by
  refine tries_mono_err (tries_call (fun _ v'' => v'' = v') (fun _ => True)
    (fun _ _ => trivial) (fun _ h => h.elim) fun hsound cs hcs => ?_) fun _ _ h => h.1
  rw [hs]
  have hanswer : cs.answer (.delete c.collection filter) =
      cs.changing c.collection fun col => .ok (col.delete filter) := by
    rw [Collections.answer, hfilter]
    rfl
  rw [hanswer]
  refine scene_of_changing (fun col col' hf hcol => ?_) hsound cs hcs
  cases hf
  exact hchange hsound col hcol

/-! ## Guards -/

/-- Writing points with other ids leaves a point as it is. -/
theorem isIn_upsert {col : Collection} {points : List Point} {g : Point} (hg : g.IsIn (some col))
    (h : g.id ∉ points.map (·.id)) : g.IsIn (some (col.upsert points)) := by
  obtain ⟨_, heq, hget⟩ := hg
  cases heq
  exact ⟨_, rfl, (col.get?_upsert h).trans hget⟩

/-- Deleting leaves the guards that the filter does not accept. -/
theorem guards_delete {col : Collection} (hv : v.Describes (some col)) {filter : Filter} :
    ∀ g ∈ v.guards.filter (fun g => !filter.accepts g.payload), g.IsIn (some (col.delete filter)) := by
  intro g hg
  obtain ⟨hg, hnot⟩ := List.mem_filter.mp hg
  obtain ⟨_, heq, hget⟩ := hv.2 g hg
  cases heq
  exact ⟨_, rfl, Collection.get?_delete hv.1.1 hget (by simpa using hnot)⟩

/-- The ids of guards are ids of the index. -/
theorem mem_ids_of_guard {col : Collection} (hv : v.Describes (some col)) {g : Point}
    (hg : g ∈ v.guards) : g.id ∈ v.index.ids := by
  obtain ⟨_, heq, hget⟩ := hv.2 g hg
  cases heq
  exact List.mem_map.mpr ⟨g.entry, hv.1.2.mem_iff.mp (hv.1.1.get?_eq_some hget).2, rfl⟩

/-! ## Setting up -/

theorem leaves_hasCollection {name : String} :
    c.Leaves v (s.call (.hasCollection name)) := by
  refine tries_mono_err (tries_read (fun _ v' => v' = v) (fun _ => True)
    (fun _ _ => trivial) (fun result h => ?_) (fun _ => rfl) fun _ _ => rfl) fun _ _ h => h.1
  cases h
  rfl

theorem leaves_create (hs : s.collection = c.collection) :
    c.Leaves v (s.call (.create s.shape)) := by
  refine tries_mono_err (tries_call (fun _ v' => v' = v) (fun _ => True)
    (fun _ _ => trivial) (fun _ h => h.elim) fun hsound cs hcs => ?_) fun _ _ h => h.1
  refine ⟨v, ?_, ?_⟩
  · refine .refl hsound ?_
    simp only [Collections.answer, shape, hs]
    split
    · exact hcs
    · next hnone =>
      rw [Keyed.contains, Option.not_isSome_iff_eq_none] at hnone
      rw [hnone] at hcs
      rw [Keyed.get?_insert, if_pos rfl]
      refine ⟨?_, fun g hg => ?_⟩
      · rw [show v.index = {} from hcs.1]
        exact Index.describes_empty _
      · obtain ⟨_, heq, _⟩ := hcs.2 g hg
        cases heq
  · simp only [Collections.answer]
    split
    · exact ⟨rfl, trivial⟩
    · rfl

theorem leaves_createIfAbsent (hs : s.collection = c.collection) :
    c.Leaves v s.createIfAbsent := by
  refine tries_bind_at leaves_hasCollection fun there => ?_
  split
  · exact tries_pure rfl
  · refine tries_bind_at (tries_outcome (fun _ v' => v' = v) (leaves_create hs)
      fun _ _ h => h) fun created => ?_
    split
    · exact tries_pure rfl
    · refine tries_bind_at (tries_outcome (fun _ v' => v' = v) leaves_hasCollection
        fun _ _ h => h) fun result => ?_
      split
      · exact tries_pure rfl
      · exact tries_throw rfl

theorem spec_createIndexes (hs : s.collection = c.collection) (keys : List String) :
    c.Spec v (s.createIndexes keys) fun _ v' => v' = v := by
  induction keys with
  | nil => exact spec_pure rfl
  | cons key rest ih =>
    have hcreate : c.Spec v (ask (.client (.createIndex s.collection key))) fun _ v' => v' = v := by
      refine spec_mono (spec_client (Regime.onResult (fun _ v' => v' = v)
        fun _ v' => v' = v ∧ True) (fun _ _ => ⟨rfl, trivial⟩) (fun _ h => h.elim)
        fun hsound cs hcs => ?_) fun r v' h => ?_
      · rw [hs]
        refine scene_of_changing (fun col col' hf hcol => ?_) hsound cs hcs
        cases hf
        refine .refl hsound ⟨hcol.1.createIndex key, fun g hg => ?_⟩
        obtain ⟨_, heq, hget⟩ := hcol.2 g hg
        cases heq
        exact ⟨_, rfl, hget⟩
      · cases r with
        | ok _ => exact h
        | error _ => exact h.1
    refine spec_bind_at hcreate fun result => ?_
    refine spec_bind_at ih fun others => ?_
    exact spec_pure rfl

theorem leaves_ensureCollection (hs : s.collection = c.collection) :
    c.Leaves v s.ensureCollection := by
  have hindexes : c.Leaves v (do
      unless ← ask (.hasReached .indexed) do
        if ← s.createIndexes indexedKeys then ask (.reach .indexed) : Attempt Unit) := by
    refine tries_bind_at (tries_lift spec_hasReached) fun there => ?_
    split
    · exact tries_pure rfl
    · refine tries_bind_at (tries_lift (spec_createIndexes hs _)) fun all => ?_
      split
      · exact tries_lift spec_reach
      · exact tries_pure rfl
  refine tries_bind_at (tries_lift spec_hasReached) fun there => ?_
  split
  · exact hindexes
  · refine tries_bind_at (show c.Tries v _ (fun _ v' => v' = v) _ from leaves_createIfAbsent hs)
      fun _ => ?_
    refine tries_bind_at (tries_lift spec_reach) fun _ => ?_
    exact hindexes

/-! ## Reading -/

/-- Asking for one id gives the point with this id, or nothing if there is none. -/
theorem tries_retrieve (hs : s.collection = c.collection) (id : String) :
    c.Tries v (s.call (.retrieve s.collection [id]))
      (fun points v' => v' = v ∧ ((points = [] ∧ id ∉ v.index.ids) ∨
        ∃ p, points = [p] ∧ p.id = id ∧ p.entry ∈ v.index.contents))
      fun e v' => v' = v ∧ (c.honest → (∃ message, e = .notFound message) → v.index = {}) := by
  refine tries_read _ _ (fun e he hc => ?_) (fun _ h => h.elim) (fun _ => rfl) fun cs hcs => ?_
  · rintro ⟨message, rfl⟩
    exact absurd rfl (he hc (.inl rfl) message)
  · rw [hs]
    simp only [Collections.answer, Collections.reading, Collections.require]
    cases hcol : Keyed.get? c.collection cs with
    | none =>
      rw [hcol] at hcs
      exact ⟨rfl, fun _ _ => hcs⟩
    | some col =>
      rw [hcol] at hcs
      refine ⟨rfl, ?_⟩
      cases hid : Keyed.get? id col.points with
      | none =>
        refine .inl ⟨by simp [hid], fun hmem => ?_⟩
        obtain ⟨e, he, heq⟩ := List.mem_map.mp hmem
        exact hcs.1.get?_eq_none hid e (hcs.2.mem_iff.mpr he) heq
      | some p =>
        obtain ⟨hpid, hentry⟩ := hcs.1.get?_eq_some hid
        exact .inr ⟨p, by simp [hid], hpid, hcs.2.mem_iff.mp hentry⟩

/-- A page has the next of the points that a filter accepts, in the order of their ids. -/
theorem tries_scroll (hs : s.collection = c.collection) (filter : Filter) (limit : Nat)
    (start : Option Json) :
    c.Tries v (s.call (.scroll s.collection filter limit start))
      (fun page v' => v' = v ∧
        page.points.map Point.entry = (Collection.remaining filter (Collection.startId start)
          v.index.listing).take (max limit 1) ∧
        page.next = ((Collection.remaining filter (Collection.startId start)
          v.index.listing).drop (max limit 1)).head?.map fun e => .str e.1)
      fun e v' => v' = v ∧ (c.honest → (∃ message, e = .notFound message) → v.index = {}) := by
  refine tries_read _ _ (fun e he hc => ?_) (fun _ h => h.elim) (fun _ => rfl) fun cs hcs => ?_
  · rintro ⟨message, rfl⟩
    exact absurd rfl (he hc (.inr rfl) message)
  · rw [hs]
    simp only [Collections.answer, Collections.reading, Collections.require]
    cases hcol : Keyed.get? c.collection cs with
    | none =>
      rw [hcol] at hcs
      exact ⟨rfl, fun _ _ => hcs⟩
    | some col =>
      rw [hcol] at hcs
      rw [← hcs.entries_eq]
      exact ⟨rfl, Collection.scroll_points hcs.1, Collection.scroll_next hcs.1⟩

/-- The pages from one on have all points from there on. -/
theorem tries_scrollFrom (hs : s.collection = c.collection) (filter : Filter) (pages : Nat)
    (start : Option Json) :
    c.Tries v (s.scrollFrom filter pages start)
      (fun points v' => v' = v ∧ points.map Point.entry =
        Collection.remaining filter (Collection.startId start) v.index.listing)
      fun _ v' => v' = v := by
  induction pages generalizing start with
  | zero => exact tries_throw rfl
  | succ pages ih =>
    refine tries_bind (tries_mono_err (tries_scroll hs filter pageSize start)
      fun _ _ h => h.1) fun page v' hpage => ?_
    obtain ⟨rfl, hpoints, hnext⟩ := hpage
    split
    · next next hsome =>
      rw [hsome] at hnext
      refine tries_bind (ih (some next)) fun rest v'' hrest => ?_
      obtain ⟨rfl, hrest⟩ := hrest
      refine tries_pure ⟨rfl, ?_⟩
      rw [List.map_append, hpoints, hrest]
      exact Collection.take_append_remaining (Index.sorted_listing _) hnext
    · next hnone =>
      rw [hnone] at hnext
      exact tries_pure ⟨rfl, hpoints.trans (Collection.take_of_no_next hnext)⟩

/-- A missing collection reads as something: only surroundings that are not honest make it seem
missing when it has points. -/
theorem tries_orIfMissing {α : Type} {fallback : α} {a : Attempt α} {ok : α → Scene → Prop}
    (ha : c.Tries v a ok fun e v' =>
      v' = v ∧ (c.honest → (∃ message, e = .notFound message) → v.index = {})) :
    c.Tries v (orIfMissing fallback a)
      (fun x v' => ok x v' ∨ (v' = v ∧ x = fallback ∧ (c.honest → v.index = {})))
      fun _ v' => v' = v := by
  refine tries_bind (tries_outcome (Regime.onResult ok fun e v' =>
    v' = v ∧ (c.honest → (∃ message, e = .notFound message) → v.index = {})) ha
    fun _ _ h => h) fun result v' h => ?_
  split
  · exact tries_pure (.inl h)
  · next message =>
    exact tries_pure (.inr ⟨h.1, rfl, fun hc => h.2 hc ⟨message, rfl⟩⟩)
  · exact tries_throw h.1

/-- All points that a filter accepts, in the order of their ids; or none, if surroundings are not
honest. -/
theorem tries_scrollAll (hs : s.collection = c.collection) (filter : Filter) :
    c.Tries v (s.scrollAll filter)
      (fun points v' => v' = v ∧
        (points.map Point.entry = v.index.listing.filter (fun e => filter.accepts e.2) ∨
          (¬ c.honest ∧ points = [])))
      fun _ v' => v' = v := by
  refine tries_bind (tries_orIfMissing (tries_scroll hs filter pageSize none))
    fun page v' hpage => ?_
  rw [← Collection.remaining_empty]
  rcases hpage with ⟨rfl, hpoints, hnext⟩ | ⟨rfl, rfl, hempty⟩
  · split
    · next next hsome =>
      rw [hsome] at hnext
      refine tries_bind (tries_scrollFrom hs filter _ (some next)) fun rest v'' hrest => ?_
      obtain ⟨rfl, hrest⟩ := hrest
      refine tries_pure ⟨rfl, .inl ?_⟩
      rw [List.map_append, hpoints, hrest]
      exact Collection.take_append_remaining (Index.sorted_listing _) hnext
    · next hnone =>
      rw [hnone] at hnext
      exact tries_pure ⟨rfl, .inl (hpoints.trans (Collection.take_of_no_next hnext))⟩
  · refine tries_pure ⟨rfl, ?_⟩
    by_cases hc : c.honest
    · refine .inl ?_
      rw [hempty hc]
      rfl
    · exact .inr ⟨hc, rfl⟩

/-- The points of an index that a filter accepts, up to their order. -/
theorem accepted_perm (hv : v.Sound c) {filter : Filter} {points : List Point}
    (h : points.map Point.entry = v.index.listing.filter fun e => filter.accepts e.2) :
    (points.map Point.entry).Perm (v.index.contents.filter fun e => filter.accepts e.2) :=
  h ▸ (Index.listing_perm hv.nodup_ids).filter _

/-- A project is loaded as it reads back. -/
theorem tries_loadProject (hs : s.collection = c.collection) (id : Uuid) :
    c.Tries v (s.loadProject id)
      (fun found v' => v' = v ∧
        ((∃ p ∈ v.index.projects, p.id = id ∧ found = some p.reread) ∨
          (found = none ∧ (c.honest → ∀ p ∈ v.index.projects, p.id ≠ id))))
      fun _ v' => v' = v := by
  refine tries_of_sound fun hsound => ?_
  refine tries_bind (tries_orIfMissing (tries_retrieve hs id.render)) fun points v' h => ?_
  refine tries_pure ?_
  rcases h with ⟨rfl, ⟨rfl, hnone⟩ | ⟨pt, rfl, hid, hpt⟩⟩ | ⟨rfl, rfl, hempty⟩
  · exact ⟨rfl, .inr ⟨rfl, fun _ p hp heq => hnone (heq ▸ Index.mem_ids_of_project hp)⟩⟩
  · refine ⟨rfl, ?_⟩
    obtain ⟨pid, vector, payload⟩ := pt
    change pid = id.render at hid
    subst hid
    rcases Index.mem_contents hpt with ⟨p, hp, heq⟩ | ⟨e, he, hmem⟩
    · have hpid : id.render = p.id.render := congrArg Prod.fst heq
      have hpayload : payload = .ofProject p := congrArg Prod.snd heq
      subst hpayload
      refine .inl ⟨p, hp, (Uuid.render_inj.mp hpid).symm, ?_⟩
      rw [List.findSome?_singleton, Payload.toProject?_ofProject]
    · -- a point of a file is no project
      have hnot : Payload.toProject? ⟨id.render, vector, payload⟩ = none := by
        cases hread : Payload.toProject? ⟨id.render, vector, payload⟩ with
        | none => rfl
        | some q =>
          have htype := Payload.isProject_of_toProject? hread
          rcases IndexedFile.mem_points hmem with heq | hsymbol
          · have hpayload : payload = .ofFile e.project e.file := congrArg Prod.snd heq
            exact absurd htype (hpayload ▸ Payload.isFile_ofFile e.project e.file).not_isProject
          · exact absurd htype (Payload.mem_symbols hsymbol).isSymbol.not_isProject
      refine .inr ⟨by rw [List.findSome?_singleton, hnot], fun _ p hp heq => ?_⟩
      have hmem' : id.render ∈ (v'.index.files.flatMap IndexedFile.points).map (·.1) :=
        List.mem_map.mpr ⟨_, List.mem_flatMap.mpr ⟨e, he, hmem⟩, rfl⟩
      exact Index.not_mem_files_of_project hsound.nodup_ids hp (heq ▸ hmem')
  · refine ⟨rfl, .inr ⟨rfl, fun hc p hp => ?_⟩⟩
    rw [hempty hc] at hp
    cases hp

/-- All projects are loaded as they read back. -/
theorem tries_loadProjects (hs : s.collection = c.collection) :
    c.Tries v s.loadProjects
      (fun found v' => v' = v ∧
        (found.Perm (v.index.projects.map Project.reread) ∨ (¬ c.honest ∧ found = [])))
      fun _ v' => v' = v := by
  refine tries_of_sound fun hsound => ?_
  refine tries_bind (tries_scrollAll hs _) fun points v' h => ?_
  obtain ⟨rfl, hpoints | ⟨hc, rfl⟩⟩ := h
  · refine tries_pure ⟨rfl, .inl ((Sorting.sort_perm _ _).trans ?_)⟩
    have hread : points.filterMap Payload.toProject? =
        (points.map Point.entry).filterMap fun e => Payload.toProject? ⟨e.1, [], e.2⟩ := by
      rw [List.filterMap_map]
      rfl
    rw [hread]
    refine ((accepted_perm hsound hpoints).filterMap _).trans (List.Perm.of_eq ?_)
    rw [Index.contents_filter_projects, List.filterMap_map, ← List.filterMap_eq_map]
    refine congrArg (List.filterMap · v'.index.projects) (funext fun p => ?_)
    exact Payload.toProject?_ofProject p _ _
  · exact tries_pure ⟨rfl, .inr ⟨hc, rfl⟩⟩

/-- The project of a root is found if there is one, unless surroundings are not honest. -/
theorem tries_findByRoot (hs : s.collection = c.collection) (root : String) :
    c.Tries v (s.findByRoot root)
      (fun found v' => v' = v ∧
        ((∃ p ∈ v.index.projects, p.rootPath = root ∧ found = some p.reread) ∨
          (found = none ∧ (c.honest → ∀ p ∈ v.index.projects, p.rootPath ≠ root))))
      fun _ v' => v' = v := by
  refine tries_bind (tries_loadProjects hs) fun found v' h => ?_
  obtain ⟨rfl, h⟩ := h
  refine tries_pure ⟨rfl, ?_⟩
  cases hfind : found.find? (·.rootPath == root) with
  | none =>
    refine .inr ⟨rfl, fun hc p hp heq => ?_⟩
    rcases h with h | ⟨hnot, _⟩
    · have hmem : p.reread ∈ found := h.mem_iff.mpr (List.mem_map_of_mem hp)
      exact List.find?_eq_none.mp hfind _ hmem (beq_iff_eq.mpr heq)
    · exact hnot hc
  | some q =>
    rcases h with h | ⟨_, rfl⟩
    · obtain ⟨p, hp, rfl⟩ := List.mem_map.mp (h.mem_iff.mp (List.mem_of_find?_eq_some hfind))
      have hroot := List.find?_some hfind
      exact .inl ⟨p, hp, beq_iff_eq.mp hroot, rfl⟩
    · cases hfind

/-- The files of a project are loaded as they read back. -/
theorem tries_loadFiles (hs : s.collection = c.collection) (id : Uuid) :
    c.Tries v (s.loadFiles id)
      (fun stored v' => v' = v ∧
        (stored.Perm ((v.index.tagged id).files.map fun e => StoredFile.ofSource e.file) ∨
          (¬ c.honest ∧ stored = [])))
      fun _ v' => v' = v := by
  refine tries_of_sound fun hsound => ?_
  refine tries_bind (tries_scrollAll hs _) fun points v' h => ?_
  obtain ⟨rfl, hpoints | ⟨hc, rfl⟩⟩ := h
  · refine tries_pure ⟨rfl, .inl ((Sorting.sort_perm _ _).trans ?_)⟩
    have hread : points.filterMap (fun p => Payload.toFile? p.payload) =
        (points.map Point.entry).filterMap fun e => Payload.toFile? e.2 := by
      rw [List.filterMap_map]
      rfl
    rw [hread]
    refine ((accepted_perm hsound hpoints).filterMap _).trans (List.Perm.of_eq ?_)
    rw [Index.contents_filter_files, List.filterMap_map, ← List.filterMap_eq_map]
    refine congrArg (List.filterMap · (v'.index.tagged id).files) (funext fun e => ?_)
    exact Payload.toFile?_ofFile e.project e.file
  · exact tries_pure ⟨rfl, .inr ⟨hc, rfl⟩⟩

/-! ## Writing and deleting -/

theorem tries_storeProject (hs : s.collection = c.collection) {p : Project} (hp : v.Admits p)
    (hplain : p.IsPlain)
    (hroot : c.orderly → ∀ q ∈ v.index.projects, q.rootPath = p.rootPath → q.id = p.id) :
    c.Tries v (s.storeProject p) (fun _ v' => v' = v.put p) fun _ v' => v' = v := by
  refine tries_bind_at (leaves_ensureCollection hs) fun _ => ?_
  have hupsert : c.Tries v (s.call (.upsert s.collection
      [⟨p.id.render, s.placeholder, .ofProject p⟩])) (fun _ v' => v' = v.put p)
      fun _ v' => v' = v := by
    refine tries_upsert _ hs fun hsound col hcol => ?_
    refine ⟨⟨hcol.1.put rfl (hsound.not_mem_files hp), fun g hg => ?_⟩, hsound.put hp hplain hroot,
      fun t ht => hsound.uses_put hp ht, rfl, rfl⟩
    obtain ⟨hg, hne⟩ := List.mem_filter.mp hg
    exact isIn_upsert (hcol.2 g hg) (by simpa using hne)
  exact tries_bind hupsert fun _ v' hv => tries_pure hv

/-- A project that is known is deleted with its files. -/
theorem tries_deleteProject (hs : s.collection = c.collection) (id : Uuid) :
    c.Tries v (s.deleteProject id)
      (fun known v' =>
        (known = true ∧ (∃ p ∈ v.index.projects, p.id = id) ∧ v' = v.drop id) ∨
          (known = false ∧ v' = v ∧ (c.honest → ∀ p ∈ v.index.projects, p.id ≠ id)))
      fun _ v' => v' = v := by
  refine tries_bind (tries_loadProject hs id) fun found v' h => ?_
  obtain ⟨rfl, ⟨p, hp, rfl, rfl⟩ | ⟨rfl, hnone⟩⟩ := h
  · refine tries_bind (tries_delete (v'.drop p.id) hs rfl fun hsound col hcol => ?_)
      fun _ v'' hv => tries_pure (.inl ⟨rfl, ⟨p, hp, rfl⟩, hv⟩)
    exact ⟨⟨hcol.1.delete (Index.contents_drop _ _), guards_delete hcol⟩, hsound.drop hp,
      fun t ht => Scene.Sound.uses_drop hp ht, rfl, rfl⟩
  · exact tries_pure (.inr ⟨rfl, rfl, hnone⟩)

theorem tries_deleteFiles (hs : s.collection = c.collection) (id : Uuid) (paths : List String) :
    c.Tries v (s.deleteFiles id paths) (fun _ v' => v' = v.purge id paths) fun _ v' => v' = v := by
  rw [deleteFiles]
  split
  · next hempty =>
    rw [List.isEmpty_iff.mp hempty]
    exact tries_pure (v.purge_nil id).symm
  · refine tries_bind (tries_delete (v.purge id paths) hs rfl fun hsound col hcol => ?_)
      fun _ v' hv => tries_pure hv
    exact ⟨⟨hcol.1.delete (Index.contents_purge _ _ _), guards_delete hcol⟩,
      hsound.purge id paths, fun t ht => Scene.Sound.uses_purge ht, rfl, rfl⟩

end SymbolStore

end CodeAtlas
