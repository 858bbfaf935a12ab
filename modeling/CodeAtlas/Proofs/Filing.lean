import CodeAtlas.Proofs.Calls
import CodeAtlas.Proofs.Drafts
import CodeAtlas.Proofs.Requests
/-!
# What has been written behind files

Files are written batch by batch, and any call may fail and be attempted again. If all goes well in
the end, the points of all files have been added to those that were there, each once, and nothing
else has changed.

Results:
1. `Collection.points_upsert_fresh`: writing points under new ids adds just them.
2. `SymbolStore.Gains` and how gains add up.
3. `SymbolStore.gains_ensureCollection`, `SymbolStore.gains_writeBatches`: what the parts of a
   writing add.
4. `SymbolStore.files_of_storeFiles`: what a writing of files adds, and what it counts.
-/

namespace CodeAtlas

/-- Writing points under new ids adds just them, and leaves those that were there as they were. -/
theorem Collection.points_upsert_fresh {c : Collection} {ps : List Point}
    (hnodup : (ps.map (·.id)).Nodup) (hnew : ∀ p ∈ ps, p.id ∉ Keyed.keys c.points) :
    (c.upsert ps).points.Perm (c.points ++ ps.map fun p => (p.id, p)) := by
  induction ps generalizing c with
  | nil => exact .of_eq (List.append_nil _).symm
  | cons p ps ih =>
    obtain ⟨hp, hps⟩ := List.nodup_cons.mp hnodup
    have hone : (c.upsert [p]).points.Perm ((p.id, p) :: c.points) :=
      Keyed.insert_perm_cons (hnew p List.mem_cons_self) p
    refine (ih (c := c.upsert [p]) hps fun q hq hmem => ?_).trans
      ((hone.append_right _).trans List.perm_middle.symm)
    rcases List.mem_cons.mp ((hone.map Prod.fst).mem_iff.mp hmem) with heq | hmem
    · exact hp (List.mem_map.mpr ⟨q, hq, heq⟩)
    · exact hnew q (List.mem_cons_of_mem p hq) hmem

/-- The points of a collection by their ids, none if it is not there. -/
def Collections.pointsOf (cs : Collections) (name : String) : List (String × Point) :=
  ((Keyed.get? name cs).map (·.points)).getD []

namespace SymbolStore

variable (s : SymbolStore)

/-- Points have been added to the collection of a store, and nothing else has changed. If it was not
there, it has been made. -/
structure Gains (cs ds : Collections) (points : List Point) : Prop where
  others : ∀ name, name ≠ s.collection → ds.contents name = cs.contents name
  shape : ∀ c, Keyed.get? s.collection cs = some c →
    ∃ d, Keyed.get? s.collection ds = some d ∧ d.shape = c.shape
  made : Keyed.get? s.collection cs = none →
    ∀ d, Keyed.get? s.collection ds = some d → d.shape = s.shape
  points : (ds.pointsOf s.collection).Perm
    (cs.pointsOf s.collection ++ points.map fun p => (p.id, p))

variable {s}
variable {cs ds es : Collections} {ps qs : List Point}

theorem Gains.of_eq (h : ds = cs) : s.Gains cs ds [] := by
  subst h
  refine ⟨fun _ _ => rfl, fun c hc => ⟨c, hc, rfl⟩, fun hnone d hd => ?_, ?_⟩
  · cases hnone.symm.trans hd
  · exact .of_eq (List.append_nil _).symm

theorem Gains.trans (h : s.Gains cs ds ps) (h' : s.Gains ds es qs) : s.Gains cs es (ps ++ qs) where
  others name hname := (h'.others name hname).trans (h.others name hname)
  shape c hc := by
    obtain ⟨d, hd, hshape⟩ := h.shape c hc
    obtain ⟨e, he, hshape'⟩ := h'.shape d hd
    exact ⟨e, he, hshape'.trans hshape⟩
  made hnone e he := by
    cases hd : Keyed.get? s.collection ds with
    | none => exact h'.made hd e he
    | some d =>
      obtain ⟨e', he', hshape⟩ := h'.shape d hd
      cases he.symm.trans he'
      exact hshape.trans (h.made hnone d hd)
  points := by
    refine h'.points.trans ((h.points.append_right _).trans (.of_eq ?_))
    rw [List.append_assoc, List.map_append]

/-- The collection of a store has been replaced by one with more points. -/
theorem gains_insert {c d : Collection} (hc : Keyed.get? s.collection cs = some c)
    (hshape : d.shape = c.shape) (hpoints : d.points.Perm (c.points ++ ps.map fun p => (p.id, p))) :
    s.Gains cs (Keyed.insert s.collection d cs) ps := by
  have hd : Keyed.get? s.collection (Keyed.insert s.collection d cs) = some d := by
    rw [Keyed.get?_insert, if_pos rfl]
  refine ⟨fun name hname => ?_, fun c' hc' => ?_, fun hnone => ?_, ?_⟩
  · exact (congrFun (Collections.contents_insert _ d cs) name).trans (if_neg (Ne.symm hname))
  · cases hc.symm.trans hc'
    exact ⟨d, hd, hshape⟩
  · cases hnone.symm.trans hc
  · rw [Collections.pointsOf, hd, Collections.pointsOf, hc]
    exact hpoints

theorem Gains.keys (h : s.Gains cs ds ps) : (Keyed.keys (ds.pointsOf s.collection)).Perm
    (Keyed.keys (cs.pointsOf s.collection) ++ ps.map (·.id)) := by
  refine (h.points.map Prod.fst).trans (.of_eq ?_)
  rw [List.map_append, List.map_map]
  rfl

/-- Points that are written under new ids are gained. -/
theorem gains_upsert (hanswer : (cs.answer (.upsert s.collection ps)).1 = .ok ())
    (hnodup : (ps.map (·.id)).Nodup)
    (hnew : ∀ p ∈ ps, p.id ∉ Keyed.keys (cs.pointsOf s.collection)) :
    s.Gains cs (cs.answer (.upsert s.collection ps)).2 ps := by
  obtain ⟨c, d, hc, hd, hafter⟩ := Collections.changing_eq_ok hanswer
  obtain ⟨_, rfl⟩ := Collections.upsert_eq_ok hd
  rw [Collections.pointsOf, hc] at hnew
  rw [Collections.answer, hafter]
  exact gains_insert hc rfl (Collection.points_upsert_fresh hnodup hnew)

/-! ## The parts of a writing -/

/-- The calls that set the collection up add nothing to what is there. -/
theorem gains_answer_of_prepares {call : ClientCall} (hcall : s.Prepares (.client call))
    (cs : Collections) : s.Gains cs (cs.answer call).2 [] := by
  cases hcall with
  | hasCollection => exact .of_eq rfl
  | create =>
    rw [Collections.answer]
    split
    · exact .of_eq rfl
    · next habsent =>
      have hnone : Keyed.get? s.collection cs = none := by
        simpa [Keyed.contains, shape] using habsent
      have hmade : Keyed.get? s.collection (Keyed.insert s.collection { shape := s.shape } cs) =
          some { shape := s.shape } := by
        rw [Keyed.get?_insert, if_pos rfl]
      refine ⟨fun name hname => ?_, fun c hc => ?_, fun _ d hd => ?_, ?_⟩
      · exact (congrFun (Collections.contents_insert _ _ cs) name).trans (if_neg (Ne.symm hname))
      · cases hnone.symm.trans hc
      · cases hmade.symm.trans hd
        rfl
      · rw [Collections.pointsOf, Collections.pointsOf, hnone]
        exact .of_eq (congrArg (fun found => (found.map Collection.points).getD []) hmade)
  | createIndex key =>
    rw [Collections.answer, Collections.changing, Collections.require]
    cases hc : Keyed.get? s.collection cs with
    | none => exact .of_eq rfl
    | some c => exact gains_insert hc rfl (.of_eq (List.append_nil _).symm)

/-- Setting the collection up adds nothing to what is there. -/
theorem gains_ensureCollection {h : Host} (hm : h.IsLocal) :
    let left := (h.run s.ensureCollection.run).2
    s.Gains h.collections left.collections [] ∧ left.IsLocal ∧ left.nextId = h.nextId := by
  refine Program.Asks.run_keeps s.asks_ensureCollection (J := fun t : Host =>
    s.Gains h.collections t.collections [] ∧ t.IsLocal ∧ t.nextId = h.nextId) (fun r t hr ht => ?_)
    ⟨.of_eq rfl, hm, rfl⟩
  obtain ⟨hgains, hlocal, hid⟩ := ht
  have hclient : ∀ call, s.Prepares (.client call) →
      s.Gains h.collections (Host.serve (.client call) t).2.collections [] ∧
        (Host.serve (.client call) t).2.IsLocal ∧
        (Host.serve (.client call) t).2.nextId = h.nextId := by
    intro call hcall
    obtain ⟨hcomes, hlocal'⟩ := Host.comes_of_local hlocal call
    have hstep : s.Gains t.collections (Host.serve (.client call) t).2.collections [] := by
      rcases hcomes.same_or_answered with hsame | hanswered
      · exact .of_eq hsame
      · rw [hanswered]
        exact gains_answer_of_prepares hcall t.collections
    exact ⟨hgains.trans hstep, hlocal', (t.after_answerCall call).2.1.trans hid⟩
  cases hr with
  | hasCollection => exact hclient _ .hasCollection
  | create => exact hclient _ .create
  | createIndex key => exact hclient _ (.createIndex key)
  | pause nanos => exact ⟨hgains, hlocal, hid⟩
  | hasReached m => cases m <;> exact ⟨hgains, hlocal, hid⟩
  | reach m => cases m <;> exact ⟨hgains, hlocal, hid⟩

/-- The drafts of files take the next fresh ids. -/
theorem run_draftAll (project : Uuid) (files : List FiledSource) (h : Host) :
    h.run (draftAll project files) = (.ok (draftsFrom project h.nextId files),
      { h with nextId := h.nextId + files.length }) := by
  induction files generalizing h with
  | nil => rfl
  | cons f rest ih =>
    refine (run_bind_of_ok (run_ask rfl) _).trans ?_
    refine (run_bind_of_ok (ih { h with nextId := h.nextId + 1 }) _).trans ?_
    refine Prod.ext rfl (congrArg (fun n => { h with nextId := n }) ?_)
    rw [List.length_cons, Nat.add_assoc, Nat.add_comm 1]

/-- The points of a batch get their vectors, and nothing changes meanwhile. -/
theorem run_vectorize {batch : List Draft} {points : List Point} {h g : Host}
    (hrun : h.run (s.vectorize batch) = (.ok points, g)) :
    points.map Point.entry = batch.map Draft.entry ∧ g.store = h.store := by
  obtain ⟨vectors, t, hembed, hfill⟩ := run_bind_ok hrun
  cases hfill
  have hasks : Program.Asks (fun r => ∃ texts, r = .embedAll texts)
      (s.embedTexts (batch.filterMap (·.text))) := by
    rw [embedTexts]
    split
    · exact .pure
    · refine Program.asks_bind (Program.asks_perform ⟨_, rfl⟩) fun result => ?_
      cases result <;> exact .pure
  have hstore : (h.run (s.embedTexts (batch.filterMap (·.text)))).2.store = h.store := by
    refine hasks.run_keeps (J := fun t : Host => t.store = h.store) (fun r t hr ht => ?_) rfl
    obtain ⟨texts, rfl⟩ := hr
    exact ht
  rw [show h.run (s.embedTexts (batch.filterMap (·.text))) = _ from hembed] at hstore
  exact ⟨fill_entries batch vectors, hstore⟩

/-- Every batch that is written adds its points. -/
theorem gains_writeBatches {batches : List (List Draft)} {h g : Host} (hm : h.IsLocal)
    (hnodup : (batches.flatten.map (·.id)).Nodup)
    (hnew : ∀ d ∈ batches.flatten, d.id ∉ Keyed.keys (h.collections.pointsOf s.collection))
    (hrun : h.attempt (s.writeBatches batches) = (.ok (.ok ()), g)) :
    g.IsLocal ∧ ∃ points, points.map Point.entry = batches.flatten.map Draft.entry ∧
      s.Gains h.collections g.collections points := by
  induction batches generalizing h with
  | nil =>
    cases hrun
    exact ⟨hm, [], rfl, .of_eq rfl⟩
  | cons batch rest ih =>
    obtain ⟨points, t, hvectors, hrest⟩ := run_attempt_bind_ok hrun
    obtain ⟨_, u, hwrite, hlater⟩ := run_attempt_bind_ok hrest
    obtain ⟨hentries, hstore⟩ := run_vectorize (run_lift_ok hvectors)
    rw [List.flatten_cons, List.map_append] at hnodup
    rw [List.flatten_cons] at hnew
    obtain ⟨hbatch, hothers, hapart⟩ := List.nodup_append.mp hnodup
    have hcollections : t.collections = h.collections := by
      rw [Host.collections, hstore, Host.collections]
    have ht : t.IsLocal := hm.imp fun _ hm => hstore.trans hm
    obtain ⟨hcomes, hlocal⟩ := Host.comes_of_call ht hwrite
    obtain ⟨hanswer, hafter⟩ := hcomes.answered_of_ok fun _ h => ClientCall.noConfusion h
    rw [hcollections] at hanswer hafter
    have hids : points.map (·.id) = batch.map (·.id) := by
      have hfirst := congrArg (List.map Prod.fst) hentries
      rwa [List.map_map, List.map_map] at hfirst
    have hgains : s.Gains h.collections u.collections points := by
      rw [hafter]
      refine gains_upsert hanswer (hids ▸ hbatch) fun p hp => ?_
      have hmem : p.id ∈ batch.map (·.id) := hids ▸ List.mem_map_of_mem hp
      obtain ⟨d, hd, hid⟩ := List.mem_map.mp hmem
      exact hid ▸ hnew d (List.mem_append_left _ hd)
    -- the first batch has none of the ids of the later ones
    have hnew' : ∀ d ∈ rest.flatten, d.id ∉ Keyed.keys (u.collections.pointsOf s.collection) := by
      intro d hd hmem
      rcases List.mem_append.mp (hgains.keys.mem_iff.mp hmem) with hold | hjust
      · exact hnew d (List.mem_append_right _ hd) hold
      · exact hapart d.id (hids ▸ hjust) d.id (List.mem_map_of_mem hd) rfl
    obtain ⟨hm', later, hlaterEntries, hlaterGains⟩ := ih hlocal hothers hnew' hlater
    refine ⟨hm', points ++ later, ?_, hgains.trans hlaterGains⟩
    rw [List.map_append, hentries, hlaterEntries, List.flatten_cons, List.map_append]

/-! ## Files -/

/-- The ids of the points of files: fresh ones from a number on for the files, and those under which
symbols are to be filed. -/
def idsFrom : Nat → List FiledSource → List Uuid
  | _, [] => []
  | n, f :: rest => .ofNat n :: (f.ids ++ idsFrom (n + 1) rest)

theorem ids_draftsFrom (project : Uuid) (n : Nat) (files : List FiledSource) :
    (draftsFrom project n files).map (·.id) = (idsFrom n files).map Uuid.render := by
  induction files generalizing n with
  | nil => rfl
  | cons f rest ih =>
    have hfirst : (drafts project (.ofNat n) f).map (·.id) =
        (Uuid.ofNat n).render :: f.ids.map Uuid.render := by
      rw [← IndexedFile.ids_points_whole project, IndexedFile.points_whole, List.map_map]
      rfl
    rw [draftsFrom, List.map_append, ih, hfirst, idsFrom, List.map_cons, List.map_append]
    rfl

/-- How many points files have: one for each, and one for each of its functions and classes. -/
def pointCount : List FiledSource → Nat
  | [] => 0
  | f :: rest => 1 + f.file.functions.length + f.file.classes.length + pointCount rest

theorem length_draftsFrom (project : Uuid) (n : Nat) (files : List FiledSource) :
    (draftsFrom project n files).length = pointCount files := by
  induction files generalizing n with
  | nil => rfl
  | cons f rest ih =>
    have hfirst := congrArg List.length (IndexedFile.points_whole project (.ofNat n) f)
    rw [IndexedFile.length_points, List.length_map] at hfirst
    rw [draftsFrom, List.length_append, ih, ← hfirst, pointCount]
    change f.file.functions.length + f.file.classes.length + 1 + _ = _
    omega

/-- If files are written, they are counted with all of their symbols, and just their points have
been added. -/
theorem files_of_storeFiles {project : Uuid} {files : List FiledSource} {h g : Host} {count : Nat}
    (hm : h.IsLocal) (hnodup : (idsFrom h.nextId files).Nodup)
    (hnew : ∀ id ∈ idsFrom h.nextId files,
      id.render ∉ Keyed.keys (h.collections.pointsOf s.collection))
    (hrun : h.attempt (s.storeFiles project files) = (.ok (.ok count), g)) :
    count = pointCount files ∧ g.IsLocal ∧ ∃ points, points.map Point.entry =
        (IndexedFile.filedFrom project h.nextId files).flatMap IndexedFile.points ∧
        s.Gains h.collections g.collections points := by
  rw [storeFiles] at hrun
  split at hrun
  · next hempty =>
    cases List.isEmpty_iff.mp hempty
    cases hrun
    exact ⟨rfl, hm, [], rfl, .of_eq rfl⟩
  · obtain ⟨_, t, hensure, hrest⟩ := run_attempt_bind_ok hrun
    obtain ⟨drafts, u, hdrafts, hrest⟩ := run_attempt_bind_ok hrest
    obtain ⟨_, v, hwrite, hcount⟩ := run_attempt_bind_ok hrest
    cases hcount
    obtain ⟨hprepared, ht, hid⟩ := gains_ensureCollection (s := s) hm
    have hensured : h.run s.ensureCollection.run = _ := hensure
    rw [hensured] at hprepared ht hid
    cases (run_draftAll project files t).symm.trans (run_lift_ok hdrafts)
    rw [hid] at hwrite ⊢
    have hflat : (batches batchSize (draftsFrom project h.nextId files)).flatten =
        draftsFrom project h.nextId files := flatten_batches (by decide) _
    have hids := ids_draftsFrom project h.nextId files
    -- the collection that was set up has the points that were there
    have hkeys : (Keyed.keys (t.collections.pointsOf s.collection)).Perm
        (Keyed.keys (h.collections.pointsOf s.collection)) := by
      simpa using hprepared.keys
    have hu : Host.IsLocal { t with nextId := h.nextId + files.length } := ht
    have hdistinct : ((draftsFrom project h.nextId files).map (·.id)).Nodup :=
      hids ▸ hnodup.map fun _ _ => Uuid.render_inj.mp
    have hfresh : ∀ d ∈ draftsFrom project h.nextId files,
        d.id ∉ Keyed.keys (t.collections.pointsOf s.collection) := by
      intro d hd hmem
      obtain ⟨id, hid', hrender⟩ := List.mem_map.mp (hids ▸ List.mem_map_of_mem hd)
      exact hnew id hid' (hrender ▸ hkeys.mem_iff.mp hmem)
    rw [← hflat] at hdistinct hfresh
    obtain ⟨hlocal, points, hentries, hgains⟩ := gains_writeBatches hu hdistinct hfresh hwrite
    rw [hflat, entries_draftsFrom] at hentries
    have hgained := hprepared.trans hgains
    exact ⟨length_draftsFrom project h.nextId files, hlocal, points, hentries, hgained⟩

end SymbolStore

end CodeAtlas
