import CodeAtlas.Indexing.Basic
import CodeAtlas.Proofs.Store
/-!
# Writing files

Files are written batch by batch, so that a run may end after any of them. What has been written
then is a first part of the points, and a first part of the points of files is files again.

Results:
1. `flatten_batches`: the batches of a list are the list.
2. `tries_writeBatches`: every batch leads from one first part to a longer one.
3. `tries_storeFiles`, `tries_storeOrMark`: files are written as a whole, or some first points are.
-/

namespace CodeAtlas

/-- The id and the payload of a draft. -/
def SymbolStore.Draft.entry (d : SymbolStore.Draft) : String × Payload := (d.id, d.payload)

/-- The scene after the first points of some files have been written, so many of them: `rest` are
the pending ids that are for other things. -/
def Scene.afterWriting (v : Scene) (es : List IndexedFile) (rest : List String) (n : Nat) : Scene :=
  { v with
    index := v.index.add (firstPoints n es)
    pending := ((es.flatMap IndexedFile.points).drop n).map (·.1) ++ rest }

/-- The files may be written: their ids are pending, their project is there, and the index stays
orderly whatever part of them is written. -/
structure Scene.Accepts (c : Regime) (v : Scene) (es : List IndexedFile) (rest : List String) :
    Prop where
  pending : v.pending = (es.flatMap IndexedFile.points).map (·.1) ++ rest
  owned : ∀ e ∈ es, ∃ p ∈ v.index.projects, p.id = e.project
  origin : ∀ e ∈ es, e.file.StemsFrom c.known
  orderly : c.orderly → ∀ n, (v.index.add (firstPoints n es)).Orderly

namespace Scene.Accepts

variable {c : Regime} {v : Scene} {es : List IndexedFile} {rest : List String}

theorem ids_afterWriting (h : v.Accepts c es rest) (n : Nat) :
    (v.afterWriting es rest n).index.ids ++ (v.afterWriting es rest n).pending =
      v.index.ids ++ v.pending := by
  rw [h.pending, afterWriting, Index.ids, Index.contents_add, flatMap_points_firstPoints,
    List.map_append, List.append_assoc, ← List.append_assoc (List.map _ (List.take n _)),
    ← List.map_append, List.take_append_drop, Index.ids]

theorem owner_mem (h : v.Accepts c es rest) {n : Nat} {e : IndexedFile}
    (he : e ∈ firstPoints n es) : e.project.render ∈ v.index.ids := by
  have hmem : e.project ∈ es.map IndexedFile.project :=
    (firstPoints_sublist (fun _ _ => rfl) n es).subset (List.mem_map_of_mem he)
  obtain ⟨e', he', heq⟩ := List.mem_map.mp hmem
  obtain ⟨p, hp, hid⟩ := h.owned e' he'
  rw [← heq, ← hid]
  exact Index.mem_ids_of_project hp

theorem sound (h : v.Accepts c es rest) (hv : v.Sound c) (n : Nat) :
    (v.afterWriting es rest n).Sound c := by
  refine ⟨fun hc => h.orderly hc n, hv.plain, fun e he => ?_, h.ids_afterWriting n ▸ hv.nodup,
    fun e he hmem => ?_⟩
  · rcases List.mem_append.mp he with he | he
    · exact hv.origin e he
    · obtain ⟨e', he', _, hfile⟩ := mem_firstPoints he
      exact hfile ▸ h.origin e' he'
  have hpending : e.project.render ∈ v.pending := by
    rw [h.pending]
    rcases List.mem_append.mp hmem with hmem | hmem
    · exact List.mem_append_left _ ((List.drop_sublist _ _).map _ |>.subset hmem)
    · exact List.mem_append_right _ hmem
  rcases List.mem_append.mp he with he | he
  · exact hv.apart e he hpending
  · exact (List.nodup_append.mp hv.nodup).2.2 _ (h.owner_mem he) _ hpending rfl

theorem uses (h : v.Accepts c es rest) {n : Nat} {t : String} :
    (v.afterWriting es rest n).Uses t ↔ v.Uses t := by
  rw [Uses, Uses, h.ids_afterWriting]
  constructor
  · rintro (ht | ⟨e, he, rfl⟩)
    · exact .inl ht
    · rcases List.mem_append.mp he with he | he
      · exact .inr ⟨e, he, rfl⟩
      · exact .inl (List.mem_append_left _ (h.owner_mem he))
  · rintro (ht | ⟨e, he, rfl⟩)
    · exact .inl ht
    · exact .inr ⟨e, List.mem_append_left _ he, rfl⟩

/-- Before anything has been written. -/
theorem afterWriting_zero (h : v.Accepts c es rest) : v.afterWriting es rest 0 = v := by
  rw [afterWriting, List.drop_zero, ← h.pending, firstPoints, Index.add_nil]

end Scene.Accepts

namespace SymbolStore

variable {c : Regime} {v : Scene} {s : SymbolStore}

/-! ## Batches -/

theorem flatten_batches {α : Type} {size : Nat} (hsize : 0 < size) (items : List α) :
    (batches size items).flatten = items := by
  have first : ∀ n, ((List.range n).map fun i => (items.drop (i * size)).take size).flatten =
      items.take (n * size) := by
    intro n
    induction n with
    | zero => simp
    | succ n ih =>
      rw [List.range_succ, List.map_append, List.flatten_append, ih, Nat.succ_mul, List.take_add]
      simp
  rw [batches, first]
  refine List.take_of_length_le ?_
  have := Nat.div_add_mod (items.length + size - 1) size
  have := Nat.mod_lt (items.length + size - 1) hsize
  rw [Nat.mul_comm]
  omega

theorem fill_entries (batch : List Draft) (vectors : List Embedding) :
    (s.fill batch vectors).map Point.entry = batch.map Draft.entry := by
  induction batch generalizing vectors with
  | nil => rfl
  | cons d rest ih =>
    unfold fill
    split
    · exact congrArg _ (ih _)
    · exact congrArg _ (ih _)

theorem spec_embedTexts (texts : List String) :
    c.Spec v (s.embedTexts texts) fun _ v' => v' = v := by
  rw [embedTexts]
  split
  · exact spec_pure rfl
  · refine spec_bind spec_embedAll fun result v' hv => ?_
    cases result with
    | ok vectors => exact spec_pure hv
    | error e => exact spec_pure hv

theorem spec_vectorize (batch : List Draft) : c.Spec v (s.vectorize batch) fun points v' =>
    v' = v ∧ points.map Point.entry = batch.map Draft.entry :=
  spec_bind (spec_embedTexts _) fun vectors _ hv => spec_pure ⟨hv, fill_entries batch vectors⟩

/-- Every batch leads from a first part of the points to a longer one. -/
theorem tries_writeBatches (hs : s.collection = c.collection) {es : List IndexedFile}
    {rest : List String} (hv : v.Sound c) (h : v.Accepts c es rest) (batches : List (List Draft))
    (n : Nat) (hbatches : batches.flatten.map Draft.entry =
      (es.flatMap IndexedFile.points).drop n) :
    c.Tries (v.afterWriting es rest n) (s.writeBatches batches)
      (fun _ v' => v' = { v with index := v.index.add es, pending := rest })
      fun _ v' => ∃ m, v' = v.afterWriting es rest m := by
  induction batches generalizing n with
  | nil =>
    have hnil : (es.flatMap IndexedFile.points).drop n = [] := hbatches.symm
    refine tries_pure ?_
    rw [Scene.afterWriting, hnil, firstPoints_of_length_le (List.drop_eq_nil_iff.mp hnil)]
    rfl
  | cons batch batches ih =>
    rw [List.flatten_cons, List.map_append] at hbatches
    have hbatch : batch.map Draft.entry =
        ((es.flatMap IndexedFile.points).drop n).take batch.length := by
      rw [← hbatches, List.take_append_of_le_length (by simp), List.take_of_length_le (by simp)]
    have hlater : batches.flatten.map Draft.entry =
        (es.flatMap IndexedFile.points).drop (n + batch.length) := by
      rw [← List.drop_drop, ← hbatches, List.drop_append_of_le_length (by simp),
        List.drop_of_length_le (by simp), List.nil_append]
    refine tries_bind (tries_lift (spec_vectorize batch)) fun points v' hpoints => ?_
    obtain ⟨rfl, hpoints⟩ := hpoints
    -- a batch that is refused leaves the points before it
    have hupsert : c.Tries (v.afterWriting es rest n) (s.call (.upsert s.collection points))
        (fun _ v' => v' = v.afterWriting es rest (n + batch.length))
        fun _ v' => ∃ m, v' = v.afterWriting es rest m := by
      refine tries_mono_err (tries_upsert (v.afterWriting es rest (n + batch.length)) hs
        fun hbefore col hcol => ?_) fun _ _ hv => ⟨n, hv⟩
      have hsound := h.sound hv (n + batch.length)
      refine ⟨⟨hcol.1.extend ?_ hsound.nodup_ids, fun g hg => isIn_upsert (hcol.2 g hg) ?_⟩, hsound,
        fun t ht => h.uses.mpr (h.uses.mp ht), rfl, rfl⟩
      · rw [hpoints, hbatch, Scene.afterWriting, Scene.afterWriting, Index.contents_add,
          Index.contents_add, flatMap_points_firstPoints, flatMap_points_firstPoints, List.take_add,
          List.append_assoc]
      · -- what is written has pending ids, and no guard has one
        intro hmem
        have hids : points.map (·.id) = (points.map Point.entry).map (·.1) := by
          rw [List.map_map]
          rfl
        rw [hids, hpoints, hbatch] at hmem
        have hpending : g.id ∈ (v.afterWriting es rest n).pending :=
          List.mem_append_left _ (((List.take_sublist _ _).map _).subset hmem)
        exact (List.nodup_append.mp hbefore.nodup).2.2 _ (mem_ids_of_guard hcol hg) _ hpending rfl
    refine tries_bind_at hupsert fun _ => ?_
    exact ih _ hlater

/-! ## Files -/

/-- The pending ids of symbols. -/
def symbolIds (files : List FiledSource) : List String :=
  files.flatMap fun f => f.ids.map Uuid.render

/-- What is drafted are the points of files that are written as a whole. -/
theorem spec_draftAll (project : Uuid) (files : List FiledSource) (rest : List String)
    (hpending : v.pending.Perm (symbolIds files ++ rest)) :
    c.Spec v (draftAll project files) fun drafts v' => ∃ es : List IndexedFile,
      es.map IndexedFile.source = files ∧ (∀ e ∈ es, e.project = project ∧ e.IsWhole) ∧
      drafts.map Draft.entry = es.flatMap IndexedFile.points ∧
      v' = { v with pending := (es.flatMap IndexedFile.points).map (·.1) ++ rest } := by
  induction files generalizing v rest with
  | nil =>
    refine spec_of_perm hpending (spec_pure ⟨[], rfl, nofun, rfl, rfl⟩)
  | cons f files ih =>
    refine spec_up_to_perm (spec_bind_at spec_freshId fun id => ?_)
    refine spec_bind (ih (id.render :: (f.ids.map Uuid.render ++ rest)) ?_) fun drafts v₂ h => ?_
    · refine (hpending.cons id.render).trans ?_
      rw [symbolIds, List.flatMap_cons, List.append_assoc]
      refine (List.Perm.trans ?_ List.perm_middle.symm)
      exact (List.perm_append_comm_assoc _ _ _).cons _
    · obtain ⟨es, hsources, hwhole, hdrafts, rfl⟩ := h
      refine spec_pure ⟨_, ?_, IndexedFile.whole project id f :: es, ?_, ?_, ?_, rfl⟩
      · rw [List.flatMap_cons, List.map_append, IndexedFile.ids_points_whole, List.append_assoc]
        refine List.perm_middle.trans ?_
        exact (List.perm_append_comm_assoc _ _ _).cons _
      · exact congrArg _ hsources
      · intro e he
        rcases List.mem_cons.mp he with rfl | he
        · exact ⟨rfl, IndexedFile.isWhole_whole _ _ _⟩
        · exact hwhole e he
      · rw [List.map_append, hdrafts, List.flatMap_cons, IndexedFile.points_whole]
        rfl

/-- Files are written as a whole; a failure leaves the projects as they were. -/
theorem tries_storeFiles (hs : s.collection = c.collection) (project : Uuid)
    (files : List FiledSource) {rest : List String}
    (hpending : v.pending.Perm (symbolIds files ++ rest))
    (howner : ∃ p ∈ v.index.projects, p.id = project)
    (horigin : ∀ f ∈ files, f.file.StemsFrom c.known)
    (horderly : c.orderly → ∀ es : List IndexedFile, es.map IndexedFile.source = files →
      (∀ e ∈ es, e.project = project) → ∀ n, (v.index.add (firstPoints n es)).Orderly) :
    c.Tries v (s.storeFiles project files)
      (fun _ v' => ∃ es pending, es.map IndexedFile.source = files ∧
        (∀ e ∈ es, e.project = project ∧ e.IsWhole) ∧
        v' = { v with index := v.index.add es, pending })
      fun _ v' => v'.index.projects = v.index.projects := by
  rw [storeFiles]
  split
  · next hempty =>
    refine tries_pure ⟨[], v.pending, ?_, nofun, ?_⟩
    · exact (List.isEmpty_iff.mp hempty).symm
    · rw [Index.add_nil]
  · refine tries_bind_at (tries_mono_err (leaves_ensureCollection hs)
      fun _ _ h => congrArg (·.index.projects) h) fun _ => ?_
    refine tries_bind (tries_lift (spec_draftAll project files rest hpending)) fun drafts v' h => ?_
    obtain ⟨es, hsources, hwhole, hdrafts, rfl⟩ := h
    refine tries_of_sound fun hsound => ?_
    -- the ids that the drafts have been given are pending until the points are written
    have haccepts : Scene.Accepts c
        { v with pending := (es.flatMap IndexedFile.points).map (·.1) ++ rest } es rest := by
      refine ⟨rfl, fun e he => ?_, fun e he => ?_, fun hc =>
        horderly hc es hsources fun e he => (hwhole e he).1⟩
      · obtain ⟨p, hp, hid⟩ := howner
        exact ⟨p, hp, hid.trans (hwhole e he).1.symm⟩
      · exact horigin e.source (hsources ▸ List.mem_map_of_mem he)
    have hwrite := tries_writeBatches hs hsound haccepts (batches batchSize drafts) 0 (by
      rw [flatten_batches (by decide), hdrafts, List.drop_zero])
    rw [haccepts.afterWriting_zero] at hwrite
    refine tries_bind (tries_mono_err hwrite ?_) fun _ v' hv => ?_
    · rintro e v' ⟨m, rfl⟩
      rfl
    · exact tries_pure ⟨es, rest, hsources, hwhole, hv⟩

end SymbolStore

namespace Indexer

variable {c : Regime} {v : Scene} {x : Indexer}

theorem spec_freshIds (n : Nat) : c.Spec v (freshIds n) fun ids v' =>
    v' = { v with pending := ids.1.map Uuid.render ++ v.pending } := by
  induction n generalizing v with
  | zero => exact spec_pure rfl
  | succ n ih =>
    refine spec_up_to_perm (spec_bind_at spec_freshId fun id => ?_)
    refine spec_bind_at ih fun ids => ?_
    exact spec_pure ⟨_, List.perm_middle, rfl⟩

theorem spec_fileSources (files : List SourceFile) : c.Spec v (fileSources files) fun filed v' =>
    filed.map FiledSource.file = files ∧
      v' = { v with pending := SymbolStore.symbolIds filed ++ v.pending } := by
  induction files generalizing v with
  | nil => exact spec_pure ⟨rfl, rfl⟩
  | cons f files ih =>
    refine spec_up_to_perm (spec_bind_at (spec_freshIds f.symbolCount) fun ids => ?_)
    refine spec_bind ih fun filed v₂ h => ?_
    obtain ⟨hfiles, rfl⟩ := h
    refine spec_pure ⟨_, (List.perm_append_comm_assoc _ _ _).trans (List.Perm.of_eq ?_),
      congrArg _ hfiles, rfl⟩
    exact (List.append_assoc _ _ _).symm

/-- Files are written as a whole, or the attempt fails. -/
theorem tries_storeOrMark (hs : x.store.collection = c.collection) {project : Project}
    {files : List SourceFile} (howner : ∃ p ∈ v.index.projects, p.id = project.id)
    (hplain : project.IsPlain)
    (hsame : ∀ q ∈ v.index.projects, q.id = project.id → q.rootPath = project.rootPath)
    (hroot : c.orderly → ∀ q ∈ v.index.projects, q.rootPath = project.rootPath → q.id = project.id)
    (horigin : ∀ f ∈ files, f.StemsFrom c.known)
    (hpaths : (files.map SourceFile.path).Nodup)
    (hnew : c.orderly → ∀ e ∈ v.index.files, e.project = project.id →
      e.path ∉ files.map SourceFile.path) :
    c.Tries v (x.storeOrMark project files)
      (fun _ v' => ∃ es pending, es.map IndexedFile.file = files ∧
        (∀ e ∈ es, e.project = project.id ∧ e.IsWhole) ∧
        v' = { v with index := v.index.add es, pending })
      fun _ v' => v.Retains (fun _ => False) v' := by
  refine tries_of_sound fun hsound => ?_
  refine tries_bind (tries_lift (spec_fileSources files)) fun filed v₁ h => ?_
  obtain ⟨hfiles, rfl⟩ := h
  have hfile : ∀ es : List IndexedFile, es.map IndexedFile.source = filed →
      es.map IndexedFile.file = files := by
    intro es hsources
    rw [← hfiles, ← hsources, List.map_map]
    rfl
  have hstore := SymbolStore.tries_storeFiles (v := { v with
      pending := SymbolStore.symbolIds filed ++ v.pending }) hs project.id filed
    (List.Perm.refl _) howner (fun f hf => horigin f.file (hfiles ▸ List.mem_map_of_mem hf))
    fun hc es hsources =>
      (hsound.orderly hc).add_ofProject howner hpaths (hnew hc) (hfile es hsources)
  refine tries_bind (tries_outcome (Regime.onResult (fun (_ : Nat) v' =>
      ∃ (es : List IndexedFile) (pending : List String), es.map IndexedFile.source = filed ∧
        (∀ e ∈ es, e.project = project.id ∧ e.IsWhole) ∧
        v' = { v with index := v.index.add es, pending })
    fun _ v' => v'.index.projects = v.index.projects) hstore fun _ _ h => h) fun result v₂ h => ?_
  split
  · obtain ⟨es, pending, hsources, hwhole, rfl⟩ := h
    exact tries_pure ⟨es, pending, hfile es hsources, hwhole, rfl⟩
  -- files that could not be stored leave the project marked, but not gone
  · have hprojects : v₂.index.projects = v.index.projects := h
    have hkept : v.Retains (fun _ => False) v₂ := .of_same hprojects
    refine tries_bind (tries_outcome (fun _ v' => v.Retains (fun _ => False) v')
      (tries_mono (SymbolStore.tries_storeProject hs (.inr ?_) hplain ?_) ?_ ?_)
      fun _ _ h => h) fun _ _ h => tries_throw h
    · exact hprojects ▸ howner
    · exact fun hc q hq => hroot hc q (hprojects ▸ hq)
    · rintro _ v' rfl
      exact hkept.trans (.put fun q hq => hsame q (hprojects ▸ hq))
    · rintro _ v' rfl
      exact hkept

end Indexer

end CodeAtlas
