import CodeAtlas.Proofs.Tracking
/-!
# What an update reports, and what it leaves alone

The changes that an update reports are those between two trees: the one that the project was in step
with, and the one that is there now. All points of files and symbols that are not at a path of these
changes stay as they are, with their ids, vectors and payloads.

Results:
1. `HashDiff.Tells`: a difference tells what has changed between two trees.
2. `At.guard_points`: all points may be guarded.
3. `reports_of_update`: what an update reports has changed and nothing else, and the other points are
   left alone.
-/

namespace CodeAtlas

/-! ## Differences of trees -/

/-- A difference tells what has changed between two trees of files. -/
structure HashDiff.Tells (d : HashDiff) (old new : List (String × ByteArray)) : Prop where
  added : ∀ path, path ∈ d.added ↔ path ∈ Keyed.keys new ∧ path ∉ Keyed.keys old
  modified : ∀ path, path ∈ d.modified ↔ ∃ a b, (path, a) ∈ old ∧ (path, b) ∈ new ∧ a ≠ b
  deleted : ∀ path, path ∈ d.deleted ↔ path ∈ Keyed.keys old ∧ path ∉ Keyed.keys new

section

variable {tree : List (String × ByteArray)} {hashes : List (String × String)}

/-- A map has the hashes of a tree. -/
def HashesOf (hashes : List (String × String)) (tree : List (String × ByteArray)) : Prop :=
  ∀ path hash, Keyed.get? path hashes = some hash ↔
    ∃ bytes, (path, bytes) ∈ tree ∧ Sha256.digest bytes = hash

theorem HashesOf.of_mem (hsorted : Keyed.Sorted hashes)
    (h : ∀ e, e ∈ hashes ↔ e ∈ tree.map hashed) : HashesOf hashes tree := by
  intro path hash
  rw [hsorted.get?_eq_some_iff, h, List.mem_map]
  constructor
  · rintro ⟨⟨q, bytes⟩, hmem, heq⟩
    cases heq
    exact ⟨bytes, hmem, rfl⟩
  · rintro ⟨bytes, hmem, rfl⟩
    exact ⟨_, hmem, rfl⟩

theorem HashesOf.get?_eq_none_iff (h : HashesOf hashes tree) {path : String} :
    Keyed.get? path hashes = none ↔ path ∉ Keyed.keys tree := by
  constructor
  · intro hnone hmem
    obtain ⟨⟨q, bytes⟩, hr, rfl⟩ := List.mem_map.mp hmem
    rw [(h q _).mpr ⟨bytes, hr, rfl⟩] at hnone
    cases hnone
  · intro hnot
    refine Option.eq_none_iff_forall_not_mem.mpr fun hash hhash => hnot ?_
    obtain ⟨bytes, hr, _⟩ := (h path hash).mp hhash
    exact List.mem_map_of_mem (f := Prod.fst) hr

/-- A difference of hashes tells what has changed. -/
theorem HashDiff.tells_compare {known : ByteArray → Prop} (apart : Sha256.TellsApart known)
    {old new : List (String × ByteArray)} {current stored : List (String × String)}
    (hcurrent : Keyed.Sorted current) (hnew : HashesOf current new) (hold : HashesOf stored old)
    (hknown : ∀ r ∈ old ++ new, known r.2) : (compare current stored).Tells old new where
  added path := by
    rw [mem_added hcurrent]
    constructor
    · rintro ⟨hash, hget, hnone⟩
      obtain ⟨bytes, hr, _⟩ := (hnew path hash).mp hget
      exact ⟨List.mem_map_of_mem (f := Prod.fst) hr, hold.get?_eq_none_iff.mp hnone⟩
    · rintro ⟨hmem, hnot⟩
      obtain ⟨⟨q, bytes⟩, hr, rfl⟩ := List.mem_map.mp hmem
      exact ⟨_, (hnew q _).mpr ⟨bytes, hr, rfl⟩, hold.get?_eq_none_iff.mpr hnot⟩
  modified path := by
    rw [mem_modified hcurrent]
    constructor
    · rintro ⟨hash, hget, old', hget', hne⟩
      obtain ⟨b, hb, rfl⟩ := (hnew path hash).mp hget
      obtain ⟨a, ha, rfl⟩ := (hold path old').mp hget'
      exact ⟨a, b, ha, hb, fun hsame => hne (hsame ▸ rfl)⟩
    · rintro ⟨a, b, ha, hb, hne⟩
      refine ⟨_, (hnew path _).mpr ⟨b, hb, rfl⟩, _, (hold path _).mpr ⟨a, ha, rfl⟩, fun hsame => ?_⟩
      exact hne (apart a b (hknown _ (List.mem_append_left _ ha))
        (hknown _ (List.mem_append_right _ hb)) hsame)
  deleted path := by
    have hkeys : ∀ {hashes tree}, HashesOf hashes tree →
        (path ∈ Keyed.keys hashes ↔ path ∈ Keyed.keys tree) := fun h => by
      rw [← not_iff_not, ← Keyed.get?_eq_none_iff, h.get?_eq_none_iff]
    rw [mem_deleted, hkeys hold, hkeys hnew]

/-- There is no difference between a tree and itself. -/
theorem HashDiff.Tells.eq_of_same {d : HashDiff} {old new : List (String × ByteArray)}
    (h : d.Tells old new) (hpaths : (Keyed.keys old).Nodup) (hsame : ∀ r, r ∈ new ↔ r ∈ old) :
    d = ⟨[], [], []⟩ := by
  have hkeys : ∀ path, path ∈ Keyed.keys new ↔ path ∈ Keyed.keys old := fun path => by
    simp only [Keyed.keys, List.mem_map, hsame]
  have hadded : d.added = [] := List.eq_nil_iff_forall_not_mem.mpr fun path hpath => by
    obtain ⟨hnew, hnot⟩ := (h.added path).mp hpath
    exact hnot ((hkeys path).mp hnew)
  have hmodified : d.modified = [] := List.eq_nil_iff_forall_not_mem.mpr fun path hpath => by
    obtain ⟨a, b, ha, hb, hne⟩ := (h.modified path).mp hpath
    have heq := List.inj_on_of_nodup_map hpaths ha ((hsame _).mp hb) rfl
    exact hne (congrArg Prod.snd heq)
  have hdeleted : d.deleted = [] := List.eq_nil_iff_forall_not_mem.mpr fun path hpath => by
    obtain ⟨hold, hnot⟩ := (h.deleted path).mp hpath
    exact hnot ((hkeys path).mpr hold)
  cases d
  cases hadded
  cases hmodified
  cases hdeleted
  rfl

end

/-! ## Points -/

/-- The points of a collection as they are. -/
def Host.pointsOf (h : Host) (collection : String) : List Point :=
  ((Keyed.get? collection h.store.toMemory.collections).map fun c => c.points.map (·.2)).getD []

/-- A point of a file or symbol is not one of a project at a path of a difference. -/
structure Point.IsSpared (pt : Point) (id : Uuid) (d : HashDiff) : Prop where
  isPart : ¬ pt.payload.IsProject
  path : pt.payload.projectId? = some id.render → ∀ path, pt.payload.filePath? = some path →
    path ∉ d.added ∧ path ∉ d.modified ∧ path ∉ d.deleted

namespace Regime.At

variable {c : Regime} {v : Scene} {h : Host}

theorem isIn_iff (hat : c.At v h) {s : MemoryStore} (hs : h.store = .memory s) {pt : Point} :
    pt.IsIn (Keyed.get? c.collection s.collections) ↔ pt ∈ h.pointsOf c.collection := by
  obtain ⟨s', hs', hdescribes⟩ := hat.store
  obtain rfl : s = s' := by
    rw [hs] at hs'
    cases hs'
    rfl
  rw [Host.pointsOf, hs, VectorStore.toMemory]
  cases hcol : Keyed.get? c.collection s.collections with
  | none =>
    constructor
    · rintro ⟨_, hnone, _⟩
      cases hnone
    · exact fun hmem => absurd hmem List.not_mem_nil
  | some col =>
    rw [hcol] at hdescribes
    have hfiled : col.Filed := hdescribes.1.1
    constructor
    · rintro ⟨_, heq, hget⟩
      cases heq
      exact List.mem_map_of_mem (f := Prod.snd) (Keyed.mem_of_get? hget)
    · intro hmem
      obtain ⟨⟨key, p⟩, he, rfl⟩ := List.mem_map.mp hmem
      refine ⟨col, rfl, hfiled.sorted.get?_eq_some_iff.mpr ?_⟩
      rw [show p.id = key from (hfiled.own _ he).symm]
      exact he

/-- All points may be guarded. -/
theorem guard_points (hat : c.At v h) : c.At { v with guards := h.pointsOf c.collection } h := by
  obtain ⟨s, hs, hdescribes⟩ := hat.store
  refine { hat with
    sound := { hat.sound with }
    store := ⟨s, hs, hdescribes.1, fun pt hpt => ?_⟩ }
  exact (hat.isIn_iff hs).mpr hpt

/-- What is guarded is there. -/
theorem mem_of_guard (hat : c.At v h) {pt : Point} (hpt : pt ∈ v.guards) :
    pt ∈ h.pointsOf c.collection := by
  obtain ⟨s, hs, hdescribes⟩ := hat.store
  exact (hat.isIn_iff hs).mp (hdescribes.2 pt hpt)

/-- Points are told by their ids. -/
theorem point_eq_of_id_eq (hat : c.At v h) {p q : Point} (hp : p ∈ h.pointsOf c.collection)
    (hq : q ∈ h.pointsOf c.collection) (hid : p.id = q.id) : p = q := by
  obtain ⟨s, hs, _⟩ := hat.store
  obtain ⟨col, hcol, hget⟩ := (hat.isIn_iff hs).mpr hp
  obtain ⟨col', hcol', hget'⟩ := (hat.isIn_iff hs).mpr hq
  obtain rfl := Option.some.inj (hcol.symm.trans hcol')
  rw [hid, hget'] at hget
  exact (Option.some.inj hget).symm

/-- The points are those that the index stands for. -/
theorem entry_iff (hat : c.At v h) {e : String × Payload} :
    e ∈ v.index.contents ↔ ∃ pt ∈ h.pointsOf c.collection, pt.entry = e := by
  have hpoints : h.points c.collection = (h.pointsOf c.collection).map Point.entry := by
    rw [Host.points, Host.pointsOf]
    cases Keyed.get? c.collection h.store.toMemory.collections with
    | none => rfl
    | some col =>
      change col.points.map _ = (col.points.map _).map _
      rw [List.map_map]
      rfl
  rw [← hat.points_perm.mem_iff, hpoints, List.mem_map]

end Regime.At

/-! ## Updates -/

theorem HashDiff.mem_toPurge {d : HashDiff} {path : String} :
    path ∈ d.toPurge ↔ path ∈ d.added ∨ path ∈ d.modified ∨ path ∈ d.deleted := by
  rw [toPurge, Keyed.mem_sortedSet, List.mem_append, toReparse, Keyed.mem_sortedSet,
    List.mem_append, or_assoc]

namespace Indexer.HasUpdated

variable {c : Regime} {x : Indexer} {v v' : Scene} {force : Bool} {p : Project} {root : String}
  {stored : List StoredFile} {es : List IndexedFile} {o : UpdateOutcome} {h h' : Host} {pt : Point}

/-- A point that is spared stays. -/
theorem stays (hupdated : HasUpdated x v force p root stored es o v') (hat : c.At v h)
    (hat' : c.At v' h') (hguards : v.guards = h.pointsOf c.collection)
    (hspared : pt.IsSpared p.id o.diff) (hpt : pt ∈ h.pointsOf c.collection) :
    pt ∈ h'.pointsOf c.collection := by
  refine hat'.mem_of_guard ?_
  rw [hupdated.guards]
  refine List.mem_filter.mpr ⟨List.mem_filter.mpr ⟨hguards ▸ hpt, ?_⟩, bne_iff_ne.mpr fun hid => ?_⟩
  · rw [Bool.not_eq_true', ← Bool.not_eq_true, Payload.accepts_paths]
    rintro ⟨hproject, path, hmem, hpath⟩
    obtain ⟨hadded, hmodified, hdeleted⟩ := hspared.path hproject path hpath
    rcases HashDiff.mem_toPurge.mp hmem with hmem | hmem | hmem
    · exact hadded hmem
    · exact hmodified hmem
    · exact hdeleted hmem
  · -- under the id of the project there is nothing else
    have hsame : pt.entry = (p.id.render, .ofProject p) :=
      Index.eq_of_id_eq hat.sound.nodup_ids (hat.entry_iff.mpr ⟨pt, hpt, rfl⟩)
        (Index.mem_contents_of_project hupdated.known) hid
    refine hspared.isPart ?_
    rw [show pt.payload = .ofProject p from congrArg Prod.snd hsame]
    exact Payload.isProject_ofProject p

/-- The points that are spared are those that were there. -/
theorem mem_pointsOf_iff (hupdated : HasUpdated x v force p root stored es o v') (hat : c.At v h)
    (hat' : c.At v' h') (hguards : v.guards = h.pointsOf c.collection)
    (hspared : pt.IsSpared p.id o.diff) :
    pt ∈ h'.pointsOf c.collection ↔ pt ∈ h.pointsOf c.collection := by
  refine ⟨fun hpt => ?_, hupdated.stays hat hat' hguards hspared⟩
  -- the file of the point was not written, so it was there before
  have hold : pt.entry ∈ v.index.contents := by
    rcases Index.mem_contents (hat'.entry_iff.mpr ⟨pt, hpt, rfl⟩) with ⟨q, _, heq⟩ | ⟨e, he, hmem⟩
    · refine absurd ?_ hspared.isPart
      rw [show pt.payload = .ofProject q from congrArg Prod.snd heq]
      exact Payload.isProject_ofProject q
    · refine Index.mem_contents_of_file ?_ hmem
      by_cases hproject : e.project = p.id
      · have htagged : e ∈ (v'.index.tagged p.id).files :=
          List.mem_filter.mpr ⟨he, beq_iff_eq.mpr hproject⟩
        rw [hupdated.files_tagged] at htagged
        rcases List.mem_append.mp htagged with he | he
        · exact List.mem_of_mem_filter (List.mem_of_mem_filter he)
        · obtain ⟨hid, hpath⟩ := IndexedFile.tells_of_mem_points hmem
          obtain ⟨hadded, hmodified, _⟩ := hspared.path (hproject ▸ hid) e.path hpath
          have hreparse := hupdated.reparsed_of_mem he
          rw [HashDiff.toReparse, Keyed.mem_sortedSet, List.mem_append] at hreparse
          exact absurd hreparse (not_or.mpr ⟨hadded, hmodified⟩)
      · exact hupdated.others e he hproject
  obtain ⟨q, hq, heq⟩ := hat.entry_iff.mp hold
  have hpayload : q.payload = pt.payload := congrArg Prod.snd heq
  have hspared' : q.IsSpared p.id o.diff :=
    ⟨hpayload ▸ hspared.isPart, hpayload ▸ hspared.path⟩
  have hstays := hupdated.stays hat hat' hguards hspared' hq
  rwa [← hat'.point_eq_of_id_eq hstays hpt (congrArg Prod.fst heq)]

/-- The changes of an update of a project in step with a tree are those between this tree and the one
that is there now. -/
theorem tells {known : ByteArray → Prop} {tree : List (String × ByteArray)}
    (hupdated : HasUpdated x v false p root stored es o v') (hfs : v.disk.WellNamed)
    (apart : Sha256.TellsApart known)
    (hread : stored.Perm ((v.index.tagged p.id).files.map fun e => StoredFile.ofSource e.file))
    (hmirrors : v.Mirrors p.id p.rootPath p.excludePatterns tree)
    (hknown : ∀ r ∈ tree ++ x.readings v.disk root p.excludePatterns, known r.2) :
    o.diff.Tells tree (x.readings v.disk root p.excludePatterns) := by
  have hscan := scannable_found (x := x) hfs root p.excludePatterns
  rw [hupdated.diff]
  refine HashDiff.tells_compare apart (sorted_current hfs root p.excludePatterns)
    (.of_mem (sorted_current hfs root p.excludePatterns) fun e => ?_)
    (.of_mem (Keyed.sorted_ofList _) fun e => ?_) hknown
  · rw [current, (Snapshot.hashes_perm hscan).mem_iff, sources_eq_readings hscan]
    rfl
  · have hhashes : (stored.map fun f => (f.path, f.hash)).Perm (tree.map hashed) := by
      refine (hread.map _).trans (.trans (.of_eq ?_) hmirrors.hashes)
      rw [List.map_map]
      rfl
    have hkeys : (Keyed.keys (stored.map fun f => (f.path, f.hash))).Nodup := by
      have hperm := hhashes.map Prod.fst
      rw [List.map_map (l := tree)] at hperm
      exact hperm.nodup_iff.mpr hmirrors.paths
    rw [SymbolStore.hashes, (Keyed.ofList_perm hkeys).mem_iff, hhashes.mem_iff]

end Indexer.HasUpdated

/-- The contents of a tree that a project is in step with are known. -/
theorem Tracks.known_of_mem {collection : String} {known : ByteArray → Prop} {id : Uuid}
    {path : String} {patterns : List String} {tree : List (String × ByteArray)} {h : Host}
    (ht : Tracks collection known id path patterns tree h) : ∀ r ∈ tree, known r.2 := by
  induction ht with
  | index _ _ hfit => exact fun r hr => known_of_mem_readings hfit.2 hr
  | reparse _ _ hfit => exact fun r hr => known_of_mem_readings hfit.2 hr
  | update _ _ hfit => exact fun r hr => known_of_mem_readings hfit.2 hr
  | drift _ _ ih => exact ih

/-- What an update of a project in step with a tree reports has changed and nothing else, and it
leaves the points alone that are not at the path of a change. If nothing has changed, no file is
parsed and no point of a file or symbol is another one. -/
theorem reports_of_update {collection : String} {known : ByteArray → Prop} {h h' : Host}
    {x : Indexer} {id : Uuid} {path : String} {patterns : List String}
    {tree : List (String × ByteArray)} {o : UpdateOutcome} (apart : Sha256.TellsApart known)
    (before : Tracks collection known id path patterns tree h) (hs : x.store.collection = collection)
    (hfit : h.Readable known) (hh : h.Honest)
    (hrun : h.attempt (x.updateProject id false) = (.ok (.ok o), h'))
    (hsupply : h'.nextId ≤ Uuid.supply) :
    ∃ root, AllowedRoots.validate h.disk x.config.allowedRoots path = .ok root ∧
      o.diff.Tells tree (x.readings h.disk root patterns) ∧
      (∀ pt : Point, pt.IsSpared id o.diff →
        (pt ∈ h'.pointsOf collection ↔ pt ∈ h.pointsOf collection)) ∧
      ((∀ r, r ∈ x.readings h.disk root patterns ↔ r ∈ tree) →
        o.diff = ⟨[], [], []⟩ ∧ o.filesParsed = 0 ∧ ∀ pt : Point, ¬ pt.payload.IsProject →
          (pt ∈ h'.pointsOf collection ↔ pt ∈ h.pointsOf collection)) := by
  obtain ⟨v, hat, hmirrors⟩ := Tracks.mirrors (c := ⟨collection, False, False, known⟩) False.elim
    False.elim apart before (Host.supplied_before_run hrun hsupply)
  -- besides the index, all points that are there now are kept in view
  have hguarded := hat.guard_points
  obtain ⟨v', p, root, stored, es, hat', rfl, hupdated, hread⟩ :=
    hguarded.updates False.elim hs hfit hh hrun hsupply
  obtain ⟨rfl, rfl⟩ := hmirrors.eq_project hupdated.known rfl
  obtain ⟨hnamed, hknown⟩ := hat.readable hfit
  have htells : o.diff.Tells tree (x.readings h.disk root p.excludePatterns) := by
    rw [hat.disk]
    refine hupdated.tells hnamed apart hread
      ⟨hmirrors.project, hmirrors.whole, hmirrors.hashes, hmirrors.paths⟩ fun r hr => ?_
    rcases List.mem_append.mp hr with hr | hr
    · exact before.known_of_mem r hr
    · exact known_of_mem_readings hknown hr
  have hframe : ∀ pt : Point, pt.IsSpared p.id o.diff →
      (pt ∈ h'.pointsOf collection ↔ pt ∈ h.pointsOf collection) :=
    fun _ => hupdated.mem_pointsOf_iff hguarded hat' rfl
  refine ⟨root, hat.disk ▸ hupdated.valid, htells, hframe, fun hsame => ?_⟩
  have hnone := htells.eq_of_same hmirrors.paths hsame
  refine ⟨hnone, ?_, fun pt hpart => hframe pt ⟨hpart, fun _ _ _ => ?_⟩⟩
  · rw [hupdated.parsed, List.length_eq_zero_iff]
    refine List.eq_nil_iff_forall_not_mem.mpr fun e he => ?_
    have hreparse := hupdated.reparsed_of_mem he
    rw [hnone] at hreparse
    cases hreparse
  · rw [hnone]
    exact ⟨List.not_mem_nil, List.not_mem_nil, List.not_mem_nil⟩

section

set_option maxRecDepth 100000

theorem reports_of_indexedThen :
    (∃ o root, (Host.indexedThen "def g():\n    pass\n").result?
        (Indexer.sample.updateProject (.ofNat 1) false) = some o ∧
      o.diff.Tells (Indexer.sample.readings (FileSystem.sample "def f():\n    pass\n") "/r" [])
        (Indexer.sample.readings (FileSystem.sample "def g():\n    pass\n") root []) ∧
      ∀ pt : Point, pt.IsSpared (.ofNat 1) o.diff →
        (pt ∈ (Host.updatedThen "def g():\n    pass\n").pointsOf "points" ↔
          pt ∈ (Host.indexedThen "def g():\n    pass\n").pointsOf "points")) ∧
    ∃ o, (Host.indexedThen "def f():\n    pass\n").result?
        (Indexer.sample.updateProject (.ofNat 1) false) = some o ∧
      o.diff = ⟨[], [], []⟩ ∧ o.filesParsed = 0 ∧ ∀ pt : Point, ¬ pt.payload.IsProject →
        (pt ∈ (Host.updatedThen "def f():\n    pass\n").pointsOf "points" ↔
          pt ∈ (Host.indexedThen "def f():\n    pass\n").pointsOf "points") := by
  have hruns : ((Host.indexedThen "def g():\n    pass\n").result?
        (Indexer.sample.updateProject (.ofNat 1) false)).isSome ∧
      (Host.updatedThen "def g():\n    pass\n").nextId ≤ Uuid.supply ∧
      ((Host.indexedThen "def f():\n    pass\n").result?
        (Indexer.sample.updateProject (.ofNat 1) false)).isSome ∧
      (Host.updatedThen "def f():\n    pass\n").nextId ≤ Uuid.supply := by
    decide +kernel
  obtain ⟨hchanged, hsupply, hsame, hsupply'⟩ := hruns
  obtain ⟨o, ho⟩ := Option.isSome_iff_exists.mp hchanged
  obtain ⟨o', ho'⟩ := Option.isSome_iff_exists.mp hsame
  obtain ⟨root, _, htells, hframe, _⟩ := reports_of_update
    (h := .indexedThen "def g():\n    pass\n") (x := .sample) tellsApart_sampleTexts
    (tracks_indexedThen _) rfl (Host.readable_indexedThen (.inr rfl)) nofun
    (Host.attempt_updatedThen ho) hsupply
  obtain ⟨root', hroot, _, _, hunchanged⟩ := reports_of_update
    (h := .indexedThen "def f():\n    pass\n") (x := .sample) tellsApart_sampleTexts
    (tracks_indexedThen _) rfl (Host.readable_indexedThen (.inl rfl)) nofun
    (Host.attempt_updatedThen ho') hsupply'
  obtain rfl : "/r" = root' := Except.ok.inj hroot
  exact ⟨⟨o, root, ho, htells, hframe⟩, o', ho', hunchanged fun _ => Iff.rfl⟩

end

end CodeAtlas
