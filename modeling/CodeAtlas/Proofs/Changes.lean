import CodeAtlas.Proofs.Scene
/-!
# Changes of sound scenes

What is written and deleted changes the index and the pending ids of a scene. Ids are never made up:
what is written takes a pending id, or the id of the project in whose place it is put.

Results:
1. `Sound.put`, `Sound.drop`, `Sound.purge`, `Sound.add`: sound scenes stay sound, and all ids in use
   were in use before.
-/

namespace CodeAtlas

namespace Index

theorem mem_contents_of_project {ix : Index} {p : Project} (h : p ∈ ix.projects) :
    (p.id.render, .ofProject p) ∈ ix.contents :=
  List.mem_append_left _ (List.mem_map_of_mem h)

theorem mem_ids_of_project {ix : Index} {p : Project} (h : p ∈ ix.projects) :
    p.id.render ∈ ix.ids :=
  List.mem_map.mpr ⟨_, mem_contents_of_project h, rfl⟩

theorem mem_contents_of_file {ix : Index} {e : IndexedFile} {c : String × Payload}
    (he : e ∈ ix.files) (hc : c ∈ e.points) : c ∈ ix.contents :=
  List.mem_append_right _ (List.mem_flatMap.mpr ⟨e, he, hc⟩)

/-- A point belongs to a project or to a file. -/
theorem mem_contents {ix : Index} {c : String × Payload} (h : c ∈ ix.contents) :
    (∃ p ∈ ix.projects, c = (p.id.render, .ofProject p)) ∨ ∃ e ∈ ix.files, c ∈ e.points := by
  rcases List.mem_append.mp h with h | h
  · obtain ⟨p, hp, rfl⟩ := List.mem_map.mp h
    exact .inl ⟨p, hp, rfl⟩
  · exact .inr (List.mem_flatMap.mp h)

/-- Two points with one id are one. -/
theorem eq_of_id_eq {ix : Index} (h : ix.ids.Nodup) {a b : String × Payload}
    (ha : a ∈ ix.contents) (hb : b ∈ ix.contents) (hid : a.1 = b.1) : a = b :=
  List.inj_on_of_nodup_map h ha hb hid

/-- Projects are told by their ids. -/
theorem project_eq_of_id_eq {ix : Index} (h : ix.ids.Nodup) {p q : Project}
    (hp : p ∈ ix.projects) (hq : q ∈ ix.projects) (hid : p.id = q.id) : p = q := by
  have hprojects : (ix.projects.map fun p => p.id.render).Nodup := by
    have := h.sublist ((List.sublist_append_left _ _).map Prod.fst)
    rwa [List.map_map] at this
  exact List.inj_on_of_nodup_map hprojects hp hq (congrArg Uuid.render hid)

/-- The id of a project is no id of a point of a file. -/
theorem not_mem_files_of_project {ix : Index} (h : ix.ids.Nodup) {p : Project}
    (hp : p ∈ ix.projects) : p.id.render ∉ (ix.files.flatMap IndexedFile.points).map (·.1) := by
  intro hmem
  rw [ids, contents, List.map_append, List.nodup_append] at h
  exact h.2.2 _ (List.mem_map_of_mem (List.mem_map_of_mem hp)) _ hmem rfl

theorem ids_put {ix : Index} {p : Project}
    (h : p.id.render ∉ (ix.files.flatMap IndexedFile.points).map (·.1)) :
    (ix.put p).ids = p.id.render :: ix.ids.filter (· != p.id.render) := by
  rw [ids, contents_put h, ids]
  generalize p.id.render = t
  rw [List.map_cons, List.filter_map]
  rfl

theorem ids_drop_sublist (ix : Index) (id : Uuid) : (ix.drop id).ids.Sublist ix.ids := by
  rw [ids, contents_drop]
  exact List.filter_sublist.map _

theorem ids_purge_sublist (ix : Index) (id : Uuid) (paths : List String) :
    (ix.purge id paths).ids.Sublist ix.ids := by
  rw [ids, contents_purge]
  exact List.filter_sublist.map _

/-- With a project its id is gone. -/
theorem not_mem_ids_drop {ix : Index} (h : ix.ids.Nodup) {p : Project} (hp : p ∈ ix.projects) :
    p.id.render ∉ (ix.drop p.id).ids := by
  intro hmem
  obtain ⟨c, hc, hid⟩ := List.mem_map.mp hmem
  rw [contents_drop] at hc
  obtain ⟨hc, hkept⟩ := List.mem_filter.mp hc
  have heq : c = (p.id.render, .ofProject p) :=
    eq_of_id_eq h hc (mem_contents_of_project hp) hid
  rw [heq, Payload.accepts_projectFilter_eq (Payload.projectId?_ofProject p)] at hkept
  simp at hkept

/-! ## The part of a project -/

theorem tagged_put (ix : Index) (p : Project) :
    (ix.put p).tagged p.id = ⟨[p], (ix.tagged p.id).files⟩ := by
  have hothers : (ix.projects.filter (·.id != p.id)).filter (·.id == p.id) = [] :=
    List.filter_eq_nil_iff.mpr fun q hq => by
      simpa using (List.mem_filter.mp hq).2
  refine congrArg (Index.mk · _) ?_
  rw [put, List.filter_cons_of_pos (by simp), hothers]

theorem tagged_drop (ix : Index) (id : Uuid) : (ix.drop id).tagged id = {} := by
  have hprojects : (ix.projects.filter (·.id != id)).filter (·.id == id) = [] :=
    List.filter_eq_nil_iff.mpr fun q hq => by
      simpa using (List.mem_filter.mp hq).2
  have hfiles : (ix.files.filter (·.project != id)).filter (·.project == id) = [] :=
    List.filter_eq_nil_iff.mpr fun e he => by
      simpa using (List.mem_filter.mp he).2
  rw [drop, tagged, hprojects, hfiles]

theorem tagged_purge (ix : Index) (id : Uuid) (paths : List String) :
    (ix.purge id paths).tagged id = ⟨(ix.tagged id).projects,
      (ix.tagged id).files.filter fun e => !paths.contains e.path⟩ := by
  refine congrArg (Index.mk _) ?_
  rw [purge, List.filter_filter, tagged, List.filter_filter]
  refine List.filter_congr fun e _ => ?_
  cases e.project == id <;> simp

theorem tagged_add (ix : Index) {es : List IndexedFile} {id : Uuid} (h : ∀ e ∈ es, e.project = id) :
    (ix.add es).tagged id = (ix.tagged id).add es := by
  have hall : es.filter (·.project == id) = es :=
    List.filter_eq_self.mpr fun e he => beq_iff_eq.mpr (h e he)
  rw [add, tagged, List.filter_append, hall]
  rfl

/-- A project after its files and then itself have been written. -/
theorem tagged_put_add (ix : Index) {p : Project} {es : List IndexedFile}
    (h : ∀ e ∈ es, e.project = p.id) :
    ((ix.add es).put p).tagged p.id = ⟨[p], (ix.tagged p.id).files ++ es⟩ := by
  rw [tagged_put, tagged_add ix h]
  rfl

end Index

namespace Scene

/-- There is a place for a project: its id is pending, or another project has it. -/
def Admits (v : Scene) (p : Project) : Prop :=
  p.id.render ∈ v.pending ∨ ∃ q ∈ v.index.projects, q.id = p.id

/-- The scene after a project has been written. -/
def put (v : Scene) (p : Project) : Scene :=
  { v with
    index := v.index.put p
    pending := v.pending.filter (· != p.id.render)
    guards := v.guards.filter (·.id != p.id.render) }

/-- The scene after a project has been deleted. Its id is pending. -/
def drop (v : Scene) (id : Uuid) : Scene :=
  { v with
    index := v.index.drop id
    pending := id.render :: v.pending
    guards := v.guards.filter fun g => !(SymbolStore.projectFilter id).accepts g.payload }

/-- The scene after files have been deleted. -/
def purge (v : Scene) (id : Uuid) (paths : List String) : Scene :=
  { v with
    index := v.index.purge id paths
    guards := v.guards.filter fun g => !Filter.accepts
      ⟨[.text "project_id" id.render, .oneOfTexts "file_path" paths]⟩ g.payload }

theorem purge_nil (v : Scene) (id : Uuid) : v.purge id [] = v := by
  have hguards : (v.guards.filter fun g => !Filter.accepts
      ⟨[.text "project_id" id.render, .oneOfTexts "file_path" []]⟩ g.payload) = v.guards := by
    refine List.filter_eq_self.mpr fun g _ => ?_
    rw [Bool.not_eq_true', ← Bool.not_eq_true, Payload.accepts_paths]
    rintro ⟨_, _, hmem, _⟩
    cases hmem
  rw [purge, Index.purge_nil, hguards]

/-- Projects that are there, other than those that may go, are there later under their ids and with
their roots. -/
def Retains (gone : Project → Prop) (v v' : Scene) : Prop :=
  ∀ p ∈ v.index.projects, gone p ∨ ∃ q ∈ v'.index.projects, q.id = p.id ∧ q.rootPath = p.rootPath

namespace Retains

variable {gone : Project → Prop} {v v' v'' : Scene}

theorem of_same (h : v'.index.projects = v.index.projects) : Retains gone v v' :=
  fun p hp => .inr ⟨p, h ▸ hp, rfl, rfl⟩

theorem trans (h : Retains gone v v') (h' : Retains (fun _ => False) v' v'') :
    Retains gone v v'' := by
  intro p hp
  refine (h p hp).imp_right ?_
  rintro ⟨q, hq, hid, hroot⟩
  obtain ⟨r, hr, hid', hroot'⟩ := (h' q hq).resolve_left id
  exact ⟨r, hr, hid'.trans hid, hroot'.trans hroot⟩

theorem mono {gone' : Project → Prop} (h : Retains gone v v')
    (himp : ∀ p ∈ v.index.projects, gone p → gone' p) : Retains gone' v v' :=
  fun p hp => (h p hp).imp_left (himp p hp)

/-- Writing a project takes no other root away. -/
theorem put {p : Project} (h : ∀ q ∈ v.index.projects, q.id = p.id → q.rootPath = p.rootPath) :
    Retains gone v (v.put p) := by
  intro q hq
  by_cases hid : q.id = p.id
  · exact .inr ⟨p, List.mem_cons_self, hid.symm, (h q hq hid).symm⟩
  · exact .inr ⟨q, List.mem_cons_of_mem p (List.mem_filter.mpr ⟨hq, bne_iff_ne.mpr hid⟩), rfl, rfl⟩

/-- Deleting a project takes this project away. -/
theorem drop (v : Scene) (id : Uuid) : Retains (·.id = id) v (v.drop id) := by
  intro q hq
  by_cases hid : q.id = id
  · exact .inl hid
  · exact .inr ⟨q, List.mem_filter.mpr ⟨hq, bne_iff_ne.mpr hid⟩, rfl, rfl⟩

/-- Writing a project gives back what had been taken away of it. -/
theorem restored {p : Project} (h : Retains (fun q => q.id = p.id ∧ q.rootPath = p.rootPath) v v')
    (hsame : ∀ q ∈ v'.index.projects, q.id = p.id → q.rootPath = p.rootPath) :
    Retains (fun _ => False) v (v'.put p) := by
  have hput : Retains (fun _ => False) v' (v'.put p) := put hsame
  intro q hq
  rcases h q hq with ⟨hid, hroot⟩ | ⟨q', hq', hid, hroot⟩
  · exact .inr ⟨p, List.mem_cons_self, hid.symm, hroot.symm⟩
  · obtain ⟨r, hr, hid', hroot'⟩ := (hput q' hq').resolve_left id
    exact .inr ⟨r, hr, hid'.trans hid, hroot'.trans hroot⟩

end Retains

/-- Nothing has changed but that a project with its files is gone. -/
def HasLost (v : Scene) (p : Project) (v' : Scene) : Prop :=
  v'.index = v.index.drop p.id ∧ v'.changes = v.changes

namespace Sound

variable {c : Regime} {v : Scene}

theorem nodup_ids (h : v.Sound c) : v.index.ids.Nodup := (List.nodup_append.mp h.nodup).1

/-- A project is the only one with its id. -/
theorem root_of_id (h : v.Sound c) {p : Project} (hp : p ∈ v.index.projects) :
    ∀ q ∈ v.index.projects, q.id = p.id → q.rootPath = p.rootPath :=
  fun _ hq hid => congrArg Project.rootPath (Index.project_eq_of_id_eq h.nodup_ids hq hp hid)

/-- A project is the only one with its root, if indexes are orderly. -/
theorem id_of_root (h : v.Sound c) {p : Project} (hp : p ∈ v.index.projects) :
    c.orderly → ∀ q ∈ v.index.projects, q.rootPath = p.rootPath → q.id = p.id :=
  fun ho _ hq hroot =>
    congrArg Project.id (List.inj_on_of_nodup_map (h.orderly ho).roots hq hp hroot)

/-- Nothing is there under a pending id. -/
theorem tagged_of_pending (h : v.Sound c) {id : Uuid} (hid : id.render ∈ v.pending) :
    v.index.tagged id = {} := by
  have hprojects : v.index.projects.filter (·.id == id) = [] := by
    refine List.filter_eq_nil_iff.mpr fun p hp heq => ?_
    have hmem := Index.mem_ids_of_project hp
    rw [beq_iff_eq.mp heq] at hmem
    exact (List.nodup_append.mp h.nodup).2.2 _ hmem _ hid rfl
  have hfiles : v.index.files.filter (·.project == id) = [] := by
    refine List.filter_eq_nil_iff.mpr fun e he heq => ?_
    exact h.apart e he (beq_iff_eq.mp heq ▸ hid)
  rw [Index.tagged, hprojects, hfiles]

/-- The id of an admitted project is no id of a point of a file. -/
theorem not_mem_files (h : v.Sound c) {p : Project} (hp : v.Admits p) :
    p.id.render ∉ (v.index.files.flatMap IndexedFile.points).map (·.1) := by
  rcases hp with hp | ⟨q, hq, hid⟩
  · intro hmem
    refine (List.nodup_append.mp h.nodup).2.2 p.id.render ?_ _ hp rfl
    rw [Index.ids, Index.contents, List.map_append]
    exact List.mem_append_right _ hmem
  · exact hid ▸ Index.not_mem_files_of_project h.nodup_ids hq

theorem put (h : v.Sound c) {p : Project} (hp : v.Admits p) (hplain : p.IsPlain)
    (hroot : c.orderly → ∀ q ∈ v.index.projects, q.rootPath = p.rootPath → q.id = p.id) :
    (v.put p).Sound c := by
  refine ⟨fun hc => (h.orderly hc).put (hroot hc), fun q hq => ?_, h.origin, ?_, fun e he hmem => ?_⟩
  · rcases List.mem_cons.mp hq with rfl | hq
    · exact hplain
    · exact h.plain q (List.mem_of_mem_filter hq)
  · change ((v.index.put p).ids ++ v.pending.filter (· != p.id.render)).Nodup
    rw [Index.ids_put (h.not_mem_files hp), List.cons_append, ← List.filter_append]
    refine List.nodup_cons.mpr ⟨fun hmem => ?_, h.nodup.sublist List.filter_sublist⟩
    have hne := (List.mem_filter.mp hmem).2
    exact bne_iff_ne.mp hne rfl
  · exact h.apart e he (List.mem_of_mem_filter hmem)

theorem uses_put (h : v.Sound c) {p : Project} (hp : v.Admits p) {t : String}
    (ht : (v.put p).Uses t) : v.Uses t := by
  rcases ht with ht | ht
  · rcases List.mem_append.mp ht with ht | ht
    · obtain ⟨x, hx, rfl⟩ := List.mem_map.mp ht
      change x ∈ (v.index.put p).contents at hx
      rw [Index.contents_put (h.not_mem_files hp)] at hx
      rcases List.mem_cons.mp hx with rfl | hx
      · rcases hp with hp | ⟨q, hq, hid⟩
        · exact .inl (List.mem_append_right _ hp)
        · exact .inl (List.mem_append_left _ (hid ▸ Index.mem_ids_of_project hq))
      · exact .inl (List.mem_append_left _ (List.mem_map_of_mem (List.mem_of_mem_filter hx)))
    · exact .inl (List.mem_append_right _ (List.mem_of_mem_filter ht))
  · exact .inr ht

theorem drop (h : v.Sound c) {p : Project} (hp : p ∈ v.index.projects) :
    (v.drop p.id).Sound c := by
  refine ⟨fun hc => (h.orderly hc).drop p.id, fun q hq => h.plain q (List.mem_of_mem_filter hq),
    fun e he => h.origin e (List.mem_of_mem_filter he), ?_, fun e he hmem => ?_⟩
  · change ((v.index.drop p.id).ids ++ p.id.render :: v.pending).Nodup
    refine List.perm_middle.nodup_iff.mpr (List.nodup_cons.mpr ⟨fun hmem => ?_, ?_⟩)
    · rcases List.mem_append.mp hmem with hmem | hmem
      · exact Index.not_mem_ids_drop h.nodup_ids hp hmem
      · exact (List.nodup_append.mp h.nodup).2.2 _ (Index.mem_ids_of_project hp) _ hmem rfl
    · exact h.nodup.sublist ((Index.ids_drop_sublist v.index p.id).append_right _)
  · obtain ⟨he, hne⟩ := List.mem_filter.mp he
    rcases List.mem_cons.mp hmem with heq | hmem
    · exact bne_iff_ne.mp hne (Uuid.render_inj.mp heq)
    · exact h.apart e he hmem

theorem uses_drop {p : Project} (hp : p ∈ v.index.projects) {t : String}
    (ht : (v.drop p.id).Uses t) : v.Uses t := by
  rcases ht with ht | ⟨e, he, rfl⟩
  · rcases List.mem_append.mp ht with ht | ht
    · exact .inl (List.mem_append_left _ ((Index.ids_drop_sublist v.index p.id).subset ht))
    · rcases List.mem_cons.mp ht with rfl | ht
      · exact .inl (List.mem_append_left _ (Index.mem_ids_of_project hp))
      · exact .inl (List.mem_append_right _ ht)
  · exact .inr ⟨e, List.mem_of_mem_filter he, rfl⟩

theorem purge (h : v.Sound c) (id : Uuid) (paths : List String) : (v.purge id paths).Sound c where
  orderly hc := (h.orderly hc).purge id paths
  plain := h.plain
  origin e he := h.origin e (List.mem_of_mem_filter he)
  nodup := h.nodup.sublist ((Index.ids_purge_sublist v.index id paths).append_right _)
  apart e he := h.apart e (List.mem_of_mem_filter he)

theorem uses_purge {id : Uuid} {paths : List String} {t : String}
    (ht : (v.purge id paths).Uses t) : v.Uses t := by
  rcases ht with ht | ⟨e, he, rfl⟩
  · rcases List.mem_append.mp ht with ht | ht
    · exact .inl (List.mem_append_left _ ((Index.ids_purge_sublist v.index id paths).subset ht))
    · exact .inl (List.mem_append_right _ ht)
  · exact .inr ⟨e, List.mem_of_mem_filter he, rfl⟩

end Sound

end Scene

end CodeAtlas
