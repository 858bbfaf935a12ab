import CodeAtlas.Proofs.Memory
import CodeAtlas.Proofs.Rereading
import CodeAtlas.Proofs.Timestamp
/-!
# Projects are read back as they were written

A project is written as one point under its id, in place of what was there under this id, and is read
back from there by its id, or among all projects. Whatever its fields are, it reads back as it was.

Results:
1. `Project.reread_eq_self`: a project reads back as it was if its time has a text that reads back.
2. `SymbolStore.points_storeProject`: a writing puts one point in its place and changes nothing else.
3. `SymbolStore.run_loadProject`, `SymbolStore.run_loadProjects`: what is read.
4. `SymbolStore.nodup_ids_iff`: when an id is twice among the projects.
5. `storeProject_readBack`: what is written is read back, with all other projects.
-/

namespace CodeAtlas

/-- A project reads back as it was if its time has a text that reads back. -/
theorem Project.reread_eq_self {p : Project} (h : ∀ t ∈ p.indexedAt, t.IsOrdinary) :
    p.reread = p := by
  have htime : (p.indexedAt.bind fun t => Timestamp.parse? t.renderOffset) = p.indexedAt := by
    cases hindexed : p.indexedAt with
    | none => rfl
    | some t => rw [Option.bind_some, Timestamp.parse?_renderOffset (h t hindexed)]
  rw [reread, htime]

namespace SymbolStore

/-- The point of a project. -/
def projectPoint (s : SymbolStore) (p : Project) : Point :=
  ⟨p.id.render, s.placeholder, .ofProject p⟩

/-- The projects that points tell, each filed under a text. -/
def projectsOf (points : List (String × Point)) : List Project :=
  points.filterMap (Payload.toProject? ·.2)

variable {s : SymbolStore} {p : Project} {h g : Host}

/-! ## Writing -/

theorem sorted_pointsOf {cs : Collections} {name : String} (hfiled : cs.IsFiled name) :
    Keyed.Sorted (cs.pointsOf name) := by
  rw [Collections.pointsOf]
  cases hc : Keyed.get? name cs with
  | none => exact .nil
  | some c => exact (hfiled c hc).sorted

/-- If nothing has been gained, the points are the same as before. -/
theorem Gains.points_eq {cs ds : Collections} (hgains : s.Gains cs ds [])
    (hcs : cs.IsFiled s.collection) (hds : ds.IsFiled s.collection) :
    ds.pointsOf s.collection = cs.pointsOf s.collection :=
  (sorted_pointsOf hds).eq_of_perm (sorted_pointsOf hcs)
    (hgains.points.trans (.of_eq (List.append_nil _)))

/-- A writing that succeeds puts the point of the project in its place and changes nothing else. -/
theorem points_storeProject {id : Uuid} (hm : h.IsLocal)
    (hfiled : h.collections.IsFiled s.collection)
    (hrun : h.attempt (s.storeProject p) = (.ok (.ok id), g)) :
    id = p.id ∧ g.IsLocal ∧
      (∀ name, name ≠ s.collection → g.collections.contents name = h.collections.contents name) ∧
      g.collections.pointsOf s.collection =
        Keyed.insert p.id.render (s.projectPoint p) (h.collections.pointsOf s.collection) := by
  obtain ⟨_, t, hensure, hrest⟩ := run_attempt_bind_ok hrun
  obtain ⟨_, u, hwrite, hreturn⟩ := run_attempt_bind_ok hrest
  cases hreturn
  obtain ⟨hgains, ht, _⟩ := gains_ensureCollection (s := s) hm
  have hfiled' := Host.isFiled_run s.ensureCollection.run hm hfiled
  have hensured : h.run s.ensureCollection.run = _ := hensure
  rw [hensured] at hgains ht hfiled'
  obtain ⟨hcomes, hlocal⟩ := Host.comes_of_call ht hwrite
  obtain ⟨hanswer, hafter⟩ := hcomes.answered_of_ok nofun
  obtain ⟨c, hc, _, hmade⟩ := Collections.answer_upsert_ok hanswer
  rw [hmade] at hafter
  refine ⟨rfl, hlocal, fun name hname => ?_, ?_⟩
  · rw [hafter, Collections.contents_insert]
    exact (if_neg (Ne.symm hname)).trans (hgains.others name hname)
  · rw [← hgains.points_eq hfiled hfiled', hafter, Collections.pointsOf, Collections.pointsOf, hc,
      Keyed.get?_insert, if_pos rfl]
    rfl

/-! ## Reading -/

theorem projectsOf_eq (cs : Collections) :
    (cs.matching s.collection ⟨[.text "type" "project"]⟩).filterMap Payload.toProject? =
      projectsOf (cs.pointsOf s.collection) := by
  rw [matching_eq, List.filterMap_filter, List.filterMap_map, projectsOf]
  refine List.filterMap_congr fun e _ => ?_
  by_cases hproject : e.2.payload.IsProject
  · exact if_pos (Payload.accepts_projects.mpr hproject)
  · refine (if_neg (mt Payload.accepts_projects.mp hproject)).trans ?_
    exact (Option.eq_none_iff_forall_ne_some.mpr fun q hq =>
      hproject (Payload.isProject_of_toProject? hq)).symm

/-- Under an id the project is read whose point is filed under it. -/
theorem run_loadProject {id : Uuid} (hm : h.IsLocal)
    (hall : h.ReadsAll (s.loadProject id).run) : (h.attempt (s.loadProject id)).1 =
      .ok (.ok ((Keyed.get? id.render (h.collections.pointsOf s.collection)).bind
        Payload.toProject?)) := by
  obtain ⟨hread, _⟩ := readsAll_attempt_bind hall fun _ hp => hp
  obtain ⟨points, t, hcall, hanswer, _⟩ := run_read rfl hm (readsAll_orIfMissing hread)
  have hpoints : h.attempt (orIfMissing [] (s.call (.retrieve s.collection [id.render]))) =
      (.ok (.ok points), t) :=
    (run_attempt_bind (run_lift hcall) _).trans rfl
  have hrun : (h.attempt (s.loadProject id)).1 = .ok (.ok (points.findSome? Payload.toProject?)) :=
    congrArg Prod.fst ((run_attempt_bind hpoints _).trans rfl)
  obtain ⟨c, hc, rfl⟩ := Collections.reading_eq_ok hanswer
  rw [hrun, Collections.pointsOf, hc]
  cases hpoint : Keyed.get? id.render c.points with
  | none => simp [hpoint]
  | some pt => simp [hpoint]

/-! ## The order of projects -/

theorem comesBefore_iff {p q : Project} : comesBefore p q = true ↔
    p.name < q.name ∨ (p.name = q.name ∧ p.id.number.toNat ≤ q.id.number.toNat) := by
  simp [comesBefore]

theorem comesBefore_total (p q : Project) : comesBefore p q = true ∨ comesBefore q p = true := by
  rw [comesBefore_iff, comesBefore_iff]
  by_cases hlt : p.name < q.name
  · exact .inl (.inl hlt)
  · by_cases hgt : q.name < p.name
    · exact .inr (.inl hgt)
    · have hname : p.name = q.name := String.le_antisymm (String.not_lt.mp hgt) (String.not_lt.mp hlt)
      rcases Nat.le_total p.id.number.toNat q.id.number.toNat with hle | hle
      · exact .inl (.inr ⟨hname, hle⟩)
      · exact .inr (.inr ⟨hname.symm, hle⟩)

theorem comesBefore_trans (p q r : Project) (hpq : comesBefore p q = true)
    (hqr : comesBefore q r = true) : comesBefore p r = true := by
  rw [comesBefore_iff] at hpq hqr ⊢
  rcases hpq with hpq | ⟨hpq, hid⟩
  · rcases hqr with hqr | ⟨hqr, _⟩
    · exact .inl (String.lt_trans hpq hqr)
    · exact .inl (hqr ▸ hpq)
  · rcases hqr with hqr | ⟨hqr, hid'⟩
    · exact .inl (hpq ▸ hqr)
    · exact .inr ⟨hpq.trans hqr, Nat.le_trans hid hid'⟩

/-- If no reading fails for good, all projects that points tell are read in order. -/
theorem run_loadProjects (hm : h.IsLocal) (hfiled : h.collections.IsFiled s.collection)
    (hlimit : (h.collections.matching s.collection ⟨[.text "type" "project"]⟩).length ≤
      pageSize * (s.pageLimit + 1))
    (hall : h.ReadsAll s.loadProjects.run) : ∃ stored,
      (h.attempt s.loadProjects).1 = .ok (.ok stored) ∧
      (stored.Pairwise fun p q => p.name < q.name ∨
        (p.name = q.name ∧ p.id.number.toNat ≤ q.id.number.toNat)) ∧
      stored.Perm (projectsOf (h.collections.pointsOf s.collection)) := by
  obtain ⟨hread, _⟩ := readsAll_attempt_bind hall fun _ hp => hp
  obtain ⟨t, hrun⟩ := run_scrollAll hm hfiled hlimit hread
  refine ⟨_, congrArg Prod.fst ((run_attempt_bind hrun _).trans rfl), ?_,
    (Sorting.sort_perm _ _).trans (.of_eq (projectsOf_eq _))⟩
  exact (Sorting.pairwise_sort comesBefore_total comesBefore_trans _).imp comesBefore_iff.mp

/-! ## The projects behind a writing -/

/-- Behind a writing there are the project and those of the points that are filed elsewhere. -/
theorem projectsOf_insert {points : List (String × Point)} (hsorted : Keyed.Sorted points)
    (htime : ∀ t ∈ p.indexedAt, t.IsOrdinary) :
    (projectsOf (Keyed.insert p.id.render (s.projectPoint p) points)).Perm
      (p :: projectsOf (Keyed.erase p.id.render points)) := by
  have hread : Payload.toProject? (s.projectPoint p) = some p :=
    (Payload.toProject?_ofProject p _ _).trans (congrArg some (Project.reread_eq_self htime))
  refine ((Keyed.insert_perm hsorted (s.projectPoint p)).filterMap _).trans (.of_eq ?_)
  exact List.filterMap_cons_some hread

/-- The points of projects are filed under the texts of the ids that they tell. -/
def FiledById (points : List (String × Point)) : Prop :=
  ∀ e ∈ points, e.2.payload.IsProject → e.2.payload.projectId? = some e.1

/-- No id is spelt in two ways by the texts under which projects are filed, and this one is spelt as
it is written. -/
def SpeltOnce (id : Uuid) (points : List (String × Point)) : Prop :=
  ∀ e ∈ points, ∀ q, Payload.toProject? e.2 = some q → (q.id = id → e.1 = id.render) ∧
    ∀ e' ∈ points, ∀ q', Payload.toProject? e'.2 = some q' → q'.id = q.id → e'.1 = e.1

section

variable {points : List (String × Point)} {id : Uuid}

/-- The text under which a project is filed reads as its id. -/
theorem FiledById.parse?_eq (hfiled : FiledById points) {e : String × Point} (he : e ∈ points)
    {q : Project} (hq : Payload.toProject? e.2 = some q) : Uuid.parse? e.1 = some q.id := by
  have hid : e.2.payload.getStr? "project_id" = some e.1 :=
    hfiled e he (Payload.isProject_of_toProject? hq)
  rw [Payload.toProject?, hid] at hq
  split at hq
  · cases hq
  · obtain ⟨read, hread, hq⟩ := Option.bind_eq_some_iff.mp hq
    cases hq
    exact hread

theorem FiledById.id_eq (hfiled : FiledById points) {e : String × Point} (he : e ∈ points)
    {q : Project} (hq : Payload.toProject? e.2 = some q) (hid : e.1 = id.render) : q.id = id := by
  have hread := hfiled.parse?_eq he hq
  rw [hid, Uuid.parse?_render] at hread
  exact (Option.some.inj hread).symm

/-- All projects with other ids are filed elsewhere. -/
theorem FiledById.others_eq (hfiled : FiledById points) (id : Uuid) :
    (projectsOf (Keyed.erase id.render points)).filter (·.id ≠ id) =
      (projectsOf points).filter (·.id ≠ id) := by
  rw [projectsOf, projectsOf, Keyed.erase, List.filterMap_filter, List.filter_filterMap,
    List.filter_filterMap]
  refine List.filterMap_congr fun e he => ?_
  by_cases helse : e.1 = id.render
  · cases hq : Payload.toProject? e.2 with
    | none => simp
    | some q =>
      have hid := hfiled.id_eq he hq helse
      simp [helse, hid, Option.filter]
  · simp [helse]

/-- Projects that are filed under different texts have different ids if no id is spelt in two
ways. -/
theorem pairwise_ids_iff (hsorted : Keyed.Sorted points) :
    (projectsOf points).Pairwise (·.id ≠ ·.id) ↔
      ∀ e ∈ points, ∀ q, Payload.toProject? e.2 = some q →
        ∀ e' ∈ points, ∀ q', Payload.toProject? e'.2 = some q' → q'.id = q.id → e'.1 = e.1 := by
  rw [projectsOf, List.pairwise_filterMap]
  constructor
  · intro hpairwise e he q hq e' he' q' hq' hid
    by_contra hne
    have : Std.Symm fun a b : String × Point => ∀ q, Payload.toProject? a.2 = some q →
        ∀ q', Payload.toProject? b.2 = some q' → q.id ≠ q'.id :=
      ⟨fun a b hab q hq q' hq' => (hab q' hq' q hq).symm⟩
    exact hpairwise.forall he' he (fun heq => hne (congrArg Prod.fst heq)) q' hq' q hq hid
  · intro hspelt
    refine hsorted.imp_of_mem fun {e e'} he he' hlt q hq q' hq' hid => ?_
    exact String.lt_irrefl e.1 (hspelt e he q hq e' he' q' hq' hid.symm ▸ hlt)

/-- An id is twice among a project and those that are filed elsewhere just if an id is spelt in two
ways. -/
theorem nodup_ids_iff (hsorted : Keyed.Sorted points) (hfiled : FiledById points) (p : Project) :
    ((p :: projectsOf (Keyed.erase p.id.render points)).map (·.id)).Nodup ↔
      SpeltOnce p.id points := by
  have helsewhere : ∀ {e : String × Point}, e ∈ Keyed.erase p.id.render points ↔
      e ∈ points ∧ e.1 ≠ p.id.render := by
    simp [Keyed.erase]
  have hsorted' : Keyed.Sorted (Keyed.erase p.id.render points) := hsorted.filter _
  rw [List.map_cons, List.nodup_cons, List.Nodup, List.pairwise_map, pairwise_ids_iff hsorted']
  constructor
  · rintro ⟨hother, hothers⟩ e he q hq
    have hwritten : ∀ e ∈ points, ∀ q, Payload.toProject? e.2 = some q → q.id = p.id →
        e.1 = p.id.render := by
      intro e he q hq hid
      by_contra hne
      exact hother (List.mem_map.mpr
        ⟨q, List.mem_filterMap.mpr ⟨e, helsewhere.mpr ⟨he, hne⟩, hq⟩, hid⟩)
    refine ⟨hwritten e he q hq, fun e' he' q' hq' hid => ?_⟩
    by_cases hplace : e.1 = p.id.render
    · exact (hwritten e' he' q' hq' (hid.trans (hfiled.id_eq he hq hplace))).trans hplace.symm
    · have hplace' : e'.1 ≠ p.id.render := fun heq =>
        hplace (hwritten e he q hq (hid.symm.trans (hfiled.id_eq he' hq' heq)))
      exact hothers e (helsewhere.mpr ⟨he, hplace⟩) q hq e' (helsewhere.mpr ⟨he', hplace'⟩) q' hq' hid
  · intro hspelt
    refine ⟨fun hmem => ?_, fun e he q hq e' he' q' hq' hid => ?_⟩
    · obtain ⟨q, hq, hid⟩ := List.mem_map.mp hmem
      obtain ⟨e, he, hread⟩ := List.mem_filterMap.mp hq
      obtain ⟨he, hne⟩ := helsewhere.mp he
      exact hne ((hspelt e he q hread).1 hid)
    · exact (hspelt e (helsewhere.mp he).1 q hq).2 e' (helsewhere.mp he').1 q' hq' hid

/-- Texts as they are written spell each id in one way. -/
theorem speltOnce_of_render (hrender : ∀ e ∈ points, ∀ q, Payload.toProject? e.2 = some q →
    e.1 = q.id.render) (id : Uuid) : SpeltOnce id points := by
  intro e he q hq
  refine ⟨fun hid => hid ▸ hrender e he q hq, fun e' he' q' hq' hid => ?_⟩
  rw [hrender e he q hq, hrender e' he' q' hq', hid]

end

end SymbolStore

/-! ## Main result -/

open SymbolStore in
/-- If a project is written, however often calls fail meanwhile, then nothing else has changed, and as
long as it stays so the project is read by its id just as it was written, if no reading fails for good.
All projects are read in the order of their names, and of their ids where names are equal: this one and
those of all other points, among which are all that were there with other ids. No id is twice among
them unless projects are filed under two spellings of one id. -/
theorem storeProject_readBack (s : SymbolStore) (p : Project) {h g : Host} {id : Uuid}
    (hm : h.IsLocal) (hfiled : h.collections.IsFiled s.collection)
    (hids : FiledById (h.collections.pointsOf s.collection))
    (htime : ∀ t ∈ p.indexedAt, t.IsOrdinary)
    (hrun : h.attempt (s.storeProject p) = (.ok (.ok id), g)) :
    id = p.id ∧
    (∀ name, name ≠ s.collection → g.collections.contents name = h.collections.contents name) ∧
    (∀ key, key ≠ p.id.render → Keyed.get? key (g.collections.pointsOf s.collection) =
      Keyed.get? key (h.collections.pointsOf s.collection)) ∧
    ∀ t : Host, t.IsLocal → t.collections = g.collections →
      (t.ReadsAll (s.loadProject p.id).run →
        (t.attempt (s.loadProject p.id)).1 = .ok (.ok (some p))) ∧
      ((t.collections.matching s.collection ⟨[.text "type" "project"]⟩).length ≤
          pageSize * (s.pageLimit + 1) →
        t.ReadsAll s.loadProjects.run → ∃ stored, (t.attempt s.loadProjects).1 = .ok (.ok stored) ∧
          (stored.Pairwise fun a b => a.name < b.name ∨
            (a.name = b.name ∧ a.id.number.toNat ≤ b.id.number.toNat)) ∧
          stored.Perm (p :: projectsOf
            (Keyed.erase p.id.render (h.collections.pointsOf s.collection))) ∧
          (stored.filter (·.id ≠ p.id)).Perm
            ((projectsOf (h.collections.pointsOf s.collection)).filter (·.id ≠ p.id)) ∧
          ((stored.map (·.id)).Nodup ↔
            SpeltOnce p.id (h.collections.pointsOf s.collection))) := by
  obtain ⟨hid, hlocal, hothers, hpoints⟩ := points_storeProject hm hfiled hrun
  have hsorted := sorted_pointsOf hfiled
  refine ⟨hid, hothers, fun key hkey => ?_, fun t ht hsame => ⟨fun hall => ?_, fun hlimit hall => ?_⟩⟩
  · rw [hpoints, Keyed.get?_insert, if_neg (Ne.symm hkey)]
  · have hread := (Payload.toProject?_ofProject p p.id.render s.placeholder).trans
      (congrArg some (Project.reread_eq_self htime))
    rw [run_loadProject ht hall, hsame, hpoints, Keyed.get?_insert, if_pos rfl, Option.bind_some,
      projectPoint, hread]
  · have hfiled' : t.collections.IsFiled s.collection := by
      have hkept := Host.isFiled_run (s.storeProject p).run hm hfiled
      rw [show h.run (s.storeProject p).run = _ from hrun] at hkept
      rwa [hsame]
    obtain ⟨stored, hread, hordered, hperm⟩ := run_loadProjects ht hfiled' hlimit hall
    rw [hsame, hpoints] at hperm
    have hall := hperm.trans (projectsOf_insert hsorted htime)
    refine ⟨stored, hread, hordered, hall, ?_, ?_⟩
    · rw [← hids.others_eq]
      refine (hall.filter _).trans (.of_eq ?_)
      exact List.filter_cons_of_neg (by simp)
    · exact (hall.map (·.id)).nodup_iff.trans (nodup_ids_iff hsorted hids p)

section

set_option maxRecDepth 100000

/-- A project with a configuration, which was indexed at some time of some day. -/
def Project.configured : Project where
  id := .ofNat 9
  name := "new"
  rootPath := "/new"
  status := .active
  fileCount := 2
  symbolCount := 5
  indexedAt := some ⟨951825599, 120000000⟩
  config := [("depth", .nat 3), ("exclude_patterns", .strings ["*.tmp"])]

/-- A project is there, and the next writing and the next readings of points fail. -/
def Host.withOldProject : Host where
  store := .memory { collections := [("points", {
    shape := ⟨"points", 0, .cosine⟩
    points := [((Uuid.ofNat 7).render,
      SymbolStore.patient.projectPoint { id := .ofNat 7, name := "old", rootPath := "/old" })] })] }
  faults := [⟨"upsert", .failure (.transient "timeout"), 0⟩,
    ⟨"retrieve", .failure (.transient "timeout"), 0⟩, ⟨"scroll", .failure (.transient "timeout"), 0⟩]

/-- A second project is written. -/
def Host.withBothProjects : Host :=
  (Host.withOldProject.attempt (SymbolStore.patient.storeProject .configured)).2

open SymbolStore in
theorem storeProject_readBack_second : ∃ stored,
    (Host.withBothProjects.attempt (patient.loadProject (.ofNat 9))).1 =
      .ok (.ok (some .configured)) ∧
    (Host.withBothProjects.attempt patient.loadProjects).1 = .ok (.ok stored) ∧
    stored.Perm (.configured :: projectsOf
      (Keyed.erase (Uuid.ofNat 9).render (Host.withOldProject.collections.pointsOf "points"))) ∧
    (stored.map (·.id)).Nodup := by
  have hwritten : ((Host.withOldProject.attempt (patient.storeProject .configured)).1.toOption.bind
      Except.toOption) = some (.ofNat 9) := by
    decide +kernel
  have hfiled : Host.withOldProject.collections.IsFiled "points" := by
    intro c hc
    cases hc
    exact ⟨List.pairwise_singleton _ _, fun e he => List.mem_singleton.mp he ▸ rfl⟩
  have hids : FiledById (Host.withOldProject.collections.pointsOf "points") := by
    unfold FiledById
    decide +kernel
  have htime : ∀ t ∈ Project.configured.indexedAt, t.IsOrdinary := by
    rintro _ ⟨⟩
    exact ⟨by decide +kernel, by decide⟩
  have hspelt : SpeltOnce (.ofNat 9) (Host.withOldProject.collections.pointsOf "points") := by
    refine speltOnce_of_render (fun e he q hq => ?_) _
    cases List.mem_singleton.mp he
    cases (Payload.toProject?_ofProject _ _ _).symm.trans hq
    rfl
  have hread := (storeProject_readBack .patient .configured (h := .withOldProject)
    (g := .withBothProjects) ⟨_, rfl⟩ hfiled hids htime
    (Prod.ext (eq_of_toOption hwritten) rfl)).2.2.2 .withBothProjects ⟨_, rfl⟩ rfl
  obtain ⟨stored, hall, _, hperm, _, hnodup⟩ := hread.2 (by decide +kernel)
    ⟨exists_of_toOption (by decide +kernel), by decide +kernel⟩
  exact ⟨stored, hread.1 ⟨exists_of_toOption (by decide +kernel), by decide +kernel⟩, hall, hperm,
    hnodup.mpr hspelt⟩

/-- A project is filed under its id in capital letters. -/
def Host.withCapitals : Host where
  store := .memory { collections := [("points", {
    shape := ⟨"points", 0, .cosine⟩
    points := [("00000000-0000-0000-0000-00000000000A", ⟨"00000000-0000-0000-0000-00000000000A", [],
      .ofEntries [("type", .str "project"),
        ("project_id", .str "00000000-0000-0000-0000-00000000000A")]⟩)] })] }

/-- The project with this id is written. -/
def Host.withBothSpellings : Host :=
  (Host.withCapitals.attempt (SymbolStore.patient.storeProject
    { id := .ofNat 10, name := "new", rootPath := "/new" })).2

open SymbolStore in
/-- If the id of a project is spelt in two ways, then it is twice among the projects. -/
theorem loadProjects_of_twoSpellings :
    Host.withCapitals.collections.IsFiled "points" ∧
    FiledById (Host.withCapitals.collections.pointsOf "points") ∧
    (Host.withCapitals.attempt (patient.storeProject
      { id := .ofNat 10, name := "new", rootPath := "/new" })).1 = .ok (.ok (.ofNat 10)) ∧
    ∃ stored, (Host.withBothSpellings.attempt patient.loadProjects).1 = .ok (.ok stored) ∧
      stored.map (·.id) = [.ofNat 10, .ofNat 10] ∧ ¬ (stored.map (·.id)).Nodup := by
  refine ⟨fun c hc => ?_, ?_, eq_of_toOption (by decide +kernel), ?_⟩
  · cases hc
    exact ⟨List.pairwise_singleton _ _, fun e he => List.mem_singleton.mp he ▸ rfl⟩
  · unfold FiledById
    decide +kernel
  · have hids : ((Host.withBothSpellings.attempt patient.loadProjects).1.toOption.bind
        Except.toOption).map (·.map (·.id)) = some [.ofNat 10, .ofNat 10] := by
      decide +kernel
    obtain ⟨stored, hstored, hids⟩ := Option.map_eq_some_iff.mp hids
    exact ⟨stored, eq_of_toOption hstored, hids, by rw [hids]; decide⟩

end

end CodeAtlas
