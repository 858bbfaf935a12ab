import CodeAtlas.Proofs.Heading
import CodeAtlas.Proofs.History
import CodeAtlas.Proofs.Looks
import CodeAtlas.Proofs.Refusals
/-!
# Walks are confined to the allowed roots

Whether a directory may be indexed is decided by its place, not by its path: links are resolved on both
sides, and places are compared name by name. This is asked anew by every run, of the file system as it
is and of the allowed roots as they are, also where a project is known already. So what was allowed
once, or where a path has led once, does not count.

Results:
1. `AllowedRoots.validate_iff`: which paths are valid, and for which places they stand.
2. `AllowedRoots.Admits.resolve_eq`: the path of a place that is given leads nowhere else.
3. `confined_indexProject`, `confined_updateProject`: what a run does about a path.
4. `walks_confined`: a run walks a directory only if it may be indexed, and comes to nothing otherwise.
-/

namespace CodeAtlas

/-! ## Valid paths -/

namespace Text

theorem occursIn_iff {needle chars : List Char} :
    occursIn needle chars = true ↔ needle <:+: chars := by
  induction chars with
  | nil => rw [occursIn, List.isEmpty_iff, List.infix_nil]
  | cons c rest ih =>
    rw [occursIn, Bool.or_eq_true, List.isPrefixOf_iff_prefix, ih, List.infix_cons_iff]

theorem not_isAllBlank_iff {s : String} :
    ¬ isAllBlank s = true ↔ ∃ c ∈ s.toList, isBlank c = false := by
  simp [isAllBlank]

end Text

namespace AllowedRoots

/-- A path stands for the place of a directory that may be indexed. -/
structure Admits (fs : FileSystem) (roots : List String) (path : String) (place : List String) :
    Prop where
  /-- The path is not blank -/
  filled : ∃ c ∈ path.toList, Text.isBlank c = false
  /-- and has no two points in a row. -/
  straight : ¬ ['.', '.'] <:+: path.toList
  /-- It leads to the place, -/
  leads : fs.resolve path = .ok place
  /-- where there is a directory, -/
  directory : ∃ es, fs.at? place = some (.dir es)
  /-- which is an allowed root or lies below one. Roots that lead nowhere allow nothing. -/
  allowed : ∃ root ∈ roots, ∃ rootPlace, fs.resolve root = .ok rootPlace ∧ rootPlace <+: place

variable {fs : FileSystem} {roots : List String} {path root : String} {place : List String}

theorem allows_iff : allows fs roots place = true ↔
    ∃ root ∈ roots, ∃ rootPlace, fs.resolve root = .ok rootPlace ∧ rootPlace <+: place := by
  rw [allows, List.any_eq_true]
  refine exists_congr fun root => and_congr_right fun _ => ?_
  cases fs.resolve root with
  | ok rootPlace => simp [List.isPrefixOf_iff_prefix]
  | error e => simp

theorem isDir_iff {node : Option DiskNode} :
    node.any (·.isDir) = true ↔ ∃ es, node = some (.dir es) := by
  rcases node with _ | ⟨_ | _ | es⟩ <;> simp [DiskNode.isDir]

theorem contains_dots_iff : Text.contains ".." path = true ↔ ['.', '.'] <:+: path.toList :=
  Text.occursIn_iff

theorem check_iff : check fs roots path = .ok place ↔ Admits fs roots path place := by
  constructor
  · intro h
    rw [check] at h
    split at h
    · cases h
    next hfilled =>
    split at h
    · cases h
    next hstraight =>
    split at h
    · cases h
    next found hleads =>
    split at h
    · cases h
    next hdir =>
    split at h
    · cases h
    next hallowed =>
    cases h
    rw [Bool.not_eq_true', Bool.not_eq_false] at hdir hallowed
    exact ⟨Text.not_isAllBlank_iff.mp hfilled, mt contains_dots_iff.mpr hstraight, hleads,
      isDir_iff.mp hdir, allows_iff.mp hallowed⟩
  · rintro ⟨hfilled, hstraight, hleads, hdir, hallowed⟩
    rw [check, if_neg (Text.not_isAllBlank_iff.mpr hfilled),
      if_neg (mt contains_dots_iff.mp hstraight), hleads]
    dsimp only
    rw [isDir_iff.mpr hdir, allows_iff.mpr hallowed]
    rfl

/-- A path is valid just if it stands for the place of a directory that may be indexed, and what is
given is the path of this place. -/
theorem validate_iff : validate fs roots path = .ok root ↔
    ∃ place, Admits fs roots path place ∧ root = Path.ofNames place := by
  rw [validate]
  constructor
  · split
    · next place hcheck =>
      intro h
      cases h
      exact ⟨place, check_iff.mp hcheck, rfl⟩
    · exact fun h => by cases h
  · rintro ⟨place, hplace, rfl⟩
    rw [check_iff.mpr hplace]

/-- A path that stands for nothing that may be indexed is refused. -/
theorem validate_eq_error (h : ∀ place, ¬ Admits fs roots path place) :
    ∃ refusal : Refusal, validate fs roots path = .error (.validation refusal.message) := by
  rw [validate]
  cases hcheck : check fs roots path with
  | ok place => exact absurd (check_iff.mp hcheck) (h place)
  | error refusal => exact ⟨refusal, rfl⟩

namespace Admits

theorem plain (hcurrent : ∀ name ∈ fs.current, Path.IsPlain name)
    (h : Admits fs roots path place) : ∀ name ∈ place, Path.IsPlain name := by
  obtain ⟨_, _, hlookUp⟩ := FileSystem.bind_eq_ok h.leads
  refine FileSystem.plain_of_lookUpWithin hlookUp ?_ fun _ => FileSystem.cases_of_mem_steps
  rw [FileSystem.start]
  split
  · exact fun name hname => absurd hname List.not_mem_nil
  · exact hcurrent

/-- What is walked is the directory that may be indexed: its path leads nowhere else. -/
theorem resolve_eq (hcurrent : ∀ name ∈ fs.current, Path.IsPlain name)
    (h : Admits fs roots path place) {found : List String}
    (hfound : fs.resolve (Path.ofNames place) = .ok found) : found = place := by
  have hdir : fs.holds? place = some .dir := by
    obtain ⟨es, hes⟩ := h.directory
    rw [FileSystem.holds?, hes]
    rfl
  exact FileSystem.headsTo_of_isDir (h.plain hcurrent) hdir found
    (FileSystem.heading?_of_resolve hfound)

end Admits

end AllowedRoots

/-! ## Runs -/

open AllowedRoots in
/-- What a run does about a path. If it stands for a directory that may be indexed, the run goes on
with the place of this directory as its root, and walks nothing else. Otherwise it fails, and leaves no
trace. In any case it looks at the path and at the allowed roots only once, and nothing has changed
until then. -/
structure Host.Confines {α : Type} (h : Host) (roots : List String) (path : String) (a : Attempt α)
    (rest : String → Attempt α) : Prop where
  admitted : ∀ place, Admits h.disk roots path place → ∃ g, h.Spares g ∧
    h.attempt a = g.attempt (rest (Path.ofNames place)) ∧
    (h.looks a.run = [(path :: roots, h.disk)] ∨
      h.looks a.run = [(path :: roots, h.disk), ([Path.ofNames place], h.disk)])
  refused : (∀ place, ¬ Admits h.disk roots path place) → ∃ g message, h.Spares g ∧
    h.attempt a = (.ok (.error (.validation message)), g) ∧ h.looks a.run = [(path :: roots, h.disk)]

/-- What an update does about the project that is stored under an id: what is to be done about the path
of its root. If there is none, or it is not found, the update comes to nothing without looking at any
file. -/
structure Host.ConfinesUpdate {α : Type} (h : Host) (x : Indexer) (id : Uuid) (a : Attempt α)
    (rest : Project → String → Attempt α) : Prop where
  found : ∀ p, (h.attempt (x.store.loadProject id)).1 = .ok (.ok (some p)) →
    h.storedProject x.store.collection id = some p ∧
      h.Confines x.config.allowedRoots p.rootPath a (rest p)
  unfound : (∀ p, (h.attempt (x.store.loadProject id)).1 ≠ .ok (.ok (some p))) →
    h.ComesToNothing a ∧ h.looks a.run = []

namespace Indexer

variable {x : Indexer} {h g : Host}

/-- The place of a root is found out by one look. -/
theorem looks_validateRoot (h : Host) (path : String) :
    h.looks (x.validateRoot path).run = [(path :: x.config.allowedRoots, h.disk)] := rfl

/-- What a run does about a path is said by what it does about the place that has been found out. -/
theorem confines_of_validate {α : Type} {a : Attempt α} {rest : String → Attempt α}
    {roots : List String} {path : String} {excludes : ExcludeSet} {maxSize : Nat}
    (hspares : h.Spares g) (hrest : ∀ root, WalksOnce excludes maxSize root (rest root).run)
    (hok : ∀ root, AllowedRoots.validate h.disk roots path = .ok root →
      h.attempt a = g.attempt (rest root) ∧
        h.looks a.run = (path :: roots, h.disk) :: g.looks (rest root).run)
    (herror : ∀ e, AllowedRoots.validate h.disk roots path = .error (.validation e) →
      ∃ message, h.attempt a = (.ok (.error (.validation message)), g) ∧
        h.looks a.run = [(path :: roots, h.disk)]) : h.Confines roots path a rest := by
  constructor
  · intro place hplace
    obtain ⟨hattempt, hlooks⟩ := hok _ (AllowedRoots.validate_iff.mpr ⟨place, hplace, rfl⟩)
    refine ⟨g, hspares, hattempt, ?_⟩
    rw [hlooks]
    rcases (hrest (Path.ofNames place)).looks g with hnone | hone
    · exact .inl (by rw [hnone])
    · exact .inr (by rw [hone, hspares.same.disk])
  · intro hnone
    obtain ⟨refusal, hrefused⟩ := AllowedRoots.validate_eq_error hnone
    obtain ⟨message, hattempt, hlooks⟩ := herror _ hrefused
    exact ⟨g, message, hspares, hattempt, hlooks⟩

theorem confined_indexProject (x : Indexer) (path : String) (patterns : List String) :
    ∃ rest : String → Attempt IndexOutcome,
      (∀ root, WalksOnce (x.excludes patterns) x.config.maxFileSize root (rest root).run) ∧
      ∀ h : Host, h.Confines x.config.allowedRoots path (x.indexProject path patterns) rest := by
  obtain ⟨rest, heq, hrest⟩ := x.walksOnce_indexProject path patterns
  refine ⟨rest, hrest, fun h => ?_⟩
  have hattempt := h.attempt_bind (x.validateRoot path) rest
  have hlooks := h.looks_bind (x.validateRoot path) rest
  rw [x.attempt_validateRoot] at hattempt hlooks
  rw [looks_validateRoot] at hlooks
  rw [heq]
  refine confines_of_validate (.refl h) hrest (fun root hroot => ?_) fun e he => ?_
  · rw [hroot] at hattempt hlooks
    exact ⟨hattempt, hlooks⟩
  · rw [he] at hattempt hlooks
    exact ⟨e, hattempt, hlooks⟩

/-- What is said of a project whose root may not be indexed any more. -/
def lostRoot (p : Project) (e : Failure) : Failure :=
  .validation ("Project path no longer valid: " ++ p.rootPath ++ " (" ++ e.message ++ ")")

/-- A project that has been found, with its root, if that may be indexed still. -/
def rooted (x : Indexer) (p : Project) : Attempt (Project × String) := do
  match ← (x.validateRoot p.rootPath).outcome with
  | .ok root => return (p, root)
  | .error e => throw (lostRoot p e)

theorem knownProject_eq (x : Indexer) (id : Uuid) :
    x.knownProject id = x.store.loadProject id >>= fun found =>
      match found with
      | none => throw (.notFound ("Project not found: " ++ id.render))
      | some p => x.rooted p := rfl

/-- The root of a project that has been found is looked at once. -/
theorem attempt_rooted (h : Host) (p : Project) :
    h.attempt (x.rooted p) = (.ok ((AllowedRoots.validate h.disk x.config.allowedRoots
        p.rootPath).map (p, ·) |>.mapError (lostRoot p)), h) ∧
      h.looks (x.rooted p).run = [(p.rootPath :: x.config.allowedRoots, h.disk)] := by
  have hseen : ∀ q : Plan (Except Failure (Project × String)),
      q = (match AllowedRoots.validate h.disk x.config.allowedRoots p.rootPath with
        | .ok root => (return (p, root) : Attempt (Project × String))
        | .error e => throw (lostRoot p e)).run →
      h.run q = (.ok ((AllowedRoots.validate h.disk x.config.allowedRoots
          p.rootPath).map (p, ·) |>.mapError (lostRoot p)), h) ∧ h.looks q = [] := by
    rintro _ rfl
    cases AllowedRoots.validate h.disk x.config.allowedRoots p.rootPath <;> exact ⟨rfl, rfl⟩
  obtain ⟨hrun, hlooks⟩ := hseen _ rfl
  exact ⟨hrun, congrArg ((p.rootPath :: x.config.allowedRoots, h.disk) :: ·) hlooks⟩

/-- Behind a project that has been found there is what comes of its root. -/
theorem behind_loadProject {α : Type} {id : Uuid} {p : Project} (rest : Project × String → Attempt α)
    (hload : h.attempt (x.store.loadProject id) = (.ok (.ok (some p)), g)) :
    h.attempt (x.knownProject id >>= rest) = g.attempt (x.rooted p >>= rest) ∧
      h.looks (x.knownProject id >>= rest).run = g.looks (x.rooted p >>= rest).run := by
  rw [knownProject_eq, bind_assoc, h.attempt_bind, h.looks_bind, hload,
    Host.looks_of_leavesFiles (x.store.leavesFiles_loadProject id)]
  exact ⟨rfl, rfl⟩

/-- Where no project has been found, files are not looked at. -/
theorem looks_of_unfound {α : Type} {id : Uuid} (rest : Project × String → Attempt α)
    (hnone : ∀ p, (h.attempt (x.store.loadProject id)).1 ≠ .ok (.ok (some p))) :
    h.looks (x.knownProject id >>= rest).run = [] := by
  rw [knownProject_eq, bind_assoc, h.looks_bind,
    Host.looks_of_leavesFiles (x.store.leavesFiles_loadProject id), List.nil_append]
  split
  · next found g hload =>
    cases found with
    | none => rfl
    | some p => exact absurd (congrArg Prod.fst hload) (hnone p)
  · rfl

theorem confined_updateProject (x : Indexer) (id : Uuid) (force : Bool) :
    ∃ rest : Project → String → Attempt UpdateOutcome,
      (∀ p root, WalksOnce (x.excludes p.excludePatterns) x.config.maxFileSize root
        (rest p root).run) ∧
      ∀ h : Host, h.ConfinesUpdate x id (x.updateProject id force) rest := by
  obtain ⟨rest, heq, hrest⟩ := x.walksOnce_updateProject id force
  refine ⟨fun p root => rest (p, root), fun p root => hrest (p, root), fun h => ?_⟩
  rw [heq]
  refine ⟨fun p hload => ?_, fun hnone => ?_⟩
  · cases hrun : h.attempt (x.store.loadProject id) with
    | mk result g =>
      rw [hrun] at hload
      obtain rfl : result = .ok (.ok (some p)) := hload
      have hspares := Host.spares_attempt (x.store.reading_loadProject id).harmless hrun
      have hdisk : g.disk = h.disk := hspares.same.disk
      obtain ⟨hattempt, hlooks⟩ := behind_loadProject rest hrun
      obtain ⟨hrooted, hseen⟩ := attempt_rooted (x := x) g p
      rw [g.attempt_bind, hrooted, hdisk] at hattempt
      rw [g.looks_bind, hrooted, hseen, hdisk] at hlooks
      have hwalks : ∀ root, WalksOnce (x.excludes p.excludePatterns) x.config.maxFileSize root
          (rest (p, root)).run := fun root => hrest (p, root)
      refine ⟨Host.storedProject_of_loadProject hrun,
        confines_of_validate hspares hwalks (fun root hroot => ?_) fun e he => ?_⟩
      · rw [hroot] at hattempt hlooks
        exact ⟨hattempt, hlooks⟩
      · rw [he] at hattempt hlooks
        exact ⟨_, hattempt, hlooks⟩
  · refine ⟨(comesToNothing_knownProject fun p hload => absurd hload (hnone p)).bind rest, ?_⟩
    exact looks_of_unfound rest hnone

end Indexer

/-- A run walks a directory only if it may be indexed, as the file system and the allowed roots are
now. A path is valid just if it is not blank, has no two points in a row, and leads to a directory that
is an allowed root or lies below one, name by name, all links being resolved; and then its place is
given, whose path leads nowhere else. To index a path is to walk this place, and an update walks the
place of the root that is stored, whenever and wherever it has been stored. If there is no such place,
the run fails and leaves no trace. -/
theorem walks_confined (x : Indexer) :
    (∀ fs roots path root, AllowedRoots.validate fs roots path = .ok root ↔
      ∃ place, AllowedRoots.Admits fs roots path place ∧ root = Path.ofNames place) ∧
    (∀ fs roots path place found, (∀ name ∈ fs.current, Path.IsPlain name) →
      AllowedRoots.Admits fs roots path place → fs.resolve (Path.ofNames place) = .ok found →
        found = place) ∧
    (∀ path patterns, ∃ rest : String → Attempt IndexOutcome,
      (∀ root, WalksOnce (x.excludes patterns) x.config.maxFileSize root (rest root).run) ∧
      ∀ h : Host, h.Confines x.config.allowedRoots path (x.indexProject path patterns) rest) ∧
    ∀ id force, ∃ rest : Project → String → Attempt UpdateOutcome,
      (∀ p root, WalksOnce (x.excludes p.excludePatterns) x.config.maxFileSize root
        (rest p root).run) ∧
      ∀ h : Host, h.ConfinesUpdate x id (x.updateProject id force) rest :=
  ⟨fun _ _ _ _ => AllowedRoots.validate_iff,
    fun _ _ _ _ _ hcurrent hplace hfound => hplace.resolve_eq hcurrent hfound,
    x.confined_indexProject, x.confined_updateProject⟩

section

set_option maxRecDepth 100000

/-- Two directories whose names begin alike, and links to each. -/
def FileSystem.relinked : FileSystem where
  root := .dir [
    ("home", .dir [("app", .link "/srv/app"), ("old", .link "../srv/application")]),
    ("srv", .dir [("app", .dir []), ("application", .dir [])])]

/-- A project is stored whose root has become a link. -/
def Host.relinked : Host where
  disk := .relinked
  store := .memory { collections := [("points", {
    shape := ⟨"points", 0, .cosine⟩
    points := [((Uuid.ofNat 1).render, ⟨(Uuid.ofNat 1).render, [],
      .ofProject { id := .ofNat 1, name := "old", rootPath := "/home/old" }⟩)] })] }

/-- An indexer with two allowed roots: one leads nowhere, the other is a link. -/
def Indexer.limited : Indexer :=
  { Indexer.sample with
    config := { allowedRoots := ["/gone", "/home/app"], defaultExcludes := [] } }

theorem walks_confined_relinked :
    (∀ found, FileSystem.relinked.resolve "/srv/app" = .ok found → found = ["srv", "app"]) ∧
    (∀ look ∈ Host.relinked.looks (Indexer.limited.indexProject "/home/app" []).run,
      look.1 = ["/home/app", "/gone", "/home/app"] ∨ look.1 = ["/srv/app"]) ∧
    ∃ g message, Host.relinked.Spares g ∧
      Host.relinked.attempt (Indexer.limited.updateProject (.ofNat 1) false) =
        (.ok (.error (.validation message)), g) := by
  obtain ⟨_, hleads, hindex, hupdate⟩ := walks_confined .limited
  have hplace : AllowedRoots.Admits FileSystem.relinked ["/gone", "/home/app"] "/home/app"
      ["srv", "app"] := AllowedRoots.check_iff.mp (by decide +kernel)
  -- the root of the stored project has become a link that leads out of the allowed roots
  have hnone : ∀ place, ¬ AllowedRoots.Admits FileSystem.relinked ["/gone", "/home/app"]
      "/home/old" place := by
    intro place hadmits
    have hcheck : AllowedRoots.check FileSystem.relinked ["/gone", "/home/app"] "/home/old" =
        .error (.outside "/home/old") := by decide +kernel
    cases hcheck.symm.trans (AllowedRoots.check_iff.mpr hadmits)
  have hload : ((Host.relinked.result? (Indexer.limited.store.loadProject (.ofNat 1))).bind
      (Option.map Project.rootPath)) = some "/home/old" := by decide +kernel
  obtain ⟨found, hfound, hroot⟩ := Option.bind_eq_some_iff.mp hload
  obtain ⟨p, rfl, hp⟩ := Option.map_eq_some_iff.mp hroot
  refine ⟨fun found => hleads _ _ _ _ found (fun _ h => by cases h) hplace, ?_, ?_⟩
  · obtain ⟨rest, _, hconfined⟩ := hindex "/home/app" []
    obtain ⟨_, _, _, hlooks⟩ := (hconfined Host.relinked).admitted _ hplace
    intro look hlook
    rcases hlooks with heq | heq
    all_goals
      rw [heq] at hlook
      simp only [List.mem_cons, List.not_mem_nil, or_false] at hlook
    · exact .inl (congrArg Prod.fst hlook)
    · exact hlook.imp (congrArg Prod.fst) (congrArg Prod.fst)
  · obtain ⟨rest, _, hconfined⟩ := hupdate (.ofNat 1) false
    have hknown := ((hconfined Host.relinked).found p
      (congrArg Prod.fst (Host.attempt_of_result? hfound))).2
    rw [hp] at hknown
    obtain ⟨g, message, hg, hattempt, _⟩ := hknown.refused hnone
    exact ⟨g, message, hg, hattempt⟩

/-- Places are compared name by name. -/
example : AllowedRoots.check FileSystem.relinked ["/srv/app"] "/srv/application" =
    .error (.outside "/srv/application") := by
  decide +kernel

end

end CodeAtlas
