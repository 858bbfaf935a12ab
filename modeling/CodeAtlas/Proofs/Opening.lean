import CodeAtlas.Proofs.Heading
/-!
# Paths that open directories

A path opens a directory if what it names is there, link by link and directory by directory. Then names
behind the path are looked up in this directory. Whatever leaves links and directories as they are
leaves a path that opens a directory as it is, so documents can be written one after another.

Results:
1. `lookUpWithin_append`, `lookUpWithin_append_ok`: names are looked up one behind another.
2. `Opens.join`, `Opens.placeOf_join`: names behind a path that opens a directory.
3. `Opens.of_keepsWays`: a path goes on to open a directory.
-/

namespace CodeAtlas.FileSystem

variable {fs fs' : FileSystem} {base name path : String} {place p q : List String}

/-! ## Looking up -/

/-- What leads to a place by further names leads there by way of where the first ones lead. -/
theorem lookUpWithin_append_ok {n : Nat} {first later : List String}
    (h : fs.lookUpWithin n place (first ++ later) = .ok q) : ∃ p follow,
      fs.lookUpWithin n place first = .ok p ∧ fs.lookUp follow p later = .ok q := by
  refine lookUpWithin_induction (P := fun look => ∀ place first, look place (first ++ later) = .ok q →
    ∃ p follow, look place first = .ok p ∧ fs.lookUp follow p later = .ok q)
    (fun _ _ h => by cases h) (fun follow hfollow place first => ?_) n place first h
  induction first generalizing place with
  | nil => exact fun h => ⟨place, follow, rfl, h⟩
  | cons name rest ih =>
    rw [List.cons_append]
    cases fs.step place name with
    | here _ hgoes | up _ hgoes | down _ _ _ hgoes =>
      rw [hgoes, hgoes]
      exact ih _
    | refused e hgoes =>
      rw [hgoes]
      exact nofun
    | file _ _ _ hgoes =>
      intro h
      rw [hgoes] at h
      split at h
      · -- a file is the end of all names
        next hempty =>
        obtain ⟨hrest, hlater⟩ := List.append_eq_nil_iff.mp (List.isEmpty_iff.mp hempty)
        cases h
        rw [hgoes, if_pos (List.isEmpty_iff.mpr hrest), hlater]
        exact ⟨_, follow, rfl, rfl⟩
      · cases h
    | link _ _ _ hgoes =>
      rw [hgoes, hgoes, ← List.append_assoc]
      exact hfollow _ _

/-- Further names are looked up in the directory to which the first ones lead. -/
theorem lookUpWithin_append {n : Nat} {first : List String}
    (h : fs.lookUpWithin n place first = .ok p) (hdir : fs.holds? p = some .dir)
    (later : List String) :
    ∃ follow, fs.lookUpWithin n place (first ++ later) = fs.lookUp follow p later := by
  refine lookUpWithin_induction (P := fun look => ∀ place first, look place first = .ok p →
    ∃ follow, look place (first ++ later) = fs.lookUp follow p later)
    (fun _ _ h => by cases h) (fun follow hfollow place first => ?_) n place first h
  induction first generalizing place with
  | nil =>
    intro h
    cases h
    exact ⟨follow, rfl⟩
  | cons name rest ih =>
    rw [List.cons_append]
    cases fs.step place name with
    | here _ hgoes | up _ hgoes | down _ _ _ hgoes =>
      rw [hgoes, hgoes]
      exact ih _
    | refused e hgoes =>
      rw [hgoes]
      exact nofun
    | file _ _ hfile hgoes =>
      intro h
      rw [hgoes] at h
      split at h
      · cases h
        cases hfile.symm.trans hdir
      · cases h
    | link _ _ _ hgoes =>
      rw [hgoes, hgoes, ← List.append_assoc]
      exact hfollow _ _

/-! ## Ways that stay -/

/-- Directories and links stay where they are. -/
structure KeepsWays (fs fs' : FileSystem) : Prop where
  dirs : ∀ place, fs.holds? place = some .dir → fs'.holds? place = some .dir
  links : ∀ place target, fs.holds? place = some (.link target) →
    fs'.holds? place = some (.link target)
  current : fs'.current = fs.current

theorem KeepsWays.refl (fs : FileSystem) : fs.KeepsWays fs := ⟨fun _ h => h, fun _ _ h => h, rfl⟩

theorem KeepsWays.trans {fs'' : FileSystem} (h : fs.KeepsWays fs') (h' : fs'.KeepsWays fs'') :
    fs.KeepsWays fs'' :=
  ⟨fun _ hdir => h'.dirs _ (h.dirs _ hdir), fun _ _ hlink => h'.links _ _ (h.links _ _ hlink),
    h'.current.trans h.current⟩

/-- What changes only what is at a place and below leaves the ways if nothing or a file was there. -/
theorem keepsWays_of_leaf (hother : ∀ other, ¬ place <+: other → fs'.holds? other = fs.holds? other)
    (hdir : fs.holds? place ≠ some .dir) (hlink : fs.link? place = none)
    (hcurrent : fs'.current = fs.current) : fs.KeepsWays fs' := by
  have hnothing : ∀ other, place <+: other → fs.holds? other ≠ some .dir ∧
      ∀ target, fs.holds? other ≠ some (.link target) := by
    rintro other ⟨rest, rfl⟩
    cases rest with
    | nil =>
      rw [List.append_nil]
      refine ⟨hdir, fun target hthere => ?_⟩
      rw [link?, hthere] at hlink
      cases hlink
    | cons name rest =>
      have hnone := holds?_below hdir (List.cons_ne_nil name rest)
      rw [hnone]
      exact ⟨Option.some_ne_none _ |>.symm, fun _ => Option.some_ne_none _ |>.symm⟩
  refine ⟨fun other h => ?_, fun other target h => ?_, hcurrent⟩
  · rwa [hother other fun hbegins => (hnothing other hbegins).1 h]
  · rwa [hother other fun hbegins => (hnothing other hbegins).2 target h]

theorem keepsWays_makeDirs (h : fs.makeDirs path = .ok fs') : fs.KeepsWays fs' := by
  refine makeDirs_keeps (P := fs.KeepsWays) (fun fs'' place hways _ hnone => hways.trans ?_)
    (.refl fs) h
  refine keepsWays_of_leaf (fun _ hother => holds?_put_elsewhere hother _) ?_ ?_ rfl
  · rw [hnone]
    exact fun h => by cases h
  · rw [link?, hnone]

theorem keepsWays_write {content : ByteArray} (h : fs.write path content = .ok fs') :
    fs.KeepsWays fs' := by
  obtain ⟨place, hplace, rfl⟩ := write_eq_ok h
  obtain ⟨_, hdir, hlink⟩ := writePlace_eq_ok hplace
  exact keepsWays_of_leaf (fun _ hother => holds?_put_elsewhere hother _) hdir hlink rfl

/-- What leads to a directory goes on to do so as long as directories and links stay. -/
theorem lookUpWithin_of_keepsWays (hways : fs.KeepsWays fs') {n : Nat} {names : List String}
    (h : fs.lookUpWithin n place (names ++ ["."]) = .ok q) :
    fs'.lookUpWithin n place (names ++ ["."]) = .ok q := by
  have hstep : ∀ follow follow' : List String → List String → Except DiskError (List String),
      (∀ place s, follow place (s ++ ["."]) = .ok q → follow' place (s ++ ["."]) = .ok q) →
      ∀ place names, fs.lookUp follow place (names ++ ["."]) = .ok q →
        fs'.lookUp follow' place (names ++ ["."]) = .ok q := by
    intro follow follow' hfollow place names
    induction names generalizing place with
    | nil =>
      intro h
      cases h
      rfl
    | cons name rest ih =>
      -- both sides are opened together, since the same is there under each name on the way
      rw [List.cons_append, lookUp_cons, lookUp_cons]
      split
      · exact ih _
      · split
        · exact ih _
        · split
          · exact fun h => by cases h
          · split
            · exact fun h => by cases h
            · next hdir =>
              rw [hways.dirs _ hdir]
              exact ih _
            · intro h
              split at h
              · next hempty => exact absurd (List.isEmpty_iff.mp hempty) (by simp)
              · cases h
            · next target hlink =>
              rw [hways.links _ target hlink]
              dsimp only
              split
              · exact fun h => by cases h
              · rw [← List.append_assoc]
                exact hfollow _ _
  induction n generalizing place names with
  | zero => exact hstep _ _ (fun _ _ h => by cases h) _ _ h
  | succ n ih =>
    exact hstep _ _ (fun place s (h : fs.lookUpWithin n place (s ++ ["."]) = .ok q) => ih h) _ _ h

/-! ## Opening -/

/-- A path leads to a place in which further names can be looked up. -/
def Opens (fs : FileSystem) (path : String) (place : List String) : Prop :=
  fs.lookUpWithin maxLinks (fs.start path) (Path.pieces path ++ ["."]) = .ok place

theorem Opens.of_keepsWays (h : fs.Opens path place) (hways : fs.KeepsWays fs') :
    fs'.Opens path place := by
  rw [Opens, start, hways.current]
  exact lookUpWithin_of_keepsWays hways h

theorem Opens.heading?_eq (h : fs.Opens path place) : fs.heading? path = some place := by
  have hheads := headingWithin_of_lookUpWithin h
  rwa [headingWithin_append_dot] at hheads

theorem Opens.headsTo (h : fs.Opens path place) : fs.HeadsTo path place :=
  fun _ hq => Option.some.inj (hq.symm.trans h.heading?_eq)

/-- Where a name can be put behind a path, the path opens a directory. -/
theorem opens_of_placeOf_join (hname : Path.IsPlain name)
    (h : fs.placeOf (Path.join base name) = .ok place) :
    ∃ p, fs.Opens base p ∧ place = p ++ [name] := by
  obtain ⟨front, last, parent, hsteps, _, _, hparent, rfl⟩ := placeOf_eq_ok h
  rw [steps_join base hname] at hsteps
  obtain ⟨rfl, hlast⟩ := List.append_inj' hsteps rfl
  cases hlast
  rw [start_join fs base hname] at hparent
  exact ⟨parent, hparent, rfl⟩

/-- A path with a name behind it opens a directory, unless a link is there. -/
theorem Opens.of_join (hname : Path.IsPlain name) (hheads : fs.HeadsTo base p)
    (hlink : fs.link? (p ++ [name]) = none) (h : fs.Opens (Path.join base name) q) :
    q = p ++ [name] ∧ fs.holds? (p ++ [name]) = some .dir := by
  rw [Opens, start_join fs base hname, Path.pieces_join base hname, List.append_assoc] at h
  obtain ⟨p', follow, hfirst, hlater⟩ := lookUpWithin_append_ok h
  cases hheads p' (headingWithin_of_lookUpWithin hfirst)
  rw [List.singleton_append, lookUp_cons, if_neg (by simpa using hname.2.2.1),
    if_neg (by simpa using hname.2.2.2)] at hlater
  split at hlater
  · cases hlater
  · split at hlater
    · cases hlater
    · next hdir =>
      cases hlater
      exact ⟨rfl, hdir⟩
    · cases hlater
    · next target hthere =>
      rw [link?, hthere] at hlink
      cases hlink

/-- A path that opens a directory opens those in it by their names. -/
theorem Opens.join (h : fs.Opens base p) (hname : Path.IsPlain name)
    (hshort : name.utf8ByteSize ≤ maxName) (hdir : fs.holds? (p ++ [name]) = some .dir) :
    fs.Opens (Path.join base name) (p ++ [name]) := by
  obtain ⟨p', follow, hfirst, hlater⟩ := lookUpWithin_append_ok h
  cases hlater
  have hp : fs.holds? p = some .dir := by
    refine holds?_above (by rw [hdir]; exact fun h => by cases h) (List.prefix_append p [name]) ?_
    exact fun heq => by simpa using congrArg List.length heq
  obtain ⟨follow', happend⟩ := lookUpWithin_append hfirst hp [name, "."]
  rw [Opens, start_join fs base hname, Path.pieces_join base hname, List.append_assoc,
    List.singleton_append, happend, lookUp_cons, if_neg (by simpa using hname.2.2.1),
    if_neg (by simpa using hname.2.2.2), if_neg (Nat.not_lt.mpr hshort), hdir]
  rfl

/-- A name behind a path that opens a directory has its place there, unless the path is none. -/
theorem Opens.placeOf_join (h : fs.Opens base p) (hname : Path.IsPlain name) :
    fs.placeOf (Path.join base name) = .ok (p ++ [name]) ∨
      ∃ e, fs.placeOf (Path.join base name) = .error e ∧ e ≠ .notFound := by
  -- a path that is refused for its form is not one at which nothing is
  have hcheck : ∀ e, checkPath (Path.join base name) = .error e → e ≠ .notFound := by
    intro e he
    have hne : Path.join base name ≠ "" := fun hempty => by
      have hpieces := Path.pieces_join base hname
      rw [hempty] at hpieces
      exact absurd hpieces (by simp [show Path.pieces "" = [] from rfl])
    rw [checkPath, if_neg (show ¬ (Path.join base name == "") = true by simpa using hne)] at he
    split at he
    · cases he
      exact fun h => by cases h
    · split at he
      · cases he
        exact fun h => by cases h
      · cases he
  have hparent : lookUpWithin fs maxLinks (fs.start (Path.join base name))
      (Path.pieces base ++ ["."]) = .ok p := by
    rw [start_join fs base hname]
    exact h
  rw [placeOf]
  cases hchecked : checkPath (Path.join base name) with
  | error e => exact .inr ⟨e, rfl, hcheck e hchecked⟩
  | ok _ =>
    have hreverse : (steps (Path.join base name)).reverse = name :: (Path.pieces base).reverse := by
      rw [steps_join base hname, List.reverse_append]
      rfl
    rw [hreverse]
    dsimp only [bind, Except.bind]
    rw [List.reverse_reverse, hparent]
    dsimp only
    rw [if_neg (by simpa using ⟨hname.2.2.1, hname.2.2.2⟩)]
    split
    · exact .inr ⟨_, rfl, fun h => by cases h⟩
    · exact .inl rfl

end CodeAtlas.FileSystem
