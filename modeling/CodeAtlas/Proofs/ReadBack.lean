import CodeAtlas.Proofs.Opening
/-!
# What is written is read

A file is written behind the links of its path, one after another, and read behind all of them at
once. Both ways end at one place, so what has been written is what is read.

Results:
1. `headsTo_of_writePlace`: a path heads for the place at which its file is written.
2. `read_of_write`, `readText_of_write`: a file that has been written holds what was written.
-/

namespace CodeAtlas

namespace Path

/-- The pieces of a path that goes on from another one. -/
theorem pieces_join_relative (base : String) {path : String} (h : isAbsolute path = false) :
    pieces (join base path) = pieces base ++ pieces path := by
  rw [join, h]
  split
  · contradiction
  · split
    · next hbase =>
      rcases (Bool.or_eq_true _ _).mp hbase with hempty | hends
      · rw [beq_iff_eq.mp hempty, String.empty_append]
        rfl
      · obtain ⟨before, rfl⟩ := eq_append_slash hends
        have hbefore := pieces_append_slash before ""
        rw [String.append_empty] at hbefore
        rw [pieces_append_slash, hbefore, show pieces "" = [] from rfl, List.append_nil]
    · exact pieces_append_slash base path

end Path

namespace FileSystem

variable {fs fs' : FileSystem} {path : String} {place p q : List String}

/-- The directory from which relative paths are seen is there, under names that entries can have. -/
structure HasCurrent (fs : FileSystem) : Prop where
  plain : ∀ name ∈ fs.current, Path.IsPlain name
  dir : fs.holds? fs.current = some .dir

theorem HasCurrent.of_keepsWays (h : fs.HasCurrent) (hways : fs.KeepsWays fs') : fs'.HasCurrent where
  plain := hways.current ▸ h.plain
  dir := hways.current ▸ hways.dirs _ h.dir

theorem HasCurrent.root (h : fs.HasCurrent) : fs.holds? [] = some .dir := by
  by_cases hnil : fs.current = []
  · rw [← hnil]
    exact h.dir
  · exact holds?_above (by rw [h.dir]; exact fun h => by cases h) List.nil_prefix (Ne.symm hnil)

theorem HasCurrent.start_dir (h : fs.HasCurrent) (path : String) :
    fs.holds? (fs.start path) = some .dir := by
  rw [start]
  split
  · exact h.root
  · exact h.dir

theorem HasCurrent.start_plain (h : fs.HasCurrent) (path : String) :
    ∀ name ∈ fs.start path, Path.IsPlain name := by
  rw [start]
  split
  · exact fun _ h => by cases h
  · exact h.plain

/-- A slash or a point at the end asks for a directory. -/
theorem holds?_dir_of_lookUpWithin (hroot : fs.holds? [] = some .dir) {n : Nat} {names : List String}
    (hplace : fs.holds? place = some .dir) (h : fs.lookUpWithin n place (names ++ ["."]) = .ok q) :
    fs.holds? q = some .dir := by
  refine lookUpWithin_induction (P := fun look => ∀ place names, fs.holds? place = some .dir →
    look place (names ++ ["."]) = .ok q → fs.holds? q = some .dir)
    (fun _ _ _ => nofun) (fun follow hfollow place names => ?_) n place names hplace h
  induction names generalizing place with
  | nil =>
    intro hplace h
    cases h
    exact hplace
  | cons name rest ih =>
    intro hplace
    have habove : fs.holds? place.dropLast = some .dir := by
      by_cases hnil : place = []
      · rw [hnil]
        exact hroot
      · refine holds?_above (by rw [hplace]; exact nofun) (List.dropLast_prefix place) fun heq => ?_
        have hlength := congrArg List.length heq
        rw [List.length_dropLast] at hlength
        have := List.length_pos_iff.mpr hnil
        omega
    rw [List.cons_append]
    cases fs.step place name with
    | here _ hgoes =>
      rw [hgoes]
      exact ih _ hplace
    | up _ hgoes =>
      rw [hgoes]
      exact ih _ habove
    | refused e hgoes =>
      rw [hgoes]
      exact nofun
    | down _ _ hdir hgoes =>
      rw [hgoes]
      exact ih _ hdir
    | file _ _ _ hgoes =>
      -- there is a point behind every name, and no file has entries
      rw [hgoes, if_neg (by simp)]
      exact nofun
    | link _ _ _ hgoes =>
      rw [hgoes, ← List.append_assoc]
      refine hfollow _ _ ?_
      split
      · exact hroot
      · exact hplace

/-! ## Links behind one another -/

section

variable {links : List String → Option String} {parent : List String} {name target : String}

theorem heading_mono {follow follow' : List String → List String → Option (List String)}
    (hfollow : ∀ place names, follow place names = some q → follow' place names = some q)
    (names : List String) (place : List String) :
    heading links follow place names = some q → heading links follow' place names = some q := by
  induction names generalizing place with
  | nil => exact id
  | cons name rest ih =>
    rcases heading_step links place name with ⟨next, h⟩ | ⟨next, names, h⟩
    · rw [h, h]
      exact ih next
    · rw [h, h]
      exact hfollow next _

/-- More links than are needed do no harm. -/
theorem headingWithin_mono {m n : Nat} (hle : m ≤ n) {names : List String}
    (h : headingWithin links m place names = some q) :
    headingWithin links n place names = some q := by
  induction n generalizing m place names with
  | zero =>
    cases Nat.le_zero.mp hle
    exact h
  | succ n ih =>
    cases m with
    | zero => exact heading_mono (fun _ _ h => by cases h) names place h
    | succ m => exact heading_mono (fun _ _ h => ih (Nat.le_of_succ_le_succ hle) h) names place h

/-- A slash at the end changes nothing in where a path heads. -/
theorem headingWithin_steps (n : Nat) (path : String) :
    headingWithin links n place (steps path) = headingWithin links n place (Path.pieces path) := by
  rw [steps]
  split
  · exact headingWithin_append_dot n _
  · rw [List.append_nil]
    rfl

/-- Names without links lead straight down. -/
theorem heading_unlinked {follow : List String → List String → Option (List String)}
    {names : List String} (hnames : ∀ name ∈ names, Path.IsPlain name)
    (hlinks : ∀ front, front <+: names → front ≠ [] → links (place ++ front) = none)
    (later : List String) :
    heading links follow place (names ++ later) = heading links follow (place ++ names) later := by
  induction names generalizing place with
  | nil => rw [List.nil_append, List.append_nil]
  | cons name rest ih =>
    obtain ⟨hname, hrest⟩ := List.forall_mem_cons.mp hnames
    have hlink : links (place ++ [name]) = none :=
      hlinks [name] (List.prefix_append [name] rest) (List.cons_ne_nil _ _)
    rw [List.cons_append, heading_plain hname hlink, ih hrest, List.append_assoc]
    · rfl
    · intro front hfront _
      rw [List.append_assoc]
      exact hlinks (name :: front) (List.cons_prefix_cons.mpr ⟨rfl, hfront⟩) (List.cons_ne_nil _ _)

/-- A link at the end of names leads on from where it is. -/
theorem headingWithin_of_link {m n : Nat} (hle : m ≤ n) {front : List String}
    (hname : Path.IsPlain name) (hlink : links (parent ++ [name]) = some target)
    (hfront : headingWithin links m place front = some parent)
    (h : headingWithin links m place (front ++ [name]) = some q) :
    headingWithin links n (if Path.isAbsolute target then [] else parent) (steps target) =
      some q := by
  -- one use of the links, whatever the next ones do with what they are given
  have hstep : ∀ follow : List String → List String → Option (List String),
      (∀ place front, follow place front = some parent → follow place (front ++ [name]) = some q →
        headingWithin links n (if Path.isAbsolute target then [] else parent) (steps target) =
          some q) →
      (∀ place names, follow place names = some q → headingWithin links n place names = some q) →
      ∀ place front, heading links follow place front = some parent →
        heading links follow place (front ++ [name]) = some q →
        headingWithin links n (if Path.isAbsolute target then [] else parent) (steps target) =
          some q := by
    intro follow hbetween hless place front
    induction front generalizing place with
    | nil =>
      intro hfront h
      cases hfront
      rw [List.nil_append, heading, if_neg hname.2.2.1, if_neg hname.2.2.2, hlink] at h
      simpa using hless _ _ h
    | cons first rest ih =>
      rcases heading_step links place first with ⟨next, h⟩ | ⟨next, names, h⟩
      · rw [List.cons_append, h, h]
        exact ih next
      · rw [List.cons_append, h, h, ← List.append_assoc]
        exact hbetween next _
  induction m generalizing place front with
  | zero => exact hstep _ (fun _ _ h => by cases h) (fun _ _ h => by cases h) _ _ hfront h
  | succ m ih =>
    have hm : m ≤ n := Nat.le_of_succ_le hle
    have hbetween : ∀ place front, headingWithin links m place front = some parent →
        headingWithin links m place (front ++ [name]) = some q →
        headingWithin links n (if Path.isAbsolute target then [] else parent) (steps target) =
          some q := fun _ _ hfront h => ih hm hfront h
    exact hstep _ hbetween (fun _ _ h => headingWithin_mono hm h) _ _ hfront h

end

/-! ## Writing and reading -/

/-- A path that leads on from a directory heads as its target does from there. -/
theorem heading?_join {parent : List String} {target : String}
    (hplain : ∀ name ∈ parent, Path.IsPlain name) (hdir : fs.holds? parent = some .dir)
    (h : headingWithin fs.link? maxLinks (if Path.isAbsolute target then [] else parent)
      (Path.pieces target) = some q) :
    fs.heading? (Path.join (Path.ofNames parent) target) = some q := by
  by_cases habsolute : Path.isAbsolute target = true
  · rw [if_pos habsolute] at h
    rw [Path.join, if_pos habsolute, heading?, start, if_pos habsolute]
    exact h
  · rw [if_neg habsolute] at h
    rw [Bool.not_eq_true] at habsolute
    -- above a directory that is there every name is that of a directory, and so no link
    have hlinks : ∀ front, front <+: parent → front ≠ [] → fs.link? ([] ++ front) = none := by
      intro front hfront _
      have hthere : fs.holds? front = some .dir := by
        by_cases heq : front = parent
        · rw [heq]
          exact hdir
        · exact holds?_above (by rw [hdir]; exact fun h => by cases h) hfront heq
      rw [List.nil_append, link?, hthere]
    have habove : Path.isAbsolute (Path.join (Path.ofNames parent) target) = true := by
      have hne : Path.ofNames parent ≠ "" := by
        intro hempty
        have := Path.isAbsolute_ofNames parent
        rw [hempty] at this
        exact absurd this (by decide)
      rw [Path.join, habsolute]
      split
      · contradiction
      · split
        · rw [Path.isAbsolute_append hne, Path.isAbsolute_ofNames]
        · rw [String.append_assoc, Path.isAbsolute_append hne, Path.isAbsolute_ofNames]
    rw [heading?, start, if_pos habove, Path.pieces_join_relative _ habsolute,
      Path.pieces_ofNames hplain]
    have hgoes : headingWithin fs.link? maxLinks [] (parent ++ Path.pieces target) =
        headingWithin fs.link? maxLinks ([] ++ parent) (Path.pieces target) :=
      heading_unlinked hplain hlinks _
    rw [hgoes]
    exact h

/-- A path heads for the place at which its file is written, and that is in a directory. -/
theorem headsTo_of_writePlace (hcurrent : fs.HasCurrent) {n : Nat}
    (h : fs.writePlace n path = .ok place) :
    fs.HeadsTo path place ∧ fs.holds? place.dropLast = some .dir := by
  induction n generalizing path with
  | zero => cases h
  | succ n ih =>
    have hplace := h
    rw [writePlace] at h
    split at h
    · cases h
    · next hslash =>
      obtain ⟨own, hown, h⟩ := bind_eq_ok h
      obtain ⟨front, name, parent, hsteps, hdot, hdots, hparent, rfl⟩ := placeOf_eq_ok hown
      have hpieces : Path.pieces path = front ++ [name] := by
        rw [← hsteps, steps, if_neg hslash, List.append_nil]
        rfl
      have hname : Path.IsPlain name := by
        have hmem : name ∈ Path.pieces path := hpieces ▸ List.mem_append_right _ List.mem_cons_self
        exact ((Path.cases_of_mem_pieces hmem).resolve_left hdot).resolve_left hdots
      have hdir : fs.holds? parent = some .dir :=
        holds?_dir_of_lookUpWithin hcurrent.root (hcurrent.start_dir path) hparent
      have hfront : headingWithin fs.link? maxLinks (fs.start path) front = some parent := by
        have hheads := headingWithin_of_lookUpWithin hparent
        rwa [headingWithin_append_dot] at hheads
      -- a link at the end of the path is followed, to the path that it tells
      split at h
      · next target hnode =>
        have hlink : fs.link? (parent ++ [name]) = some target := by
          rw [link?, holds?, hnode]
          rfl
        have hplain : ∀ m ∈ parent, Path.IsPlain m := by
          refine plain_of_lookUpWithin hparent (hcurrent.start_plain path) fun m hm => ?_
          rcases List.mem_append.mp hm with hm | hm
          · exact Path.cases_of_mem_pieces (hpieces ▸ List.mem_append_left _ hm)
          · exact .inl (List.mem_singleton.mp hm)
        rw [List.dropLast_concat] at h
        obtain ⟨hnext, habove⟩ := ih h
        refine ⟨fun q hq => ?_, habove⟩
        rw [heading?, hpieces] at hq
        have htarget := headingWithin_of_link (Nat.le_refl _) hname hlink hfront hq
        rw [headingWithin_steps] at htarget
        exact hnext q (heading?_join hplain hdir htarget)
      · cases h
      · cases h
        refine ⟨fun q hq => ?_, by rw [List.dropLast_concat]; exact hdir⟩
        have hlink := (writePlace_eq_ok hplace).2.2
        rw [heading?, hpieces, headingWithin_append hfront (q := parent ++ [name]) fun follow =>
          heading_plain hname hlink []] at hq
        exact (Option.some.inj hq).symm

/-- A file that has been written holds what was written. -/
theorem read_of_write (hcurrent : fs.HasCurrent) {content : ByteArray}
    (h : fs.write path content = .ok fs') : fs'.read path = .ok content := by
  obtain ⟨place, hplace, h⟩ := bind_eq_ok h
  obtain ⟨q, hq, h⟩ := bind_eq_ok h
  obtain ⟨hheads, hdir⟩ := headsTo_of_writePlace hcurrent hplace
  obtain ⟨hne, hnot, hlink⟩ := writePlace_eq_ok hplace
  obtain ⟨es, hes⟩ := holds?_eq_dir.mp hdir
  have hthere : (fs.put place (.file content fs.clock)).at? place =
      some (.file content fs.clock) := by
    rw [show (fs.put place (.file content fs.clock)).at? place =
      (fs.put place (.file content fs.clock)).at? (place ++ []) by rw [List.append_nil]]
    exact DiskNode.at?_put hes []
  have hlinks : (fs.put place (.file content fs.clock)).link? = fs.link? := by
    funext other
    by_cases heq : other = place
    · rw [heq, hlink, link?, holds?, hthere]
      rfl
    · rw [link?_of_leaf?, link?_of_leaf?, leaf?_put_file hne hnot content _ heq]
  cases hheads.congr hlinks rfl q (heading?_of_resolve hq)
  cases h
  rw [read, find, hq]
  dsimp only [bind, Except.bind]
  rw [hthere]

/-- A text that has been written is what the file has. -/
theorem readText_of_write (hcurrent : fs.HasCurrent) {text : String}
    (h : fs.write path text.toUTF8 = .ok fs') : fs'.readText path = .ok text := by
  have htext : String.fromUTF8? text.toUTF8 = some text := by
    rw [String.toUTF8, String.fromUTF8?, dif_pos text.isValidUTF8]
    rfl
  rw [readText, read_of_write hcurrent h]
  dsimp only [bind, Except.bind]
  rw [htext]

/-- Writes a file after making the directories above it. -/
def writeBelow (fs : FileSystem) (path : String) (content : ByteArray) :
    Except DiskError FileSystem := do
  let above ← match Path.parent? path with
    | some dir => fs.makeDirs dir
    | none => .ok fs
  above.write path content

theorem readText_of_writeBelow (hcurrent : fs.HasCurrent) {text : String}
    (h : fs.writeBelow path text.toUTF8 = .ok fs') : fs'.readText path = .ok text := by
  rw [writeBelow] at h
  split at h
  · obtain ⟨above, habove, hwrite⟩ := bind_eq_ok h
    exact readText_of_write (hcurrent.of_keepsWays (keepsWays_makeDirs habove)) hwrite
  · exact readText_of_write hcurrent h

end FileSystem

end CodeAtlas
