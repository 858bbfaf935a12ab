import CodeAtlas.Proofs.Patterns
import CodeAtlas.Proofs.Structure
import Mathlib.Data.List.Induction
/-!
# The tree of the files tells what the files tell

What is known of the files is put into nested maps, and the maps are written down as nested entries
with their paths. Nothing is lost or made up on the way: the entries of files are the files, those of
directories are the directories that the files lie in, and each entry stands below the one of its
parent path.

Results:
1. `Tidy`, `tidy_insert`: in a tree each file is at the place that its path names.
2. `files_insert`: a file at a new place is added, and no other one is lost.
3. `isLevel_entries`: what is directly in a directory is one name below it and in order.
4. `mem_ways`, `nodup_ways`: there is one directory for each path that leads on to a file.
5. `structureOf_faithful`: all of this for the tree of a list of files, in whatever order they are.
-/

namespace CodeAtlas

/-! ## What entries tell -/

/-- The names along a path. -/
def wayTo (path : String) : List String := Text.splitOn (· == '/') path

namespace StructureEntry

def path : StructureEntry → String
  | directory path _ => path
  | file f => f.path

/-- The last name of the path. -/
def name (e : StructureEntry) : String := (wayTo e.path).getLast?.getD ""

mutual
/-- The files of an entry, depth first. -/
def files : StructureEntry → List FileSummary
  | directory _ children => filesOf children
  | file f => [f]

def filesOf : List StructureEntry → List FileSummary
  | [] => []
  | e :: es => files e ++ filesOf es
end

mutual
/-- The directories of an entry with what is directly in them, depth first. -/
def levels : StructureEntry → List (String × List StructureEntry)
  | directory path children => (path, children) :: levelsOf children
  | file _ => []

def levelsOf : List StructureEntry → List (String × List StructureEntry)
  | [] => []
  | e :: es => levels e ++ levelsOf es
end

/-- The paths of the directories. -/
def directories (entries : List StructureEntry) : List String := (levelsOf entries).map Prod.fst

/-- Directories come before files, and either in the order of their names. -/
def Precedes : StructureEntry → StructureEntry → Prop
  | directory p children, directory q children' =>
    (directory p children).name < (directory q children').name
  | directory _ _, file _ => True
  | file _, directory _ _ => False
  | file f, file g => (file f).name < (file g).name

/-- What is directly in the directory that is reached by some names. -/
structure IsLevel (above : List String) (entries : List StructureEntry) : Prop where
  below : ∀ e ∈ entries, ∃ name, wayTo e.path = above ++ [name]
  ordered : entries.Pairwise Precedes

/-- Entries that tell neither more nor less than a list of files. -/
structure IsFaithful (summaries : List FileSummary) (entries : List StructureEntry) : Prop where
  files : (filesOf entries).Perm summaries
  /-- The directories are the paths that lead to a file, -/
  ancestors : ∀ path, path ∈ directories entries ↔
    ∃ f ∈ summaries, wayTo path <+: wayTo f.path ∧ path ≠ f.path
  /-- each once. -/
  once : (directories entries).Nodup
  top : IsLevel [] entries
  levels : ∀ level ∈ levelsOf entries, IsLevel (wayTo level.1) level.2
  filled : ∀ level ∈ levelsOf entries, level.2 ≠ []

theorem filesOf_eq (entries : List StructureEntry) : filesOf entries = entries.flatMap files := by
  induction entries with
  | nil => rfl
  | cons e es ih => rw [filesOf, ih, List.flatMap_cons]

theorem levelsOf_eq (entries : List StructureEntry) : levelsOf entries = entries.flatMap levels := by
  induction entries with
  | nil => rfl
  | cons e es ih => rw [levelsOf, ih, List.flatMap_cons]

end StructureEntry

/-! ## Paths -/

theorem wayTo_inj {path path' : String} (h : wayTo path = wayTo path') : path = path' :=
  Text.splitOn_inj h

theorem wayTo_ne_nil (path : String) : wayTo path ≠ [] := fun h =>
  Text.splitOnChars_ne_nil _ _ (List.map_eq_nil_iff.mp h)

theorem isName_of_mem_wayTo {path name : String} (h : name ∈ wayTo path) : IsName name := by
  obtain ⟨chars, hchars, rfl⟩ := List.mem_map.mp h
  intro hslash
  rw [String.toList_ofList] at hslash
  exact absurd (Text.of_mem_splitOnChars hchars _ hslash) (by decide)

theorem wayTo_intercalate {way : List String} (hne : way ≠ []) (hway : ∀ n ∈ way, IsSegment n) :
    wayTo ("/".intercalate way) = way :=
  Text.splitOn_intercalate hne fun n hn => (hway n hn).1

namespace Keyed

variable {α β : Type}

/-- A map is what it has under a key and the rest. -/
theorem perm_erase {entries : List (String × α)} (hs : Sorted entries) (k : String) :
    entries.Perm (((get? k entries).map (k, ·)).toList ++ erase k entries) := by
  induction entries with
  | nil => exact .refl _
  | cons entry rest ih =>
    obtain ⟨l, w⟩ := entry
    obtain ⟨hfirst, hrest⟩ := List.pairwise_cons.mp hs
    rw [get?_cons, erase_cons]
    by_cases hl : l = k
    · subst hl
      have huntouched : erase l rest = rest := by
        refine List.filter_eq_self.mpr fun e he => bne_iff_ne.mpr fun heq => ?_
        exact String.lt_irrefl l (heq ▸ hfirst e he)
      rw [if_pos rfl, if_pos rfl, huntouched]
      exact .refl _
    · rw [if_neg hl, if_neg hl]
      exact ((ih hrest).cons (l, w)).trans List.perm_middle.symm

/-- What is collected from a map grows by what the new entry has more than the one that it replaces. -/
theorem flatMap_insert_perm {entries : List (String × α)} (hs : Sorted entries) {k : String} {v : α}
    (f : String × α → List β) (added : List β)
    (h : (f (k, v)).Perm (added ++ ((get? k entries).map fun w => f (k, w)).getD [])) :
    ((insert k v entries).flatMap f).Perm (added ++ entries.flatMap f) := by
  have hbefore : (entries.flatMap f).Perm
      (((get? k entries).map fun w => f (k, w)).getD [] ++ (erase k entries).flatMap f) := by
    refine ((perm_erase hs k).flatMap_right f).trans (.of_eq ?_)
    rw [List.flatMap_append]
    cases get? k entries with
    | none => rfl
    | some w => rw [Option.map_some, Option.toList_some, List.flatMap_singleton]; rfl
  have hafter : ((insert k v entries).flatMap f).Perm (f (k, v) ++ (erase k entries).flatMap f) :=
    (insert_perm hs v).flatMap_right f
  refine hafter.trans ((h.append_right _).trans ?_)
  rw [List.append_assoc]
  exact hbefore.symm.append_left added

end Keyed

namespace DirectoryTree

variable {above : List String} {tree : DirectoryTree} {dirs : List (String × DirectoryTree)}
  {fs : List (String × FileSummary)}

open StructureEntry (name filesOf levelsOf directories Precedes IsLevel IsFaithful)

theorem forall_mem_concat (habove : ∀ n ∈ above, IsSegment n) {name : String}
    (hname : IsSegment name) : ∀ n ∈ above ++ [name], IsSegment n :=
  List.forall_mem_append.mpr ⟨habove, List.forall_mem_singleton.mpr hname⟩

/-- One name more makes the path of a child. -/
theorem childPath_intercalate (habove : ∀ n ∈ above, IsSegment n) (name : String) :
    childPath ("/".intercalate above) name = "/".intercalate (above ++ [name]) := by
  cases above with
  | nil => rfl
  | cons first rest =>
    have hne : "/".intercalate (first :: rest) ≠ "" := by
      intro h
      have hway := wayTo_intercalate (List.cons_ne_nil first rest) habove
      rw [h] at hway
      exact (habove first List.mem_cons_self).2 (List.cons.inj hway).1.symm
    rw [childPath, beq_eq_false_iff_ne.mpr hne, String.intercalate_append_of_ne_nil
      (List.cons_ne_nil first rest) (List.cons_ne_nil name []), String.intercalate_singleton]
    rfl

theorem wayTo_childPath (habove : ∀ n ∈ above, IsSegment n) {name : String}
    (hname : IsSegment name) : wayTo (childPath ("/".intercalate above) name) = above ++ [name] := by
  rw [childPath_intercalate habove]
  exact wayTo_intercalate (by simp) (forall_mem_concat habove hname)

/-! ## Entries of a tree -/

theorem dirEntries_eq (path : String) (dirs : List (String × DirectoryTree)) :
    dirEntries path dirs = dirs.map fun e =>
      .directory (childPath path e.1) (entries (childPath path e.1) e.2) := by
  induction dirs with
  | nil => rfl
  | cons e rest ih => rw [dirEntries, ih, List.map_cons]

theorem filesOf_entries (path : String) (dirs : List (String × DirectoryTree))
    (fs : List (String × FileSummary)) : filesOf (entries path (node dirs fs)) =
      (dirs.flatMap fun e => filesOf (entries (childPath path e.1) e.2)) ++ fs.map Prod.snd := by
  rw [entries, StructureEntry.filesOf_eq, List.flatMap_append, dirEntries_eq, List.flatMap_map,
    List.flatMap_map, List.map_eq_flatMap]
  rfl

theorem levelsOf_entries (path : String) (dirs : List (String × DirectoryTree))
    (fs : List (String × FileSummary)) : levelsOf (entries path (node dirs fs)) =
      dirs.flatMap fun e => (childPath path e.1, entries (childPath path e.1) e.2) ::
        levelsOf (entries (childPath path e.1) e.2) := by
  have hfiles : (fs.flatMap fun e => StructureEntry.levels (.file e.2)) = [] :=
    List.flatMap_eq_nil_iff.mpr fun e _ => rfl
  rw [entries, StructureEntry.levelsOf_eq, List.flatMap_append, dirEntries_eq, List.flatMap_map,
    List.flatMap_map, hfiles, List.append_nil]
  rfl

theorem entries_ne_nil (hne : tree ≠ empty) (path : String) : entries path tree ≠ [] := by
  obtain ⟨dirs, fs⟩ := tree
  rw [entries, dirEntries_eq]
  intro h
  obtain ⟨hdirs, hfs⟩ := List.append_eq_nil_iff.mp h
  exact hne (by rw [List.map_eq_nil_iff.mp hdirs, List.map_eq_nil_iff.mp hfs]; rfl)

/-- The directories of a tree below some names, each as names. -/
def ways (above : List String) (tree : DirectoryTree) : List (List String) :=
  (directories (entries ("/".intercalate above) tree)).map wayTo

theorem ways_node (habove : ∀ n ∈ above, IsSegment n) (hnames : ∀ e ∈ dirs, IsSegment e.1) :
    ways above (node dirs fs) =
      dirs.flatMap fun e => (above ++ [e.1]) :: ways (above ++ [e.1]) e.2 := by
  rw [ways, directories, levelsOf_entries, List.map_flatMap, List.map_flatMap]
  refine List.flatMap_congr fun e he => ?_
  rw [List.map_cons, List.map_cons, wayTo_childPath habove (hnames e he),
    childPath_intercalate habove]
  rfl

/-! ## Tidy trees -/

/-- The tree of a directory that is reached by some names: names are in order, each file is where its
path says, and no directory is empty. -/
inductive Tidy : List String → DirectoryTree → Prop
  | node {above : List String} {dirs : List (String × DirectoryTree)}
      {fs : List (String × FileSummary)} :
      Keyed.Sorted dirs → Keyed.Sorted fs →
      (∀ e ∈ fs, wayTo e.2.path = above ++ [e.1]) →
      (∀ e ∈ dirs, IsSegment e.1 ∧ e.2 ≠ empty) →
      (∀ e ∈ dirs, Tidy (above ++ [e.1]) e.2) → Tidy above (node dirs fs)

theorem tidy_empty (above : List String) : Tidy above empty := .node .nil .nil nofun nofun nofun

/-- The tree below a name, which is empty if there is none yet. -/
theorem tidy_below (hbelow : ∀ e ∈ dirs, Tidy (above ++ [e.1]) e.2) (dir : String) :
    Tidy (above ++ [dir]) ((Keyed.get? dir dirs).getD empty) := by
  cases hget : Keyed.get? dir dirs with
  | none => exact tidy_empty _
  | some t => exact hbelow _ (Keyed.mem_of_get? hget)

theorem insert_ne_empty (f : FileSummary) (name : String) (way : List String)
    (tree : DirectoryTree) : insert f name way tree ≠ empty := by
  obtain ⟨dirs, fs⟩ := tree
  cases way with
  | nil =>
    intro h
    have hmem := congrArg (Keyed.get? name) (node.inj h).2
    rw [Keyed.get?_insert, if_pos rfl] at hmem
    cases hmem
  | cons dir rest =>
    intro h
    have hmem := congrArg (Keyed.get? dir) (node.inj h).1
    rw [Keyed.get?_insert, if_pos rfl] at hmem
    cases hmem

/-- A file that is put where its path says keeps the tree tidy. -/
theorem tidy_insert {f : FileSummary} {name : String} {way : List String} (ht : Tidy above tree)
    (hf : wayTo f.path = above ++ (way ++ [name])) (hway : ∀ n ∈ way, IsSegment n) :
    Tidy above (insert f name way tree) := by
  induction way generalizing above tree with
  | nil =>
    obtain ⟨hdirs, hfs, hplace, hnames, hbelow⟩ := ht
    refine .node hdirs (Keyed.sorted_insert hfs _ _) (fun e he => ?_) hnames hbelow
    rcases (Keyed.mem_insert hfs).mp he with rfl | ⟨he, _⟩
    · exact hf
    · exact hplace e he
  | cons dir rest ih =>
    obtain ⟨hdirs, hfs, hplace, hnames, hbelow⟩ := ht
    have hinner := ih (tidy_below hbelow dir) (by simpa using hf)
      fun n hn => hway n (List.mem_cons_of_mem dir hn)
    refine .node (Keyed.sorted_insert hdirs _ _) hfs hplace (fun e he => ?_) fun e he => ?_
    · rcases (Keyed.mem_insert hdirs).mp he with rfl | ⟨he, _⟩
      · exact ⟨hway dir List.mem_cons_self, insert_ne_empty _ _ _ _⟩
      · exact hnames e he
    · rcases (Keyed.mem_insert hdirs).mp he with rfl | ⟨he, _⟩
      · exact hinner
      · exact hbelow e he

/-- A file at a place that no other one has is added to the files of the tree. -/
theorem files_insert {f : FileSummary} {name : String} {way : List String} (ht : Tidy above tree)
    (hf : wayTo f.path = above ++ (way ++ [name])) (path : String)
    (hnew : ∀ g ∈ filesOf (entries path tree), wayTo g.path ≠ wayTo f.path) :
    (filesOf (entries path (insert f name way tree))).Perm (f :: filesOf (entries path tree)) := by
  induction way generalizing above tree path with
  | nil =>
    obtain ⟨hdirs, hfs, hplace, hnames, hbelow⟩ := ht
    rename_i dirs fs
    have hfree : name ∉ Keyed.keys fs := by
      intro hkey
      obtain ⟨e, he, rfl⟩ := List.mem_map.mp hkey
      refine hnew e.2 ?_ ((hplace e he).trans hf.symm)
      rw [filesOf_entries]
      exact List.mem_append_right _ (List.mem_map_of_mem he)
    rw [insert, filesOf_entries, filesOf_entries]
    exact (((Keyed.insert_perm_cons hfree f).map Prod.snd).append_left _).trans List.perm_middle
  | cons dir rest ih =>
    obtain ⟨hdirs, hfs, hplace, hnames, hbelow⟩ := ht
    rename_i dirs fs
    rw [filesOf_entries] at hnew
    rw [insert, filesOf_entries, filesOf_entries, ← List.cons_append]
    refine (Keyed.flatMap_insert_perm hdirs _ [f] ?_).append_right _
    have hinner := ih (tidy_below hbelow dir) (by simpa using hf) (childPath path dir)
    cases hget : Keyed.get? dir dirs with
    | none =>
      rw [hget] at hinner
      exact hinner fun g hg => absurd hg List.not_mem_nil
    | some t =>
      rw [hget] at hinner
      refine hinner fun g hg => hnew g (List.mem_append_left _ ?_)
      exact List.mem_flatMap_of_mem (Keyed.mem_of_get? hget) hg

/-! ## What a tidy tree tells -/

/-- Names that are longer than those above lead on from them to a file. -/
def LeadsOn (above : List String) (files : List FileSummary) (way : List String) : Prop :=
  ∃ f ∈ files, way <+: wayTo f.path ∧ above.length < way.length ∧
    way.length < (wayTo f.path).length

namespace Tidy

/-- The path of a file goes on from the names above. -/
theorem way_file (ht : Tidy above tree) {path : String} {f : FileSummary}
    (hf : f ∈ filesOf (entries path tree)) : ∃ rest, rest ≠ [] ∧ wayTo f.path = above ++ rest := by
  induction ht generalizing path with
  | node hdirs hfs hplace hnames hbelow ih =>
    rw [filesOf_entries, List.mem_append, List.mem_flatMap, List.mem_map] at hf
    rcases hf with ⟨e, he, hf⟩ | ⟨e, he, rfl⟩
    · obtain ⟨rest, -, hway⟩ := ih e he hf
      exact ⟨e.1 :: rest, List.cons_ne_nil _ _, hway.trans (List.append_cons _ _ _).symm⟩
    · exact ⟨[e.1], List.cons_ne_nil _ _, hplace e he⟩

/-- A tree that is not empty has a file. -/
theorem exists_file (ht : Tidy above tree) (hne : tree ≠ empty) (path : String) :
    ∃ f, f ∈ filesOf (entries path tree) := by
  induction ht generalizing path with
  | @node above dirs fs hdirs hfs hplace hnames hbelow ih =>
    rw [filesOf_entries]
    cases dirs with
    | cons e rest =>
      obtain ⟨f, hf⟩ := ih e List.mem_cons_self (hnames e List.mem_cons_self).2 (childPath path e.1)
      refine ⟨f, List.mem_append_left _ (List.mem_flatMap_of_mem List.mem_cons_self hf)⟩
    | nil =>
      cases fs with
      | nil => exact absurd rfl hne
      | cons e rest => exact ⟨e.2, List.mem_cons_self⟩

/-- What is directly in the directory of a tidy tree. -/
theorem isLevel_entries (ht : Tidy above tree) (habove : ∀ n ∈ above, IsSegment n) :
    IsLevel above (entries ("/".intercalate above) tree) := by
  obtain ⟨hdirs, hfs, hplace, hnames, -⟩ := ht
  rename_i dirs fs
  have hway : ∀ e ∈ dirs, wayTo (childPath ("/".intercalate above) e.1) = above ++ [e.1] :=
    fun e he => wayTo_childPath habove (hnames e he).1
  rw [entries, dirEntries_eq]
  constructor
  case below =>
    intro entry hentry
    rcases List.mem_append.mp hentry with hentry | hentry
    · obtain ⟨e, he, rfl⟩ := List.mem_map.mp hentry
      exact ⟨e.1, hway e he⟩
    · obtain ⟨e, he, rfl⟩ := List.mem_map.mp hentry
      exact ⟨e.1, hplace e he⟩
  case ordered =>
    refine List.pairwise_append.mpr ⟨?_, ?_, ?_⟩
    · refine List.pairwise_map.mpr (hdirs.imp_of_mem fun {e e'} he he' hlt => ?_)
      simpa only [Precedes, name, StructureEntry.path, hway e he, hway e' he',
        List.getLast?_concat, Option.getD_some] using hlt
    · refine List.pairwise_map.mpr (hfs.imp_of_mem fun {e e'} he he' hlt => ?_)
      simpa only [Precedes, name, StructureEntry.path, hplace e he, hplace e' he',
        List.getLast?_concat, Option.getD_some] using hlt
    · intro entry hentry entry' hentry'
      obtain ⟨e, -, rfl⟩ := List.mem_map.mp hentry
      obtain ⟨e', -, rfl⟩ := List.mem_map.mp hentry'
      exact trivial

/-- The same holds below each directory of the tree, and there is something in it. -/
theorem isLevel_levels (ht : Tidy above tree) (habove : ∀ n ∈ above, IsSegment n) :
    ∀ level ∈ levelsOf (entries ("/".intercalate above) tree),
      IsLevel (wayTo level.1) level.2 ∧ level.2 ≠ [] := by
  induction ht with
  | node hdirs hfs hplace hnames hbelow ih =>
    intro level hlevel
    rw [levelsOf_entries] at hlevel
    obtain ⟨e, he, hlevel⟩ := List.mem_flatMap.mp hlevel
    obtain ⟨hname, hne⟩ := hnames e he
    have hinner := forall_mem_concat habove hname
    rcases List.mem_cons.mp hlevel with rfl | hlevel
    · rw [wayTo_childPath habove hname, childPath_intercalate habove]
      exact ⟨(hbelow e he).isLevel_entries hinner, entries_ne_nil hne _⟩
    · rw [childPath_intercalate habove] at hlevel
      exact ih e he hinner level hlevel

/-- A directory and those below it are the names that lead on to a file in it. -/
theorem leadsOn_below {name : String} (ht : Tidy (above ++ [name]) tree) (hne : tree ≠ empty)
    {path : String} {way : List String} :
    LeadsOn above (filesOf (entries path tree)) way ↔
      way = above ++ [name] ∨ LeadsOn (above ++ [name]) (filesOf (entries path tree)) way := by
  constructor
  · rintro ⟨f, hf, hprefix, habove, hlength⟩
    rcases Nat.lt_or_ge (above.length + 1) way.length with hlt | hge
    · exact .inr ⟨f, hf, hprefix, by simpa using hlt, hlength⟩
    · obtain ⟨rest, -, hrest⟩ := ht.way_file hf
      have hnext : above ++ [name] <+: wayTo f.path := hrest ▸ List.prefix_append _ _
      refine .inl ((List.prefix_of_prefix_length_le hprefix hnext ?_).eq_of_length ?_)
      · simpa using hge
      · simp only [List.length_append, List.length_singleton]
        omega
  · rintro (rfl | ⟨f, hf, hprefix, habove, hlength⟩)
    · obtain ⟨f, hf⟩ := ht.exists_file hne path
      obtain ⟨rest, hrest, hway⟩ := ht.way_file hf
      refine ⟨f, hf, hway ▸ List.prefix_append _ _, by simp, ?_⟩
      have hpos := List.length_pos_iff.mpr hrest
      simp only [hway, List.length_append]
      omega
    · refine ⟨f, hf, hprefix, ?_, hlength⟩
      rw [List.length_append] at habove
      omega

/-- The directories are the names that lead on from those above to a file. -/
theorem mem_ways (ht : Tidy above tree) (habove : ∀ n ∈ above, IsSegment n) {way : List String} :
    way ∈ ways above tree ↔ LeadsOn above (filesOf (entries ("/".intercalate above) tree)) way := by
  induction ht with
  | @node above dirs fs hdirs hfs hplace hnames hbelow ih =>
    have hinner : ∀ e ∈ dirs, way ∈ (above ++ [e.1]) :: ways (above ++ [e.1]) e.2 ↔
        LeadsOn above (filesOf (entries (childPath ("/".intercalate above) e.1) e.2)) way := by
      intro e he
      obtain ⟨hname, hne⟩ := hnames e he
      rw [List.mem_cons, ih e he (forall_mem_concat habove hname), leadsOn_below (hbelow e he) hne,
        childPath_intercalate habove]
    -- directly below the names there is no room for further ones
    have hdirect : ¬ LeadsOn above (fs.map Prod.snd) way := by
      rintro ⟨f, hf, -, habove, hlength⟩
      obtain ⟨e, he, rfl⟩ := List.mem_map.mp hf
      rw [hplace e he, List.length_append, List.length_singleton] at hlength
      omega
    rw [ways_node habove fun e he => (hnames e he).1, filesOf_entries, List.mem_flatMap]
    constructor
    · rintro ⟨e, he, hway⟩
      obtain ⟨f, hf, hleads⟩ := (hinner e he).mp hway
      exact ⟨f, List.mem_append_left _ (List.mem_flatMap_of_mem he hf), hleads⟩
    · rintro ⟨f, hf, hleads⟩
      rcases List.mem_append.mp hf with hf | hf
      · obtain ⟨e, he, hf⟩ := List.mem_flatMap.mp hf
        exact ⟨e, he, (hinner e he).mpr ⟨f, hf, hleads⟩⟩
      · exact absurd ⟨f, hf, hleads⟩ hdirect

/-- No directory comes twice. -/
theorem nodup_ways (ht : Tidy above tree) (habove : ∀ n ∈ above, IsSegment n) :
    (ways above tree).Nodup := by
  induction ht with
  | @node above dirs fs hdirs hfs hplace hnames hbelow ih =>
    have hgoes : ∀ e ∈ dirs, ∀ way ∈ (above ++ [e.1]) :: ways (above ++ [e.1]) e.2,
        above ++ [e.1] <+: way := by
      intro e he way hway
      rcases List.mem_cons.mp hway with rfl | hway
      · exact List.prefix_rfl
      · obtain ⟨f, hf, hprefix, hlt, -⟩ :=
          ((hbelow e he).mem_ways (forall_mem_concat habove (hnames e he).1)).mp hway
        obtain ⟨rest, -, hrest⟩ := (hbelow e he).way_file hf
        exact List.prefix_of_prefix_length_le (hrest ▸ List.prefix_append _ _) hprefix
          (Nat.le_of_lt hlt)
    rw [ways_node habove fun e he => (hnames e he).1]
    refine List.nodup_flatMap.mpr ⟨fun e he => ?_, hdirs.imp_of_mem fun {e e'} he he' hlt => ?_⟩
    · have hinner := forall_mem_concat habove (hnames e he).1
      refine List.nodup_cons.mpr ⟨fun hmem => ?_, ih e he hinner⟩
      obtain ⟨-, -, -, hlt, -⟩ := ((hbelow e he).mem_ways hinner).mp hmem
      exact Nat.lt_irrefl _ hlt
    · intro way hway hway'
      have heq : above ++ [e.1] = above ++ [e'.1] :=
        (List.prefix_of_prefix_length_le (hgoes e he way hway) (hgoes e' he' way hway')
          (by simp)).eq_of_length (by simp)
      have hname : e.1 = e'.1 := by simpa using heq
      exact String.lt_irrefl e.1 (hname ▸ hlt)

end Tidy

/-! ## The tree of files -/

theorem ofFiles_concat (files : List FileSummary) (f : FileSummary) :
    ofFiles (files ++ [f]) =
      insert f ((wayTo f.path).getLast?.getD "") (wayTo f.path).dropLast (ofFiles files) := by
  rw [ofFiles, List.foldl_append]
  rfl

/-- Files are put where their paths say, and each adds itself. -/
theorem tidy_ofFiles {files : List FileSummary} (hpaths : (files.map FileSummary.path).Nodup)
    (hsegments : ∀ f ∈ files, "" ∉ wayTo f.path) :
    Tidy [] (ofFiles files) ∧ (filesOf ((ofFiles files).entries "")).Perm files := by
  induction files using List.reverseRecOn with
  | nil => exact ⟨tidy_empty [], .refl _⟩
  | append_singleton files f ih =>
    rw [List.map_append, List.nodup_append] at hpaths
    obtain ⟨hbefore, -, hother⟩ := hpaths
    obtain ⟨ht, hperm⟩ := ih hbefore fun g hg => hsegments g (List.mem_append_left _ hg)
    have hway : wayTo f.path = (wayTo f.path).dropLast ++ [(wayTo f.path).getLast?.getD ""] := by
      rw [List.getLast?_eq_some_getLast (wayTo_ne_nil _), Option.getD_some]
      exact (List.dropLast_concat_getLast (wayTo_ne_nil _)).symm
    have hnames : ∀ n ∈ (wayTo f.path).dropLast, IsSegment n := by
      intro n hn
      have hmem := (List.dropLast_sublist _).subset hn
      exact ⟨isName_of_mem_wayTo hmem, fun h => hsegments f (by simp) (h ▸ hmem)⟩
    rw [ofFiles_concat]
    refine ⟨tidy_insert ht hway hnames, (files_insert ht hway "" fun g hg heq => ?_).trans ?_⟩
    · exact hother g.path (List.mem_map_of_mem (hperm.mem_iff.mp hg)) f.path (by simp)
        (wayTo_inj heq)
    · exact (hperm.cons f).trans (List.perm_append_singleton f files).symm

/-- A way from the root to a file is a directory on the path of it. -/
theorem leadsOn_root {files : List FileSummary} {path : String} :
    LeadsOn [] files (wayTo path) ↔ ∃ f ∈ files, wayTo path <+: wayTo f.path ∧ path ≠ f.path := by
  refine exists_congr fun f => and_congr_right fun _ => and_congr_right fun hprefix => ?_
  constructor
  · rintro ⟨-, hlt⟩ rfl
    exact Nat.lt_irrefl _ hlt
  · intro hne
    refine ⟨List.length_pos_iff.mpr (wayTo_ne_nil path), ?_⟩
    refine Nat.lt_of_le_of_ne hprefix.length_le fun hlength => hne (wayTo_inj ?_)
    exact hprefix.eq_of_length hlength

end DirectoryTree

open DirectoryTree StructureEntry in
/-- The entries of a list of files, whose paths are different and have no empty names, are faithful
to it, and the order of the files does not matter. -/
theorem structureOf_faithful {files : List FileSummary}
    (hpaths : (files.map FileSummary.path).Nodup) (hsegments : ∀ f ∈ files, "" ∉ wayTo f.path) :
    IsFaithful files (structureOf files) ∧
      ∀ files', files.Perm files' → structureOf files' = structureOf files := by
  obtain ⟨ht, hperm⟩ := tidy_ofFiles hpaths hsegments
  have hnames : ∀ n ∈ ([] : List String), IsSegment n := nofun
  constructor
  case right =>
    intro files' h
    rw [structureOf, structureOf, ofFiles_perm h hpaths]
  case left =>
    refine {
      files := hperm
      ancestors := fun path => ?_
      once := (ht.nodup_ways hnames).of_map _
      top := ht.isLevel_entries hnames
      levels := fun level hlevel => (ht.isLevel_levels hnames level hlevel).1
      filled := fun level hlevel => (ht.isLevel_levels hnames level hlevel).2 }
    calc path ∈ directories (structureOf files)
      _ ↔ wayTo path ∈ ways [] (ofFiles files) :=
        (List.mem_map_of_injective fun _ _ => wayTo_inj).symm
      _ ↔ LeadsOn [] (filesOf (structureOf files)) (wayTo path) := ht.mem_ways hnames
      _ ↔ LeadsOn [] files (wayTo path) := exists_congr fun f => and_congr_left' hperm.mem_iff
      _ ↔ ∃ f ∈ files, wayTo path <+: wayTo f.path ∧ path ≠ f.path := leadsOn_root

/-- Files of which one is named like a directory. -/
def sharedNames : List FileSummary :=
  [⟨"b.go", "go", 7, 0⟩, ⟨"a/b/c.py", "python", 12, 3⟩, ⟨"a", "java", 5, 1⟩,
    ⟨"a/b/a.py", "python", 9, 2⟩, ⟨"a/c.js", "javascript", 4, 1⟩]

theorem structureOf_faithful_sharedNames :
    ((sharedNames.map FileSummary.path).Nodup ∧ ∀ f ∈ sharedNames, "" ∉ wayTo f.path) ∧
      StructureEntry.IsFaithful sharedNames (structureOf sharedNames) ∧
      structureOf sharedNames.reverse = structureOf sharedNames := by
  have hpaths : (sharedNames.map FileSummary.path).Nodup := by decide +kernel
  have hsegments : ∀ f ∈ sharedNames, "" ∉ wayTo f.path := by decide +kernel
  obtain ⟨hfaithful, hperm⟩ := structureOf_faithful hpaths hsegments
  exact ⟨⟨hpaths, hsegments⟩, hfaithful, hperm _ (List.reverse_perm _).symm⟩

end CodeAtlas
