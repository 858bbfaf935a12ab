import CodeAtlas.Proofs.Keyed
import CodeAtlas.Proofs.Orderly
import CodeAtlas.Scan
import Mathlib.Data.List.Nodup
/-!
# Walks come to files in the order of their ways

The entries of a directory are visited in the order of their names, so the ways of a walk are in
order, name by name, and each comes once; names have no slash, so different ways make different
paths. This is what tells the files of a scan apart. Links do not matter here: what a link leads to
is reached by ways that begin with the way to the link.

Results:
1. `splitOn_intercalate`: a path falls apart into the names that it was made of.
2. `ordered_entries`, `ordered_follow`, `ordered_walk`: the ways of a walk are in order.
3. `pairwise_ways_scan`, `nodup_relative_scan`: the files of a scan are in the order of their ways,
   and their paths are different.
4. `language_of_mem_scan`: their languages are those that the paths ask for.
-/

namespace CodeAtlas

/-! ## Paths and names -/

/-- A name without a slash. -/
def IsName (name : String) : Prop := '/' ∉ name.toList

instance : DecidablePred IsName := fun _ => inferInstanceAs (Decidable (¬ _))

namespace Text

theorem splitOnChars_append {p : Char → Bool} {first : List Char} (hfirst : ∀ c ∈ first, p c = false)
    {separator : Char} (hseparator : p separator = true) (rest : List Char) :
    splitOnChars p (first ++ separator :: rest) = first :: splitOnChars p rest := by
  induction first with
  | nil => simp [splitOnChars, hseparator]
  | cons c first ih =>
    have hc : p c = false := hfirst c List.mem_cons_self
    rw [List.cons_append, splitOnChars, ih fun c' hc' => hfirst c' (List.mem_cons_of_mem c hc')]
    simp [hc]

theorem splitOnChars_of_none {p : Char → Bool} {cs : List Char} (h : ∀ c ∈ cs, p c = false) :
    splitOnChars p cs = [cs] := by
  induction cs with
  | nil => rfl
  | cons c cs ih =>
    rw [splitOnChars, ih fun c' hc' => h c' (List.mem_cons_of_mem c hc')]
    simp [h c List.mem_cons_self]

/-- A path falls apart into the names that it was made of. -/
theorem splitOn_intercalate {names : List String} (hne : names ≠ [])
    (hnames : ∀ n ∈ names, IsName n) :
    splitOn (· == '/') ("/".intercalate names) = names := by
  induction names with
  | nil => exact absurd rfl hne
  | cons name rest ih =>
    have hname : ∀ c ∈ name.toList, (c == '/') = false := by
      intro c hc
      exact beq_eq_false_iff_ne.mpr fun heq => hnames name List.mem_cons_self (heq ▸ hc)
    cases rest with
    | nil =>
      rw [String.intercalate_singleton, splitOn, splitOnChars_of_none hname]
      simp
    | cons next rest =>
      have hrest := ih (by simp) fun n hn => hnames n (List.mem_cons_of_mem name hn)
      rw [splitOn] at hrest ⊢
      have hchars : ("/".intercalate (name :: next :: rest)).toList =
          name.toList ++ '/' :: ("/".intercalate (next :: rest)).toList := by
        rw [String.intercalate_cons_cons, String.toList_append, String.toList_append,
          List.append_assoc]
        rfl
      rw [hchars, splitOnChars_append hname (by decide), List.map_cons, hrest, String.ofList_toList]

end Text

/-! ## File systems -/

namespace DiskNode

mutual
/-- The entries of each directory are in the order of their names, and no name has a slash. -/
def WellNamed : DiskNode → Prop
  | file _ _ => True
  | link _ => True
  | dir es => Keyed.Sorted es ∧ EntriesWellNamed es

def EntriesWellNamed : List (String × DiskNode) → Prop
  | [] => True
  | (name, node) :: rest => IsName name ∧ WellNamed node ∧ EntriesWellNamed rest
end

mutual
/-- Whether a tree is well named can be found out. -/
def decideWellNamed : (node : DiskNode) → Decidable node.WellNamed
  | file _ _ => .isTrue trivial
  | link _ => .isTrue trivial
  | dir es =>
    have := decideEntriesWellNamed es
    inferInstanceAs (Decidable (Keyed.Sorted es ∧ EntriesWellNamed es))

def decideEntriesWellNamed : (es : List (String × DiskNode)) → Decidable (EntriesWellNamed es)
  | [] => .isTrue trivial
  | (name, node) :: rest =>
    have := decideWellNamed node
    have := decideEntriesWellNamed rest
    inferInstanceAs (Decidable (IsName name ∧ WellNamed node ∧ EntriesWellNamed rest))
end

instance : DecidablePred WellNamed := decideWellNamed

theorem EntriesWellNamed.of_mem {es : List (String × DiskNode)} (h : EntriesWellNamed es)
    {name : String} {node : DiskNode} (hmem : (name, node) ∈ es) : IsName name ∧ WellNamed node := by
  induction es with
  | nil => cases hmem
  | cons e rest ih =>
    obtain ⟨k, n⟩ := e
    obtain ⟨hname, hnode, hrest⟩ := h
    rcases List.mem_cons.mp hmem with heq | hmem
    · cases heq
      exact ⟨hname, hnode⟩
    · exact ih hrest hmem

theorem WellNamed.at? {node found : DiskNode} (h : node.WellNamed) {place : List String}
    (hat : node.at? place = some found) : found.WellNamed := by
  induction place generalizing node with
  | nil =>
    cases hat
    exact h
  | cons name rest ih =>
    rw [DiskNode.at?, Option.bind_eq_some_iff] at hat
    obtain ⟨child, hchild, hat⟩ := hat
    cases node with
    | file content modified => cases hchild
    | link target => cases hchild
    | dir es => exact ih (h.2.of_mem (Keyed.mem_of_get? hchild)).2 hat

end DiskNode

/-- The entries of all directories are in the order of their names, and no name has a slash. -/
def FileSystem.WellNamed (fs : FileSystem) : Prop := fs.root.WellNamed

instance : DecidablePred FileSystem.WellNamed := fun fs =>
  inferInstanceAs (Decidable fs.root.WellNamed)

/-! ## Walks -/

namespace Scan

/-- A way goes on from another one. -/
def GoesOn (way w : List String) : Prop := ∃ names, w = way ++ names ∧ ∀ n ∈ names, IsName n

/-- Ways are in order, name by name, and all go on from one. -/
structure Ordered (way : List String) (ways : List (List String)) : Prop where
  increasing : ways.Pairwise (· < ·)
  goOn : ∀ w ∈ ways, GoesOn way w

theorem ordered_nil (way : List String) : Ordered way [] := ⟨.nil, nofun⟩

theorem ordered_single (way : List String) : Ordered way [way] where
  increasing := List.pairwise_singleton _ _
  goOn w hw := by
    cases List.mem_singleton.mp hw
    exact ⟨[], (List.append_nil way).symm, nofun⟩

theorem GoesOn.of_entry {way w : List String} {name : String} (hname : IsName name)
    (h : GoesOn (way ++ [name]) w) : GoesOn way w := by
  obtain ⟨names, hway, hnames⟩ := h
  refine ⟨name :: names, by rw [hway, List.append_assoc, List.singleton_append], fun n hn => ?_⟩
  rcases List.mem_cons.mp hn with rfl | hn
  · exact hname
  · exact hnames n hn

/-- Ways through different entries of a directory are in the order of the names of the entries. -/
theorem GoesOn.lt {way w w' : List String} {name name' : String} (hlt : name < name')
    (h : GoesOn (way ++ [name]) w) (h' : GoesOn (way ++ [name']) w') : w < w' := by
  obtain ⟨names, rfl, _⟩ := h
  obtain ⟨names', rfl, _⟩ := h'
  rw [List.append_assoc, List.append_assoc]
  exact List.append_left_lt (List.cons_lt_cons_iff.mpr (.inl hlt))

section

variable {prune : List String → Bool}
  {follow : List (List String) → List String → List (List String)}

mutual
/-- The files below the entries of a directory are reached through the names of the entries. -/
theorem ordered_entries (hfollow : ∀ above way, Ordered way (follow above way))
    (above : List (List String)) (way place : List String) :
    (es : List (String × DiskNode)) → Keyed.Sorted es → DiskNode.EntriesWellNamed es →
      (entries prune follow above way place es).Pairwise (· < ·) ∧
        ∀ w ∈ entries prune follow above way place es, ∃ name ∈ Keyed.keys es,
          IsName name ∧ GoesOn (way ++ [name]) w
  | [], _, _ => ⟨.nil, nofun⟩
  | (name, node) :: rest, hsorted, ⟨hname, hnode, hnamed⟩ => by
    obtain ⟨hfirst, hrest⟩ := List.pairwise_cons.mp hsorted
    have hone := ordered_entry hfollow above (way ++ [name]) (place ++ [name]) node hnode
    obtain ⟨hways, hlater⟩ := ordered_entries hfollow above way place rest hrest hnamed
    rw [entries]
    refine ⟨?_, fun w hw => ?_⟩
    · refine List.pairwise_append.mpr ⟨hone.increasing, hways, fun w hw w' hw' => ?_⟩
      obtain ⟨name', hname', _, hgoes⟩ := hlater w' hw'
      obtain ⟨e, he, rfl⟩ := List.mem_map.mp hname'
      exact (hone.goOn w hw).lt (hfirst e he) hgoes
    · rcases List.mem_append.mp hw with hw | hw
      · exact ⟨name, List.mem_cons_self, hname, hone.goOn w hw⟩
      · obtain ⟨other, hother, h⟩ := hlater w hw
        exact ⟨other, List.mem_cons_of_mem name hother, h⟩

theorem ordered_entry (hfollow : ∀ above way, Ordered way (follow above way))
    (above : List (List String)) (way place : List String) :
    (node : DiskNode) → node.WellNamed → Ordered way (entry prune follow above way place node)
  | .file _ _, _ => ordered_single way
  | .link _, _ => hfollow above way
  | .dir es, ⟨hsorted, hnamed⟩ => by
    rw [entry]
    split
    · exact ordered_nil way
    · obtain ⟨hways, hall⟩ := ordered_entries hfollow (place :: above) way place es hsorted hnamed
      refine ⟨hways, fun w hw => ?_⟩
      obtain ⟨name, _, hname, hgoes⟩ := hall w hw
      exact hgoes.of_entry hname
end

end

section

variable {fs : FileSystem} {prune : List String → Bool}

/-- What a link leads to is reached by ways that go on from the way to the link. -/
theorem ordered_follow (hfs : fs.WellNamed) (root : String) (links : Nat)
    (above : List (List String)) (way : List String) :
    Ordered way (follow fs prune root links above way) := by
  induction links generalizing above way with
  | zero => exact ordered_nil way
  | succ links ih =>
    rw [follow]
    split
    · exact ordered_nil way
    · next target _ =>
      split
      · next es hdir =>
        split
        · exact ordered_nil way
        · obtain ⟨hsorted, hnamed⟩ := DiskNode.WellNamed.at? hfs hdir
          obtain ⟨hways, hall⟩ := ordered_entries ih (target :: above) way target es
            hsorted hnamed
          refine ⟨hways, fun w hw => ?_⟩
          obtain ⟨name, _, hname, hgoes⟩ := hall w hw
          exact hgoes.of_entry hname
      · exact ordered_single way
      · exact ordered_nil way

/-- The ways of a walk are in order, and each is made of names. -/
theorem ordered_walk (hfs : fs.WellNamed) (prune : List String → Bool) (root : String) :
    (walk fs prune root).Pairwise (· < ·) ∧
      ∀ w ∈ walk fs prune root, w ≠ [] ∧ ∀ n ∈ w, IsName n := by
  rw [walk]
  split
  · exact ⟨.nil, nofun⟩
  · next place _ =>
    split
    · next es hdir =>
      obtain ⟨hsorted, hnamed⟩ := DiskNode.WellNamed.at? hfs hdir
      obtain ⟨hways, hall⟩ := ordered_entries
        (ordered_follow hfs root (fs.root.dirCount + 1)) [place] [] place es hsorted hnamed
      refine ⟨hways, fun w hw => ?_⟩
      obtain ⟨name, _, hname, names, hway, hnames⟩ := hall w hw
      rw [List.nil_append, List.singleton_append] at hway
      refine ⟨by simp [hway], fun n hn => ?_⟩
      rcases List.mem_cons.mp (hway ▸ hn) with rfl | hn
      · exact hname
      · exact hnames n hn
    · exact ⟨.nil, nofun⟩

end

/-! ## Source files on a walk -/

section

variable {fs : FileSystem} {excludes : ExcludeSet} {maxSize : Nat} {root : String}

/-- What a way has to lead to in order to be that of a source file. -/
theorem candidate?_eq_some_iff {way place : List String} {f : ScannedFile} :
    candidate? fs excludes root way = some (place, f) ↔ ∃ l, language? excludes way = some l ∧
      fs.resolve (pathOf root way) = .ok place ∧ ∃ content modified,
        fs.at? place = some (.file content modified) ∧
        f = ⟨pathOf root way, relativePath way, l.name, content.size⟩ := by
  rw [candidate?]
  cases language? excludes way with
  | none => simp
  | some l =>
    cases fs.resolve (pathOf root way) with
    | error e => simp
    | ok target =>
      dsimp only
      split
      · next content modified hfile =>
        constructor
        · intro h
          cases h
          exact ⟨l, rfl, rfl, content, modified, hfile, rfl⟩
        · rintro ⟨_, hl, hplace, content', modified', hfile', rfl⟩
          cases hl
          cases hplace
          cases hfile.symm.trans hfile'
          rfl
      · next hfile =>
        refine ⟨nofun, ?_⟩
        rintro ⟨_, _, hplace, content, modified, hfile', _⟩
        cases hplace
        exact absurd hfile' (hfile content modified)

/-- The files that are selected are candidates, in their order. -/
theorem select_sublist (maxSize : Nat) (seen : List (List String))
    (candidates : List (List String × ScannedFile)) :
    (select maxSize seen candidates).Sublist (candidates.map Prod.snd) := by
  induction candidates generalizing seen with
  | nil => exact .slnil
  | cons c rest ih =>
    obtain ⟨place, f⟩ := c
    rw [select, List.map_cons]
    split
    · exact (ih seen).cons f
    · split
      · exact (ih _).cons_cons f
      · exact (ih _).cons f

/-- A file of a walk is one to which a way leads, under a name that counts. -/
theorem exists_candidate {prune : List String → Bool} {f : ScannedFile}
    (h : f ∈ files fs prune excludes maxSize root) :
    ∃ w ∈ walk fs prune root, ∃ place, candidate? fs excludes root w = some (place, f) := by
  obtain ⟨⟨place, f'⟩, hc, rfl⟩ := List.mem_map.mp ((select_sublist maxSize [] _).subset h)
  obtain ⟨w, hw, hcandidate⟩ := List.mem_filterMap.mp hc
  exact ⟨w, hw, place, hcandidate⟩

end

end Scan

theorem Language.ofName?_name (l : Language) : ofName? l.name = some l := by
  cases l <;> rfl

section

variable {fs : FileSystem} {excludes : ExcludeSet} {maxSize : Nat} {root : String}

/-- The way that leads to a file of a scan. -/
def ScannedFile.way (f : ScannedFile) : List String := Text.splitOn (· == '/') f.relative

/-- The names on a way are found again in its path. -/
theorem Scan.way_of_candidate {w place : List String} {f : ScannedFile} (hne : w ≠ [])
    (hnames : ∀ n ∈ w, IsName n) (h : candidate? fs excludes root w = some (place, f)) :
    f.way = w := by
  obtain ⟨l, _, _, content, modified, _, rfl⟩ := candidate?_eq_some_iff.mp h
  exact Text.splitOn_intercalate hne hnames

/-- The files of a scan are in the order of their ways. -/
theorem pairwise_ways_scan (hfs : fs.WellNamed) (excludes : ExcludeSet) (maxSize : Nat)
    (root : String) : ((scan fs excludes maxSize root).map ScannedFile.way).Pairwise (· < ·) := by
  obtain ⟨hways, hnames⟩ := Scan.ordered_walk hfs
    (fun way => excludes.prunes (Scan.relativePath way)) root
  refine List.Pairwise.sublist ((Scan.select_sublist maxSize [] _).map ScannedFile.way) ?_
  rw [List.map_map, List.pairwise_map, List.pairwise_filterMap]
  refine hways.imp_of_mem fun {w w'} hw hw' hlt => ?_
  rintro ⟨place, f⟩ hf ⟨place', f'⟩ hf'
  change f.way < f'.way
  rwa [Scan.way_of_candidate (hnames w hw).1 (hnames w hw).2 hf,
    Scan.way_of_candidate (hnames w' hw').1 (hnames w' hw').2 hf']

/-- The files of a scan have different paths. -/
theorem nodup_relative_scan (hfs : fs.WellNamed) (excludes : ExcludeSet) (maxSize : Nat)
    (root : String) : ((scan fs excludes maxSize root).map ScannedFile.relative).Nodup := by
  have hways := pairwise_ways_scan hfs excludes maxSize root
  rw [List.pairwise_map] at hways
  refine List.pairwise_map.mpr (hways.imp fun {f g} hlt heq => ?_)
  rw [ScannedFile.way, heq] at hlt
  exact List.lt_irrefl _ hlt

/-- The language of a file of a scan is the one that its path asks for. -/
theorem language_of_mem_scan (hfs : fs.WellNamed) {f : ScannedFile}
    (h : f ∈ scan fs excludes maxSize root) : ∃ l, Language.ofName? f.language = some l ∧
      Language.ofPath? f.relative = some l := by
  obtain ⟨w, hw, place, hcandidate⟩ := Scan.exists_candidate h
  obtain ⟨hne, hnames⟩ := (Scan.ordered_walk hfs _ root).2 w hw
  obtain ⟨l, hl, _, content, modified, _, rfl⟩ := Scan.candidate?_eq_some_iff.mp hcandidate
  refine ⟨l, Language.ofName?_name l, ?_⟩
  rw [Scan.language?] at hl
  split at hl
  · cases hl
  · rw [Language.ofPath?, Scan.relativePath, Text.splitOn_intercalate hne hnames]
    exact hl

/-- A file of a scan lies below the root. -/
theorem path_of_mem_scan {f : ScannedFile} (h : f ∈ scan fs excludes maxSize root) :
    f.path = Path.join root f.relative := by
  obtain ⟨w, _, place, hcandidate⟩ := Scan.exists_candidate h
  obtain ⟨l, _, _, content, modified, _, rfl⟩ := Scan.candidate?_eq_some_iff.mp hcandidate
  rfl

end

end CodeAtlas
