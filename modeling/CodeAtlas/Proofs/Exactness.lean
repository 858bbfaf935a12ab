import CodeAtlas.Proofs.Pruning
import CodeAtlas.Proofs.Walks
/-!
# Scans are exact

A file may be reached by several ways: there are links to files and to directories. It is found once,
by the first of the ways under which it counts, and ways come in the order of their names. This hangs
on the order of what is asked of a file on the walk: a way that is excluded, or whose name is not that
of a source file, does not make the file seen, and a file that is too large is too large by any way.

Results:
1. `exists_of_mem_select`, `mem_select`: what is selected is what comes first at its place.
2. `candidate?_iff`: what a source file on a walk is.
3. `scan_exact`: a scan ends and gives each source file that can be reached once, by the first way.
-/

namespace CodeAtlas.Scan

/-! ## The first at each place -/

section

variable {maxSize : Nat} {seen : List (List String)} {candidates : List (List String × ScannedFile)}
  {place : List String} {f : ScannedFile}

/-- What is selected comes first at its place, which has not been seen before. -/
theorem exists_of_mem_select (h : f ∈ select maxSize seen candidates) :
    ∃ before place after, candidates = before ++ (place, f) :: after ∧ place ∉ seen ∧
      (∀ c ∈ before, c.1 ≠ place) ∧ f.size ≤ maxSize := by
  induction candidates generalizing seen with
  | nil => cases h
  | cons c rest ih =>
    obtain ⟨first, g⟩ := c
    -- behind the first candidate, whose place is seen then
    have later : ∀ {seen'}, (∀ p, p ∉ seen' → p ∉ seen ∧ first ≠ p) →
        f ∈ select maxSize seen' rest →
        ∃ before place after, (first, g) :: rest = before ++ (place, f) :: after ∧ place ∉ seen ∧
          (∀ c ∈ before, c.1 ≠ place) ∧ f.size ≤ maxSize := by
      intro seen' hseen' h
      obtain ⟨before, place, after, rfl, hplace, hbefore, hsize⟩ := ih h
      obtain ⟨hnew, hne⟩ := hseen' place hplace
      refine ⟨(first, g) :: before, place, after, rfl, hnew, fun c hc => ?_, hsize⟩
      rcases List.mem_cons.mp hc with rfl | hc
      · exact hne
      · exact hbefore c hc
    have hcons : ∀ p, p ∉ first :: seen → p ∉ seen ∧ first ≠ p := fun p hp =>
      ⟨fun hmem => hp (List.mem_cons_of_mem first hmem), fun heq => hp (heq ▸ List.mem_cons_self)⟩
    rw [select] at h
    split at h
    · next hseen =>
      refine later (fun p hp => ⟨hp, ?_⟩) h
      rintro rfl
      exact hp (List.contains_iff_mem.mp hseen)
    · next hseen =>
      split at h
      · next hsize =>
        rcases List.mem_cons.mp h with rfl | h
        · exact ⟨[], first, rest, rfl, fun hmem => hseen (List.contains_iff_mem.mpr hmem),
            fun c hc => absurd hc List.not_mem_nil, hsize⟩
        · exact later hcons h
      · exact later hcons h

/-- What comes first at its place is selected, unless it is too large. -/
theorem mem_select {before after : List (List String × ScannedFile)} (hplace : place ∉ seen)
    (hbefore : ∀ c ∈ before, c.1 ≠ place) (hsize : f.size ≤ maxSize) :
    f ∈ select maxSize seen (before ++ (place, f) :: after) := by
  induction before generalizing seen with
  | nil =>
    rw [List.nil_append, select, if_neg fun hseen => hplace (List.contains_iff_mem.mp hseen),
      if_pos hsize]
    exact List.mem_cons_self
  | cons c before ih =>
    obtain ⟨first, g⟩ := c
    have hlater := fun c hc => hbefore c (List.mem_cons_of_mem _ hc)
    have hcons : place ∉ first :: seen := by
      intro hmem
      rcases List.mem_cons.mp hmem with heq | hmem
      · exact hbefore (first, g) List.mem_cons_self heq.symm
      · exact hplace hmem
    rw [List.cons_append, select]
    split
    · exact ih hplace hlater
    · split
      · exact List.mem_cons_of_mem g (ih hcons hlater)
      · exact ih hcons hlater

/-- The places of what is selected are different. -/
theorem nodup_select {α : Type} {placeOf : ScannedFile → α} (ofPlace : List String → α)
    (hinj : Function.Injective ofPlace) (h : ∀ c ∈ candidates, placeOf c.2 = ofPlace c.1) :
    ((select maxSize seen candidates).map placeOf).Nodup := by
  induction candidates generalizing seen with
  | nil => exact .nil
  | cons c rest ih =>
    obtain ⟨first, g⟩ := c
    have hrest := fun c hc => h c (List.mem_cons_of_mem _ hc)
    rw [select]
    split
    · exact ih hrest
    · split
      · refine List.nodup_cons.mpr ⟨fun hmem => ?_, ih hrest⟩
        obtain ⟨g', hg', heq⟩ := List.mem_map.mp hmem
        obtain ⟨before, place, after, rfl, hplace, _⟩ := exists_of_mem_select hg'
        have hg := h (first, g) List.mem_cons_self
        rw [← heq, hrest (place, g') (by simp)] at hg
        have hsame : place = first := hinj hg
        exact hplace (hsame ▸ List.mem_cons_self)
      · exact ih hrest

end

/-! ## Source files -/

/-- A walk from a root comes to a file by a way. -/
structure Reaches (fs : FileSystem) (root : String) (way place : List String)
    (content : ByteArray) : Prop where
  comes : Comes fs root way
  leads : fs.resolve (pathOf root way) = .ok place
  there : ∃ modified, fs.at? place = some (.file content modified)

/-- A way whose path is not excluded, and whose extension is one of a language. -/
def Counts (excludes : ExcludeSet) (way : List String) (l : Language) : Prop :=
  excludes.excludes (relativePath way) = false ∧ Language.ofPath? (relativePath way) = some l

/-- The source file that a way leads to. -/
def sourceFile (root : String) (way : List String) (l : Language) (content : ByteArray) :
    ScannedFile :=
  ⟨pathOf root way, relativePath way, l.name, content.size⟩

/-- What it means for a scan to be exact. -/
structure IsExact (fs : FileSystem) (excludes : ExcludeSet) (maxSize : Nat) (root : String)
    (found : List ScannedFile) : Prop where
  /-- The walk ends, in the order of its ways, and the files come from what it has come to. -/
  ends : ∃ ways, Walker.Leads fs (fun way => excludes.prunes (relativePath way)) root
    (Walker.start fs root) ⟨[], ways⟩ ∧ ways.Pairwise (· < ·) ∧
      found = select maxSize [] (ways.filterMap (candidate? fs excludes root))
  /-- No file is found twice, -/
  once : (found.map fun f => fs.resolve f.path).Nodup
  /-- nor is a path. -/
  different : (found.map ScannedFile.relative).Nodup
  /-- Files are found in the order of the walk. -/
  ordered : (found.map ScannedFile.way).Pairwise (· < ·)
  /-- What is found can be reached, counts and is not too large. -/
  sound : ∀ f ∈ found, ∃ way place content l, Reaches fs root way place content ∧
    Counts excludes way l ∧ content.size ≤ maxSize ∧ f = sourceFile root way l content
  /-- A file that can be reached, counts and is not too large is found by the first such way. -/
  complete : ∀ way place content l, Reaches fs root way place content → Counts excludes way l →
    content.size ≤ maxSize → ∃ first l', Reaches fs root first place content ∧
      Counts excludes first l' ∧ sourceFile root first l' content ∈ found ∧
      ∀ other l'', Reaches fs root other place content → Counts excludes other l'' →
        first = other ∨ first < other

section

variable {fs : FileSystem} {excludes : ExcludeSet} {maxSize : Nat} {root : String}

/-- Whether a way counts is seen from its path. -/
theorem language?_eq_some_iff {way : List String} (hne : way ≠ []) (hnames : ∀ n ∈ way, IsName n)
    {l : Language} : language? excludes way = some l ↔ Counts excludes way l := by
  have hpath : Language.ofPath? (relativePath way) =
      (way.getLast?.bind Path.extension?).bind Language.ofExtension? := by
    rw [Language.ofPath?, relativePath, Text.splitOn_intercalate hne hnames]
  rw [language?, Counts, hpath]
  cases excludes.excludes (relativePath way) <;> simp

/-- A walk that enters everything comes to just what can be reached. -/
theorem mem_walk_iff (hfs : fs.WellNamed) {w : List String} :
    w ∈ walk fs (fun _ => false) root ↔ Comes fs root w :=
  ⟨comes_of_mem_walk hfs, mem_walk_of_comes hfs⟩

/-- A source file on a walk is one that can be reached by a way that counts. -/
theorem candidate?_iff (hfs : fs.WellNamed) {w place : List String} {f : ScannedFile}
    (hw : w ∈ walk fs (fun _ => false) root) :
    candidate? fs excludes root w = some (place, f) ↔ ∃ l content,
      Reaches fs root w place content ∧ Counts excludes w l ∧ f = sourceFile root w l content := by
  obtain ⟨hne, hnames⟩ := (ordered_walk hfs _ root).2 w hw
  rw [candidate?_eq_some_iff]
  constructor
  · rintro ⟨l, hl, hplace, content, modified, hfile, rfl⟩
    exact ⟨l, content, ⟨(mem_walk_iff hfs).mp hw, hplace, modified, hfile⟩,
      (language?_eq_some_iff hne hnames).mp hl, rfl⟩
  · rintro ⟨l, content, ⟨_, hplace, modified, hfile⟩, hl, rfl⟩
    exact ⟨l, (language?_eq_some_iff hne hnames).mpr hl, hplace, content, modified, hfile, rfl⟩

/-- Whatever leads to a place from behind the first candidate there is a later way. -/
theorem first_way (hfs : fs.WellNamed) {before after : List (List String × ScannedFile)}
    {place : List String} {f : ScannedFile}
    (h : (walk fs (fun _ => false) root).filterMap (candidate? fs excludes root) =
      before ++ (place, f) :: after) (hbefore : ∀ c ∈ before, c.1 ≠ place) :
    ∃ first ∈ walk fs (fun _ => false) root,
      candidate? fs excludes root first = some (place, f) ∧
      ∀ other ∈ walk fs (fun _ => false) root, ∀ g,
        candidate? fs excludes root other = some (place, g) → first = other ∨ first < other := by
  have hordered := (ordered_walk hfs (fun _ => false) root).1
  obtain ⟨front, back, hwalk, hfront, hback⟩ := List.filterMap_eq_append_iff.mp h
  obtain ⟨skipped, first, rest, rfl, hskipped, hfirst, _⟩ := List.filterMap_eq_cons_iff.mp hback
  rw [hwalk] at hordered ⊢
  refine ⟨first, by simp, hfirst, fun other hother g hg => ?_⟩
  rcases List.mem_append.mp hother with hin | hin
  · exact absurd rfl (hbefore _ (hfront ▸ List.mem_filterMap.mpr ⟨other, hin, hg⟩))
  · rcases List.mem_append.mp hin with hin | hin
    · rw [hskipped other hin] at hg
      cases hg
    · rcases List.mem_cons.mp hin with heq | hin
      · exact .inl heq.symm
      · have hlater := (List.pairwise_append.mp (List.pairwise_append.mp hordered).2.1).2.1
        exact .inr ((List.pairwise_cons.mp hlater).1 other hin)

/-- A file that can be reached by a way that counts is a candidate, and one of them is the first. -/
theorem exists_first {way place : List String} {content : ByteArray} {l : Language}
    (hfs : fs.WellNamed) (h : Reaches fs root way place content) (hl : Counts excludes way l) :
    ∃ before f after, (walk fs (fun _ => false) root).filterMap (candidate? fs excludes root) =
      before ++ (place, f) :: after ∧ ∀ c ∈ before, c.1 ≠ place := by
  have hw := (mem_walk_iff hfs).mpr h.comes
  have hmem : (place, sourceFile root way l content) ∈
      (walk fs (fun _ => false) root).filterMap (candidate? fs excludes root) :=
    List.mem_filterMap.mpr ⟨way, hw, (candidate?_iff hfs hw).mpr ⟨l, content, h, hl, rfl⟩⟩
  obtain ⟨⟨place', f⟩, hfind⟩ := Option.isSome_iff_exists.mp <| List.find?_isSome
    (p := fun c : List String × ScannedFile => c.1 == place) |>.mpr ⟨_, hmem, beq_self_eq_true _⟩
  obtain ⟨heq, before, after, hsplit, hbefore⟩ := List.find?_eq_some_iff_append.mp hfind
  cases eq_of_beq heq
  exact ⟨before, f, after, hsplit, fun c hc heq => by simpa [heq] using hbefore c hc⟩

end

end Scan

/-- A scan ends and gives just the source files that can be reached: each once, by the first way under
which it counts, in the order of the walk. -/
theorem scan_exact {fs : FileSystem} (hfs : fs.WellNamed) (excludes : ExcludeSet) (maxSize : Nat)
    (root : String) : Scan.IsExact fs excludes maxSize root (scan fs excludes maxSize root) where
  ends := ⟨_, Scan.Walker.leads_start hfs _ root, (Scan.ordered_walk hfs _ root).1, rfl⟩
  once := by
    refine Scan.nodup_select Except.ok (fun _ _ => Except.ok.inj) fun c hc => ?_
    obtain ⟨w, _, hcandidate⟩ := List.mem_filterMap.mp hc
    obtain ⟨l, _, hplace, content, modified, _, hf⟩ := Scan.candidate?_eq_some_iff.mp hcandidate
    rw [hf]
    exact hplace
  different := nodup_relative_scan hfs excludes maxSize root
  ordered := pairwise_ways_scan hfs excludes maxSize root
  sound f hf := by
    rw [Scan.files_prunes] at hf
    obtain ⟨before, place, after, hsplit, _, hbefore, hsize⟩ := Scan.exists_of_mem_select hf
    obtain ⟨w, hw, hcandidate, _⟩ := Scan.first_way hfs hsplit hbefore
    obtain ⟨l, content, hreaches, hcounts, rfl⟩ := (Scan.candidate?_iff hfs hw).mp hcandidate
    exact ⟨w, place, content, l, hreaches, hcounts, hsize, rfl⟩
  complete way place content l hreaches hcounts hsize := by
    obtain ⟨before, f, after, hsplit, hbefore⟩ := Scan.exists_first hfs hreaches hcounts
    obtain ⟨first, hfirst, hcandidate, hall⟩ := Scan.first_way hfs hsplit hbefore
    obtain ⟨l', content', hreaches', hcounts', rfl⟩ :=
      (Scan.candidate?_iff hfs hfirst).mp hcandidate
    -- it is the same file, so it has the same content
    obtain rfl : content' = content := by
      obtain ⟨modified, hthere⟩ := hreaches.there
      obtain ⟨modified', hthere'⟩ := hreaches'.there
      cases hthere.symm.trans hthere'
      rfl
    refine ⟨first, l', hreaches', hcounts', ?_, fun other l'' hother hcounts'' => ?_⟩
    · rw [Scan.files_prunes, Scan.files, hsplit]
      exact Scan.mem_select List.not_mem_nil hbefore hsize
    · have hin := (Scan.mem_walk_iff hfs).mpr hother.comes
      exact hall other hin _ ((Scan.candidate?_iff hfs hin).mpr ⟨l'', _, hother, hcounts'', rfl⟩)

section

set_option maxRecDepth 100000

/-- Two source files, and links: to a file, to nowhere, to a directory on the way, and to the root of
the file system, from where the walk comes to all of this again. -/
def FileSystem.looped : FileSystem where
  root := .dir [("r", .dir [
    ("a.py", .file "pass".toUTF8 ⟨0, 0⟩),
    ("b.py", .link "a.py"),
    ("c", .dir [("d.py", .file "pass".toUTF8 ⟨0, 0⟩), ("up", .link "..")]),
    ("gone.py", .link "nowhere"),
    ("top", .link "/")])]

theorem scan_exact_looped : FileSystem.looped.WellNamed ∧
    Scan.IsExact FileSystem.looped (.ofStrings ["b.py"]) 10 "/r"
      (scan FileSystem.looped (.ofStrings ["b.py"]) 10 "/r") := by
  have hnamed : FileSystem.looped.WellNamed := by decide +kernel
  exact ⟨hnamed, scan_exact hnamed _ _ _⟩

example : (scan FileSystem.looped (.ofStrings ["a.py"]) 10 "/r").map ScannedFile.relative =
    ["b.py", "c/d.py"] := by
  decide +kernel

end

end CodeAtlas
