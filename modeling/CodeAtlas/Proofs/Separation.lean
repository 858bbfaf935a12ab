import CodeAtlas.Proofs.Heading
import CodeAtlas.Proofs.History
import CodeAtlas.Proofs.Outputs
/-!
# Outputs of different projects

The output of a project begins at one place: at `.agents` in its root, or at its name in the directory
that is configured for all outputs. A run changes nothing but what is at this place and below, as long
as there are no links. So projects leave the outputs of each other alone if neither root is in the other
one and, in a directory for all outputs, their names are different.

Results:
1. `below_of_reaches`: changes for documents stay below the output directory.
2. `WorksBelow.confines_run`: a run stays below the place where the output of its project begins.
3. `output_stays_elsewhere`: runs for other projects leave the output of a project as it is.
-/

namespace CodeAtlas

/-! ## Documents below a directory -/

namespace OutputLayout

variable {fs : FileSystem} {dir path : String} {d place : List String}

theorem plain_documentName (path : String) : Path.IsPlain (flatName path ++ ".yaml") := by
  have hlength : 5 ≤ (flatName path ++ ".yaml").length := by
    rw [String.length_append, show (".yaml" : String).length = 5 from rfl]
    omega
  refine ⟨fun hslash => ?_, fun h => ?_, fun h => ?_, fun h => ?_⟩
  · rw [String.toList_append, List.mem_append, flatName, String.toList_map] at hslash
    rcases hslash with hslash | hslash
    · obtain ⟨c, _, hc⟩ := List.mem_map.mp hslash
      split at hc
      · exact absurd hc (by decide)
      · next hother =>
        subst hc
        exact hother rfl
    · exact absurd hslash (by decide)
  all_goals
    rw [h] at hlength
    exact absurd hlength (by decide)

/-- A document is a name in a directory that heads for the output directory or below it. -/
theorem IsDocument.exists_join (hdir : fs.HeadsTo dir d) (hfiles : fs.link? (d ++ ["files"]) = none)
    (h : IsDocument dir path) : ∃ base p name, path = Path.join base name ∧ Path.IsPlain name ∧
      fs.HeadsTo base p ∧ d <+: p := by
  cases h with
  | project => exact ⟨dir, d, _, rfl, by decide, hdir, List.prefix_rfl⟩
  | summary => exact ⟨dir, d, _, rfl, by decide, hdir, List.prefix_rfl⟩
  | file path =>
    exact ⟨filesDir dir, _, _, rfl, plain_documentName path, hdir.join (by decide) hfiles,
      List.prefix_append d _⟩

section

variable (hdir : fs.HeadsTo dir d) (hlinks : ∀ place, d <+: place → fs.link? place = none)

include hdir hlinks

theorem IsDocument.below_placeOf (h : IsDocument dir path) (hplace : fs.placeOf path = .ok place) :
    d <+: place := by
  obtain ⟨base, p, name, rfl, hname, hbase, hp⟩ := h.exists_join hdir (hlinks _ (List.prefix_append d _))
  rw [hbase.placeOf_join hname hplace]
  exact hp.trans (List.prefix_append p _)

/-- Documents are written below the output directory. -/
theorem IsDocument.below_writePlace {n : Nat} (h : IsDocument dir path)
    (hplace : fs.writePlace n path = .ok place) : d <+: place := by
  obtain ⟨base, p, name, rfl, hname, hbase, hp⟩ := h.exists_join hdir (hlinks _ (List.prefix_append d _))
  have hbelow : d <+: p ++ [name] := hp.trans (List.prefix_append p _)
  rwa [hbase.writePlace_join hname (hlinks _ hbelow) hplace]

/-- Documents that are there are below the output directory. -/
theorem IsDocument.below_resolve (h : IsDocument dir path) (hplace : fs.resolve path = .ok place) :
    d <+: place := by
  obtain ⟨base, p, name, rfl, hname, hbase, hp⟩ := h.exists_join hdir (hlinks _ (List.prefix_append d _))
  have hbelow : d <+: p ++ [name] := hp.trans (List.prefix_append p _)
  rwa [hbase.join hname (hlinks _ hbelow) place (FileSystem.heading?_of_resolve hplace)]

/-- Changes for documents stay below the output directory. -/
theorem below_of_reaches {whole : Prop} {c : DiskChange} (hc : c.IsOutput whole dir)
    (hreaches : c.Reaches fs place) : d <+: place := by
  cases hc with
  | clear _ =>
    obtain ⟨above, habove, hbelow⟩ := hreaches
    rw [hdir.placeOf_join (by decide) habove] at hbelow
    exact (List.prefix_append d _).trans hbelow
  | directory path => exact hreaches.elim
  | write hpath content => exact hpath.below_writePlace hdir hlinks hreaches
  | remove path =>
    obtain ⟨above, habove, hbelow⟩ := hreaches
    exact ((IsDocument.file path).below_placeOf hdir hlinks habove).trans hbelow

end

end OutputLayout

/-! ## Changes -/

namespace DiskChange

variable {c : DiskChange} {fs fs' : FileSystem}

/-- Changes make no links. -/
theorem link?_of_apply (h : c.apply fs = .ok fs') {place : List String}
    (hnone : fs.link? place = none) : fs'.link? place = none := by
  by_cases hreaches : c.Reaches fs place
  · cases c with
    | makeDirs path => exact hreaches.elim
    | write path content =>
      obtain ⟨own, hown, rfl⟩ := FileSystem.write_eq_ok h
      cases hreaches.symm.trans hown
      rw [FileSystem.link?]
      split
      · next target hlink =>
        by_cases hparent : fs.holds? place.dropLast = some .dir
        · have hput := FileSystem.holds?_put hparent (.file content fs.clock) []
          rw [List.append_nil] at hput
          cases hput.symm.trans hlink
        · rw [FileSystem.holds?_put_of_no_parent (FileSystem.writePlace_eq_ok hown).1 hparent] at hlink
          rw [FileSystem.link?, hlink] at hnone
          cases hnone
      · rfl
    | removeFile path =>
      obtain ⟨above, habove, hbelow⟩ := hreaches
      obtain ⟨own, hown, _, rfl⟩ := FileSystem.removeFile_eq_ok h
      cases habove.symm.trans hown
      rw [FileSystem.link?, FileSystem.holds?_erase (FileSystem.placeOf_ne_nil habove) hbelow]
    | removeTree path =>
      obtain ⟨above, habove, hbelow⟩ := hreaches
      obtain ⟨own, hown, rfl⟩ := FileSystem.removeTree_eq_ok h
      cases habove.symm.trans hown
      rw [FileSystem.link?, FileSystem.holds?_erase (FileSystem.placeOf_ne_nil habove) hbelow]
  · rwa [FileSystem.link?_of_leaf?, leaf?_of_not_reaches h hreaches, ← FileSystem.link?_of_leaf?]

theorem current_of_apply (h : c.apply fs = .ok fs') : fs'.current = fs.current := by
  cases c with
  | makeDirs path =>
    exact FileSystem.makeDirs_keeps (P := fun fs' => fs'.current = fs.current)
      (fun _ _ hsame _ _ => hsame) rfl h
  | write path content =>
    obtain ⟨_, _, rfl⟩ := FileSystem.write_eq_ok h
    rfl
  | removeFile path =>
    obtain ⟨_, _, _, rfl⟩ := FileSystem.removeFile_eq_ok h
    rfl
  | removeTree path =>
    obtain ⟨_, _, rfl⟩ := FileSystem.removeTree_eq_ok h
    rfl

end DiskChange

/-! ## Where the output of a project begins -/

/-- The place where the output of a project begins: at `.agents` in its root, or at its name in the
directory for all outputs. `stem` is where this root or directory is. -/
def Indexer.outputTop (x : Indexer) (root : String) (stem : List String) : List String :=
  stem ++ [match x.config.outputDir with
    | none => ".agents"
    | some _ => projectName root]

namespace ToolCall

variable {x : Indexer} {h t : Host} {call : ToolCall} {root name : String} {stem : List String}

theorem worksOn_unique {root' name' : String} (hworks : call.WorksOn x h root name)
    (hworks' : call.WorksOn x h root' name') : root = root' ∧ name = name' := by
  cases call with
  | index path patterns =>
    obtain ⟨hroot, rfl⟩ := hworks
    obtain ⟨hroot', rfl⟩ := hworks'
    cases hroot.symm.trans hroot'
    exact ⟨rfl, rfl⟩
  | update id force =>
    obtain ⟨p, g, hrun, rfl⟩ := hworks
    obtain ⟨p', g', hrun', rfl⟩ := hworks'
    cases hrun.symm.trans hrun'
    exact ⟨rfl, rfl⟩
  | _ => exact hworks.elim

/-- The root that a call works on may be indexed. -/
theorem WorksOn.validate (hworks : call.WorksOn x h root name) :
    ∃ path, AllowedRoots.validate h.disk x.config.allowedRoots path = .ok root := by
  cases call with
  | index path patterns => exact ⟨path, hworks.1⟩
  | update id force =>
    obtain ⟨p, g, hrun, _⟩ := hworks
    obtain ⟨found, h', hload, hrun⟩ := run_attempt_bind_ok hrun
    have hdisk : h'.disk = h.disk := by
      have := Host.disk_attempt (h := h) ((x.store.reading_loadProject id).harmless.mono
        fun _ => Request.IsHarmless.keepsTo)
      rwa [show h.attempt (x.store.loadProject id) = _ from hload] at this
    cases found with
    | none => cases hrun
    | some project =>
      obtain ⟨result, h'', hroot, hrun⟩ := run_attempt_bind_ok hrun
      have hvalidate : result =
          AllowedRoots.validate h'.disk x.config.allowedRoots project.rootPath := by
        cases hroot
        rfl
      cases result with
      | error e => cases hrun
      | ok root' =>
        cases hrun
        exact ⟨p.rootPath, hdisk ▸ hvalidate.symm⟩
  | _ => exact hworks.elim

/-- A call works on a project whose output begins where there are no links. -/
structure WorksBelow (x : Indexer) (h : Host) (call : ToolCall) (root : String)
    (stem : List String) : Prop where
  works : call.WorksOn x h root (Indexer.projectName root)
  heads : match x.config.outputDir with
    | none => stem = Path.pieces root
    | some base => h.disk.HeadsTo base stem
  unlinked : ∀ place, x.outputTop root stem <+: place → h.disk.link? place = none
  current : ∀ name ∈ h.disk.current, Path.IsPlain name

/-- Links are the same if they are where there were no links, and other files and links are. -/
theorem link?_eq {top : List String} {fs fs' : FileSystem}
    (hbefore : ∀ place, top <+: place → fs.link? place = none)
    (hsame : ∀ place, ¬ top <+: place → fs'.leaf? place = fs.leaf? place)
    (hafter : ∀ place, top <+: place → fs'.link? place = none) : fs'.link? = fs.link? := by
  funext place
  by_cases hplace : top <+: place
  · rw [hafter place hplace, hbefore place hplace]
  · rw [FileSystem.link?_of_leaf?, hsame place hplace, ← FileSystem.link?_of_leaf?]

/-- A run makes no links. -/
theorem unlinked_run (hh : ∀ place, h.disk.link? place = none)
    (ht : t ∈ Program.states Host.serve (call.run x).run h) (place : List String) :
    t.disk.link? place = none :=
  keeps_run (J := fun fs => ∀ place, fs.link? place = none) hh
    (fun _ _ _ _ _ hu happly place => DiskChange.link?_of_apply happly (hu place)) ht place

variable (hw : call.WorksBelow x h root stem) (hroot : Path.pieces root ≠ [])

include hw hroot

/-- The name of a project is the last one of its root. -/
theorem WorksBelow.plain_projectName : Path.IsPlain (Indexer.projectName root) := by
  obtain ⟨path, hvalidate⟩ := hw.works.validate
  obtain ⟨hplain, _, _⟩ := AllowedRoots.headsTo_of_validate hw.current hvalidate
  have hnames : Path.names root = Path.pieces root := by
    refine (Path.names_eq_filter root).trans (List.filter_eq_self.mpr fun n hn => ?_)
    exact bne_iff_ne.mpr (hplain n hn).2.2.1
  have hlast := List.getLast?_eq_some_getLast hroot
  generalize (Path.pieces root).getLast hroot = name at hlast
  have hname := hplain name (List.mem_of_getLast? hlast)
  have hproject : Indexer.projectName root = name := by
    rw [Indexer.projectName, Path.fileName?, hnames, hlast]
    split
    · next heq => exact absurd (Option.some.inj heq) hname.2.2.2
    · next heq => cases heq
    · next heq =>
      cases heq
      rfl
  rwa [hproject]

/-- The output directory is where the output begins, or below. -/
theorem WorksBelow.exists_headsTo : ∃ d, x.outputTop root stem <+: d ∧
    h.disk.HeadsTo (x.config.outputDirFor root (Indexer.projectName root)) d := by
  obtain ⟨path, hvalidate⟩ := hw.works.validate
  obtain ⟨hplain, _, hheads⟩ := AllowedRoots.headsTo_of_validate hw.current hvalidate
  have hname := hw.plain_projectName hroot
  have hstem := hw.heads
  have hlinks := hw.unlinked
  rw [Indexer.outputTop] at hlinks ⊢
  rw [Config.outputDirFor]
  split at hstem
  · next hnone =>
    rw [hnone] at hlinks ⊢
    subst hstem
    refine ⟨_, List.prefix_append _ ["architecture"], ?_⟩
    have hagents : Path.IsPlain ".agents" := by decide
    exact (hheads.join hagents (hlinks _ List.prefix_rfl)).join (by decide)
      (hlinks _ (List.prefix_append _ _))
  · next base hsome =>
    rw [hsome] at hlinks ⊢
    exact ⟨_, List.prefix_rfl, hstem.join hname (hlinks _ List.prefix_rfl)⟩

/-- In all states of a run nothing has changed but below the place where the output begins, and there
are no links. -/
theorem WorksBelow.confines_run (ht : t ∈ Program.states Host.serve (call.run x).run h) :
    (∀ place, ¬ x.outputTop root stem <+: place → t.disk.leaf? place = h.disk.leaf? place) ∧
      (∀ place, x.outputTop root stem <+: place → t.disk.link? place = none) ∧
        t.disk.current = h.disk.current := by
  obtain ⟨d, htop, hheads⟩ := hw.exists_headsTo hroot
  refine keeps_run (J := fun fs => (∀ place, ¬ x.outputTop root stem <+: place →
    fs.leaf? place = h.disk.leaf? place) ∧ (∀ place, x.outputTop root stem <+: place →
      fs.link? place = none) ∧ fs.current = h.disk.current) ⟨fun _ _ => rfl, hw.unlinked, rfl⟩
    (fun c u fs hc _ hu happly => ?_) ht
  obtain ⟨root', name', hworks, hc⟩ := hc
  obtain ⟨rfl, rfl⟩ := worksOn_unique hw.works hworks
  obtain ⟨hsame, hnone, hcurrent⟩ := hu
  -- links are the same as at the beginning, so all paths head for the same places
  have hlinks := link?_eq hw.unlinked hsame hnone
  have hreaches : ∀ place, c.Reaches u.disk place → x.outputTop root stem <+: place :=
    fun place hreaches => htop.trans (OutputLayout.below_of_reaches (hheads.congr hlinks hcurrent)
      (fun place hplace => hnone place (htop.trans hplace)) hc hreaches)
  refine ⟨fun place hplace => ?_, fun place hplace => ?_, ?_⟩
  · rw [DiskChange.leaf?_of_not_reaches happly fun h => hplace (hreaches place h)]
    exact hsame place hplace
  · exact DiskChange.link?_of_apply happly (hnone place hplace)
  · exact (DiskChange.current_of_apply happly).trans hcurrent

end ToolCall

/-! ## Runs for other projects -/

/-- Surroundings to which others go on that have the output of a project: by runs for other projects, be
they still under way, and by anything else that leaves the output as it is. Roots of other projects lie
beside that of the project, and in a directory for all outputs, which stays where it is, their names are
different. -/
inductive Indexer.Elsewhere (x : Indexer) (root : String) (stem : List String) (g : Host) : Host → Prop
  | refl : Elsewhere x root stem g g
  | run {h t : Host} {call : ToolCall} {other : String} {stem' : List String}
    (before : Elsewhere x root stem g h) (works : call.WorksBelow x h other stem')
    (beside : ¬ Path.pieces root <+: Path.pieces other ∧ ¬ Path.pieces other <+: Path.pieces root)
    (names : x.config.outputDir ≠ none → stem' = stem ∧ projectName other ≠ projectName root)
    (within : t ∈ Program.states Host.serve (call.run x).run h) : Elsewhere x root stem g t
  | drift {h t : Host} (before : Elsewhere x root stem g h)
    (same : ∀ place, x.outputTop root stem <+: place → t.disk.leaf? place = h.disk.leaf? place) :
    Elsewhere x root stem g t

section

variable {x : Indexer} {h h' g : Host} {call call' : ToolCall} {root other : String}
  {stem stem' : List String}

/-- The outputs of projects whose roots lie beside each other have nothing in common. -/
theorem not_below_both (hw : call.WorksBelow x h root stem) (hw' : call'.WorksBelow x h' other stem')
    (hbeside : ¬ Path.pieces root <+: Path.pieces other ∧ ¬ Path.pieces other <+: Path.pieces root)
    (hnames : x.config.outputDir ≠ none →
      stem' = stem ∧ Indexer.projectName other ≠ Indexer.projectName root) {place : List String}
    (hplace : x.outputTop root stem <+: place) : ¬ x.outputTop other stem' <+: place := by
  intro hplace'
  have hstem := hw.heads
  have hstem' := hw'.heads
  rw [Indexer.outputTop] at hplace hplace'
  -- documents are below the root of the project, or below a common directory by its name
  cases hbase : x.config.outputDir with
  | none =>
    rw [hbase] at hstem hstem' hplace hplace'
    subst hstem hstem'
    have hinside : ∀ {r o : List String}, r ++ [".agents"] <+: o ++ [".agents"] →
        r <+: o ∨ o <+: r := by
      intro r o h
      rcases List.prefix_concat_iff.mp ((List.prefix_append r _).trans h) with rfl | hr
      · exact .inr (List.prefix_append o _)
      · exact .inl hr
    rcases List.prefix_or_prefix_of_prefix hplace hplace' with h | h
    · exact (hinside h).elim hbeside.1 hbeside.2
    · exact (hinside h).elim hbeside.2 hbeside.1
  | some base =>
    obtain ⟨rfl, hne⟩ := hnames (by rw [hbase]; exact fun h => by cases h)
    rw [hbase] at hplace hplace'
    have hlength : (stem' ++ [Indexer.projectName root]).length =
        (stem' ++ [Indexer.projectName other]).length := by
      rw [List.length_append, List.length_append]
      rfl
    have hbegins := List.prefix_of_prefix_length_le hplace hplace' (Nat.le_of_eq hlength)
    have hsame := hbegins.eq_of_length hlength
    exact hne (List.singleton_inj.mp (List.append_cancel_left hsame)).symm

/-- Runs for other projects leave the output of a project as its last run left it, at every moment: its
documents are below the place where its output begins, and there all files stay the same and no others
come. -/
theorem output_stays_elsewhere (hroot : Path.pieces root ≠ [])
    (hworks : call.WorksBelow x h root stem)
    (hlast : g ∈ Program.states Host.serve (call.run x).run h)
    (hlater : x.Elsewhere root stem g h') :
    (∀ path place, OutputLayout.IsDocument
      (x.config.outputDirFor root (Indexer.projectName root)) path →
        g.disk.resolve path = .ok place → x.outputTop root stem <+: place) ∧
      ∀ place, x.outputTop root stem <+: place → h'.disk.leaf? place = g.disk.leaf? place := by
  constructor
  · intro path place hpath hplace
    obtain ⟨d, htop, hheads⟩ := hworks.exists_headsTo hroot
    obtain ⟨hsame, hnone, hcurrent⟩ := hworks.confines_run hroot hlast
    have hlinks := ToolCall.link?_eq hworks.unlinked hsame hnone
    exact htop.trans (hpath.below_resolve (hheads.congr hlinks hcurrent)
      (fun place hplace => hnone place (htop.trans hplace)) hplace)
  · induction hlater with
    | refl => exact fun _ _ => rfl
    | @run h t call' other stem' _ hworks' hbeside hnames ht ih =>
      intro place hplace
      have hother : Path.pieces other ≠ [] := fun hnil => hbeside.2 (hnil ▸ List.nil_prefix)
      rw [(hworks'.confines_run hother ht).1 place
        (not_below_both hworks hworks' hbeside hnames hplace)]
      exact ih place hplace
    | drift _ hsame ih => exact fun place hplace => (hsame place hplace).trans (ih place hplace)

end

section

set_option maxRecDepth 100000

/-- There are no links below a node. -/
def DiskNode.Unlinked (node : DiskNode) : Prop := ∀ place target, node.at? place ≠ some (.link target)

theorem DiskNode.unlinked_file (content : ByteArray) (modified : Timestamp) :
    (file content modified).Unlinked := by
  intro place target h
  cases place with
  | nil => cases h
  | cons name rest => cases h

theorem DiskNode.unlinked_dir {es : List (String × DiskNode)} (h : ∀ e ∈ es, e.2.Unlinked) :
    (dir es).Unlinked := by
  intro place target hlink
  cases place with
  | nil => cases hlink
  | cons name rest =>
    obtain ⟨child, hchild, hlink⟩ := Option.bind_eq_some_iff.mp hlink
    exact h _ (Keyed.mem_of_get? hchild) rest target hlink

theorem FileSystem.link?_of_unlinked {fs : FileSystem} (h : fs.root.Unlinked) (place : List String) :
    fs.link? place = none := by
  rw [link?, holds?]
  cases hnode : fs.at? place with
  | none => rfl
  | some node =>
    cases node with
    | link target => exact absurd hnode (h place target)
    | _ => rfl

/-- Surroundings with a file below each of two directories. -/
def Host.twoRoots (first second : String) : Host where
  disk := { root := .dir [
    ("a", .dir [(first, .dir [("x.py", .file "pass\n".toUTF8 ⟨0, 0⟩)])]),
    ("b", .dir [(second, .dir [("y.py", .file "pass\n".toUTF8 ⟨0, 0⟩)])])] }

theorem Host.unlinked_twoRoots (first second : String) (place : List String) :
    (twoRoots first second).disk.link? place = none := by
  have hroot : ∀ name file : String, (DiskNode.dir [(name,
      .dir [(file, .file "pass\n".toUTF8 ⟨0, 0⟩)])]).Unlinked := fun name file =>
    DiskNode.unlinked_dir <| List.forall_mem_singleton.mpr <| DiskNode.unlinked_dir <|
      List.forall_mem_singleton.mpr <| DiskNode.unlinked_file _ _
  exact FileSystem.link?_of_unlinked (DiskNode.unlinked_dir <|
    List.forall_mem_cons.mpr ⟨hroot _ _, List.forall_mem_singleton.mpr (hroot _ _)⟩) place

/-- An indexer with a directory for all outputs. -/
def Indexer.gathering : Indexer where
  config := { Indexer.sample.config with outputDir := some "/out" }
  store := Indexer.sample.store

theorem Indexer.worksBelow_gathering {h : Host} {path root : String}
    (hroot : AllowedRoots.validate h.disk gathering.config.allowedRoots path = .ok root)
    (hlinks : ∀ place, h.disk.link? place = none) (hcurrent : ∀ n ∈ h.disk.current, Path.IsPlain n) :
    (ToolCall.index path []).WorksBelow gathering h root ["out"] where
  works := ⟨hroot, rfl⟩
  heads := by
    have hout : ∀ n ∈ ["out"], Path.IsPlain n := by decide
    exact FileSystem.headsTo_ofNames hout fun _ _ => hlinks _
  unlinked _ _ := hlinks _
  current := hcurrent

theorem output_stays_in_twoRoots :
    (∀ path place, OutputLayout.IsDocument (Indexer.gathering.config.outputDirFor "/a/s"
        (Indexer.projectName "/a/s")) path →
      ((Host.twoRoots "s" "t").attempt ((ToolCall.index "/a/s" []).run .gathering)).2.disk.resolve
        path = .ok place → ["out", "s"] <+: place) ∧
    ∀ place, ["out", "s"] <+: place →
      (((Host.twoRoots "s" "t").attempt ((ToolCall.index "/a/s" []).run .gathering)).2.attempt
        ((ToolCall.index "/b/t" []).run .gathering)).2.disk.leaf? place =
      ((Host.twoRoots "s" "t").attempt ((ToolCall.index "/a/s" []).run .gathering)).2.disk.leaf?
        place := by
  have hruns : (Host.twoRoots "s" "t").nextId <
        ((Host.twoRoots "s" "t").attempt ((ToolCall.index "/a/s" []).run .gathering)).2.nextId ∧
      ((Host.twoRoots "s" "t").attempt ((ToolCall.index "/a/s" []).run .gathering)).2.nextId <
        (((Host.twoRoots "s" "t").attempt ((ToolCall.index "/a/s" []).run .gathering)).2.attempt
          ((ToolCall.index "/b/t" []).run .gathering)).2.nextId ∧
      AllowedRoots.validate (Host.twoRoots "s" "t").disk Indexer.gathering.config.allowedRoots "/a/s" =
        .ok "/a/s" ∧
      AllowedRoots.validate ((Host.twoRoots "s" "t").attempt
        ((ToolCall.index "/a/s" []).run .gathering)).2.disk Indexer.gathering.config.allowedRoots
          "/b/t" = .ok "/b/t" ∧
      ((Host.twoRoots "s" "t").attempt
        ((ToolCall.index "/a/s" []).run .gathering)).2.disk.current = [] ∧
      (¬ Path.pieces "/a/s" <+: Path.pieces "/b/t" ∧ ¬ Path.pieces "/b/t" <+: Path.pieces "/a/s") ∧
      Indexer.projectName "/b/t" ≠ Indexer.projectName "/a/s" ∧ Path.pieces "/a/s" ≠ [] := by
    decide +kernel
  obtain ⟨hfresh, hfresh', hroot, hroot', hcurrent, hbeside, hnames, hne⟩ := hruns
  have hmem := Host.attempt_mem_states hfresh
  have hlinks := Host.unlinked_twoRoots "s" "t"
  have hworks := Indexer.worksBelow_gathering hroot hlinks fun _ h => by cases h
  have hplain : ∀ n ∈ ((Host.twoRoots "s" "t").attempt
      ((ToolCall.index "/a/s" []).run .gathering)).2.disk.current, Path.IsPlain n := by
    rw [hcurrent]
    exact fun _ h => by cases h
  have hworks' := Indexer.worksBelow_gathering hroot' (ToolCall.unlinked_run hlinks hmem) hplain
  exact output_stays_elsewhere hne hworks hmem (.run .refl hworks' hbeside (fun _ => ⟨rfl, hnames⟩)
    (Host.attempt_mem_states hfresh'))

/-- In a directory for all outputs projects with the same name take away the documents of each other. -/
theorem output_lost_of_sameName :
    ¬ ∀ (x : Indexer) (h : Host) (path path' root root' document : String),
      AllowedRoots.validate h.disk x.config.allowedRoots path = .ok root →
      AllowedRoots.validate h.disk x.config.allowedRoots path' = .ok root' →
      ¬ Path.pieces root <+: Path.pieces root' → ¬ Path.pieces root' <+: Path.pieces root →
      (h.result? (x.indexProject path [])).isSome →
      ((h.attempt (x.indexProject path [])).2.result? (x.indexProject path' [])).isSome →
      OutputLayout.IsDocument (x.config.outputDirFor root (Indexer.projectName root)) document →
        ((h.attempt (x.indexProject path [])).2.attempt (x.indexProject path' [])).2.disk.read document =
          (h.attempt (x.indexProject path [])).2.disk.read document := by
  intro hall
  have hruns : AllowedRoots.validate (Host.twoRoots "s" "s").disk
        Indexer.gathering.config.allowedRoots "/a/s" = .ok "/a/s" ∧
      AllowedRoots.validate (Host.twoRoots "s" "s").disk
        Indexer.gathering.config.allowedRoots "/b/s" = .ok "/b/s" ∧
      ¬ Path.pieces "/a/s" <+: Path.pieces "/b/s" ∧ ¬ Path.pieces "/b/s" <+: Path.pieces "/a/s" ∧
      ((Host.twoRoots "s" "s").result? (Indexer.gathering.indexProject "/a/s" [])).isSome ∧
      (((Host.twoRoots "s" "s").attempt (Indexer.gathering.indexProject "/a/s" [])).2.result?
        (Indexer.gathering.indexProject "/b/s" [])).isSome ∧
      (((Host.twoRoots "s" "s").attempt (Indexer.gathering.indexProject "/a/s" [])).2.disk.read
        (OutputLayout.fileDocument "/out/s" "x.py")).toOption.isSome ∧
      ¬ ((((Host.twoRoots "s" "s").attempt (Indexer.gathering.indexProject "/a/s" [])).2.attempt
        (Indexer.gathering.indexProject "/b/s" [])).2.disk.read
          (OutputLayout.fileDocument "/out/s" "x.py")).toOption.isSome ∧
      Indexer.gathering.config.outputDirFor "/a/s" (Indexer.projectName "/a/s") = "/out/s" := by
    decide +kernel
  obtain ⟨hroot, hroot', hbeside, hbeside', hfirst, hsecond, hbefore, hafter, hdir⟩ := hruns
  have hdocument : OutputLayout.IsDocument (Indexer.gathering.config.outputDirFor "/a/s"
      (Indexer.projectName "/a/s")) (OutputLayout.fileDocument "/out/s" "x.py") := by
    rw [hdir]
    exact .file "x.py"
  rw [hall _ _ _ _ _ _ _ hroot hroot' hbeside hbeside' hfirst hsecond hdocument] at hafter
  exact hafter hbefore

/-- So does a project in which `.agents` is a link to that of another one. -/
example :
    let h : Host := { disk := { root := .dir [
      ("a", .dir [("x.py", .file "pass\n".toUTF8 ⟨0, 0⟩)]),
      ("b", .dir [(".agents", .link "/a/.agents"), ("y.py", .file "pass\n".toUTF8 ⟨0, 0⟩)])] } }
    let g := (h.attempt (Indexer.sample.indexProject "/a" [])).2
    let h' := (g.attempt (Indexer.sample.indexProject "/b" [])).2
    let document := OutputLayout.fileDocument "/a/.agents/architecture" "x.py"
    (g.disk.read document).toOption.isSome ∧ ¬ (h'.disk.read document).toOption.isSome := by
  decide +kernel

end

end CodeAtlas
