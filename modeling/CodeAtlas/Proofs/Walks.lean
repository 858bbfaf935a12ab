import CodeAtlas.Proofs.Places
import CodeAtlas.Proofs.Scan
import Mathlib.Data.List.Dedup
import Mathlib.Data.List.Perm.Subperm
import Mathlib.Logic.Function.Iterate
/-!
# Walks end, and come to all that can be reached

A walk is described here without any bound. What is met at the end of a way is said once, by `meet`: a
link to a directory on the way is nothing, and any other directory is entered. From this rule come the
directories that are entered from a root, and a walker that takes one entry after another and keeps the
directories that are open on a stack. Links may lead above the root and come back to it, so no
directory can be crossed off. But each link on a way leads to a directory that is not on it yet, so
the number of different directories on the way grows, and there are only so many.

Results:
1. `length_dedup_le`: there are no more different directories on a way than in the file system.
2. `leads_start`: the walker comes to an end, and what it has found then is the walk.
3. `sound_step`, `comes_of_mem_walk`: a walk comes only to what can be reached.
4. `mem_walk_of_comes`: a walk that does not prune comes to all that can be reached.
-/

namespace CodeAtlas

/-! ## Directories of a tree -/

namespace DiskNode

mutual
/-- The places of the directories of a tree. -/
def dirPlaces (place : List String) : DiskNode → List (List String)
  | dir es => place :: dirPlacesOf place es
  | _ => []

def dirPlacesOf (place : List String) : List (String × DiskNode) → List (List String)
  | [] => []
  | (name, node) :: rest => dirPlaces (place ++ [name]) node ++ dirPlacesOf place rest
end

mutual
theorem length_dirPlaces (place : List String) :
    (node : DiskNode) → (dirPlaces place node).length = node.dirCount
  | file _ _ => rfl
  | link _ => rfl
  | dir es => by
    rw [dirPlaces, dirCount, List.length_cons, length_dirPlacesOf place es, Nat.add_comm]

theorem length_dirPlacesOf (place : List String) :
    (es : List (String × DiskNode)) → (dirPlacesOf place es).length = dirCounts es
  | [] => rfl
  | (name, node) :: rest => by
    rw [dirPlacesOf, dirCounts, List.length_append, length_dirPlaces (place ++ [name]) node,
      length_dirPlacesOf place rest]
end

theorem mem_dirPlacesOf {name : String} {node : DiskNode} {p place : List String}
    {es : List (String × DiskNode)} (hmem : (name, node) ∈ es)
    (hp : p ∈ dirPlaces (place ++ [name]) node) : p ∈ dirPlacesOf place es := by
  induction es with
  | nil => cases hmem
  | cons e rest ih =>
    obtain ⟨name', node'⟩ := e
    rw [dirPlacesOf, List.mem_append]
    rcases List.mem_cons.mp hmem with heq | hmem
    · cases heq
      exact .inl hp
    · exact .inr (ih hmem)

/-- Every directory is counted. -/
theorem mem_dirPlaces {node : DiskNode} {p : List String} {es : List (String × DiskNode)}
    (h : node.at? p = some (dir es)) (place : List String) :
    place ++ p ∈ dirPlaces place node := by
  induction p generalizing node place with
  | nil =>
    cases h
    rw [List.append_nil]
    exact List.mem_cons_self
  | cons name rest ih =>
    rw [at?, Option.bind_eq_some_iff] at h
    obtain ⟨child, hchild, h⟩ := h
    have hplaces := ih h (place ++ [name])
    rw [List.append_assoc, List.singleton_append] at hplaces
    cases node with
    | dir es' => exact List.mem_cons_of_mem _ (mem_dirPlacesOf (Keyed.mem_of_get? hchild) hplaces)
    | _ => cases hchild

end DiskNode

namespace FileSystem

variable {fs : FileSystem}

/-- There is a directory at each place. -/
def HasDirs (fs : FileSystem) (places : List (List String)) : Prop :=
  ∀ p ∈ places, ∃ es, fs.at? p = some (.dir es)

theorem hasDirs_nil (fs : FileSystem) : fs.HasDirs [] := fun _ hp => absurd hp List.not_mem_nil

theorem HasDirs.cons {places : List (List String)} (h : fs.HasDirs places) {p : List String}
    {es : List (String × DiskNode)} (hp : fs.at? p = some (.dir es)) : fs.HasDirs (p :: places) := by
  intro q hq
  rcases List.mem_cons.mp hq with rfl | hq
  · exact ⟨es, hp⟩
  · exact h q hq

/-- There are no more different directories than there are directories. -/
theorem HasDirs.length_dedup_le {places : List (List String)} (h : fs.HasDirs places) :
    places.dedup.length ≤ fs.root.dirCount := by
  rw [← DiskNode.length_dirPlaces [] fs.root]
  refine (List.Nodup.subperm (List.nodup_dedup places) fun p hp => ?_).length_le
  obtain ⟨es, hes⟩ := h p (List.mem_dedup.mp hp)
  exact DiskNode.mem_dirPlaces hes []

/-- An entry of a directory is at the place of its name. -/
theorem WellNamed.at?_entry (hfs : fs.WellNamed) {place : List String}
    {es : List (String × DiskNode)} (hes : fs.at? place = some (.dir es)) {name : String}
    {node : DiskNode} (hmem : (name, node) ∈ es) : fs.at? (place ++ [name]) = some node := by
  obtain ⟨hsorted, _⟩ := DiskNode.WellNamed.at? hfs hes
  rw [FileSystem.at?] at hes ⊢
  rw [DiskNode.at?_append, hes, Option.bind_some, DiskNode.at?, DiskNode.entries,
    hsorted.get?_eq_some_iff.mpr hmem]
  rfl

end FileSystem

/-! ## What walks meet -/

namespace Scan

/-- What is met at the end of a way. -/
inductive Met where
  | nothing
  | file
  | directory (place : List String) (entries : List (String × DiskNode))

/-- What an entry at the end of a way is to a walk. Links are followed, and a link to a directory on
the way is nothing. -/
def meet (fs : FileSystem) (root : String) (above : List (List String)) (way place : List String) :
    DiskNode → Met
  | .file _ _ => .file
  | .dir es => .directory place es
  | .link _ =>
    match fs.resolve (pathOf root way) with
    | .error _ => .nothing
    | .ok target =>
      match fs.at? target with
      | some (.dir es) => if above.contains target then .nothing else .directory target es
      | some _ => .file
      | none => .nothing

/-- A walk from a root enters a directory: by a way, at a place, and with the directories on the way
at the places `above`. -/
inductive Enters (fs : FileSystem) (root : String) :
    List (List String) → List String → List String → Prop
  | root {place : List String} {es : List (String × DiskNode)} :
      fs.resolve root = .ok place → fs.at? place = some (.dir es) → Enters fs root [place] [] place
  | entry {above : List (List String)} {way place target : List String} {name : String}
      {node : DiskNode} {es es' : List (String × DiskNode)} :
      Enters fs root above way place → fs.at? place = some (.dir es) → (name, node) ∈ es →
      meet fs root above (way ++ [name]) (place ++ [name]) node = .directory target es' →
      Enters fs root (target :: above) (way ++ [name]) target

/-- A walk from a root that enters all it meets comes to a file by a way. -/
def Comes (fs : FileSystem) (root : String) (w : List String) : Prop :=
  ∃ above way place es name node, Enters fs root above way place ∧ fs.at? place = some (.dir es) ∧
    (name, node) ∈ es ∧ w = way ++ [name] ∧
    meet fs root above w (place ++ [name]) node = .file

section

variable {fs : FileSystem} {root : String} {above : List (List String)}
  {way place target : List String} {node : DiskNode} {es : List (String × DiskNode)}

/-- A link that is met as a directory leads to one that is not on the way. -/
theorem of_meet_link {text : String}
    (h : meet fs root above way place (.link text) = .directory target es) :
    fs.at? target = some (.dir es) ∧ target ∉ above := by
  rw [meet] at h
  split at h
  · cases h
  · split at h
    · next hdir =>
      split at h
      · cases h
      · next hseen =>
        cases h
        exact ⟨hdir, fun hmem => hseen (List.contains_iff_mem.mpr hmem)⟩
    · cases h
    · cases h

/-- What is met as a directory is one. -/
theorem at?_of_meet (hnode : fs.at? place = some node)
    (h : meet fs root above way place node = .directory target es) :
    fs.at? target = some (.dir es) := by
  cases node with
  | file content modified => cases h
  | dir es' =>
    cases h
    exact hnode
  | link text => exact (of_meet_link h).1

/-- What a link leads to depends on what it is met as. -/
theorem follow_succ (prune : List String → Bool) (links : Nat) (above : List (List String))
    (way place : List String) (text : String) :
    follow fs prune root (links + 1) above way =
      match meet fs root above way place (.link text) with
      | .nothing => []
      | .file => [way]
      | .directory target es =>
        if prune way then []
        else entries prune (follow fs prune root links) (target :: above) way target es := by
  rw [follow, meet]
  cases fs.resolve (pathOf root way) with
  | error e => rfl
  | ok target =>
    dsimp only
    cases fs.at? target with
    | none => rfl
    | some node =>
      cases node with
      | dir es =>
        dsimp only
        cases above.contains target <;> rfl
      | _ => rfl

end

/-! ## Walking step by step -/

/-- A directory that has been entered and not been left yet, with the entries that are still to be
visited. -/
structure OpenDirectory where
  above : List (List String)
  way : List String
  place : List String
  rest : List (String × DiskNode)

/-- Somebody who walks: the directories that are open, the last one first, and the ways to the files
that have been found. -/
structure Walker where
  stack : List OpenDirectory
  found : List (List String)

namespace Walker

/-- Who has not begun to walk yet. -/
def start (fs : FileSystem) (root : String) : Walker :=
  match fs.resolve root with
  | .error _ => ⟨[], []⟩
  | .ok place =>
    match fs.at? place with
    | some (.dir es) => ⟨[⟨[place], [], place, es⟩], []⟩
    | _ => ⟨[], []⟩

/-- The next entry is visited, or a directory without further entries is left. -/
def step (fs : FileSystem) (prune : List String → Bool) (root : String) : Walker → Walker
  | ⟨[], found⟩ => ⟨[], found⟩
  | ⟨⟨_, _, _, []⟩ :: outer, found⟩ => ⟨outer, found⟩
  | ⟨⟨above, way, place, (name, node) :: rest⟩ :: outer, found⟩ =>
    let outer := ⟨above, way, place, rest⟩ :: outer
    match meet fs root above (way ++ [name]) (place ++ [name]) node with
    | .nothing => ⟨outer, found⟩
    | .file => ⟨outer, found ++ [way ++ [name]]⟩
    | .directory target es =>
      if prune (way ++ [name]) then ⟨outer, found⟩
      else ⟨⟨target :: above, way ++ [name], target, es⟩ :: outer, found⟩

section

variable {fs : FileSystem} {prune : List String → Bool} {root : String}
  {above : List (List String)} {way place target : List String} {name : String} {node : DiskNode}
  {rest es : List (String × DiskNode)} {outer : List OpenDirectory} {found : List (List String)}

theorem step_nothing (h : meet fs root above (way ++ [name]) (place ++ [name]) node = .nothing) :
    step fs prune root ⟨⟨above, way, place, (name, node) :: rest⟩ :: outer, found⟩ =
      ⟨⟨above, way, place, rest⟩ :: outer, found⟩ := by
  rw [step, h]

theorem step_file (h : meet fs root above (way ++ [name]) (place ++ [name]) node = .file) :
    step fs prune root ⟨⟨above, way, place, (name, node) :: rest⟩ :: outer, found⟩ =
      ⟨⟨above, way, place, rest⟩ :: outer, found ++ [way ++ [name]]⟩ := by
  rw [step, h]

theorem step_directory
    (h : meet fs root above (way ++ [name]) (place ++ [name]) node = .directory target es) :
    step fs prune root ⟨⟨above, way, place, (name, node) :: rest⟩ :: outer, found⟩ =
      if prune (way ++ [name]) then ⟨⟨above, way, place, rest⟩ :: outer, found⟩
      else ⟨⟨target :: above, way ++ [name], target, es⟩ :: ⟨above, way, place, rest⟩ :: outer,
        found⟩ := by
  rw [step, h]

end

/-- After so many steps a walker has become another one. -/
def Leads (fs : FileSystem) (prune : List String → Bool) (root : String) (w w' : Walker) : Prop :=
  ∃ n, (step fs prune root)^[n] w = w'

section

variable {fs : FileSystem} {prune : List String → Bool} {root : String} {w w' w'' : Walker}

theorem Leads.refl (w : Walker) : Leads fs prune root w w := ⟨0, rfl⟩

theorem Leads.trans (h : Leads fs prune root w w') (h' : Leads fs prune root w' w'') :
    Leads fs prune root w w'' := by
  obtain ⟨n, rfl⟩ := h
  obtain ⟨m, rfl⟩ := h'
  exact ⟨m + n, Function.iterate_add_apply _ m n w⟩

theorem Leads.head (h : step fs prune root w = w') (h' : Leads fs prune root w' w'') :
    Leads fs prune root w w'' :=
  Leads.trans ⟨1, h⟩ h'

theorem leads_step (h : step fs prune root w = w') : Leads fs prune root w w' := ⟨1, h⟩

/-! ### The walker comes to an end -/

/-- So many links are enough for all that lies ahead. -/
def Suffices (fs : FileSystem) (links : Nat) (above : List (List String)) : Prop :=
  fs.HasDirs above ∧ fs.root.dirCount < links + above.dedup.length

theorem Suffices.cons {links : Nat} {above : List (List String)} (h : Suffices fs links above)
    {place : List String} {es : List (String × DiskNode)} (hplace : fs.at? place = some (.dir es)) :
    Suffices fs links (place :: above) := by
  refine ⟨h.1.cons hplace, Nat.lt_of_lt_of_le h.2 (Nat.add_le_add_left ?_ links)⟩
  exact (List.Nodup.subperm (List.nodup_dedup above) fun p hp =>
    List.mem_dedup.mpr (List.mem_cons_of_mem place (List.mem_dedup.mp hp))).length_le

/-- A link to a directory that is not on the way yet is paid for by this directory. -/
theorem Suffices.link {links : Nat} {above : List (List String)} (h : Suffices fs (links + 1) above)
    {target : List String} {es : List (String × DiskNode)} (htarget : fs.at? target = some (.dir es))
    (hnew : target ∉ above) : Suffices fs links (target :: above) := by
  refine ⟨h.1.cons htarget, ?_⟩
  rw [List.dedup_cons_of_notMem hnew, List.length_cons]
  have := h.2
  omega

theorem not_suffices_zero {above : List (List String)} : ¬ Suffices fs 0 above := by
  intro h
  have hfew := h.1.length_dedup_le
  have := h.2
  omega

/-- The first entry of the directory that was opened last is dealt with. -/
def Passes (fs : FileSystem) (prune : List String → Bool) (root : String)
    (above : List (List String)) (way place : List String) (name : String) (node : DiskNode)
    (ways : List (List String)) : Prop :=
  ∀ rest outer found, Leads fs prune root
    ⟨⟨above, way, place, (name, node) :: rest⟩ :: outer, found⟩
    ⟨⟨above, way, place, rest⟩ :: outer, found ++ ways⟩

section

variable {follow : List (List String) → List String → List (List String)} {links : Nat}

mutual
/-- A directory is left when its entries are dealt with. -/
theorem leads_entries (hfs : fs.WellNamed)
    (hfollow : ∀ above way place name text, Suffices fs links above →
      Passes fs prune root above way place name (.link text) (follow above (way ++ [name])))
    (above : List (List String)) (way place : List String) (habove : Suffices fs links above) :
    (es : List (String × DiskNode)) →
      (∀ e ∈ es, fs.at? (place ++ [e.1]) = some e.2) → ∀ outer found, Leads fs prune root
        ⟨⟨above, way, place, es⟩ :: outer, found⟩
        ⟨outer, found ++ entries prune follow above way place es⟩
  | [], _ => fun outer found => leads_step (by rw [entries, List.append_nil]; rfl)
  | (name, node) :: rest, hes => by
    intro outer found
    have hfirst := leads_entry hfs hfollow above way place name habove node
      (hes (name, node) List.mem_cons_self) rest outer found
    rw [entries, ← List.append_assoc]
    exact hfirst.trans (leads_entries hfs hfollow above way place habove rest
      (fun e he => hes e (List.mem_cons_of_mem _ he)) outer _)

/-- An entry is dealt with when all below it is. -/
theorem leads_entry (hfs : fs.WellNamed)
    (hfollow : ∀ above way place name text, Suffices fs links above →
      Passes fs prune root above way place name (.link text) (follow above (way ++ [name])))
    (above : List (List String)) (way place : List String) (name : String)
    (habove : Suffices fs links above) :
    (node : DiskNode) → fs.at? (place ++ [name]) = some node →
      Passes fs prune root above way place name node
        (entry prune follow above (way ++ [name]) (place ++ [name]) node)
  | .file _ _, _ => fun rest outer found => leads_step rfl
  | .link text, _ => hfollow above way place name text habove
  | .dir es, hnode => by
    intro rest outer found
    rw [entry]
    by_cases hprune : prune (way ++ [name]) = true
    · rw [if_pos hprune, List.append_nil]
      exact leads_step (if_pos hprune)
    · rw [if_neg hprune]
      exact .head (if_neg hprune) <| leads_entries hfs hfollow _ (way ++ [name]) (place ++ [name])
        (habove.cons hnode) es (fun e he => hfs.at?_entry hnode he) _ found
end

end

/-- A link is dealt with when all is that it leads to. -/
theorem leads_follow (hfs : fs.WellNamed) (links : Nat) (above : List (List String))
    (way place : List String) (name text : String) (habove : Suffices fs links above) :
    Passes fs prune root above way place name (.link text)
      (follow fs prune root links above (way ++ [name])) := by
  induction links generalizing above way place name text with
  | zero => exact absurd habove not_suffices_zero
  | succ links ih =>
    intro rest outer found
    rw [follow_succ prune links above (way ++ [name]) (place ++ [name]) text]
    split
    · next hmeet =>
      rw [List.append_nil]
      exact leads_step (step_nothing hmeet)
    · next hmeet => exact leads_step (step_file hmeet)
    · next target es hmeet =>
      obtain ⟨htarget, hnew⟩ := of_meet_link hmeet
      by_cases hprune : prune (way ++ [name]) = true
      · rw [if_pos hprune, List.append_nil]
        exact leads_step ((step_directory hmeet).trans (if_pos hprune))
      · rw [if_neg hprune]
        exact .head ((step_directory hmeet).trans (if_neg hprune)) <| leads_entries hfs ih _
          (way ++ [name]) target (habove.link htarget hnew) es (fun e he => hfs.at?_entry htarget he)
          _ found

/-- In the beginning as many links as there are directories, and one more, are enough. -/
theorem suffices_start {place : List String} {es : List (String × DiskNode)}
    (h : fs.at? place = some (.dir es)) : Suffices fs (fs.root.dirCount + 1) [place] :=
  ⟨(FileSystem.hasDirs_nil fs).cons h, by omega⟩

/-- The walker comes to an end, and has found what the walk comes to. -/
theorem leads_start (hfs : fs.WellNamed) (prune : List String → Bool) (root : String) :
    Leads fs prune root (start fs root) ⟨[], walk fs prune root⟩ := by
  rw [start, walk]
  cases fs.resolve root with
  | error e => exact .refl _
  | ok place =>
    dsimp only
    cases hes : fs.at? place with
    | none => exact .refl _
    | some node =>
      cases node with
      | dir es =>
        exact leads_entries hfs (leads_follow hfs _) [place] [] place (suffices_start hes) es
          (fun e he => hfs.at?_entry hes he) [] []
      | _ => exact .refl _

end

/-! ### What the walker finds -/

/-- The walker has only entered what is entered, and found what a walk comes to. -/
structure Sound (fs : FileSystem) (root : String) (w : Walker) : Prop where
  stack : ∀ d ∈ w.stack, Enters fs root d.above d.way d.place ∧
    ∃ es, fs.at? d.place = some (.dir es) ∧ d.rest ⊆ es
  found : ∀ way ∈ w.found, Comes fs root way

section

variable {fs : FileSystem} {root : String}

theorem sound_start : Sound fs root (start fs root) := by
  rw [start]
  split
  · exact ⟨nofun, nofun⟩
  · next place hplace =>
    split
    · next es hes =>
      refine ⟨fun d hd => ?_, nofun⟩
      cases List.mem_singleton.mp hd
      exact ⟨.root hplace hes, es, hes, List.Subset.refl es⟩
    · exact ⟨nofun, nofun⟩

theorem sound_step (hfs : fs.WellNamed) (prune : List String → Bool) {w : Walker}
    (h : Sound fs root w) : Sound fs root (step fs prune root w) := by
  obtain ⟨stack, found⟩ := w
  match stack with
  | [] => exact h
  | ⟨above, way, place, []⟩ :: outer =>
    exact ⟨fun d hd => h.stack d (List.mem_cons_of_mem _ hd), h.found⟩
  | ⟨above, way, place, (name, node) :: rest⟩ :: outer =>
    obtain ⟨henters, es, hes, hrest⟩ := h.stack _ List.mem_cons_self
    have hmem : (name, node) ∈ es := hrest List.mem_cons_self
    -- the directories that stay open lose one entry at most
    have houter : ∀ d ∈ (⟨above, way, place, rest⟩ :: outer : List OpenDirectory),
        Enters fs root d.above d.way d.place ∧
          ∃ es, fs.at? d.place = some (.dir es) ∧ d.rest ⊆ es := by
      intro d hd
      rcases List.mem_cons.mp hd with rfl | hd
      · exact ⟨henters, es, hes, List.subset_of_cons_subset hrest⟩
      · exact h.stack d (List.mem_cons_of_mem _ hd)
    rw [step]
    split
    · exact ⟨houter, h.found⟩
    · next hmeet =>
      refine ⟨houter, fun v hv => ?_⟩
      rcases List.mem_append.mp hv with hv | hv
      · exact h.found v hv
      · cases List.mem_singleton.mp hv
        exact ⟨above, way, place, es, name, node, henters, hes, hmem, rfl, hmeet⟩
    · next target es' hmeet =>
      split
      · exact ⟨houter, h.found⟩
      · refine ⟨fun d hd => ?_, h.found⟩
        rcases List.mem_cons.mp hd with rfl | hd
        · exact ⟨henters.entry hes hmem hmeet, es',
            at?_of_meet (hfs.at?_entry hes hmem) hmeet, List.Subset.refl es'⟩
        · exact houter d hd

theorem Sound.leads (hfs : fs.WellNamed) {prune : List String → Bool} {w w' : Walker}
    (h : Sound fs root w) (hleads : Leads fs prune root w w') : Sound fs root w' := by
  obtain ⟨n, rfl⟩ := hleads
  induction n generalizing w with
  | zero => exact h
  | succ n ih => exact ih (sound_step hfs prune h)

end

end Walker

section

variable {fs : FileSystem} {root : String}

/-- A walk comes only to what can be reached. -/
theorem comes_of_mem_walk (hfs : fs.WellNamed) {prune : List String → Bool} {w : List String}
    (h : w ∈ walk fs prune root) : Comes fs root w :=
  (Walker.sound_start.leads hfs (Walker.leads_start hfs prune root)).found w h

/-! ## All that can be reached -/

theorem mem_entries {prune : List String → Bool}
    {follow : List (List String) → List String → List (List String)} {above : List (List String)}
    {way place w : List String} {name : String} {node : DiskNode} {es : List (String × DiskNode)}
    (hmem : (name, node) ∈ es)
    (hw : w ∈ entry prune follow above (way ++ [name]) (place ++ [name]) node) :
    w ∈ entries prune follow above way place es := by
  induction es with
  | nil => cases hmem
  | cons e rest ih =>
    obtain ⟨name', node'⟩ := e
    rw [entries, List.mem_append]
    rcases List.mem_cons.mp hmem with heq | hmem
    · cases heq
      exact .inl hw
    · exact .inr (ih hmem)

/-- Where a directory is entered, a walk that does not prune goes on with enough links left. -/
theorem Enters.walks (hfs : fs.WellNamed) {above : List (List String)} {way place : List String}
    {es : List (String × DiskNode)} (h : Enters fs root above way place)
    (hes : fs.at? place = some (.dir es)) : ∃ links, Walker.Suffices fs links above ∧
      ∀ w ∈ entries (fun _ => false) (follow fs (fun _ => false) root links) above way place es,
        w ∈ walk fs (fun _ => false) root := by
  -- a link on the way uses up one of those that may be followed
  induction h generalizing es with
  | root hplace hdir =>
    refine ⟨_, Walker.suffices_start hdir, fun w hw => ?_⟩
    rw [walk, hplace]
    simp only [hes]
    exact hw
  | @entry above way place target name node es₀ es' henters hes₀ hmem hmeet ih =>
    obtain ⟨links, hsuffices, hwalk⟩ := ih hes₀
    have hnode := hfs.at?_entry hes₀ hmem
    have htarget := at?_of_meet hnode hmeet
    cases htarget.symm.trans hes
    cases node with
    | file content modified => cases hmeet
    | dir es'' =>
      cases hmeet
      exact ⟨links, hsuffices.cons hnode, fun w hw => hwalk w (mem_entries hmem (by
        rw [Scan.entry, if_neg Bool.false_ne_true]
        exact hw))⟩
    | link text =>
      cases links with
      | zero => exact absurd hsuffices Walker.not_suffices_zero
      | succ links =>
        obtain ⟨hdir, hnew⟩ := of_meet_link hmeet
        refine ⟨links, hsuffices.link hdir hnew, fun w hw => hwalk w (mem_entries hmem ?_)⟩
        rw [Scan.entry, follow_succ _ links above (way ++ [name]) (place ++ [name]) text, hmeet]
        simpa only [Bool.false_eq_true, if_false] using hw

/-- A walk that does not prune comes to all that can be reached. -/
theorem mem_walk_of_comes (hfs : fs.WellNamed) {w : List String} (h : Comes fs root w) :
    w ∈ walk fs (fun _ => false) root := by
  obtain ⟨above, way, place, es, name, node, henters, hes, hmem, rfl, hmeet⟩ := h
  obtain ⟨links, hsuffices, hwalk⟩ := henters.walks hfs hes
  refine hwalk _ (mem_entries hmem ?_)
  cases node with
  | file content modified => exact List.mem_singleton_self _
  | dir es' => cases hmeet
  | link text =>
    cases links with
    | zero => exact absurd hsuffices Walker.not_suffices_zero
    | succ links =>
      rw [Scan.entry, follow_succ _ links above (way ++ [name]) (place ++ [name]) text, hmeet]
      exact List.mem_singleton_self _

end

end Scan

end CodeAtlas
