import CodeAtlas.Proofs.Patterns
/-!
# Directories that are not entered

A directory that is pruned is not entered, and this is only to save time: all that lies below it is
excluded by the same pattern, so nothing is missed. It is not even seen in another order, as what is
excluded does not count as seen.

Results:
1. `ExcludeSet.excludes_of_prunes`: what lies below a directory that is pruned is excluded.
2. `filterMap_entries`, `filterMap_follow`, `filterMap_walk`: a walk that prunes comes to the same
   files, apart from those that cannot count.
3. `scan_eq_unpruned`: a scan gives the same files, in the same order, as one that enters everything.
-/

namespace CodeAtlas

/-! ## Patterns -/

/-- A base that covers a path covers the paths that go on from it. -/
theorem ExcludePattern.covers_append {base : Glob} {dir : String} (h : covers base dir = true)
    (rest : String) : covers base (dir ++ "/" ++ rest) = true := by
  rw [covers_iff] at h ⊢
  rw [segments_append_slash]
  rcases h with ⟨front, hne, hfront, hmatch⟩ | ⟨name, hname, hmatch⟩
  · exact .inl ⟨front, hne, hfront.trans (List.prefix_append _ _), hmatch⟩
  · exact .inr ⟨name, List.mem_append_left _ hname, hmatch⟩

namespace ExcludeSet

/-- What lies below a directory that is pruned is excluded. -/
theorem excludes_of_prunes {s : ExcludeSet} {dir : String} (h : s.prunes dir = true)
    (rest : String) : s.excludes (dir ++ "/" ++ rest) = true := by
  obtain ⟨p, hp, hprunes⟩ := List.any_eq_true.mp h
  obtain ⟨base, hbase, hcovers⟩ := (Option.any_eq_true _ _).mp hprunes
  refine List.any_eq_true.mpr ⟨p, hp, Bool.or_eq_true _ _ |>.mpr (.inr ?_)⟩
  exact (Option.any_eq_true _ _).mpr ⟨base, hbase, ExcludePattern.covers_append hcovers rest⟩

/-- The root itself is not pruned. -/
theorem not_prunes_empty (s : ExcludeSet) : s.prunes "" = false := by
  refine List.any_eq_false.mpr fun p _ => ?_
  rw [ExcludePattern.prunes]
  cases p.subtree <;> exact Bool.false_ne_true

end ExcludeSet

/-! ## Walks -/

namespace Scan

theorem relativePath_append {way rest : List String} (hway : way ≠ []) (hrest : rest ≠ []) :
    relativePath (way ++ rest) = relativePath way ++ "/" ++ relativePath rest := by
  induction way with
  | nil => exact absurd rfl hway
  | cons name way ih =>
    cases way with
    | nil =>
      obtain ⟨next, rest, rfl⟩ := List.exists_cons_of_ne_nil hrest
      rw [relativePath, relativePath, List.singleton_append, String.intercalate_cons_cons,
        String.intercalate_singleton]
      rfl
    | cons next way =>
      have hlater := ih (List.cons_ne_nil next way)
      rw [relativePath, List.cons_append] at hlater
      rw [relativePath, List.cons_append, List.cons_append, String.intercalate_cons_cons, hlater,
        relativePath, relativePath.eq_1 (name :: next :: way), String.intercalate_cons_cons]
      simp only [String.append_assoc]

/-- Below a directory that is pruned there are no source files. -/
theorem candidate?_below {fs : FileSystem} {excludes : ExcludeSet} {root : String}
    {way : List String} (h : excludes.prunes (relativePath way) = true) {rest : List String}
    (hrest : rest ≠ []) : candidate? fs excludes root (way ++ rest) = none := by
  have hway : way ≠ [] := by
    rintro rfl
    exact Bool.false_ne_true (excludes.not_prunes_empty.symm.trans h)
  have hexcluded := ExcludeSet.excludes_of_prunes h (relativePath rest)
  rw [← relativePath_append hway hrest] at hexcluded
  rw [candidate?, language?, if_pos hexcluded]

/-- A way that goes on below another one. -/
def IsBelow (way w : List String) : Prop := ∃ rest, rest ≠ [] ∧ w = way ++ rest

theorem isBelow_of_entry {way w : List String} {name : String} (h : way ++ [name] <+: w) :
    IsBelow way w := by
  obtain ⟨rest, rfl⟩ := h
  exact ⟨name :: rest, List.cons_ne_nil name rest, List.append_assoc way [name] rest⟩

theorem IsBelow.isPrefix {way w : List String} (h : IsBelow way w) : way <+: w := by
  obtain ⟨rest, _, rfl⟩ := h
  exact List.prefix_append way rest

section

variable {prune : List String → Bool}
  {follow : List (List String) → List String → List (List String)}

mutual
/-- The files below the entries of a directory lie below it. -/
theorem isBelow_entries (hfollow : ∀ above way, ∀ w ∈ follow above way, way <+: w)
    (above : List (List String)) (way place : List String) :
    (es : List (String × DiskNode)) → ∀ w ∈ entries prune follow above way place es, IsBelow way w
  | [] => nofun
  | (name, node) :: rest => by
    intro w hw
    rw [entries] at hw
    rcases List.mem_append.mp hw with hw | hw
    · exact isBelow_of_entry (prefix_entry hfollow above (way ++ [name]) (place ++ [name]) node w hw)
    · exact isBelow_entries hfollow above way place rest w hw

theorem prefix_entry (hfollow : ∀ above way, ∀ w ∈ follow above way, way <+: w)
    (above : List (List String)) (way place : List String) :
    (node : DiskNode) → ∀ w ∈ entry prune follow above way place node, way <+: w
  | .file _ _ => by
    intro w hw
    exact List.mem_singleton.mp hw ▸ List.prefix_refl way
  | .link _ => hfollow above way
  | .dir es => by
    intro w hw
    rw [entry] at hw
    split at hw
    · cases hw
    · exact (isBelow_entries hfollow (place :: above) way place es w hw).isPrefix
end

end

theorem prefix_follow {fs : FileSystem} {prune : List String → Bool} {root : String} (links : Nat)
    (above : List (List String)) (way : List String) :
    ∀ w ∈ follow fs prune root links above way, way <+: w := by
  induction links generalizing above way with
  | zero => exact nofun
  | succ links ih =>
    intro w hw
    rw [follow] at hw
    split at hw
    · cases hw
    · next target _ =>
      split at hw
      · split at hw
        · cases hw
        · exact (isBelow_entries ih (target :: above) way target _ w hw).isPrefix
      · exact List.mem_singleton.mp hw ▸ List.prefix_refl way
      · cases hw

/-! ## Walks that prune -/

section

variable {β : Type} {prune : List String → Bool} {c : List String → Option β}

/-- Nothing is found among ways that lie below a directory that is pruned. -/
theorem filterMap_below (hprune : ∀ way, prune way = true → ∀ rest, rest ≠ [] → c (way ++ rest) = none)
    {way : List String} (hway : prune way = true) {ways : List (List String)}
    (hways : ∀ w ∈ ways, IsBelow way w) : ways.filterMap c = [] := by
  refine List.filterMap_eq_nil_iff.mpr fun w hw => ?_
  obtain ⟨rest, hrest, rfl⟩ := hways w hw
  exact hprune way hway rest hrest

section

variable {follow follow' : List (List String) → List String → List (List String)}

mutual
/-- Below the entries of a directory the same files are found. -/
theorem filterMap_entries
    (hprune : ∀ way, prune way = true → ∀ rest, rest ≠ [] → c (way ++ rest) = none)
    (hfollow : ∀ above way, (follow above way).filterMap c = (follow' above way).filterMap c)
    (hbelow : ∀ above way, ∀ w ∈ follow' above way, way <+: w)
    (above : List (List String)) (way place : List String) :
    (es : List (String × DiskNode)) →
      (entries prune follow above way place es).filterMap c =
        (entries (fun _ => false) follow' above way place es).filterMap c
  | [] => rfl
  | (name, node) :: rest => by
    rw [entries, entries, List.filterMap_append, List.filterMap_append,
      filterMap_entry hprune hfollow hbelow above (way ++ [name]) (place ++ [name]) node,
      filterMap_entries hprune hfollow hbelow above way place rest]

theorem filterMap_entry
    (hprune : ∀ way, prune way = true → ∀ rest, rest ≠ [] → c (way ++ rest) = none)
    (hfollow : ∀ above way, (follow above way).filterMap c = (follow' above way).filterMap c)
    (hbelow : ∀ above way, ∀ w ∈ follow' above way, way <+: w)
    (above : List (List String)) (way place : List String) :
    (node : DiskNode) →
      (entry prune follow above way place node).filterMap c =
        (entry (fun _ => false) follow' above way place node).filterMap c
  | .file _ _ => rfl
  | .link _ => hfollow above way
  | .dir es => by
    rw [entry, entry, if_neg Bool.false_ne_true]
    split
    · next hway =>
      exact (filterMap_below hprune hway
        (isBelow_entries hbelow (place :: above) way place es)).symm
    · exact filterMap_entries hprune hfollow hbelow (place :: above) way place es
end

end

variable {fs : FileSystem} {root : String}

/-- Behind links the same files are found. -/
theorem filterMap_follow
    (hprune : ∀ way, prune way = true → ∀ rest, rest ≠ [] → c (way ++ rest) = none) (links : Nat)
    (above : List (List String)) (way : List String) :
    (follow fs prune root links above way).filterMap c =
      (follow fs (fun _ => false) root links above way).filterMap c := by
  induction links generalizing above way with
  | zero => rfl
  | succ links ih =>
    rw [follow, follow]
    split
    · rfl
    · next target _ =>
      split
      · next es _ =>
        rw [Bool.or_false]
        by_cases hway : prune way = true
        · rw [hway, Bool.or_true, if_pos rfl]
          split
          · rfl
          · exact (filterMap_below hprune hway
              (isBelow_entries (prefix_follow links) (target :: above) way target es)).symm
        · rw [Bool.not_eq_true] at hway
          rw [hway, Bool.or_false]
          split
          · rfl
          · exact filterMap_entries hprune ih (prefix_follow links) (target :: above) way target es
      · rfl
      · rfl

theorem filterMap_walk
    (hprune : ∀ way, prune way = true → ∀ rest, rest ≠ [] → c (way ++ rest) = none) :
    (walk fs prune root).filterMap c = (walk fs (fun _ => false) root).filterMap c := by
  rw [walk, walk]
  split
  · rfl
  · next place _ =>
    split
    · next es _ =>
      exact filterMap_entries hprune (filterMap_follow hprune _) (prefix_follow _) [place] [] place es
    · rfl

end

/-- Pruning by excludes does not change what is found. -/
theorem files_prunes (fs : FileSystem) (excludes : ExcludeSet) (maxSize : Nat) (root : String) :
    scan fs excludes maxSize root = files fs (fun _ => false) excludes maxSize root := by
  rw [scan, files, files, filterMap_walk fun way hway rest hrest => candidate?_below hway hrest]

end Scan

/-- What lies below a directory that is pruned is excluded, however far below. So pruning is not to be
seen from outside: a scan gives the same files, in the same order, as one that enters everything. -/
theorem scan_eq_unpruned :
    (∀ (texts : List String) (dir rest : String), (ExcludeSet.ofStrings texts).prunes dir = true →
      (ExcludeSet.ofStrings texts).excludes (dir ++ "/" ++ rest) = true) ∧
    ∀ (fs : FileSystem) (excludes : ExcludeSet) (maxSize : Nat) (root : String),
      scan fs excludes maxSize root = Scan.files fs (fun _ => false) excludes maxSize root :=
  ⟨fun _ _ rest h => ExcludeSet.excludes_of_prunes h rest, Scan.files_prunes⟩

/-- All that lies below a directory `vendor` is excluded, wherever the directory is. -/
theorem scan_eq_unpruned_vendor :
    (ExcludeSet.ofStrings ["vendor/**"]).prunes "src/vendor" = true ∧
      (ExcludeSet.ofStrings ["vendor/**"]).excludes "src/vendor/a/b.py" = true := by
  have hprunes : (ExcludeSet.ofStrings ["vendor/**"]).prunes "src/vendor" = true := by
    decide +kernel
  exact ⟨hprunes, scan_eq_unpruned.1 ["vendor/**"] "src/vendor" "a/b.py" hprunes⟩

end CodeAtlas
