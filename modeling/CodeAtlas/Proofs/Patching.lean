import CodeAtlas.Proofs.Difference
import Mathlib.Data.List.Nodup
/-!
# A difference as a patch

A difference tells how to get from the stored hashes to the current ones: what is to be purged is taken
away, and what is parsed again gets its current hash. The difference of two maps has just the paths at
which they differ, so it leads from one to the other, and no path in it can be left out.

Results:
1. `mem_toPurge_compare`: the paths of a difference are those at which the maps differ.
2. `get?_apply`: what a difference makes of the hash at a path.
3. `pairwise_disjoint_compare`, `perm_toPurge_compare`: no path is told twice.
4. `compare_exact`: the difference of two maps is their exact patch.
-/

namespace CodeAtlas

namespace HashDiff

variable {current stored : List (String × String)} {path : String} {d : HashDiff}

/-! ## Patches -/

/-- Gives a path its current hash, if it has one. -/
def refresh (current hashes : List (String × String)) (path : String) : List (String × String) :=
  match Keyed.get? path current with
  | some hash => Keyed.insert path hash hashes
  | none => hashes

/-- The map to which the changes lead from the stored hashes: what is to be purged is taken away, and
then what is parsed again gets its current hash. -/
def apply (d : HashDiff) (current stored : List (String × String)) : List (String × String) :=
  d.toReparse.foldl (refresh current) (stored.filter fun e => e.1 ∉ d.toPurge)

/-- The difference without one of its paths. -/
def without (d : HashDiff) (path : String) : HashDiff where
  added := d.added.filter (· != path)
  modified := d.modified.filter (· != path)
  deleted := d.deleted.filter (· != path)

/-- The paths with the same hash in both maps. -/
def unchanged (current stored : List (String × String)) : List String :=
  Keyed.keys (current.filter fun (path, hash) => Keyed.get? path stored == some hash)

theorem get?_filter_keys (keep : String → Bool) (hashes : List (String × String)) :
    Keyed.get? path (hashes.filter fun e => keep e.1) =
      if keep path then Keyed.get? path hashes else none := by
  induction hashes with
  | nil => rw [List.filter_nil, Keyed.get?_nil, ite_self]
  | cons e hashes ih =>
    obtain ⟨k, v⟩ := e
    rw [List.filter_cons, Keyed.get?_cons]
    dsimp only
    by_cases hk : k = path
    · rw [hk, if_pos rfl]
      split
      · rw [Keyed.get?_cons, if_pos rfl]
      · next hkeep => rw [ih, if_neg hkeep]
    · rw [if_neg hk, ← ih]
      split
      · rw [Keyed.get?_cons, if_neg hk]
      · rfl

theorem get?_refresh (hashes : List (String × String)) (k : String) :
    Keyed.get? path (refresh current hashes k) =
      if k = path then (Keyed.get? path current).or (Keyed.get? path hashes)
      else Keyed.get? path hashes := by
  rw [refresh]
  split
  · next hash hget =>
    rw [Keyed.get?_insert]
    split
    · next hk => rw [← hk, hget, Option.some_or]
    · rfl
  · next hget =>
    split
    · next hk => rw [← hk, hget, Option.none_or]
    · rfl

theorem get?_foldl_refresh (paths : List String) (hashes : List (String × String)) :
    Keyed.get? path (paths.foldl (refresh current) hashes) =
      if path ∈ paths then (Keyed.get? path current).or (Keyed.get? path hashes)
      else Keyed.get? path hashes := by
  induction paths generalizing hashes with
  | nil => rfl
  | cons k paths ih =>
    rw [List.foldl_cons, ih, get?_refresh]
    by_cases hk : k = path
    · cases Keyed.get? path current <;> simp [hk]
    · simp [hk, Ne.symm hk]

theorem sorted_refresh {hashes : List (String × String)} (hs : Keyed.Sorted hashes) (k : String) :
    Keyed.Sorted (refresh current hashes k) := by
  rw [refresh]
  split
  · exact Keyed.sorted_insert hs _ _
  · exact hs

theorem sorted_apply (hstored : Keyed.Sorted stored) : Keyed.Sorted (d.apply current stored) := by
  rw [apply]
  exact List.foldlRecOn _ _ (hstored.filter _) fun _ hs k _ => sorted_refresh hs k

/-- A path that is parsed again gets its current hash, one that is gone loses its hash, and all others
keep it. -/
theorem get?_apply : Keyed.get? path (d.apply current stored) =
    if path ∈ d.toReparse then Keyed.get? path current
    else if path ∈ d.deleted then none else Keyed.get? path stored := by
  rw [apply, get?_foldl_refresh, get?_filter_keys fun key => key ∉ d.toPurge]
  have hpurge : path ∈ d.toPurge ↔ path ∈ d.toReparse ∨ path ∈ d.deleted := by
    rw [toPurge, Keyed.mem_sortedSet, List.mem_append]
  by_cases hreparse : path ∈ d.toReparse
  · simp [hreparse, hpurge]
  · by_cases hdeleted : path ∈ d.deleted <;> simp [hreparse, hdeleted, hpurge]

/-! ## The paths of a difference -/

theorem mem_keys_iff {hashes : List (String × String)} :
    path ∈ Keyed.keys hashes ↔ ∃ hash, Keyed.get? path hashes = some hash := by
  rw [← Option.ne_none_iff_exists', ne_eq, Keyed.get?_eq_none_iff, Classical.not_not]

theorem mem_deleted_iff : path ∈ (compare current stored).deleted ↔
    Keyed.get? path current = none ∧ ∃ old, Keyed.get? path stored = some old := by
  rw [mem_deleted, mem_keys_iff, Keyed.get?_eq_none_iff, and_comm]

theorem mem_unchanged (hcurrent : Keyed.Sorted current) : path ∈ unchanged current stored ↔
    ∃ hash, Keyed.get? path current = some hash ∧ Keyed.get? path stored = some hash := by
  rw [unchanged, mem_keys_filter]
  simp only [beq_iff_eq, hcurrent.get?_eq_some_iff]

theorem mem_toPurge_cases : path ∈ d.toPurge ↔
    path ∈ d.added ∨ path ∈ d.modified ∨ path ∈ d.deleted := by
  rw [toPurge, toReparse, Keyed.mem_sortedSet, List.mem_append, Keyed.mem_sortedSet, List.mem_append,
    or_assoc]

/-- The paths of a difference are those at which the two maps differ. -/
theorem mem_toPurge_compare (hcurrent : Keyed.Sorted current) :
    path ∈ (compare current stored).toPurge ↔
      Keyed.get? path current ≠ Keyed.get? path stored := by
  rw [toPurge, Keyed.mem_sortedSet, List.mem_append, mem_toReparse hcurrent, mem_deleted_iff]
  cases hnew : Keyed.get? path current with
  | none => cases Keyed.get? path stored <;> simp
  | some hash => simp [eq_comm]

theorem pairwise_disjoint_compare (hcurrent : Keyed.Sorted current) :
    [(compare current stored).added, (compare current stored).modified,
      (compare current stored).deleted, unchanged current stored].Pairwise List.Disjoint := by
  simp only [List.pairwise_cons, List.forall_mem_cons, List.disjoint_left, mem_added hcurrent,
    mem_modified hcurrent, mem_deleted_iff, mem_unchanged hcurrent]
  refine ⟨⟨?_, ?_, ?_, nofun⟩, ⟨?_, ?_, nofun⟩, ⟨?_, nofun⟩, nofun, .nil⟩
  all_goals grind

/-- The paths that are purged are those of the three lists, each told once. -/
theorem perm_toPurge_compare (hcurrent : Keyed.Sorted current) (hstored : Keyed.Sorted stored) :
    (compare current stored).toPurge.Perm [(compare current stored).added,
      (compare current stored).modified, (compare current stored).deleted].flatten := by
  have hdisjoint : [(compare current stored).added, (compare current stored).modified,
      (compare current stored).deleted].Pairwise List.Disjoint :=
    (pairwise_disjoint_compare hcurrent).sublist (List.sublist_append_left _ [unchanged current stored])
  have hnodup : ∀ paths ∈ [(compare current stored).added, (compare current stored).modified,
      (compare current stored).deleted], paths.Nodup := by
    rw [List.forall_mem_cons, List.forall_mem_cons, List.forall_mem_singleton]
    exact ⟨(hcurrent.filter _).nodup_keys, (hcurrent.filter _).nodup_keys,
      (hstored.filter _).nodup_keys⟩
  refine (List.perm_ext_iff_of_nodup (Keyed.nodup_sortedSet _)
    (List.nodup_flatten.mpr ⟨hnodup, hdisjoint⟩)).mpr fun path => ?_
  rw [← toPurge, mem_toPurge_cases]
  simp

/-! ## The exact patch -/

theorem apply_compare (hcurrent : Keyed.Sorted current) (hstored : Keyed.Sorted stored) :
    (compare current stored).apply current stored = current := by
  refine (sorted_apply hstored).ext hcurrent fun path => ?_
  rw [get?_apply]
  split
  · rfl
  · next hreparse =>
    split
    · next hdeleted => exact (mem_deleted_iff.mp hdeleted).1.symm
    · next hdeleted =>
      refine Classical.byContradiction fun hne => ?_
      have hpurge := (mem_toPurge_compare hcurrent).mpr (Ne.symm hne)
      rw [toPurge, Keyed.mem_sortedSet, List.mem_append] at hpurge
      exact hpurge.elim hreparse hdeleted

/-- At a path that is left out the stored hash stays. -/
theorem get?_apply_without : Keyed.get? path ((d.without path).apply current stored) =
    Keyed.get? path stored := by
  have hnot : path ∉ (d.without path).toReparse ∧ path ∉ (d.without path).deleted := by
    simp [toReparse, without, Keyed.mem_sortedSet]
  rw [get?_apply, if_neg hnot.1, if_neg hnot.2]

theorem isEmpty_iff : d.isEmpty = true ↔ ∀ path, path ∉ d.toPurge := by
  simp only [isEmpty, Bool.and_eq_true, List.isEmpty_iff, List.eq_nil_iff_forall_not_mem,
    mem_toPurge_cases, not_or, forall_and, and_assoc]

/-- The difference of two maps is their exact patch. What is new, what has another hash, what is gone
and what is unchanged have no path in common and are together the paths of both maps. The difference
leads from the stored hashes to the current ones, but no longer if any path is left out. As many paths
are purged as it has, and it is empty only if the maps are equal. -/
theorem compare_exact (hcurrent : Keyed.Sorted current) (hstored : Keyed.Sorted stored) :
    let d := compare current stored
    [d.added, d.modified, d.deleted, unchanged current stored].Pairwise List.Disjoint ∧
    (∀ path, (path ∈ d.added ∨ path ∈ d.modified ∨ path ∈ d.deleted ∨
        path ∈ unchanged current stored) ↔
      path ∈ Keyed.keys current ∨ path ∈ Keyed.keys stored) ∧
    d.apply current stored = current ∧
    (∀ path, path ∈ d.added ∨ path ∈ d.modified ∨ path ∈ d.deleted →
      (d.without path).apply current stored ≠ current) ∧
    d.total = d.toPurge.length ∧
    (d.isEmpty = true ↔ current = stored) := by
  intro d
  refine ⟨pairwise_disjoint_compare hcurrent, fun path => ?_, apply_compare hcurrent hstored,
    fun path hpath heq => ?_, ?_, ?_⟩
  · rw [mem_added hcurrent, mem_modified hcurrent, mem_deleted_iff, mem_unchanged hcurrent,
      mem_keys_iff, mem_keys_iff]
    cases Keyed.get? path current <;> cases Keyed.get? path stored <;> grind
  · have hne := (mem_toPurge_compare hcurrent).mp (mem_toPurge_cases.mpr hpath)
    have hstays : Keyed.get? path ((d.without path).apply current stored) = Keyed.get? path stored :=
      get?_apply_without
    rw [heq] at hstays
    exact hne hstays
  · rw [(perm_toPurge_compare hcurrent hstored).length_eq, total]
    simp [d, Nat.add_assoc]
  · rw [isEmpty_iff]
    simp only [d, mem_toPurge_compare hcurrent, ne_eq, Classical.not_not]
    exact ⟨hcurrent.ext hstored, fun heq _ => by rw [heq]⟩

/-- Files of which one is new, one has changed and one is as it was, while another one is gone. -/
theorem compare_exact_oneOfEach :
    let current := [("changed.py", "2"), ("new.py", "1"), ("same.py", "3")]
    let stored := [("changed.py", "0"), ("gone.py", "4"), ("same.py", "3")]
    let d := compare current stored
    Keyed.Sorted current ∧ Keyed.Sorted stored ∧ d = ⟨["new.py"], ["changed.py"], ["gone.py"]⟩ ∧
      d.apply current stored = current ∧ (d.without "gone.py").apply current stored ≠ current ∧
      d.total = d.toPurge.length := by
  intro current stored d
  have hcurrent : Keyed.Sorted current := by decide
  have hstored : Keyed.Sorted stored := by decide
  have hd : d = ⟨["new.py"], ["changed.py"], ["gone.py"]⟩ := by decide
  obtain ⟨_, _, happly, hminimal, htotal, _⟩ := compare_exact hcurrent hstored
  refine ⟨hcurrent, hstored, hd, happly, hminimal "gone.py" (.inr (.inr ?_)), htotal⟩
  change "gone.py" ∈ d.deleted
  rw [hd]
  exact List.mem_singleton_self _

end HashDiff

end CodeAtlas
