import CodeAtlas.Indexing.Update
import CodeAtlas.Proofs.Keyed
/-!
# What a difference of hashes tells

Whether a path is parsed again is told by the two hashes at it. What is purged is more: a path that
is parsed again is purged before, whether anything is known of it or not.

Results:
1. `mem_toReparse`, `mem_toReparse_force`: the paths that are parsed again.
2. `mem_toPurge_iff`: the paths that are purged.
3. `mem_toPurge_of_mem_toReparse`: nothing is written where nothing was purged.
-/

namespace CodeAtlas.HashDiff

variable {current stored : List (String × String)} {path : String}

/-- The difference that an update goes by. -/
def between (force : Bool) (current stored : List (String × String)) : HashDiff :=
  if force then (compare current stored).force current stored else compare current stored

theorem mem_keys_filter {α : Type} {keep : String × α → Bool} {entries : List (String × α)} :
    path ∈ Keyed.keys (entries.filter keep) ↔ ∃ v, (path, v) ∈ entries ∧ keep (path, v) = true := by
  constructor
  · intro h
    obtain ⟨⟨k, v⟩, he, rfl⟩ := List.mem_map.mp h
    exact ⟨v, List.mem_filter.mp he⟩
  · rintro ⟨v, he⟩
    exact List.mem_map.mpr ⟨(path, v), List.mem_filter.mpr he, rfl⟩

theorem mem_added (hcurrent : Keyed.Sorted current) : path ∈ (compare current stored).added ↔
    ∃ hash, Keyed.get? path current = some hash ∧ Keyed.get? path stored = none := by
  rw [compare, mem_keys_filter]
  refine exists_congr fun hash => ?_
  rw [hcurrent.get?_eq_some_iff, Bool.not_eq_true', Keyed.contains_eq_false_iff,
    Keyed.get?_eq_none_iff]

theorem mem_modified (hcurrent : Keyed.Sorted current) :
    path ∈ (compare current stored).modified ↔ ∃ hash, Keyed.get? path current = some hash ∧
      ∃ old, Keyed.get? path stored = some old ∧ old ≠ hash := by
  rw [compare, mem_keys_filter]
  refine exists_congr fun hash => ?_
  rw [hcurrent.get?_eq_some_iff, Option.any_eq_true]
  simp only [bne_iff_ne]

theorem mem_deleted : path ∈ (compare current stored).deleted ↔
    path ∈ Keyed.keys stored ∧ path ∉ Keyed.keys current := by
  rw [compare, mem_keys_filter]
  simp only [Bool.not_eq_true', Keyed.contains_eq_false_iff]
  constructor
  · rintro ⟨v, he, hnot⟩
    exact ⟨List.mem_map.mpr ⟨_, he, rfl⟩, hnot⟩
  · rintro ⟨hmem, hnot⟩
    obtain ⟨⟨k, v⟩, he, rfl⟩ := List.mem_map.mp hmem
    exact ⟨v, he, hnot⟩

/-- A path is parsed again if its file is new or has another hash. -/
theorem mem_toReparse (hcurrent : Keyed.Sorted current) :
    path ∈ (compare current stored).toReparse ↔
      ∃ hash, Keyed.get? path current = some hash ∧ Keyed.get? path stored ≠ some hash := by
  rw [toReparse, Keyed.mem_sortedSet, List.mem_append, mem_added hcurrent, mem_modified hcurrent]
  constructor
  · rintro (⟨hash, hget, hnone⟩ | ⟨hash, hget, old, hold, hne⟩)
    · exact ⟨hash, hget, by rw [hnone]; exact nofun⟩
    · exact ⟨hash, hget, fun heq => hne (Option.some.inj (hold.symm.trans heq))⟩
  · rintro ⟨hash, hget, hne⟩
    cases hold : Keyed.get? path stored with
    | none => exact .inl ⟨hash, hget, rfl⟩
    | some old => exact .inr ⟨hash, hget, old, rfl, fun heq => hne (heq ▸ hold)⟩

/-- Every file is parsed again if that is asked for. -/
theorem mem_toReparse_force (hcurrent : Keyed.Sorted current) :
    path ∈ ((compare current stored).force current stored).toReparse ↔
      path ∈ Keyed.keys current := by
  rw [toReparse, force, Keyed.mem_sortedSet, List.mem_append, Keyed.mem_sortedSet, List.mem_append,
    mem_keys_filter, mem_added hcurrent, mem_modified hcurrent]
  constructor
  · rintro (⟨hash, hget, _⟩ | ⟨hash, hget, _⟩ | ⟨hash, he, _⟩)
    · exact List.mem_map.mpr ⟨_, Keyed.mem_of_get? hget, rfl⟩
    · exact List.mem_map.mpr ⟨_, Keyed.mem_of_get? hget, rfl⟩
    · exact List.mem_map.mpr ⟨_, he, rfl⟩
  · intro hmem
    obtain ⟨⟨k, hash⟩, he, rfl⟩ := List.mem_map.mp hmem
    have hget := hcurrent.get?_eq_some_iff.mpr he
    cases hold : Keyed.get? k stored with
    | none => exact .inl ⟨hash, hget, rfl⟩
    | some old =>
      by_cases hmodified : k ∈ (compare current stored).modified
      · exact .inr (.inl (hold ▸ (mem_modified hcurrent).mp hmodified))
      · refine .inr (.inr ⟨hash, he, ?_⟩)
        simp [Keyed.contains, hold, hmodified]

theorem mem_deleted_between (force : Bool) : path ∈ (between force current stored).deleted ↔
    path ∈ Keyed.keys stored ∧ path ∉ Keyed.keys current := by
  rw [between]
  split
  · exact mem_deleted
  · exact mem_deleted

/-- What is purged is what is parsed again and what is gone. -/
theorem mem_toPurge_iff (force : Bool) : path ∈ (between force current stored).toPurge ↔
    path ∈ (between force current stored).toReparse ∨
      (path ∈ Keyed.keys stored ∧ path ∉ Keyed.keys current) := by
  rw [toPurge, Keyed.mem_sortedSet, List.mem_append, mem_deleted_between]

/-- Nothing is written where nothing was purged. -/
theorem mem_toPurge_of_mem_toReparse {d : HashDiff} (h : path ∈ d.toReparse) : path ∈ d.toPurge :=
  Keyed.mem_sortedSet.mpr (List.mem_append_left _ h)

theorem nodup_toReparse (d : HashDiff) : d.toReparse.Nodup := Keyed.nodup_sortedSet _

end CodeAtlas.HashDiff
