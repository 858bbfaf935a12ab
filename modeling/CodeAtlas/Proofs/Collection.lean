import CodeAtlas.Proofs.Index
/-!
# Collections and the indexes they stand for

The entries of a collection, its ids with their payloads, are a list in the order of the ids. An
index describes a collection if these are its points in any order; so all collections that an index
describes have the same entries.

Results:
1. `Filed.upsert`, `entries_upsert_one`, `entries_upsert_fresh`: what writings do to the entries.
2. `scroll_points`, `scroll_next`, `remaining_next`: a page has the next entries, and the page behind
   it begins with the entry that the page tells.
3. `Index.Describes` and how writings and deletions carry over.
-/

namespace CodeAtlas

/-- The id and the payload of a point. -/
def Point.entry (p : Point) : String × Payload := (p.id, p.payload)

namespace Collection

/-- The ids of the points and their payloads. -/
def entries (c : Collection) : List (String × Payload) := c.points.map (·.2.entry)

/-- Points are kept in the order of their ids, each under its own. -/
structure Filed (c : Collection) : Prop where
  sorted : Keyed.Sorted c.points
  own : ∀ e ∈ c.points, e.1 = e.2.id

namespace Filed

variable {c : Collection}

theorem sorted_entries (hc : c.Filed) : Keyed.Sorted c.entries := by
  refine List.pairwise_map.mpr (hc.sorted.imp_of_mem fun ha hb hlt => ?_)
  rw [hc.own _ ha, hc.own _ hb] at hlt
  exact hlt

theorem upsert_one (hc : c.Filed) (p : Point) : (c.upsert [p]).Filed where
  sorted := Keyed.sorted_insert hc.sorted p.id p
  own e he := by
    rcases (Keyed.mem_insert hc.sorted).mp he with rfl | ⟨he, _⟩
    · rfl
    · exact hc.own e he

theorem upsert (hc : c.Filed) (ps : List Point) : (c.upsert ps).Filed := by
  induction ps generalizing c with
  | nil => exact ⟨hc.sorted, hc.own⟩
  | cons p ps ih => exact ih (hc.upsert_one p)

theorem delete (hc : c.Filed) (filter : Filter) : (c.delete filter).Filed where
  sorted := hc.sorted.filter _
  own e he := hc.own e (List.mem_of_mem_filter he)

/-- What is found under an id is the point with this id. -/
theorem get?_eq_some (hc : c.Filed) {id : String} {p : Point}
    (h : Keyed.get? id c.points = some p) : p.id = id ∧ p.entry ∈ c.entries := by
  have hmem := Keyed.mem_of_get? h
  exact ⟨(hc.own _ hmem).symm, List.mem_map_of_mem hmem⟩

theorem get?_eq_none (hc : c.Filed) {id : String} (h : Keyed.get? id c.points = none) :
    ∀ e ∈ c.entries, e.1 ≠ id := by
  intro e he heq
  obtain ⟨kept, hkept, rfl⟩ := List.mem_map.mp he
  refine Keyed.get?_eq_none_iff.mp h (List.mem_map.mpr ⟨kept, hkept, ?_⟩)
  exact (hc.own kept hkept).trans heq

end Filed

/-! ## Writing and deleting -/

theorem entries_upsert_one {c : Collection} (hc : c.Filed) (p : Point) :
    (c.upsert [p]).entries.Perm (p.entry :: c.entries.filter (·.1 != p.id)) := by
  have hkept : (Keyed.erase p.id c.points).map (·.2.entry) = c.entries.filter (·.1 != p.id) := by
    rw [Keyed.erase, entries, List.filter_map]
    refine congrArg _ (List.filter_congr fun e he => ?_)
    rw [hc.own e he]
    rfl
  rw [← hkept]
  exact (Keyed.insert_perm hc.sorted p).map (·.2.entry)

/-- Writing points with new ids adds just them. -/
theorem entries_upsert_fresh {c : Collection} (hc : c.Filed) {ps : List Point}
    (h : ((c.entries ++ ps.map Point.entry).map (·.1)).Nodup) :
    (c.upsert ps).entries.Perm (c.entries ++ ps.map Point.entry) := by
  induction ps generalizing c with
  | nil => simp [upsert, entries]
  | cons p ps ih =>
    have hnew : c.entries.filter (·.1 != p.id) = c.entries := by
      refine List.filter_eq_self.mpr fun e he => bne_iff_ne.mpr fun heq => ?_
      rw [List.map_append, List.nodup_append] at h
      exact h.2.2 e.1 (List.mem_map_of_mem he) p.id (by simp [Point.entry]) heq
    have hone : (c.upsert [p]).entries.Perm (p.entry :: c.entries) :=
      hnew ▸ entries_upsert_one hc p
    have hmoved : ((c.upsert [p]).entries ++ ps.map Point.entry).Perm
        (c.entries ++ (p :: ps).map Point.entry) :=
      (hone.append_right _).trans List.perm_middle.symm
    refine (ih (hc.upsert_one p) ?_).trans hmoved
    exact (hmoved.map (·.1)).nodup_iff.mpr h

theorem entries_delete (c : Collection) (filter : Filter) :
    (c.delete filter).entries = c.entries.filter fun e => !filter.accepts e.2 := by
  rw [entries, entries, List.filter_map]
  rfl

/-- Writing points leaves those with other ids as they are. -/
theorem get?_upsert (c : Collection) {ps : List Point} {id : String}
    (h : id ∉ ps.map (·.id)) : Keyed.get? id (c.upsert ps).points = Keyed.get? id c.points := by
  induction ps generalizing c with
  | nil => rfl
  | cons p ps ih =>
    rw [List.map_cons, List.mem_cons, not_or] at h
    change Keyed.get? id ((c.upsert [p]).upsert ps).points = _
    rw [ih (c.upsert [p]) h.2]
    change Keyed.get? id (Keyed.insert p.id p c.points) = _
    rw [Keyed.get?_insert, if_neg (Ne.symm h.1)]

/-- Deleting leaves points that the filter does not accept as they are. -/
theorem get?_delete {c : Collection} (hc : c.Filed) {filter : Filter} {g : Point}
    (hg : Keyed.get? g.id c.points = some g) (h : filter.accepts g.payload = false) :
    Keyed.get? g.id (c.delete filter).points = some g := by
  rw [(hc.delete filter).sorted.get?_eq_some_iff]
  refine List.mem_filter.mpr ⟨hc.sorted.get?_eq_some_iff.mp hg, ?_⟩
  simpa using h

/-! ## Pages -/

/-- The entries that a filter accepts, from an id on. -/
def remaining (filter : Filter) (start : String) (l : List (String × Payload)) :
    List (String × Payload) :=
  (l.filter fun e => !(e.1 < start)).filter fun e => filter.accepts e.2

theorem remaining_empty (filter : Filter) (l : List (String × Payload)) :
    remaining filter "" l = l.filter fun e => filter.accepts e.2 := by
  refine congrArg _ (List.filter_eq_self.mpr fun e _ => ?_)
  have : ¬ e.1 < "" := List.not_lt_nil _
  simpa using this

theorem lt_of_lt_of_not_lt {a b c : String} (h : a < b) (h' : ¬ c < b) : a < c :=
  Decidable.byContradiction fun hle =>
    String.not_lt.mpr (String.le_trans (String.not_lt.mp h') (String.not_lt.mp hle)) h

/-- Of a list in the order of its keys, what is left behind some elements are those from the key of the
next one on. -/
theorem filter_from_next {α : Type} (key : α → String) {l t : List α} {a : α} {n : Nat}
    (hl : l.Pairwise fun x y => key x < key y) (h : l.drop n = a :: t) :
    (l.filter fun x => !(key x < key a)) = a :: t := by
  rw [← List.take_append_drop n l, h] at hl
  obtain ⟨_, hbehind, hbefore⟩ := List.pairwise_append.mp hl
  have htake : (l.take n).filter (fun x => !(key x < key a)) = [] :=
    List.filter_eq_nil_iff.mpr fun x hx => by simpa using hbefore x hx a List.mem_cons_self
  have hdrop : (a :: t).filter (fun x => !(key x < key a)) = a :: t := by
    refine List.filter_eq_self.mpr fun x hx => ?_
    rcases List.mem_cons.mp hx with rfl | hx
    · simp
    · simpa using String.lt_asymm (List.rel_of_pairwise_cons hbehind hx)
  calc l.filter (fun x => !(key x < key a))
      = (l.take n ++ a :: t).filter fun x => !(key x < key a) := by rw [← h, List.take_append_drop]
    _ = a :: t := by rw [List.filter_append, htake, hdrop, List.nil_append]

/-- Behind some entries come those from the next id on. -/
theorem remaining_next {filter : Filter} {start : String} {l t : List (String × Payload)}
    {e : String × Payload} {n : Nat} (hl : Keyed.Sorted l)
    (h : (remaining filter start l).drop n = e :: t) :
    remaining filter e.1 l = (remaining filter start l).drop n := by
  have hsorted : Keyed.Sorted (remaining filter start l) := (hl.filter _).filter _
  have hmem : e ∈ remaining filter start l :=
    List.mem_of_mem_drop (h ▸ List.mem_cons_self : e ∈ (remaining filter start l).drop n)
  have hstart : ¬ e.1 < start := by
    have := (List.mem_filter.mp (List.mem_of_mem_filter hmem)).2
    simpa using this
  have hall : remaining filter e.1 l =
      (remaining filter start l).filter fun x => !(x.1 < e.1) := by
    simp only [remaining, List.filter_filter]
    refine List.filter_congr fun x _ => ?_
    by_cases hx : x.1 < start
    · simp [hx, lt_of_lt_of_not_lt hx hstart]
    · simp [hx, Bool.and_comm]
  rw [hall, filter_from_next Prod.fst hsorted h, h]

/-- The id from which a page begins. -/
def startId (start : Option Json) : String := (start.bind Json.str?).getD ""

section

variable {filter : Filter} {start : String} {l : List (String × Payload)} {n : Nat}

/-- A page and what comes behind it are all that was asked for. -/
theorem take_append_remaining (hl : Keyed.Sorted l) {next : Json}
    (h : some next = ((remaining filter start l).drop n).head?.map fun e => .str e.1) :
    (remaining filter start l).take n ++ remaining filter (startId (some next)) l =
      remaining filter start l := by
  obtain ⟨e, he, rfl⟩ := Option.map_eq_some_iff.mp h.symm
  obtain ⟨t, ht⟩ := List.head?_eq_some_iff.mp he
  change _ ++ remaining filter e.1 l = _
  rw [remaining_next hl ht, List.take_append_drop]

/-- The last page has all that is left. -/
theorem take_of_no_next
    (h : none = ((remaining filter start l).drop n).head?.map fun e => Json.str e.1) :
    (remaining filter start l).take n = remaining filter start l := by
  have hnil := List.head?_eq_none_iff.mp (Option.map_eq_none_iff.mp h.symm)
  exact List.take_of_length_le (List.drop_eq_nil_iff.mp hnil)

end

theorem entries_found (c : Collection) (filter : Filter) (start : String) :
    (((c.points.filter fun (id, _) => !(id < start)).map (·.2)).filter
      (filter.accepts ·.payload)).map Point.entry =
        ((c.points.filter fun e => !(e.1 < start)).map (·.2.entry)).filter
          fun e => filter.accepts e.2 := by
  rw [List.filter_map, List.filter_map, List.map_map]
  rfl

variable {c : Collection} {filter : Filter} {limit : Nat} {start : Option Json}

theorem Filed.entries_from (hc : c.Filed) (start : String) :
    ((c.points.filter fun e => !(e.1 < start)).map (·.2.entry)) =
      c.entries.filter fun e => !(e.1 < start) := by
  rw [entries, List.filter_map]
  refine congrArg _ (List.filter_congr fun e he => ?_)
  rw [hc.own e he]
  rfl

/-- A page has the next entries. -/
theorem scroll_points (hc : c.Filed) : (c.scroll filter limit start).points.map Point.entry =
    (remaining filter (startId start) c.entries).take (max limit 1) := by
  rw [remaining, ← hc.entries_from, ← entries_found, ← List.map_take]
  rfl

/-- A page tells the entry behind it. -/
theorem scroll_next (hc : c.Filed) : (c.scroll filter limit start).next =
    ((remaining filter (startId start) c.entries).drop (max limit 1)).head?.map
      fun e => .str e.1 := by
  rw [remaining, ← hc.entries_from, ← entries_found, ← List.map_drop, List.head?_map,
    Option.map_map]
  rfl

end Collection

/-! ## What an index describes -/

namespace Index

/-- The index stands for the points of a collection. A collection that is not there has none. -/
def Describes (ix : Index) : Option Collection → Prop
  | none => ix = {}
  | some c => c.Filed ∧ c.entries.Perm ix.contents

/-- The points of an index in the order of their ids. -/
def listing (ix : Index) : List (String × Payload) := Keyed.ofList ix.contents

section

variable {ix ix' : Index} {c : Collection}

theorem Describes.nodup_ids (h : ix.Describes (some c)) : ix.ids.Nodup :=
  (h.2.map Prod.fst).nodup_iff.mp h.1.sorted_entries.nodup_keys

theorem sorted_listing (ix : Index) : Keyed.Sorted ix.listing := Keyed.sorted_ofList _

theorem listing_perm (h : ix.ids.Nodup) : ix.listing.Perm ix.contents := Keyed.ofList_perm h

/-- All collections that an index describes have the same entries. -/
theorem Describes.entries_eq (h : ix.Describes (some c)) : c.entries = ix.listing :=
  h.1.sorted_entries.eq_of_perm (sorted_listing ix) (h.2.trans (listing_perm h.nodup_ids).symm)

theorem describes_empty (shape : CollectionShape) : Describes {} (some { shape }) :=
  ⟨⟨.nil, fun _ h => by cases h⟩, .refl _⟩

theorem Describes.createIndex (h : ix.Describes (some c)) (key : String) :
    ix.Describes (some (c.createIndex key)) :=
  ⟨⟨h.1.sorted, h.1.own⟩, h.2⟩

theorem Describes.delete (h : ix.Describes (some c)) {filter : Filter}
    (hcontents : ix'.contents = ix.contents.filter fun e => !filter.accepts e.2) :
    ix'.Describes (some (c.delete filter)) := by
  refine ⟨h.1.delete filter, ?_⟩
  rw [Collection.entries_delete, hcontents]
  exact h.2.filter _

theorem Describes.put (h : ix.Describes (some c)) {p : Project} {pt : Point}
    (hpt : pt.entry = (p.id.render, .ofProject p))
    (hp : p.id.render ∉ (ix.files.flatMap IndexedFile.points).map (·.1)) :
    (ix.put p).Describes (some (c.upsert [pt])) := by
  have hid : pt.id = p.id.render := congrArg (·.1) hpt
  refine ⟨h.1.upsert [pt], (Collection.entries_upsert_one h.1 pt).trans ?_⟩
  rw [contents_put hp, hpt, hid]
  exact (h.2.filter _).cons _

/-- Writing points with new ids adds them to the contents. -/
theorem Describes.extend (h : ix.Describes (some c)) {ps : List Point}
    (hcontents : ix'.contents = ix.contents ++ ps.map Point.entry) (hids : ix'.ids.Nodup) :
    ix'.Describes (some (c.upsert ps)) := by
  have hperm : (c.entries ++ ps.map Point.entry).Perm ix'.contents :=
    hcontents ▸ h.2.append_right _
  have hnodup := (hperm.map Prod.fst).nodup_iff.mpr hids
  exact ⟨h.1.upsert ps, (Collection.entries_upsert_fresh h.1 hnodup).trans hperm⟩

end

end Index

end CodeAtlas
