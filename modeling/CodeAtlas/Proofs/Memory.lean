import CodeAtlas.Proofs.Paging
/-!
# A vector store in memory is sound, and each call is done as a whole or not at all

Whatever is asked of a vector store in memory, and whichever calls are made to fail, the points of a
collection are filed under their own ids and their vectors have the size of the collection. A call that
fails has changed nothing, wherever it has failed, so points are written all together or not at all.

Results:
1. `Collections.checkSizes_eq_ok`: which points fit into a collection.
2. `Collection.Sound`, `Collections.sound_answer`: what every call keeps.
3. `Collection.overwritten_upsert`: what a writing leaves under which id.
4. `MemoryStore.sound_reached`: what holds of all stores that can be reached.
5. `memory_sound`: soundness and atomicity together.
-/

namespace CodeAtlas

/-! ## Collections -/

namespace Collection

/-- Points are filed under their own ids, and their vectors have the size of the collection. -/
structure Sound (c : Collection) : Prop where
  filed : c.Filed
  sized : ∀ e ∈ c.points, e.2.vector.length = c.shape.vectorSize

/-- What writing points has made of a collection: of those with one id the last is there, and nothing
else has changed. -/
structure Overwritten (ps : List Point) (c d : Collection) : Prop where
  shape : d.shape = c.shape
  indexes : d.indexes = c.indexes
  last : ∀ before p behind, ps = before ++ p :: behind → p.id ∉ behind.map (·.id) →
    Keyed.get? p.id d.points = some p
  others : ∀ id, id ∉ ps.map (·.id) → Keyed.get? id d.points = Keyed.get? id c.points

theorem overwritten_upsert (ps : List Point) (c : Collection) :
    Overwritten ps c (c.upsert ps) where
  shape := rfl
  indexes := rfl
  last before p behind hps hbehind := by
    have hsplit : c.upsert ps = ((c.upsert before).upsert [p]).upsert behind := by
      rw [hps, upsert, List.foldl_append]
      rfl
    rw [hsplit, get?_upsert _ hbehind]
    exact (Keyed.get?_insert p.id p.id p _).trans (if_pos rfl)
  others id hid := c.get?_upsert hid

namespace Sound

variable {c : Collection}

theorem made (shape : CollectionShape) : Sound { shape } :=
  ⟨⟨.nil, nofun⟩, nofun⟩

theorem createIndex (hc : c.Sound) (key : String) : (c.createIndex key).Sound :=
  ⟨⟨hc.filed.sorted, hc.filed.own⟩, hc.sized⟩

theorem delete (hc : c.Sound) (filter : Filter) : (c.delete filter).Sound :=
  ⟨hc.filed.delete filter, fun e he => hc.sized e (List.mem_of_mem_filter he)⟩

theorem upsert (hc : c.Sound) {ps : List Point}
    (hps : ∀ p ∈ ps, p.vector.length = c.shape.vectorSize) : (c.upsert ps).Sound := by
  induction ps generalizing c with
  | nil => exact hc
  | cons p ps ih =>
    have hone : (c.upsert [p]).Sound := by
      refine ⟨hc.filed.upsert_one p, fun e he => ?_⟩
      rcases (Keyed.mem_insert hc.filed.sorted).mp he with rfl | ⟨he, _⟩
      · exact hps p List.mem_cons_self
      · exact hc.sized e he
    exact ih hone fun q hq => hps q (List.mem_cons_of_mem p hq)

end Sound

end Collection

namespace Collections

/-- Points fit into a collection if all of their vectors have its size. -/
theorem checkSizes_eq_ok {c : Collection} {ps : List Point} :
    checkSizes c ps = .ok () ↔ ∀ p ∈ ps, p.vector.length = c.shape.vectorSize := by
  rw [checkSizes]
  cases hbad : ps.find? (·.vector.length != c.shape.vectorSize) with
  | none =>
    refine iff_of_true rfl fun p hp => ?_
    simpa using List.find?_eq_none.mp hbad p hp
  | some p =>
    have hunfit : p.vector.length ≠ c.shape.vectorSize := by simpa using List.find?_some hbad
    refine iff_of_false (fun hsizes => ?_) fun hall =>
      hunfit (hall p (List.mem_of_find?_eq_some hbad))
    cases hsizes

/-- All collections are sound. -/
def Sound (cs : Collections) : Prop := ∀ name c, Keyed.get? name cs = some c → c.Sound

theorem Sound.insert {cs : Collections} (h : cs.Sound) {name : String} {c : Collection}
    (hc : c.Sound) : Sound (Keyed.insert name c cs) := by
  intro other d hd
  rw [Keyed.get?_insert] at hd
  split at hd
  · exact Option.some.inj hd ▸ hc
  · exact h other d hd

theorem Sound.changing {cs : Collections} (h : cs.Sound) {name : String}
    {f : Collection → Except Failure Collection}
    (hf : ∀ c d, c.Sound → f c = .ok d → d.Sound) : Sound (cs.changing name f).2 := by
  rcases cs.after_changing name f with hsame | ⟨c, d, hc, hd, hafter⟩
  · rwa [hsame]
  · rw [hafter]
    exact h.insert (hf c d (h name c hc) hd)

/-- Every call keeps collections sound. -/
theorem sound_answer {cs : Collections} (h : cs.Sound) (call : ClientCall) :
    (cs.answer call).2.Sound := by
  cases call with
  | create shape =>
    rw [answer]
    split
    · exact h
    · exact h.insert (.made shape)
  | createIndex name key => exact h.changing fun c d hc hd => Except.ok.inj hd ▸ hc.createIndex key
  | upsert name ps =>
    refine h.changing fun c d hc hd => ?_
    obtain ⟨hsizes, rfl⟩ := upsert_eq_ok hd
    exact hc.upsert (checkSizes_eq_ok.mp hsizes)
  | delete name filter =>
    rw [answer]
    split
    · exact h
    · exact h.changing fun c d hc hd => Except.ok.inj hd ▸ hc.delete filter
  | _ => exact h

/-- A writing that succeeds has changed one collection, into which all of its points fit. -/
theorem answer_upsert_ok {cs : Collections} {name : String} {ps : List Point}
    (h : (cs.answer (.upsert name ps)).1 = .ok ()) : ∃ c, Keyed.get? name cs = some c ∧
      (∀ p ∈ ps, p.vector.length = c.shape.vectorSize) ∧
      (cs.answer (.upsert name ps)).2 = Keyed.insert name (c.upsert ps) cs := by
  obtain ⟨c, d, hc, hd, hafter⟩ := changing_eq_ok h
  obtain ⟨hsizes, rfl⟩ := upsert_eq_ok hd
  exact ⟨c, hc, checkSizes_eq_ok.mp hsizes, hafter⟩

end Collections

/-! ## Stores that can be reached -/

namespace MemoryStore

/-- The store after a call has been made, or calls have been made to fail. -/
def apply (m : MemoryStore) : Interlude → MemoryStore
  | .call c => (m.answer c).2
  | .failNext n => m.failNext n
  | .failNextOn operation n => m.failNextOn operation n

/-- The store after some acts, empty at the beginning. -/
def reached (acts : List Interlude) : MemoryStore := acts.foldl apply {}

theorem sound_apply {m : MemoryStore} (h : m.collections.Sound) (act : Interlude) :
    (m.apply act).collections.Sound := by
  cases act with
  | call c =>
    rcases m.answer_cases c with ⟨_, hsame⟩ | ⟨_, hafter⟩
    · rwa [apply, hsame]
    · rw [apply, hafter]
      exact Collections.sound_answer h c
  | failNext n => exact h
  | failNextOn operation n => exact h

/-- In every store that can be reached, all collections are sound. -/
theorem sound_reached (acts : List Interlude) : (reached acts).collections.Sound := by
  have hfold : ∀ (acts : List Interlude) (m : MemoryStore), m.collections.Sound →
      (acts.foldl apply m).collections.Sound := by
    intro acts
    induction acts with
    | nil => exact fun _ h => h
    | cons act rest ih => exact fun m h => ih _ (sound_apply h act)
  exact hfold acts {} nofun

/-- A call that fails changes nothing. -/
theorem answer_of_error {m : MemoryStore} {call : ClientCall} {e : Failure}
    (h : (m.answer call).1 = .error e) : (m.answer call).2.collections = m.collections := by
  rcases m.answer_cases call with ⟨_, hsame⟩ | ⟨hresult, hafter⟩
  · exact hsame
  · rw [hafter]
    exact Collections.answer_of_error (hresult ▸ h)

/-- If a point does not fit into a collection, none of those that come with it is written. -/
theorem upsert_of_unfit (m : MemoryStore) {name : String} {ps : List Point} {c : Collection}
    {p : Point} (hc : Keyed.get? name m.collections = some c) (hp : p ∈ ps)
    (hsize : p.vector.length ≠ c.shape.vectorSize) : ∃ e, (m.answer (.upsert name ps)).1 = .error e := by
  cases hresult : (m.answer (.upsert name ps)).1 with
  | error e => exact ⟨e, rfl⟩
  | ok _ =>
    rcases m.answer_cases (.upsert name ps) with ⟨⟨_, hfails⟩, _⟩ | ⟨hanswer, _⟩
    · cases hresult.symm.trans hfails
    · obtain ⟨d, hd, hfits, _⟩ := Collections.answer_upsert_ok (hanswer.symm.trans hresult)
      cases hc.symm.trans hd
      exact absurd (hfits p hp) hsize

/-- Without a condition nothing is deleted. -/
theorem delete_of_empty (m : MemoryStore) (name : String) :
    ∃ e, (m.answer (.delete name ⟨[]⟩)).1 = .error e := by
  rcases m.answer_cases (.delete name ⟨[]⟩) with ⟨⟨_, hfails⟩, _⟩ | ⟨hanswer, _⟩
  · exact ⟨_, hfails⟩
  · exact ⟨_, hanswer⟩

/-- A writing that succeeds leaves the last point of each id and touches nothing else. -/
theorem upsert_of_ok {m : MemoryStore} {name : String} {ps : List Point}
    (h : (m.answer (.upsert name ps)).1 = .ok ()) :
    ∃ c d, Keyed.get? name m.collections = some c ∧
      Keyed.get? name (m.answer (.upsert name ps)).2.collections = some d ∧
      Collection.Overwritten ps c d ∧
      ∀ other, other ≠ name →
        Keyed.get? other (m.answer (.upsert name ps)).2.collections = Keyed.get? other m.collections := by
  rcases m.answer_cases (.upsert name ps) with ⟨⟨_, hfails⟩, _⟩ | ⟨hanswer, hafter⟩
  · cases h.symm.trans hfails
  · obtain ⟨c, hc, _, hmade⟩ := Collections.answer_upsert_ok (hanswer.symm.trans h)
    rw [hafter, hmade]
    refine ⟨c, c.upsert ps, hc, ?_, Collection.overwritten_upsert ps c, fun other hother => ?_⟩
    · rw [Keyed.get?_insert, if_pos rfl]
    · rw [Keyed.get?_insert, if_neg (Ne.symm hother)]

end MemoryStore

/-! ## Main result -/

/-- Whatever has been asked of a vector store in memory, and whichever calls were made to fail: every
point is filed under its own id and has a vector of the size of its collection, and the next call
changes nothing if it fails. It fails if it is to write a point that does not fit, wherever that comes
among the others, and if it is to delete without a condition; and if points are written, the last one
of each id is there, and all else is as it was. -/
theorem memory_sound (acts : List Interlude) :
    let m := MemoryStore.reached acts
    (∀ name c, Keyed.get? name m.collections = some c → ∀ id p, (id, p) ∈ c.points →
      id = p.id ∧ Keyed.get? id c.points = some p ∧ p.vector.length = c.shape.vectorSize) ∧
    (∀ call e, (m.answer call).1 = .error e → (m.answer call).2.collections = m.collections) ∧
    (∀ name ps c p, Keyed.get? name m.collections = some c → p ∈ ps →
      p.vector.length ≠ c.shape.vectorSize → ∃ e, (m.answer (.upsert name ps)).1 = .error e) ∧
    (∀ name, ∃ e, (m.answer (.delete name ⟨[]⟩)).1 = .error e) ∧
    (∀ name ps, (m.answer (.upsert name ps)).1 = .ok () → ∃ c d,
      Keyed.get? name m.collections = some c ∧
      Keyed.get? name (m.answer (.upsert name ps)).2.collections = some d ∧
      Collection.Overwritten ps c d ∧
      ∀ other, other ≠ name → Keyed.get? other (m.answer (.upsert name ps)).2.collections =
        Keyed.get? other m.collections) := by
  refine ⟨fun name c hc id p hp => ?_, fun call e => MemoryStore.answer_of_error,
    fun name ps c p hc hp hsize => MemoryStore.upsert_of_unfit _ hc hp hsize,
    MemoryStore.delete_of_empty _, fun name ps => MemoryStore.upsert_of_ok⟩
  have hsound := MemoryStore.sound_reached acts name c hc
  exact ⟨hsound.filed.own _ hp, hsound.filed.sorted.get?_eq_some_iff.mpr hp, hsound.sized _ hp⟩

/-- A collection is made, the next scrolling is made to fail, and it does. -/
def actsOfMaking : List Interlude :=
  [.call (.create ⟨"points", 1, .dot⟩), .failNextOn "scroll" 1,
    .call (.scroll "points" ⟨[]⟩ 1 none)]

theorem memory_sound_of_making : ∃ d, Keyed.get? "points"
    ((MemoryStore.reached actsOfMaking).answer (.upsert "points"
      [⟨"a", [.zero], []⟩, ⟨"b", [.zero], []⟩, ⟨"a", [.zero], [("n", .null)]⟩])).2.collections =
        some d ∧
      Keyed.get? "a" d.points = some ⟨"a", [.zero], [("n", .null)]⟩ := by
  obtain ⟨_, d, _, hd, hwritten, _⟩ := (memory_sound actsOfMaking).2.2.2.2 "points"
    [⟨"a", [.zero], []⟩, ⟨"b", [.zero], []⟩, ⟨"a", [.zero], [("n", .null)]⟩] rfl
  exact ⟨d, hd, hwritten.last [_, _] _ [] rfl List.not_mem_nil⟩

end CodeAtlas
