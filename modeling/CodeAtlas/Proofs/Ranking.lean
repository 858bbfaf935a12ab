import CodeAtlas.Proofs.ReadsFirst
import CodeAtlas.Proofs.Paging
import Mathlib.Data.Nat.Bitwise
/-!
# The best hits of a search

A search scores every point that it may find, puts the hits in order and keeps the first ones. Scores
are compared by the place that they have in the order of all numbers, so those that are no numbers are
in order with the rest, and of hits with one score the smaller id decides.

Results:
1. `Binary32.rank_inj`: different numbers have different places.
2. `Payload.accepts_searchFilter`: what a search may find.
3. `Hit.Outranks`, `ordered_ranking`: the order of hits is strict.
4. `BestHits`, `bestHits_take`: the first hits in order are the best ones.
5. `search_best`: a search gives the best hits, and with a smaller limit the first of them.
-/

namespace CodeAtlas

/-! ## The order of scores -/

namespace Binary32

theorem toNat_and_magnitude (b : UInt32) : (b &&& 0x7FFFFFFF).toNat = b.toNat % 2 ^ 31 := by
  rw [UInt32.toNat_and]
  exact Nat.and_two_pow_sub_one_eq_mod b.toNat 31

/-- The sign is told by the highest bit. -/
theorem and_sign_eq_zero_iff (b : UInt32) : (b &&& 0x80000000 == 0) = true ↔ b.toNat < 2 ^ 31 := by
  have hb : b.toNat < 2 ^ 32 := b.toNat_lt
  rw [beq_iff_eq, ← UInt32.toNat_inj, UInt32.toNat_and]
  change b.toNat &&& 2 ^ 31 = 0 ↔ _
  rw [Nat.and_two_pow]
  constructor
  · intro h
    by_contra hle
    have hbit : b.toNat.testBit 31 = true := by
      rw [Nat.testBit_eq_decide_div_mod_eq, decide_eq_true_iff]
      omega
    rw [hbit] at h
    exact absurd h (by decide)
  · intro h
    rw [Nat.testBit_lt_two_pow h]
    rfl

/-- Different numbers have different places. -/
theorem rank_inj {x y : Binary32} : x.rank = y.rank ↔ x = y := by
  refine ⟨fun h => ?_, congrArg rank⟩
  have hx : x.bits.toNat < 2 ^ 32 := x.bits.toNat_lt
  have hy : y.bits.toNat < 2 ^ 32 := y.bits.toNat_lt
  simp only [rank, and_sign_eq_zero_iff, toNat_and_magnitude] at h
  have hbits : x.bits.toNat = y.bits.toNat := by
    split at h <;> split at h <;> omega
  cases x
  cases y
  exact congrArg Binary32.mk (UInt32.toNat_inj.mp hbits)

end Binary32

/-! ## What may be found -/

namespace Payload

/-- A search may find the payload: it is one of a file or a symbol, and of the project if one is
told. -/
def MayBeFound (project : Option Uuid) (payload : Payload) : Prop :=
  (payload.IsFile ∨ payload.IsSymbol) ∧ ∀ id ∈ project, payload.projectId? = some id.render

instance (project : Option Uuid) : DecidablePred (MayBeFound project) := fun _ =>
  inferInstanceAs (Decidable ((_ ∨ _) ∧ ∀ id ∈ project, _))

theorem accepts_searchFilter {project : Option Uuid} {payload : Payload} :
    (SymbolStore.searchFilter project).accepts payload = true ↔ payload.MayBeFound project := by
  have hscope : (project.map fun id => Condition.text "project_id" id.render).toList.all
      (·.holds payload) = true ↔ ∀ id ∈ project, payload.projectId? = some id.render := by
    cases project <;> simp [Condition.holds_text, projectId?]
  rw [SymbolStore.searchFilter, Filter.accepts, List.all_cons, Bool.and_eq_true, hscope, MayBeFound,
    Condition.holds_oneOfTexts]
  simp [IsFile, IsSymbol]

end Payload

/-! ## The order of hits -/

namespace Hit

/-- A hit comes before another one: its score is higher, or of two with one score it has the smaller
id. -/
def Outranks (a b : Hit) : Prop :=
  b.score.rank < a.score.rank ∨ (a.score = b.score ∧ a.id < b.id)

end Hit

/-- The best ones of all hits that there could be, so many of them. -/
structure BestHits (candidates : List Hit) (limit : Nat) (hits : List Hit) : Prop where
  length : hits.length = min limit candidates.length
  ordered : hits.Pairwise Hit.Outranks
  found : hits ⊆ candidates
  /-- What has been left out comes behind all that has not. -/
  best : ∀ a ∈ candidates, a ∉ hits → ∀ b ∈ hits, b.Outranks a

/-- The first hits in order are the best ones. -/
theorem bestHits_take {sorted candidates : List Hit} (hperm : sorted.Perm candidates)
    (hordered : sorted.Pairwise Hit.Outranks) (limit : Nat) :
    BestHits candidates limit (sorted.take limit) where
  length := by rw [List.length_take, hperm.length_eq]
  ordered := hordered.take
  found := fun _ ha => hperm.subset (List.mem_of_mem_take ha)
  best a ha hleft b hb := by
    have hdrop : a ∈ sorted.drop limit := by
      have hmem := hperm.mem_iff.mpr ha
      rw [← List.take_append_drop limit sorted] at hmem
      exact (List.mem_append.mp hmem).resolve_left hleft
    rw [← List.take_append_drop limit sorted] at hordered
    exact (List.pairwise_append.mp hordered).2.2 b hb a hdrop

namespace Collection

theorem ranksBefore_iff {a b : Hit} : ranksBefore a b = true ↔
    b.score.rank < a.score.rank ∨ (a.score = b.score ∧ ¬ b.id < a.id) := by
  rw [ranksBefore, Bool.or_eq_true, Bool.and_eq_true, decide_eq_true_iff, beq_iff_eq,
    Bool.not_eq_true', decide_eq_false_iff_not, Binary32.rank_inj, @eq_comm _ b.score]

theorem ranksBefore_total (a b : Hit) : ranksBefore a b = true ∨ ranksBefore b a = true := by
  rw [ranksBefore_iff, ranksBefore_iff]
  rcases Int.lt_trichotomy a.score.rank b.score.rank with hlt | heq | hgt
  · exact .inr (.inl hlt)
  · have hscore := Binary32.rank_inj.mp heq
    by_cases hid : b.id < a.id
    · exact .inr (.inr ⟨hscore.symm, String.lt_asymm hid⟩)
    · exact .inl (.inr ⟨hscore, hid⟩)
  · exact .inl (.inl hgt)

theorem ranksBefore_trans (a b c : Hit) (hab : ranksBefore a b = true)
    (hbc : ranksBefore b c = true) : ranksBefore a c = true := by
  rw [ranksBefore_iff] at hab hbc ⊢
  rcases hab with hab | ⟨hab, hid⟩
  · rcases hbc with hbc | ⟨hbc, _⟩
    · exact .inl (Int.lt_trans hbc hab)
    · exact .inl (hbc ▸ hab)
  · rcases hbc with hbc | ⟨hbc, hid'⟩
    · exact .inl (hab ▸ hbc)
    · exact .inr ⟨hab.trans hbc, fun hlt => hid' (lt_of_lt_of_not_lt hlt hid)⟩

/-- The hit that a point is for a question. -/
def hit (c : Collection) (query : Embedding) (p : Point) : Hit :=
  ⟨p.id, c.shape.distance.score query p.vector, p.payload⟩

/-- All hits for a question in order. -/
def ranking (c : Collection) (query : Embedding) (filter : Filter) : List Hit :=
  Sorting.sort ranksBefore ((c.matching filter).map (c.hit query))

theorem ranking_perm (c : Collection) (query : Embedding) (filter : Filter) :
    (c.ranking query filter).Perm ((c.matching filter).map (c.hit query)) :=
  Sorting.sort_perm _ _

/-- The order of hits is strict, as no two of them have one id. -/
theorem ordered_ranking {c : Collection} (hc : c.Filed) (query : Embedding) (filter : Filter) :
    (c.ranking query filter).Pairwise Hit.Outranks := by
  have hids : ((c.matching filter).map (c.hit query)).Pairwise fun a b => a.id ≠ b.id :=
    List.pairwise_map.mpr ((hc.ordered_matching filter).imp
      fun {p q} hlt (heq : p.id = q.id) => String.lt_irrefl q.id (heq ▸ hlt))
  have hdistinct := (c.ranking_perm query filter).symm.pairwise hids Ne.symm
  have hsorted := Sorting.pairwise_sort ranksBefore_total ranksBefore_trans
    ((c.matching filter).map (c.hit query))
  refine (hsorted.and hdistinct).imp fun {a b} ⟨hab, hne⟩ => ?_
  rcases ranksBefore_iff.mp hab with hlt | ⟨hscore, hid⟩
  · exact .inl hlt
  · refine .inr ⟨hscore, ?_⟩
    exact String.not_le.mp fun hle => hne (String.le_antisymm (String.not_lt.mp hid) hle)

end Collection

/-! ## Searches -/

/-- A call to a vector store that has failed. -/
def Exchange.isFailedCall : Exchange → Bool
  | ⟨.client _, .error _⟩ => true
  | _ => false

/-- A plan comes to an end, and none of its calls to a vector store fails. -/
structure Host.Answers {α : Type} (h : Host) (p : Plan α) : Prop where
  ends : ∃ a, (h.run p).1 = .ok a
  answered : (Program.trace Host.serve p h).all (! Exchange.isFailedCall ·) = true

namespace Host.Answers

variable {α β : Type} {h t : Host}

/-- What comes behind a plan is answered if all is. -/
theorem behind {p : Plan α} {f : α → Plan β} {a : α} (hall : h.Answers (p >>= f))
    (hrun : h.run p = (.ok a, t)) : t.Answers (f a) := by
  obtain ⟨⟨b, hends⟩, hanswered⟩ := hall
  rw [Program.trace_bind, show Program.run Host.serve p h = _ from hrun] at hanswered
  rw [List.all_append, Bool.and_eq_true] at hanswered
  refine ⟨⟨b, ?_⟩, hanswered.2⟩
  rw [← hends]
  exact congrArg Prod.fst (run_bind_of_ok hrun f).symm

/-- A call with which a plan begins succeeds if all calls do. -/
theorem first {call : ClientCall} {f : call.Result → Plan α}
    (hall : h.Answers (ask (.client call) >>= f)) :
    ∃ answer t, serve (.client call) h = (.ok (.ok answer), t) := by
  obtain ⟨⟨a, hends⟩, hanswered⟩ := hall
  obtain ⟨result, t, hcall, _⟩ := run_bind_ok (Prod.ext hends rfl : h.run _ = (.ok a, _))
  have hserve := run_ask_ok hcall
  cases result with
  | ok answer => exact ⟨answer, t, hserve⟩
  | error e =>
    rw [Program.trace_bind, ask, Program.perform, Program.trace, hserve] at hanswered
    have hfailed : false = true := hanswered
    cases hfailed

end Host.Answers

namespace SymbolStore

/-- The vector of a question: that of the embedder if it gives one of the right size, else the
placeholder. -/
def queryVector (s : SymbolStore) (embedder : Option Embedder) (query : String) : Embedding :=
  if s.hasEmbedder then s.fitting (embedder.bind fun e => (e.embed query).toOption)
  else s.placeholder

variable {s : SymbolStore}

/-- The vector of a question is found without touching the vector store. -/
theorem run_embedQuery (s : SymbolStore) (query : String) (h : Host) :
    ∃ t, h.run (s.embedQuery query) = (.ok (s.queryVector h.embedder query), t) ∧
      t.store = h.store := by
  rw [embedQuery, queryVector]
  cases s.hasEmbedder with
  | false => exact ⟨h, rfl, rfl⟩
  | true =>
    obtain ⟨answer, hasked, hanswer⟩ : ∃ answer, Host.serve (.embed query) h =
        (.ok answer, { h with embeddings := .embed query :: h.embeddings }) ∧
          answer.toOption = h.embedder.bind fun e => (e.embed query).toOption := by
      cases hembedder : h.embedder with
      | none => exact ⟨.error Host.noEmbedder, by simp only [Host.serve, hembedder], rfl⟩
      | some e => exact ⟨e.embed query, by simp only [Host.serve, hembedder], rfl⟩
    rw [← hanswer]
    exact ⟨_, run_bind_of_ok (run_ask hasked) _, rfl⟩

/-- What is asked for once the vector of a question is known. -/
def searchBy (s : SymbolStore) (project : Option Uuid) (limit : Nat) (vector : Embedding) :
    Plan (List Hit) := do
  match ← ask (.client (.search s.collection vector (searchFilter project) limit)) with
  | .ok hits => return hits
  | .error _ => return []

theorem search_eq (s : SymbolStore) (query : String) (project : Option Uuid) (limit : Nat) :
    s.search query project limit = s.embedQuery query >>= s.searchBy project limit := rfl

/-- A call that does not fail gives the first of all hits in order. -/
theorem run_searchBy {project : Option Uuid} {limit : Nat} {vector : Embedding} {h : Host}
    (hm : h.IsLocal) (hall : h.Answers (s.searchBy project limit vector)) :
    ∃ c, Keyed.get? s.collection h.collections = some c ∧
      (h.run (s.searchBy project limit vector)).1 =
        .ok ((c.ranking vector (searchFilter project)).take limit) := by
  obtain ⟨hits, t, hserve⟩ := hall.first
  obtain ⟨hcomes, _⟩ :=
    Host.comes_of_local hm (.search s.collection vector (searchFilter project) limit)
  rw [hserve] at hcomes
  obtain ⟨hanswer, _⟩ := hcomes.answered_of_ok nofun
  obtain ⟨c, hc, rfl⟩ := Collections.reading_eq_ok hanswer
  exact ⟨c, hc, congrArg Prod.fst (run_bind_of_ok (run_ask hserve) _)⟩

/-- A search whose calls do not fail gives the first of all hits in order. -/
theorem run_search {query : String} {project : Option Uuid} {limit : Nat} {h : Host}
    (hm : h.IsLocal) (hall : h.Answers (s.search query project limit)) :
    ∃ c, Keyed.get? s.collection h.collections = some c ∧
      (h.run (s.search query project limit)).1 = .ok ((c.ranking (s.queryVector h.embedder query)
        (searchFilter project)).take limit) := by
  obtain ⟨t, hembed, hstore⟩ := s.run_embedQuery query h
  rw [search_eq] at hall ⊢
  obtain ⟨c, hc, hrun⟩ := run_searchBy (hm.imp fun _ hm => hstore.trans hm) (hall.behind hembed)
  rw [Host.collections, hstore] at hc
  exact ⟨c, hc, (congrArg Prod.fst (run_bind_of_ok hembed _)).trans hrun⟩

end SymbolStore

/-! ## Main result -/

namespace Collection

/-- The points that a search may find. -/
def findable (c : Collection) (project : Option Uuid) : List Point :=
  (c.points.map (·.2)).filter fun p => p.payload.MayBeFound project

theorem matching_searchFilter (c : Collection) (project : Option Uuid) :
    c.matching (SymbolStore.searchFilter project) = c.findable project := by
  refine List.filter_congr fun p _ => ?_
  rw [Bool.eq_iff_iff, Payload.accepts_searchFilter, decide_eq_true_iff]

end Collection

/-- A search whose calls do not fail gives the best hits for the vector of the question, as many as
are asked for, if there are so many: files and symbols alone, and those of the project alone if one is
told, each as its own point tells. As long as the points stay as they are, a search with a smaller
limit gives the first of these hits. -/
theorem search_best (s : SymbolStore) (query : String) (project : Option Uuid) (limit : Nat)
    {h : Host} (hm : h.IsLocal) (hfiled : h.collections.IsFiled s.collection)
    (hall : h.Answers (s.search query project limit)) :
    ∃ c hits, Keyed.get? s.collection h.collections = some c ∧
      (h.run (s.search query project limit)).1 = .ok hits ∧
      BestHits ((c.findable project).map (c.hit (s.queryVector h.embedder query))) limit hits ∧
      (∀ hit ∈ hits, ¬ hit.payload.IsProject ∧
        ∀ id ∈ project, hit.payload.projectId? = some id.render) ∧
      ∀ (k : Host) (fewer : Nat), k.IsLocal → k.collections = h.collections →
        k.embedder = h.embedder → fewer ≤ limit → k.Answers (s.search query project fewer) →
        (k.run (s.search query project fewer)).1 = .ok (hits.take fewer) := by
  obtain ⟨c, hc, hrun⟩ := SymbolStore.run_search hm hall
  have hperm := c.ranking_perm (s.queryVector h.embedder query) (SymbolStore.searchFilter project)
  rw [c.matching_searchFilter] at hperm
  have hbest := bestHits_take hperm (Collection.ordered_ranking (hfiled c hc) _ _) limit
  refine ⟨c, _, hc, hrun, hbest, fun hit hhit => ?_, fun k fewer hk hsame hembedder hle hall' => ?_⟩
  · obtain ⟨p, hp, rfl⟩ := List.mem_map.mp (hbest.found hhit)
    obtain ⟨hkind, hscope⟩ := of_decide_eq_true (List.mem_filter.mp hp).2
    exact ⟨hkind.elim Payload.IsFile.not_isProject Payload.IsSymbol.not_isProject, hscope⟩
  · obtain ⟨d, hd, hrun'⟩ := SymbolStore.run_search hk hall'
    rw [hsame] at hd
    cases hc.symm.trans hd
    rw [hrun', hembedder, List.take_take, Nat.min_eq_left hle]

section

set_option maxRecDepth 100000

/-- A project with two files, and a file of another project. -/
def Host.withTwoProjects : Host :=
  let file (n : Nat) (project : Uuid) (path : String) : String × Point :=
    ((Uuid.ofNat n).render, ⟨(Uuid.ofNat n).render, [], .ofFile project
      { path, language := "python", hash := "0", size := 3, modified := ⟨0, 0⟩ }⟩)
  { store := .memory { collections := [("points", {
      shape := ⟨"points", 0, .dot⟩
      points := [
        file 6 (.ofNat 10) "other.py", file 7 (.ofNat 9) "a.py", file 8 (.ofNat 9) "b.py",
        ((Uuid.ofNat 9).render, ⟨(Uuid.ofNat 9).render, [],
          .ofProject { id := .ofNat 9, name := "r", rootPath := "/r" }⟩)] })] } }

theorem search_best_of_tied : ∃ c hits,
    Keyed.get? "points" Host.withTwoProjects.collections = some c ∧
      (Host.withTwoProjects.run (SymbolStore.patient.search "a" (some (.ofNat 9)) 2)).1 = .ok hits ∧
      BestHits ((c.findable (some (.ofNat 9))).map (c.hit [])) 2 hits ∧
      (Host.withTwoProjects.run (SymbolStore.patient.search "a" (some (.ofNat 9)) 1)).1 =
        .ok (hits.take 1) := by
  have hfiled : Host.withTwoProjects.collections.IsFiled "points" := by
    intro c hc
    cases hc
    exact ⟨by unfold Keyed.Sorted; decide +kernel, by decide +kernel⟩
  have hanswers : ∀ limit, limit = 1 ∨ limit = 2 → Host.withTwoProjects.Answers
      (SymbolStore.patient.search "a" (some (.ofNat 9)) limit) := by
    rintro _ (rfl | rfl)
    · exact ⟨exists_of_toOption (by decide +kernel), by decide +kernel⟩
    · exact ⟨exists_of_toOption (by decide +kernel), by decide +kernel⟩
  obtain ⟨c, hits, hc, hrun, hbest, _, hfewer⟩ := search_best .patient "a" (some (.ofNat 9)) 2
    (h := .withTwoProjects) ⟨_, rfl⟩ hfiled (hanswers 2 (.inr rfl))
  exact ⟨c, hits, hc, hrun, hbest, hfewer .withTwoProjects 1 ⟨_, rfl⟩ rfl rfl (by decide)
    (hanswers 1 (.inl rfl))⟩

end

end CodeAtlas
