import CodeAtlas.Embedding.Cache
import Mathlib.Data.List.Forall2
/-!
# One cache for many

Any number of clients ask one embedder through one cache, several at once. The cache is locked only
while it is looked into and while vectors are put into it, and not in between: others find and change
it meanwhile, and what was found may have been dropped when the new vectors arrive.

Results:
1. `EmbeddingCache.Agrees.getAll`, `EmbeddingCache.Agrees.putAll`: to look texts up and to keep true
   vectors leaves a cache true and within its capacity.
2. `CachedEmbedder.missing_getAll`, `CachedEmbedder.answers_merge`: what is not found is just what the
   cache does not keep, and the vectors of the rest fall into the gaps.
3. `Question.heeds_work`: a visit to a cache, whatever others do to it meanwhile.
4. `SharedCache.Sound.step`, `SharedCache.Sound.run`: what holds after every step of anybody.
5. `sharedCache_transparent`: nobody can tell the cache from the embedder behind it.
-/

namespace CodeAtlas

/-! ## Embedding one by one -/

/-- Many texts are embedded one by one, and the first failure counts. -/
def Embedder.IsPointwise (e : Embedder) : Prop := ∀ texts, e.embedAll texts = texts.mapM e.embed

/-- There is one vector for each text, the one that the embedder gives for it. -/
def Embedder.Answers (e : Embedder) : List String → List Embedding → Prop :=
  List.Forall₂ fun text v => e.embed text = .ok v

namespace Embedder

variable {e : Embedder} {texts : List String}

theorem answers_iff {vectors : List Embedding} :
    e.Answers texts vectors ↔ texts.mapM e.embed = .ok vectors := by
  induction texts generalizing vectors with
  | nil => cases vectors <;> simp [Answers, pure, Except.pure]
  | cons text rest ih =>
    rw [List.mapM_cons]
    cases hfirst : e.embed text with
    | error failure => cases vectors <;> simp [Answers, bind, Except.bind, hfirst]
    | ok v =>
      cases hothers : rest.mapM e.embed with
      | error failure =>
        cases vectors <;> simp_all [Answers, bind, Except.bind]
      | ok others =>
        cases vectors <;> simp_all [Answers, bind, Except.bind, pure, Except.pure]

/-- A failure is that of one of the texts. -/
theorem exists_of_mapM_error {failure : Failure} (h : texts.mapM e.embed = .error failure) :
    ∃ text ∈ texts, e.embed text = .error failure := by
  induction texts with
  | nil =>
    rw [List.mapM_nil] at h
    cases h
  | cons text rest ih =>
    rw [List.mapM_cons] at h
    cases hfirst : e.embed text with
    | error other =>
      rw [hfirst] at h
      cases h
      exact ⟨text, List.mem_cons_self, hfirst⟩
    | ok v =>
      cases hothers : rest.mapM e.embed with
      | error other =>
        rw [hfirst, hothers] at h
        cases h
        obtain ⟨text', hmem, htext'⟩ := ih hothers
        exact ⟨text', List.mem_cons_of_mem text hmem, htext'⟩
      | ok others =>
        rw [hfirst, hothers] at h
        cases h

end Embedder

/-- An embedder that is out of reach embeds texts one by one: each of them fails. -/
theorem RemoteEmbedder.isPointwise_unanswered (r : RemoteEmbedder) : r.unanswered.IsPointwise := by
  intro texts
  cases texts with
  | nil => rfl
  | cons text rest =>
    rw [List.mapM_cons]
    rfl

/-! ## Caches -/

namespace EmbeddingCache

/-- A text is kept with a vector. -/
def keeps (c : EmbeddingCache) (text : String) : Bool := c.entries.any (·.1 == text)

/-- What is kept is what an embedder gives, no text is kept twice, and there is room for it. -/
structure Agrees (e : Embedder) (c : EmbeddingCache) : Prop where
  agrees : ∀ entry ∈ c.entries, e.embed entry.1 = .ok entry.2
  once : (c.entries.map (·.1)).Nodup
  fits : c.size ≤ c.capacity

variable {e : Embedder} {c : EmbeddingCache} {text : String} {v : Embedding}

theorem mem_without {entries : List (String × Embedding)} {entry : String × Embedding} :
    entry ∈ without text entries ↔ entry ∈ entries ∧ entry.1 ≠ text := by
  rw [without, List.mem_filter, bne_iff_ne]

theorem once_without {entries : List (String × Embedding)} (h : (entries.map (·.1)).Nodup)
    (v : Embedding) : (((text, v) :: without text entries).map (·.1)).Nodup := by
  refine List.nodup_cons.mpr ⟨fun hmem => ?_, h.sublist (List.filter_sublist.map _)⟩
  obtain ⟨entry, hentry, htext⟩ := List.mem_map.mp hmem
  exact (mem_without.mp hentry).2 htext

theorem agrees_withCapacity (e : Embedder) (n : Nat) : (withCapacity n).Agrees e :=
  ⟨fun _ h => absurd h List.not_mem_nil, List.nodup_nil, Nat.zero_le _⟩

/-- A text is found if it is kept, and then it is the one used last. -/
theorem get_cases (c : EmbeddingCache) (text : String) :
    (c.keeps text = false ∧ c.get text = (none, c)) ∨
    ∃ v, c.keeps text = true ∧ (text, v) ∈ c.entries ∧
      c.get text = (some v, { c with entries := (text, v) :: without text c.entries }) := by
  rw [get]
  cases hfound : c.entries.find? (·.1 == text) with
  | none =>
    refine .inl ⟨?_, rfl⟩
    rw [keeps, List.any_eq_false]
    exact List.find?_eq_none.mp hfound
  | some entry =>
    obtain ⟨key, v⟩ := entry
    have hkey := List.find?_some hfound
    obtain rfl : key = text := eq_of_beq hkey
    have hmem := List.mem_of_find?_eq_some hfound
    exact .inr ⟨v, List.any_eq_true.mpr ⟨_, hmem, BEq.rfl⟩, hmem, rfl⟩

theorem Agrees.get (h : c.Agrees e) (text : String) : (c.get text).2.Agrees e := by
  rcases c.get_cases text with ⟨_, hget⟩ | ⟨v, _, hmem, hget⟩
  · rw [hget]
    exact h
  · rw [hget]
    refine ⟨fun entry hentry => ?_, once_without h.once v, ?_⟩
    · rcases List.mem_cons.mp hentry with rfl | hentry
      · exact h.agrees _ hmem
      · exact h.agrees entry (mem_without.mp hentry).1
    · -- the text makes room for itself
      have hless : (without text c.entries).length < c.entries.length :=
        List.length_filter_lt_length_iff_exists.mpr ⟨_, hmem, by simp⟩
      exact Nat.le_trans hless h.fits

/-- To look a text up changes the order of the entries only. -/
theorem keeps_get (c : EmbeddingCache) (text : String) : (c.get text).2.keeps = c.keeps := by
  rcases c.get_cases text with ⟨_, hget⟩ | ⟨v, _, hmem, hget⟩
  · rw [hget]
  · rw [hget]
    funext other
    rw [Bool.eq_iff_iff, keeps, keeps, List.any_eq_true, List.any_eq_true]
    refine ⟨fun ⟨entry, hentry, hkey⟩ => ?_, fun ⟨entry, hentry, hkey⟩ => ?_⟩
    · rcases List.mem_cons.mp hentry with rfl | hentry
      · exact ⟨_, hmem, hkey⟩
      · exact ⟨entry, (mem_without.mp hentry).1, hkey⟩
    · by_cases hsame : entry.1 = text
      · exact ⟨(text, v), List.mem_cons_self, hsame ▸ hkey⟩
      · exact ⟨entry, List.mem_cons_of_mem _ (mem_without.mpr ⟨hentry, hsame⟩), hkey⟩

@[simp] theorem capacity_get (c : EmbeddingCache) (text : String) :
    (c.get text).2.capacity = c.capacity := by
  rcases c.get_cases text with ⟨_, hget⟩ | ⟨v, _, _, hget⟩ <;> rw [hget]

theorem Agrees.getAll (h : c.Agrees e) (texts : List String) : (c.getAll texts).2.Agrees e := by
  induction texts generalizing c with
  | nil => exact h
  | cons text rest ih => exact ih (h.get text)

@[simp] theorem capacity_getAll (c : EmbeddingCache) (texts : List String) :
    (c.getAll texts).2.capacity = c.capacity := by
  induction texts generalizing c with
  | nil => rfl
  | cons text rest ih => exact (ih _).trans (c.capacity_get text)

theorem Agrees.put (h : c.Agrees e) (hv : e.embed text = .ok v) : (c.put text v).Agrees e := by
  refine ⟨fun entry hentry => ?_, ?_, List.length_take_le _ _⟩
  · rcases List.mem_cons.mp (List.mem_of_mem_take hentry) with rfl | hentry
    · exact hv
    · exact h.agrees entry (mem_without.mp hentry).1
  · exact (once_without h.once v).sublist ((List.take_sublist _ _).map _)

theorem Agrees.putAll {entries : List (String × Embedding)} (h : c.Agrees e)
    (hentries : ∀ entry ∈ entries, e.embed entry.1 = .ok entry.2) : (c.putAll entries).Agrees e := by
  induction entries generalizing c with
  | nil => exact h
  | cons entry rest ih =>
    exact ih (h.put (hentries entry List.mem_cons_self)) fun other hother =>
      hentries other (List.mem_cons_of_mem entry hother)

@[simp] theorem capacity_putAll (c : EmbeddingCache) (entries : List (String × Embedding)) :
    (c.putAll entries).capacity = c.capacity := by
  induction entries generalizing c with
  | nil => rfl
  | cons entry rest ih => exact ih _

end EmbeddingCache

/-! ## Found and missing -/

namespace CachedEmbedder

variable {e : Embedder}

/-- What is found is what an embedder gives. -/
def Finds (e : Embedder) : List String → List (Option Embedding) → Prop :=
  List.Forall₂ fun text found => ∀ v, found = some v → e.embed text = .ok v

theorem finds_getAll {c : EmbeddingCache} (h : c.Agrees e) (texts : List String) :
    Finds e texts (c.getAll texts).1 := by
  induction texts generalizing c with
  | nil => exact .nil
  | cons text rest ih =>
    refine List.Forall₂.cons (fun v hv => ?_) (ih (h.get text))
    change (c.get text).1 = some v at hv
    rcases c.get_cases text with ⟨_, hget⟩ | ⟨w, _, hmem, hget⟩
    · rw [hget] at hv
      cases hv
    · rw [hget] at hv
      cases hv
      exact h.agrees _ hmem

/-- What is not found is just what the cache does not keep. -/
theorem missing_getAll (c : EmbeddingCache) (texts : List String) :
    missing texts (c.getAll texts).1 = texts.filter (!c.keeps ·) := by
  induction texts generalizing c with
  | nil => rfl
  | cons text rest ih =>
    have hrest := ih (c.get text).2
    rw [EmbeddingCache.keeps_get] at hrest
    rw [EmbeddingCache.getAll]
    rcases c.get_cases text with ⟨hkeeps, hget⟩ | ⟨v, hkeeps, _, hget⟩
    · rw [List.filter_cons_of_pos (by rw [hkeeps]; rfl), ← hrest, hget]
      rfl
    · rw [List.filter_cons_of_neg (by rw [hkeeps]; exact Bool.false_ne_true), ← hrest, hget]
      rfl

/-- New vectors fall into the gaps, so that there is a vector for each text. -/
theorem answers_merge {texts : List String} {found : List (Option Embedding)}
    {new : List Embedding} (hfound : Finds e texts found)
    (hnew : e.Answers (missing texts found) new) : e.Answers texts (merge found new) := by
  induction hfound generalizing new with
  | nil =>
    cases hnew
    exact .nil
  | @cons text found texts others hfirst _ ih =>
    cases found with
    | some v => exact .cons (hfirst v rfl) (ih hnew)
    | none =>
      cases hnew with
      | cons hv hrest => exact .cons hv (ih hrest)

end CachedEmbedder

/-! ## Visits -/

/-- What may be asked of an embedder. -/
inductive Question where
  | one (text : String)
  | many (texts : List String)

/-- The steps of a visit to a cache, the last first, each with the cache that it has found. -/
abbrev Steps := List (CacheRequest × EmbeddingCache)

namespace CacheRequest

/-- The texts that a step sends to the embedder behind the cache. -/
def sends : CacheRequest → List String
  | embed text => [text]
  | embedAll texts => texts
  | _ => []

/-- What a step puts into the cache. -/
def entries : CacheRequest → List (String × Embedding)
  | putAll entries => entries
  | _ => []

end CacheRequest

namespace Question

def texts : Question → List String
  | one text => [text]
  | many texts => texts

@[reducible] def Answer : Question → Type
  | one _ => Embedding
  | many _ => List Embedding

/-- What is done about a question. -/
def work (e : Embedder) : (q : Question) → Program CacheRequest.Answer (Except Failure q.Answer)
  | one text => (CachedEmbedder.embed text).run
  | many texts => (CachedEmbedder.embedAll e.name texts).run

/-- The answer of the embedder itself. -/
def direct (e : Embedder) : (q : Question) → Except Failure q.Answer
  | one text => e.embed text
  | many texts => e.embedAll texts

def vectors : (q : Question) → q.Answer → List Embedding
  | one _, v => [v]
  | many _, vs => vs

/-- A step sends nothing, or it is the second one and sends just the texts that were not found. -/
def Sparing (q : Question) (r : CacheRequest) (taken : Steps) : Prop :=
  r.sends = [] ∨ ∃ c, taken = [(.getAll q.texts, c)] ∧ r.sends = q.texts.filter (!c.keeps ·)

/-- A step that may be taken after others. -/
structure Allows (q : Question) (e : Embedder) (r : CacheRequest) (taken : Steps) : Prop where
  sparing : q.Sparing r taken
  keeps : ∀ entry ∈ r.entries, e.embed entry.1 = .ok entry.2
  brief : taken.length < 3

/-- What a question may come to. -/
def Ends (q : Question) (e : Embedder) : Except Failure q.Answer → Prop
  | .ok answer => e.Answers q.texts (q.vectors answer)
  | .error failure => ∃ text ∈ q.texts, e.embed text = .error failure

/-- Whatever true cache a step finds, it is allowed, and the work ends as it may. -/
def Heeds (q : Question) (e : Embedder) :
    Program CacheRequest.Answer (Except Failure q.Answer) → Steps → Prop
  | .pure result, _ => q.Ends e result
  | .ask r next, taken => q.Allows e r taken ∧
      ∀ c, c.Agrees e → ∀ answer, (r.serve e c).1 = .ok answer →
        Heeds q e (next answer) ((r, c) :: taken)

variable {e : Embedder}

theorem allows_getAll (q : Question) (e : Embedder) (texts : List String) :
    q.Allows e (.getAll texts) [] :=
  ⟨.inl rfl, fun _ h => absurd h List.not_mem_nil, Nat.zero_lt_succ 2⟩

theorem allows_putAll (q : Question) {entries : List (String × Embedding)} {taken : Steps}
    (hentries : ∀ entry ∈ entries, e.embed entry.1 = .ok entry.2) (hbrief : taken.length < 3) :
    q.Allows e (.putAll entries) taken := ⟨.inl rfl, hentries, hbrief⟩

variable {q : Question} {taken : Steps}

theorem heeds_step {r : CacheRequest} {f : r.Answer → CachedEmbedder.Work q.Answer}
    (hr : q.Allows e r taken) (hf : ∀ c, c.Agrees e → ∀ answer, (r.serve e c).1 = .ok answer →
      q.Heeds e (f answer).run ((r, c) :: taken)) :
    q.Heeds e (CachedEmbedder.step r >>= f).run taken := ⟨hr, hf⟩

theorem heeds_embed {text : String} {f : Embedding → CachedEmbedder.Work q.Answer}
    (hr : q.Allows e (.embed text) taken) (htext : text ∈ q.texts)
    (hf : ∀ v, e.embed text = .ok v → ∀ c, q.Heeds e (f v).run ((.embed text, c) :: taken)) :
    q.Heeds e (ExceptT.mk (Program.perform (CacheRequest.embed text)) >>= f).run taken := by
  refine ⟨hr, fun c _ answer hanswer => ?_⟩
  cases hanswer
  cases hv : e.embed text with
  | error failure => exact ⟨text, htext, hv⟩
  | ok v => exact hf v hv c

theorem heeds_embedAll (he : e.IsPointwise) {rest : List String}
    {f : List Embedding → CachedEmbedder.Work q.Answer}
    (hr : q.Allows e (.embedAll rest) taken) (hrest : rest ⊆ q.texts)
    (hf : ∀ vs, e.Answers rest vs → ∀ c, q.Heeds e (f vs).run ((.embedAll rest, c) :: taken)) :
    q.Heeds e (ExceptT.mk (Program.perform (CacheRequest.embedAll rest)) >>= f).run taken := by
  refine ⟨hr, fun c _ answer hanswer => ?_⟩
  obtain rfl : e.embedAll rest = answer := Except.ok.inj hanswer
  have hrest' := he rest
  cases hvs : rest.mapM e.embed with
  | error failure =>
    rw [hrest', hvs]
    obtain ⟨text, hmem, htext⟩ := Embedder.exists_of_mapM_error hvs
    exact ⟨text, hrest hmem, htext⟩
  | ok vs =>
    rw [hrest', hvs]
    exact hf vs (Embedder.answers_iff.mpr hvs) c

/-- One text: it is kept, or the embedder is asked for it. -/
theorem heeds_one (text : String) : (one text).Heeds e ((one text).work e) [] := by
  refine heeds_step (allows_getAll _ e [text]) fun c hc found hfound => ?_
  have hfound : [(c.get text).1] = found := Except.ok.inj hfound
  rcases c.get_cases text with ⟨hkeeps, hget⟩ | ⟨v, _, hmem, hget⟩
  · rw [hget] at hfound
    subst hfound
    have hmissing : [text] = [text].filter (!c.keeps ·) := by
      rw [List.filter_cons_of_pos (by rw [hkeeps]; rfl), List.filter_nil]
    refine heeds_embed ⟨.inr ⟨c, rfl, hmissing⟩, fun _ h => absurd h List.not_mem_nil, by simp⟩
      List.mem_cons_self fun v hv _ => ?_
    refine heeds_step (allows_putAll _ (fun entry hentry => ?_) (by simp)) fun _ _ _ _ => ?_
    · rw [List.mem_singleton.mp hentry, hv]
    · exact List.Forall₂.cons hv .nil
  · rw [hget] at hfound
    subst hfound
    exact List.Forall₂.cons (hc.agrees _ hmem) .nil

/-- Many texts: the embedder is asked for those that are not kept. -/
theorem heeds_many (he : e.IsPointwise) (texts : List String) :
    (many texts).Heeds e ((many texts).work e) [] := by
  refine heeds_step (allows_getAll _ e texts) fun c hc found hfound => ?_
  obtain rfl : (c.getAll texts).1 = found := Except.ok.inj hfound
  have hmerge : ∀ new, e.Answers (CachedEmbedder.missing texts (c.getAll texts).1) new →
      e.Answers texts (CachedEmbedder.merge (c.getAll texts).1 new) := fun new =>
    CachedEmbedder.answers_merge (CachedEmbedder.finds_getAll hc texts)
  dsimp only
  rw [CachedEmbedder.missing_getAll] at hmerge ⊢
  generalize hrest : texts.filter (!c.keeps ·) = rest at hmerge ⊢
  have hsubset : rest ⊆ texts := by
    rw [← hrest]
    exact List.filter_sublist.subset
  split
  · next hempty =>
    rw [List.isEmpty_iff.mp hempty] at hmerge
    exact hmerge [] .nil
  · refine heeds_embedAll he ⟨.inr ⟨c, rfl, hrest.symm⟩, fun _ h => absurd h List.not_mem_nil,
      by simp⟩ hsubset fun new hnew _ => ?_
    have hlength : new.length = rest.length := (List.Forall₂.length_eq hnew).symm
    rw [if_neg (by rw [hlength]; simp)]
    refine heeds_step (allows_putAll _ (fun entry hentry => ?_) (by simp)) fun _ _ _ _ => ?_
    · exact (List.forall₂_iff_zip.mp hnew).2 hentry
    · exact hmerge new hnew

/-- A visit to a cache, whatever others do to it meanwhile. -/
theorem heeds_work (he : e.IsPointwise) (q : Question) : q.Heeds e (q.work e) [] := by
  cases q with
  | one text => exact heeds_one text
  | many texts => exact heeds_many he texts

end Question

/-! ## Clients of one cache -/

/-- A question that somebody has come with. -/
structure Visit where
  question : Question
  /-- What is left to do. -/
  left : Except Crash (Program CacheRequest.Answer (Except Failure question.Answer))
  taken : Steps := []

/-- A cache, and the visits to it. -/
structure SharedCache where
  cache : EmbeddingCache
  visits : List Visit := []

namespace SharedCache

/-- What may happen next. -/
inductive Move where
  /-- Somebody comes with a question. -/
  | come (q : Question)
  /-- The next step of a visit is taken. -/
  | turn (n : Nat)

/-- A new cache. -/
def withCapacity (n : Nat) : SharedCache := { cache := .withCapacity n }

variable (e : Embedder)

def step (s : SharedCache) : Move → SharedCache
  | .come q => { s with visits := s.visits ++ [⟨q, .ok (q.work e), []⟩] }
  | .turn n =>
    match s.visits[n]? with
    | some ⟨q, .ok (.ask r next), taken⟩ =>
      let (result, cache) := r.serve e s.cache
      { cache, visits := s.visits.set n ⟨q, result.map next, (r, s.cache) :: taken⟩ }
    | _ => s

def run (s : SharedCache) (moves : List Move) : SharedCache := moves.foldl (step e) s

end SharedCache

/-- What holds of a visit at any time. -/
structure Visit.Sound (e : Embedder) (v : Visit) : Prop where
  left : ∃ p, v.left = .ok p ∧ v.question.Heeds e p v.taken
  sparing : ∀ r c earlier, (r, c) :: earlier <:+ v.taken → v.question.Sparing r earlier
  brief : v.taken.length ≤ 3

namespace CacheRequest

/-- A step is answered, and what it puts into the cache leaves the cache true. -/
theorem serve_agrees {e : Embedder} {c : EmbeddingCache} (hc : c.Agrees e) {r : CacheRequest}
    (hr : ∀ entry ∈ r.entries, e.embed entry.1 = .ok entry.2) :
    (∃ answer, (r.serve e c).1 = .ok answer) ∧ (r.serve e c).2.Agrees e ∧
      (r.serve e c).2.capacity = c.capacity := by
  cases r with
  | getAll texts => exact ⟨⟨_, rfl⟩, hc.getAll texts, c.capacity_getAll texts⟩
  | putAll entries => exact ⟨⟨_, rfl⟩, hc.putAll hr, c.capacity_putAll entries⟩
  | embed text => exact ⟨⟨_, rfl⟩, hc, rfl⟩
  | embedAll texts => exact ⟨⟨_, rfl⟩, hc, rfl⟩

end CacheRequest

theorem Visit.sound_come {e : Embedder} (he : e.IsPointwise) (q : Question) :
    Visit.Sound e ⟨q, .ok (q.work e), []⟩ where
  left := ⟨_, rfl, q.heeds_work he⟩
  sparing _ _ _ h := absurd (List.eq_nil_of_suffix_nil h) (List.cons_ne_nil _ _)
  brief := Nat.zero_le 3

/-- A visit that has taken its next step. -/
theorem Visit.Sound.turn {e : Embedder} {q : Question} {r : CacheRequest}
    {next : r.Answer → Program CacheRequest.Answer (Except Failure q.Answer)} {taken : Steps}
    (h : Visit.Sound e ⟨q, .ok (.ask r next), taken⟩) {c : EmbeddingCache} (hc : c.Agrees e) :
    Visit.Sound e ⟨q, (r.serve e c).1.map next, (r, c) :: taken⟩ ∧ (r.serve e c).2.Agrees e ∧
      (r.serve e c).2.capacity = c.capacity := by
  obtain ⟨p, hp, hheeds⟩ := h.left
  cases hp
  obtain ⟨hallows, hnext⟩ := hheeds
  obtain ⟨⟨answer, hanswer⟩, hagrees, hcapacity⟩ := CacheRequest.serve_agrees hc hallows.keeps
  refine ⟨⟨⟨next answer, ?_, hnext c hc answer hanswer⟩, fun r' c' earlier hsuffix => ?_,
    hallows.brief⟩, hagrees, hcapacity⟩
  · rw [hanswer]
    rfl
  · rcases List.suffix_cons_iff.mp hsuffix with hlast | hbefore
    · cases hlast
      exact hallows.sparing
    · exact h.sparing r' c' earlier hbefore

namespace SharedCache

/-- What holds of a cache and all visits to it at any time. -/
structure Sound (e : Embedder) (capacity : Nat) (s : SharedCache) : Prop where
  cache : s.cache.Agrees e
  capacity : s.cache.capacity = capacity
  visits : ∀ v ∈ s.visits, v.Sound e

variable {e : Embedder} {capacity : Nat} {s : SharedCache}

theorem sound_withCapacity (e : Embedder) (n : Nat) : (withCapacity n).Sound e (max 1 n) :=
  ⟨EmbeddingCache.agrees_withCapacity e n, rfl, fun _ h => absurd h List.not_mem_nil⟩

theorem Sound.step (h : s.Sound e capacity) (he : e.IsPointwise) (move : Move) :
    (s.step e move).Sound e capacity := by
  cases move with
  | come q =>
    refine ⟨h.cache, h.capacity, fun v hv => ?_⟩
    rcases List.mem_append.mp hv with hv | hv
    · exact h.visits v hv
    · rw [List.mem_singleton.mp hv]
      exact Visit.sound_come he q
  | turn n =>
    rw [SharedCache.step]
    split
    · next q r next taken hn =>
      obtain ⟨hvisit, hcache, hcapacity⟩ := (h.visits _ (List.mem_of_getElem? hn)).turn h.cache
      refine ⟨hcache, hcapacity.trans h.capacity, fun v hv => ?_⟩
      rcases List.mem_or_eq_of_mem_set hv with hv | rfl
      · exact h.visits v hv
      · exact hvisit
    · exact h

theorem Sound.run (h : s.Sound e capacity) (he : e.IsPointwise) (moves : List Move) :
    (s.run e moves).Sound e capacity := by
  induction moves generalizing s with
  | nil => exact h
  | cons move rest ih => exact ih (h.step he move)

end SharedCache

/-! ## Main results -/

/-- Nothing about a visit tells that there is a cache, but that the embedder is asked for less. -/
structure Visit.IsTransparent (e : Embedder) (v : Visit) : Prop where
  /-- An answer is the embedder's own, and has a vector for each text in turn. -/
  succeeded : ∀ answer, v.left = .ok (.pure (.ok answer)) →
    v.question.direct e = .ok answer ∧ e.Answers v.question.texts (v.question.vectors answer)
  /-- A failure is the embedder's own for one of the texts. -/
  failed : ∀ failure, v.left = .ok (.pure (.error failure)) →
    ∃ text ∈ v.question.texts, e.embed text = .error failure
  /-- A step sends nothing, or it comes right after the texts were looked up and sends just those that
  the cache did not keep then. -/
  sparing : ∀ r c earlier, (r, c) :: earlier <:+ v.taken → v.question.Sparing r earlier
  unbroken : ∀ crash, v.left ≠ .error crash
  /-- There are three steps at most. -/
  brief : v.taken.length ≤ 3
  ends : v.taken.length = 3 → ∃ result, v.left = .ok (.pure result)

theorem Question.direct_of_answers {e : Embedder} (he : e.IsPointwise) {q : Question}
    {answer : q.Answer} (h : e.Answers q.texts (q.vectors answer)) : q.direct e = .ok answer := by
  cases q with
  | one text => exact (List.forall₂_cons.mp h).1
  | many texts => exact (he texts).trans (Embedder.answers_iff.mp h)

theorem Visit.Sound.isTransparent {e : Embedder} (he : e.IsPointwise) {v : Visit}
    (h : v.Sound e) : v.IsTransparent e := by
  obtain ⟨p, hp, hheeds⟩ := h.left
  refine ⟨fun answer hended => ?_, fun failure hended => ?_, h.sparing, fun crash hcrash => ?_,
    h.brief, fun hthree => ?_⟩
  · cases hp.symm.trans hended
    exact ⟨Question.direct_of_answers he hheeds, hheeds⟩
  · cases hp.symm.trans hended
    exact hheeds
  · cases hp.symm.trans hcrash
  · cases p with
    | pure result => exact ⟨result, hp⟩
    | ask r next => exact absurd hheeds.1.brief (Nat.not_lt.mpr (Nat.le_of_eq hthree.symm))

/-- However many clients share a cache of whatever capacity, and in whatever order their steps are
taken: what the cache keeps is what the embedder gives, there is never more of it than there is room
for, and nobody can tell the cache from the embedder. -/
theorem sharedCache_transparent (e : Embedder) (he : e.IsPointwise) (capacity : Nat)
    (moves : List SharedCache.Move) :
    let s := (SharedCache.withCapacity capacity).run e moves
    s.cache.size ≤ max 1 capacity ∧
      (∀ entry ∈ s.cache.entries, e.embed entry.1 = .ok entry.2) ∧
      ∀ v ∈ s.visits, v.IsTransparent e := by
  have hsound := (SharedCache.sound_withCapacity e capacity).run he moves
  refine ⟨?_, hsound.cache.agrees, fun v hv => (hsound.visits v hv).isTransparent he⟩
  rw [← hsound.capacity]
  exact hsound.cache.fits

section

/-- Gives a vector of one number for a text, and none for an empty one. -/
def Embedder.sample : Embedder where
  name := "sample"
  dimensions := 1
  embed := lengthOf
  embedAll texts := texts.mapM lengthOf
where
  lengthOf (text : String) : Except Failure Embedding :=
    if text == "" then .error (.embedding "no text") else .ok [⟨.ofNat text.length⟩]

/-- Two clients come, and take their steps in turns. -/
def SharedCache.sampleMoves : List SharedCache.Move :=
  [.come (.many ["a", "bb", "a"]), .come (.one "ccc"),
    .turn 0, .turn 1, .turn 1, .turn 0, .turn 1, .turn 0]

/-- There is room for one text, so what the one keeps is dropped for what the other has been asking for
meanwhile. Still the first one gets what the embedder gives. -/
theorem sharedCache_transparent_in_turns :
    ∃ v ∈ ((SharedCache.withCapacity 0).run .sample SharedCache.sampleMoves).visits,
      ∃ answer, v.left = .ok (.pure (.ok answer)) ∧
        v.question.vectors answer = [[⟨1⟩], [⟨2⟩], [⟨1⟩]] ∧
        v.question.direct .sample = .ok answer := by
  have hvisit := (sharedCache_transparent .sample (fun _ => rfl) 0 SharedCache.sampleMoves).2.2
  have hfirst : ∃ v, ((SharedCache.withCapacity 0).run .sample SharedCache.sampleMoves).visits[0]? =
      some v ∧ ∃ answer, v.left = .ok (.pure (.ok answer)) ∧
        v.question.vectors answer = [[⟨1⟩], [⟨2⟩], [⟨1⟩]] := ⟨_, rfl, _, rfl, rfl⟩
  obtain ⟨v, hv, answer, hleft, hvectors⟩ := hfirst
  have hmem := List.mem_of_getElem? hv
  exact ⟨v, hmem, answer, hleft, hvectors, ((hvisit v hmem).succeeded answer hleft).1⟩

end

end CodeAtlas
