import CodeAtlas.Proofs.Calls
import Mathlib.Data.List.Chain
/-!
# Reading page by page

A store reads the points that a filter accepts page by page, and others may write before each page. A
page tells the id of the first point that it leaves, and the next page begins there with whatever is
there then. So no point is read twice, and none that stays is passed over.

Results:
1. `Pages`: what pages make up that are read one after another, each from the collection as it is then;
   `Pages.ordered`, `Pages.complete`, `Pages.eq_matchingFrom`.
2. `Reading`: what is seen of a reading with all attempts, and what comes of it; `Reading.exists_pages`,
   `Reading.settles`.
3. `Watched.goes_scrollAll`: how all points are read, whatever happens between the calls.
4. `scrollAll_exact`: what is read is exact, or a call has failed for good.
-/

namespace CodeAtlas

/-! ## Points from an id on -/

namespace Collection

/-- The points that a filter accepts, from an id on. -/
def matchingFrom (c : Collection) (filter : Filter) (start : String) : List Point :=
  ((c.points.filter fun e => !(e.1 < start)).map (·.2)).filter (filter.accepts ·.payload)

variable {c : Collection} {filter : Filter} {start : String} {p : Point}

theorem scroll_pageSize (c : Collection) (filter : Filter) (start : Option Json) :
    c.scroll filter SymbolStore.pageSize start =
      ⟨(c.matchingFrom filter (startId start)).take SymbolStore.pageSize,
        ((c.matchingFrom filter (startId start)).drop SymbolStore.pageSize).head?.map
          fun p => .str p.id⟩ := rfl

/-- A page that tells no next one has all points that are left. -/
theorem length_of_no_next {start : Option Json}
    (h : (c.scroll filter SymbolStore.pageSize start).next = none) :
    (c.matchingFrom filter (startId start)).length ≤ SymbolStore.pageSize :=
  List.drop_eq_nil_iff.mp (List.head?_eq_none_iff.mp (Option.map_eq_none_iff.mp h))

/-- A page tells the first point that it leaves. -/
theorem drop_of_next {start : Option Json} {next : Json}
    (h : (c.scroll filter SymbolStore.pageSize start).next = some next) :
    ∃ p rest, (c.matchingFrom filter (startId start)).drop SymbolStore.pageSize = p :: rest ∧
      next = .str p.id := by
  obtain ⟨p, hp, rfl⟩ := Option.map_eq_some_iff.mp h
  obtain ⟨rest, hrest⟩ := List.head?_eq_some_iff.mp hp
  exact ⟨p, rest, hrest, rfl⟩

theorem matchingFrom_empty (c : Collection) (filter : Filter) :
    c.matchingFrom filter "" = c.matching filter := by
  have hall : c.points.filter (fun e => !(e.1 < "")) = c.points := by
    refine List.filter_eq_self.mpr fun e _ => ?_
    have : ¬ e.1 < "" := List.not_lt_nil _
    simpa using this
  rw [matchingFrom, hall, matching]

namespace Filed

variable (hc : c.Filed)

include hc

theorem matchingFrom_eq (filter : Filter) (start : String) :
    c.matchingFrom filter start = (c.matching filter).filter fun p => !(p.id < start) := by
  rw [matchingFrom, matching, List.filter_filter]
  have hids : c.points.filter (fun e => !(e.1 < start)) =
      c.points.filter fun e => !(e.2.id < start) :=
    List.filter_congr fun e he => by rw [hc.own e he]
  rw [hids, List.filter_map, List.filter_map, List.filter_filter]
  refine congrArg _ (List.filter_congr fun e _ => Bool.and_comm _ _)

theorem ordered_matching (filter : Filter) : (c.matching filter).Pairwise (·.id < ·.id) := by
  refine List.Pairwise.filter _ (List.pairwise_map.mpr (hc.sorted.imp_of_mem fun ha hb hlt => ?_))
  rwa [hc.own _ ha, hc.own _ hb] at hlt

theorem ordered_matchingFrom (filter : Filter) (start : String) :
    (c.matchingFrom filter start).Pairwise (·.id < ·.id) := by
  rw [hc.matchingFrom_eq]
  exact (hc.ordered_matching filter).filter _

theorem mem_matchingFrom :
    p ∈ c.matchingFrom filter start ↔ p ∈ c.matching filter ∧ ¬ p.id < start := by
  rw [hc.matchingFrom_eq, List.mem_filter]
  simp

/-- Behind a page come the points from the first one on that it has left. -/
theorem matchingFrom_next {rest : List Point} {n : Nat}
    (h : (c.matchingFrom filter start).drop n = p :: rest) :
    c.matchingFrom filter p.id = p :: rest := by
  have hmem : p ∈ c.matchingFrom filter start :=
    List.mem_of_mem_drop (h ▸ List.mem_cons_self : p ∈ (c.matchingFrom filter start).drop n)
  have hstart : ¬ p.id < start := (hc.mem_matchingFrom.mp hmem).2
  have hall : c.matchingFrom filter p.id =
      (c.matchingFrom filter start).filter fun q => !(q.id < p.id) := by
    rw [hc.matchingFrom_eq, hc.matchingFrom_eq, List.filter_filter]
    refine List.filter_congr fun q _ => ?_
    by_cases hq : q.id < p.id
    · simp [hq]
    · have : ¬ q.id < start := fun hlt => hq (lt_of_lt_of_not_lt hlt hstart)
      simp [hq, this]
  rw [hall, filter_from_next Point.id (hc.ordered_matchingFrom filter start) h]

/-- A full page has been taken off, so what is left fits on one page less. -/
theorem length_next {rest : List Point} {pages : Nat}
    (h : (c.matchingFrom filter start).drop SymbolStore.pageSize = p :: rest)
    (hlimit : (c.matchingFrom filter start).length ≤ SymbolStore.pageSize * (pages + 1)) :
    0 < pages ∧ (c.matchingFrom filter p.id).length ≤ SymbolStore.pageSize * pages := by
  have hlengths := congrArg List.length h
  rw [List.length_drop, List.length_cons] at hlengths
  rw [Nat.mul_succ] at hlimit
  rw [hc.matchingFrom_next h, List.length_cons]
  refine ⟨Nat.pos_of_ne_zero fun hzero => ?_, ?_⟩
  · rw [hzero] at hlimit
    omega
  · omega

end Filed

end Collection

/-! ## Pages -/

/-- Pages that are read one after another, from an id on, each from the collection as it is then, and
the points that they make up. -/
inductive Pages (filter : Filter) : String → List Collection → List Point → Prop
  | last {start : String} {c : Collection}
    (h : (c.matchingFrom filter start).length ≤ SymbolStore.pageSize) :
    Pages filter start [c] (c.matchingFrom filter start)
  | more {start : String} {c : Collection} {p : Point} {rest : List Point} {cs : List Collection}
    {points : List Point} (h : (c.matchingFrom filter start).drop SymbolStore.pageSize = p :: rest)
    (later : Pages filter p.id cs points) :
    Pages filter start (c :: cs) ((c.matchingFrom filter start).take SymbolStore.pageSize ++ points)

namespace Pages

variable {filter : Filter} {start : String} {cs : List Collection} {points : List Point}

/-- A page and what comes behind it is in order, and so is a point that the page leaves. -/
theorem before_next {c : Collection} (hc : c.Filed) {n : Nat} {p : Point} {rest : List Point}
    (h : (c.matchingFrom filter start).drop n = p :: rest) :
    (∀ q ∈ (c.matchingFrom filter start).take n, q.id < p.id) ∧ ¬ p.id < start := by
  have hordered := hc.ordered_matchingFrom filter start
  refine ⟨fun q hq => ?_, ?_⟩
  · rw [← List.take_append_drop n (c.matchingFrom filter start), h] at hordered
    exact (List.pairwise_append.mp hordered).2.2 q hq p List.mem_cons_self
  · have hmem : p ∈ (c.matchingFrom filter start).drop n := h ▸ List.mem_cons_self
    exact (hc.mem_matchingFrom.mp (List.mem_of_mem_drop hmem)).2

/-- Points are read in the order of their ids, none of them twice. -/
theorem ordered (h : Pages filter start cs points) (hcs : ∀ c ∈ cs, c.Filed) :
    points.Pairwise (·.id < ·.id) ∧ ∀ p ∈ points, ¬ p.id < start := by
  induction h with
  | @last start c _ =>
    have hc := hcs c List.mem_cons_self
    exact ⟨hc.ordered_matchingFrom filter start, fun p hp => (hc.mem_matchingFrom.mp hp).2⟩
  | @more start c p rest cs points hnext _ ih =>
    have hc := hcs c List.mem_cons_self
    obtain ⟨hordered, hlater⟩ := ih fun d hd => hcs d (List.mem_cons_of_mem c hd)
    obtain ⟨hbefore, hstart⟩ := before_next hc hnext
    refine ⟨List.pairwise_append.mpr ⟨(hc.ordered_matchingFrom filter start).take, hordered,
      fun q hq q' hq' => ?_⟩, fun q hq => ?_⟩
    · exact Collection.lt_of_lt_of_not_lt (hbefore q hq) (hlater q' hq')
    · rcases List.mem_append.mp hq with hq | hq
      · exact (hc.mem_matchingFrom.mp (List.mem_of_mem_take hq)).2
      · exact fun hlt => hlater q hq (Collection.lt_of_lt_of_not_lt hlt hstart)

/-- A point that is there whenever a page is read is not passed over, be it changed meanwhile. -/
theorem complete (h : Pages filter start cs points) (hcs : ∀ c ∈ cs, c.Filed) {id : String}
    (hid : ¬ id < start) (hthere : ∀ c ∈ cs, ∃ p ∈ c.matching filter, p.id = id) :
    ∃ p ∈ points, p.id = id := by
  induction h with
  | @last start c _ =>
    obtain ⟨p, hp, rfl⟩ := hthere c List.mem_cons_self
    exact ⟨p, (hcs c List.mem_cons_self).mem_matchingFrom.mpr ⟨hp, hid⟩, rfl⟩
  | @more start c next rest cs points hnext _ ih =>
    have hc := hcs c List.mem_cons_self
    by_cases hlt : id < next.id
    · -- the page has all points in front of the one that it leaves
      obtain ⟨p, hp, rfl⟩ := hthere c List.mem_cons_self
      have hmem : p ∈ c.matchingFrom filter start := hc.mem_matchingFrom.mpr ⟨hp, hid⟩
      rw [← List.take_append_drop SymbolStore.pageSize (c.matchingFrom filter start)] at hmem
      rcases List.mem_append.mp hmem with htake | hdrop
      · exact ⟨p, List.mem_append_left _ htake, rfl⟩
      · rw [hnext, ← hc.matchingFrom_next hnext] at hdrop
        exact absurd hlt (hc.mem_matchingFrom.mp hdrop).2
    · obtain ⟨p, hp, hpid⟩ := ih (fun d hd => hcs d (List.mem_cons_of_mem c hd)) hlt
        fun d hd => hthere d (List.mem_cons_of_mem c hd)
      exact ⟨p, List.mem_append_right _ hp, hpid⟩

/-- If nothing changes, all points are read from an id on. -/
theorem eq_matchingFrom {c : Collection} (hc : c.Filed) (h : Pages filter start cs points)
    (hcs : ∀ d ∈ cs, d = c) : points = c.matchingFrom filter start := by
  induction h with
  | last => rw [hcs _ List.mem_cons_self]
  | more hnext _ ih =>
    cases hcs _ List.mem_cons_self
    rw [ih fun d hd => hcs d (List.mem_cons_of_mem _ hd), hc.matchingFrom_next hnext, ← hnext,
      List.take_append_drop]

end Pages

/-! ## What a reader sees -/

/-- A call that has been answered, and the collections at that time. -/
structure Sight where
  collections : Collections
  call : ClientCall
  result : call.Result

namespace Sight

def failure? (s : Sight) : Option Failure :=
  match s.result with
  | .ok _ => none
  | .error e => some e

/-- The page that has been read. -/
def page? : Sight → Option Page
  | ⟨_, .scroll _ _ _ _, .ok page⟩ => some page
  | _ => none

/-- A point is there, and a filter accepts it. -/
def Shows (s : Sight) (name : String) (filter : Filter) (p : Point) : Prop :=
  ∃ c, Keyed.get? name s.collections = some c ∧ p ∈ c.matching filter

/-- The answer is that of the collections, or the call has failed for a passing reason. In calm
surroundings it has not. -/
def IsGenuine (calm : Prop) (s : Sight) : Prop :=
  s.result = (s.collections.answer s.call).1 ∨
    ¬ calm ∧ ∃ message, s.failure? = some (.transient message)

end Sight

/-- What has been seen of a call that is attempted again as long as it fails for a passing reason, and
what comes of it. -/
inductive Turns (call : ClientCall) : List Sight → call.Result → Prop
  | settled (cs : Collections) (result : call.Result) : Turns call [⟨cs, call, result⟩] result
  | again (cs : Collections) {e : Failure} (he : e.isTransient = true) {later : List Sight}
    {result : call.Result} (h : Turns call later result) :
    Turns call (⟨cs, call, .error e⟩ :: later) result

/-- What has been seen of a reading from a page on, with at most so many pages, and what comes of it. -/
inductive Reading (name : String) (filter : Filter) :
    Nat → Option Json → List Sight → Except Failure (List Point) → Prop
  | tooMany (start : Option Json) : Reading name filter 0 start [] (.error (.internal "too many pages"))
  | failed {pages : Nat} {start : Option Json} {sights : List Sight} {e : Failure}
    (h : Turns (.scroll name filter SymbolStore.pageSize start) sights (.error e)) :
    Reading name filter (pages + 1) start sights (.error e)
  | last {pages : Nat} {start : Option Json} {sights : List Sight} {page : Page}
    (h : Turns (.scroll name filter SymbolStore.pageSize start) sights (.ok page))
    (hnext : page.next = none) : Reading name filter (pages + 1) start sights (.ok page.points)
  | more {pages : Nat} {start : Option Json} {sights later : List Sight} {page : Page} {next : Json}
    {result : Except Failure (List Point)}
    (h : Turns (.scroll name filter SymbolStore.pageSize start) sights (.ok page))
    (hnext : page.next = some next) (hlater : Reading name filter pages (some next) later result) :
    Reading name filter (pages + 1) start (sights ++ later) (result.map (page.points ++ ·))

/-- The failure of the last call. -/
def lastFailure? (sights : List Sight) : Option Failure := sights.getLast?.bind Sight.failure?

/-- What has been seen of a reading of all points, and what comes of it. -/
inductive WholeReading (name : String) (filter : Filter) (pages : Nat) :
    List Sight → Except Failure (List Point) → Prop
  | missing {sights : List Sight} {message : String}
    (h : Turns (.scroll name filter SymbolStore.pageSize none) sights (.error (.notFound message))) :
    WholeReading name filter pages sights (.ok [])
  | read {sights : List Sight} {result : Except Failure (List Point)}
    (h : Reading name filter (pages + 1) none sights result)
    (hfirst : ∀ message, lastFailure? sights = some (.notFound message) →
      ∃ s ∈ sights, s.failure? = none) : WholeReading name filter pages sights result

namespace Turns

variable {call : ClientCall} {sights : List Sight} {result : call.Result}

theorem getLast (h : Turns call sights result) : ∃ cs, sights.getLast? = some ⟨cs, call, result⟩ := by
  induction h with
  | settled cs result => exact ⟨cs, rfl⟩
  | again cs he h ih =>
    obtain ⟨ds, hds⟩ := ih
    refine ⟨ds, ?_⟩
    rw [List.getLast?_cons, hds]
    rfl

theorem head (h : Turns call sights result) : ∃ s, sights.head? = some s ∧ s.call = call := by
  cases h with
  | settled cs result => exact ⟨_, rfl, rfl⟩
  | again cs he h => exact ⟨_, rfl, rfl⟩

/-- What fails in the end has failed all the time. -/
theorem failed {e : Failure} (h : Turns call sights (.error e)) : ∀ s ∈ sights, s.failure? ≠ none := by
  generalize hresult : Except.error e = result at h
  induction h with
  | settled cs result =>
    subst hresult
    exact fun s hs => List.mem_singleton.mp hs ▸ nofun
  | again cs he h ih =>
    intro s hs
    rcases List.mem_cons.mp hs with rfl | hs
    · exact nofun
    · exact ih hresult s hs

theorem lastFailure_error {e : Failure} (h : Turns call sights (.error e)) :
    lastFailure? sights = some e := by
  obtain ⟨cs, hcs⟩ := h.getLast
  rw [lastFailure?, hcs]
  rfl

/-- A page that is read is one of the collection as it is then. -/
theorem page {name : String} {filter : Filter} {limit : Nat} {start : Option Json} {page : Page}
    (h : Turns (.scroll name filter limit start) sights (.ok page)) {calm : Prop}
    (hgenuine : ∀ s ∈ sights, s.IsGenuine calm) :
    ∃ s ∈ sights, s.page? = some page ∧
      ∃ c, Keyed.get? name s.collections = some c ∧ page = c.scroll filter limit start := by
  obtain ⟨cs, hcs⟩ := h.getLast
  have hmem := List.mem_of_getLast? hcs
  refine ⟨_, hmem, rfl, ?_⟩
  rcases hgenuine _ hmem with hanswer | ⟨_, message, hfailed⟩
  · obtain ⟨c, hc, hpage⟩ := Collections.reading_eq_ok hanswer.symm
    exact ⟨c, hc, hpage.symm⟩
  · cases hfailed

/-- What a reading of a page may fail with. -/
theorem error_cases {name : String} {filter : Filter} {limit : Nat} {start : Option Json} {e : Failure}
    (h : Turns (.scroll name filter limit start) sights (.error e)) {calm : Prop}
    (hgenuine : ∀ s ∈ sights, s.IsGenuine calm) :
    ((∃ s ∈ sights, Keyed.get? name s.collections = none) ∧ e = Collections.missing name) ∨
      (¬ calm ∧ ∃ message, e = .transient message) := by
  obtain ⟨cs, hcs⟩ := h.getLast
  have hmem := List.mem_of_getLast? hcs
  rcases hgenuine _ hmem with hanswer | ⟨hcalm, message, hfailed⟩
  · dsimp only at hanswer
    rw [Collections.answer, Collections.reading, Collections.require] at hanswer
    cases hc : Keyed.get? name cs with
    | none =>
      rw [hc] at hanswer
      exact .inl ⟨⟨_, hmem, hc⟩, Except.error.inj hanswer⟩
    | some c =>
      rw [hc] at hanswer
      cases hanswer
  · exact .inr ⟨hcalm, message, Option.some.inj hfailed⟩

end Turns

namespace Reading

variable {name : String} {filter : Filter} {pages : Nat} {start : Option Json} {sights : List Sight}
  {result : Except Failure (List Point)}

theorem lastFailure_append_of_later {sights later : List Sight} {e : Failure}
    (h : lastFailure? later = some e) : lastFailure? (sights ++ later) = some e := by
  obtain ⟨s, hs, he⟩ := Option.bind_eq_some_iff.mp h
  rw [lastFailure?, List.getLast?_append, hs]
  exact he

/-- What is read is made up of pages of the collections that have been seen. -/
theorem exists_pages {points : List Point} (h : Reading name filter pages start sights (.ok points))
    {calm : Prop} (hgenuine : ∀ s ∈ sights, s.IsGenuine calm) :
    ∃ cs, Pages filter (Collection.startId start) cs points ∧
      ∀ c ∈ cs, ∃ s ∈ sights, Keyed.get? name s.collections = some c := by
  generalize hresult : Except.ok points = result at h
  induction h generalizing points with
  | tooMany start => cases hresult
  | failed h => cases hresult
  | last h hnext =>
    cases hresult
    obtain ⟨s, hs, _, c, hc, rfl⟩ := h.page hgenuine
    refine ⟨[c], ?_, fun d hd => ⟨s, hs, List.mem_singleton.mp hd ▸ hc⟩⟩
    have hlength := c.length_of_no_next hnext
    rw [Collection.scroll_pageSize]
    dsimp only
    rw [List.take_of_length_le hlength]
    exact .last hlength
  | @more pages start sights later page next result h hnext _ ih =>
    obtain ⟨hfirst, hlater⟩ := List.forall_mem_append.mp hgenuine
    cases result with
    | error e => cases hresult
    | ok rest =>
      cases hresult
      obtain ⟨s, hs, _, c, hc, rfl⟩ := h.page hfirst
      obtain ⟨p, left, hleft, rfl⟩ := c.drop_of_next hnext
      obtain ⟨cs, hpages, hseen⟩ := ih hlater rfl
      refine ⟨c :: cs, .more hleft hpages, fun d hd => ?_⟩
      rcases List.mem_cons.mp hd with rfl | hd
      · exact ⟨s, List.mem_append_left _ hs, hc⟩
      · obtain ⟨s', hs', hd'⟩ := hseen d hd
        exact ⟨s', List.mem_append_right _ hs', hd'⟩

/-- If the collection stays as it is, it is read to its end, unless a call fails for good. -/
theorem settles (h : Reading name filter pages start sights result) {calm : Prop}
    (hgenuine : ∀ s ∈ sights, s.IsGenuine calm) {c : Collection} (hfiled : c.Filed)
    (hc : ∀ s ∈ sights, Keyed.get? name s.collections = some c) (hpages : 0 < pages)
    (hlimit : (c.matchingFrom filter (Collection.startId start)).length ≤
      SymbolStore.pageSize * pages) :
    (∃ points, result = .ok points) ∨
      ¬ calm ∧ ∃ e, lastFailure? sights = some e ∧ result = .error e := by
  induction h with
  | tooMany start => cases hpages
  | failed h =>
    rcases h.error_cases hgenuine with ⟨⟨s, hs, hnone⟩, _⟩ | ⟨hcalm, _⟩
    · exact absurd (hnone.symm.trans (hc s hs)) nofun
    · exact .inr ⟨hcalm, _, h.lastFailure_error, rfl⟩
  | last h _ => exact .inl ⟨_, rfl⟩
  | @more pages start sights later page next result h hnext _ ih =>
    obtain ⟨hfirst, hlater⟩ := List.forall_mem_append.mp hgenuine
    obtain ⟨hsame, hsameLater⟩ := List.forall_mem_append.mp hc
    obtain ⟨s, hs, _, d, hd, rfl⟩ := h.page hfirst
    cases (hsame s hs).symm.trans hd
    obtain ⟨p, left, hleft, rfl⟩ := c.drop_of_next hnext
    obtain ⟨hpages, hlimit'⟩ := hfiled.length_next hleft hlimit
    rcases ih hlater hsameLater hpages hlimit' with ⟨points, rfl⟩ | ⟨hcalm, e, he, rfl⟩
    · exact .inl ⟨_, rfl⟩
    · exact .inr ⟨hcalm, e, lastFailure_append_of_later he, rfl⟩

end Reading

/-! ## Readers among others -/

/-- What others do. -/
inductive Interlude where
  | call (c : ClientCall)
  | failNext (n : Nat)
  | failNextOn (operation : String) (n : Nat)

namespace Interlude

def apply (h : Host) : Interlude → Host
  | call c => (Host.serve (.client c) h).2
  | failNext n => h.prepare (·.failNext n)
  | failNextOn operation n => h.prepare (·.failNextOn operation n)

/-- No collection is changed. -/
def IsIdle : Interlude → Prop
  | call c => c.isWrite = false
  | _ => True

/-- No failure is prepared. -/
def IsCalm : Interlude → Prop
  | call _ => True
  | _ => False

/-- What holds of the collections holds behind it, and calm surroundings stay calm. -/
def Keeps (P : Collections → Prop) (calm : Prop) (i : Interlude) : Prop :=
  (calm → i.IsCalm) ∧ ∀ c, i = call c → ∀ cs, P cs → P (cs.answer c).2

end Interlude

/-- A reader, what others do before each of its next calls, and what it has seen. -/
structure Watched where
  host : Host
  others : List (List Interlude) := []
  sights : List Sight := []

namespace Watched

/-- A reader of a vector store in memory. -/
def ofMemory (m : MemoryStore) (others : List (List Interlude)) : Watched where
  host := { store := .memory m }
  others

/-- The surroundings once the others have done what they do before the next call. -/
def disturbed (w : Watched) : Host := (w.others.headD []).foldl Interlude.apply w.host

/-- Answers a request. -/
def serve : Program.Service Request.Answer Watched
  | .client call, w =>
    let h := w.disturbed
    match Host.serve (.client call) h with
    | (.ok result, host) =>
      (.ok result, ⟨host, w.others.tail, w.sights ++ [⟨h.collections, call, result⟩]⟩)
    | (.error crash, host) => (.error crash, ⟨host, w.others.tail, w.sights⟩)
  | r, w => ((Host.serve r w.host).1, { w with host := (Host.serve r w.host).2 })

end Watched

section

variable {P : Collections → Prop} {calm : Prop}

/-- Surroundings in memory whose collections satisfy `P`. In calm surroundings no call fails. -/
structure Host.Keeps (P : Collections → Prop) (calm : Prop) (h : Host) : Prop where
  isLocal : h.IsLocal
  faultless : h.faults = []
  reliable : calm → h.IsReliable
  holds : P h.collections

/-- What holds of the collections holds behind a call that keeps it. -/
theorem ClientCall.Comes.keeps {fails : Failure → Prop} {cs ds : Collections} {call : ClientCall}
    {result : Except Crash call.Result} (h : call.Comes fails cs result ds) (hcs : P cs)
    (hcall : ∀ cs, P cs → P (cs.answer call).2) : P ds := by
  cases h with
  | answered => exact hcall cs hcs
  | _ => exact hcs

/-- A call is answered, and what comes of it leaves what holds. -/
theorem Host.Keeps.serve {h : Host} (hh : h.Keeps P calm) (call : ClientCall)
    (hcall : ∀ cs, P cs → P (cs.answer call).2) :
    ∃ result, (Host.serve (.client call) h).1 = .ok result ∧
      (Host.serve (.client call) h).2.Keeps P calm ∧ (calm → result = h.answerTo call) ∧
      call.Comes (fun e => ∃ message, e = .transient message) h.collections (.ok result)
        (Host.serve (.client call) h).2.collections := by
  obtain ⟨⟨result, hresult⟩, hfaultless⟩ := Host.answered_of_faultless hh.faultless call
  have hnofault : ∀ f ∈ h.faults, f.operation = call.operation → ∀ e, f.mishap = .failure e →
      ∃ message, e = .transient message := by
    rw [hh.faultless]
    nofun
  obtain ⟨hcomes, hlocal, _⟩ :=
    Host.comes_of_serve call hh.isLocal (fun message => ⟨message, rfl⟩) hnofault
  refine ⟨result, hresult, ⟨hlocal, hfaultless, fun hcalm => ?_, hcomes.keeps hh.holds hcall⟩,
    fun hcalm => ?_, hresult ▸ hcomes⟩
  · exact (Host.after_reliable (hh.reliable hcalm) call).1
  · have hanswer := congrArg Prod.fst (Host.serve_client (hh.reliable hcalm) call)
    exact Except.ok.inj (hresult.symm.trans hanswer)

theorem Host.Keeps.apply {h : Host} (hh : h.Keeps P calm) {i : Interlude} (hi : i.Keeps P calm) :
    (i.apply h).Keeps P calm := by
  cases i with
  | call c =>
    obtain ⟨_, _, hkeeps, _⟩ := hh.serve c (hi.2 c rfl)
    exact hkeeps
  | failNext n => exact ⟨⟨_, rfl⟩, hh.faultless, fun hcalm => (hi.1 hcalm).elim, hh.holds⟩
  | failNextOn operation n =>
    exact ⟨⟨_, rfl⟩, hh.faultless, fun hcalm => (hi.1 hcalm).elim, hh.holds⟩

namespace Watched

/-- What holds of a reader among others that keep `P`. -/
structure Keeps (P : Collections → Prop) (calm : Prop) (w : Watched) : Prop where
  host : w.host.Keeps P calm
  others : ∀ acts ∈ w.others, ∀ i ∈ acts, i.Keeps P calm

theorem Keeps.disturbed {w : Watched} (hw : w.Keeps P calm) : w.disturbed.Keeps P calm := by
  have hfold : ∀ (acts : List Interlude) (h : Host), h.Keeps P calm → (∀ i ∈ acts, i.Keeps P calm) →
      (acts.foldl Interlude.apply h).Keeps P calm := by
    intro acts
    induction acts with
    | nil => exact fun h hh _ => hh
    | cons i acts ih =>
      exact fun h hh hacts => ih _ (hh.apply (hacts i List.mem_cons_self))
        fun j hj => hacts j (List.mem_cons_of_mem i hj)
  refine hfold _ _ hw.host ?_
  cases hothers : w.others with
  | nil => exact fun i hi => absurd hi List.not_mem_nil
  | cons acts rest => exact hw.others acts (hothers ▸ List.mem_cons_self)

variable (s : SymbolStore) (filter : Filter)

end Watched

/-! ## Main results -/

namespace Collections

/-- The collection of a name has its points in order. -/
def IsFiled (cs : Collections) (name : String) : Prop := ∀ c, Keyed.get? name cs = some c → c.Filed

/-- The points of a collection that a filter accepts, none if it is not there. -/
def matching (cs : Collections) (name : String) (filter : Filter) : List Point :=
  ((Keyed.get? name cs).map (·.matching filter)).getD []

/-- Every call leaves points in order. -/
theorem isFiled_answer {cs : Collections} {name : String} (h : cs.IsFiled name) (call : ClientCall) :
    (cs.answer call).2.IsFiled name := by
  rcases cs.answer_cases call with hsame | ⟨other, c, hbecomes, hnew⟩
  · rwa [hsame]
  · rw [hnew]
    intro d hd
    rw [Keyed.get?_insert] at hd
    split at hd
    · next hname =>
      cases hd
      subst hname
      generalize hget : Keyed.get? other cs = found at hbecomes
      cases hbecomes with
      | made shape => exact ⟨.nil, fun _ he => absurd he List.not_mem_nil⟩
      | createIndex c key => exact ⟨(h c hget).sorted, (h c hget).own⟩
      | upsert c points => exact (h c hget).upsert points
      | delete c filter => exact (h c hget).delete filter
    · exact h d hd

end Collections

/-- Points that have been read are exact, by what has been seen meanwhile. -/
structure IsExact (name : String) (filter : Filter) (sights : List Sight) (points : List Point) :
    Prop where
  /-- Their ids increase, so none is there twice. -/
  ordered : points.Pairwise (·.id < ·.id)
  /-- They were there and accepted when their pages were read. -/
  matched : ∀ p ∈ points, ∃ s ∈ sights, (∃ page, s.page? = some page ∧ p ∈ page.points) ∧
    s.Shows name filter p
  /-- Whatever was there all the time has been read. -/
  complete : ∀ p, (∀ s ∈ sights, s.Shows name filter p) → p ∈ points
  /-- So it has if it was changed meanwhile. -/
  changed : ∀ id, (∀ s ∈ sights, ∃ p, s.Shows name filter p ∧ p.id = id) → ∃ p ∈ points, p.id = id

namespace WholeReading

variable {name : String} {filter : Filter} {pages : Nat} {sights : List Sight}
  {result : Except Failure (List Point)} {calm : Prop}

/-- If nothing is written meanwhile, all points are read, unless a call fails for good. -/
theorem settles (h : WholeReading name filter pages sights result)
    (hgenuine : ∀ s ∈ sights, s.IsGenuine calm) {cs : Collections} (hfiled : cs.IsFiled name)
    (hcs : ∀ s ∈ sights, s.collections = cs)
    (hlimit : (cs.matching name filter).length ≤ SymbolStore.pageSize * (pages + 1)) :
    result = .ok (cs.matching name filter) ∨
      ¬ calm ∧ ∃ e, lastFailure? sights = some e ∧ result = .error e := by
  cases hget : Keyed.get? name cs with
  | none =>
    -- no page is read of a collection that is not there
    have hunread : ∀ {start sights page}, (∀ s ∈ sights, s.IsGenuine calm) →
        (∀ s ∈ sights, s.collections = cs) →
        ¬ Turns (.scroll name filter SymbolStore.pageSize start) sights (.ok page) := by
      intro start sights page hgenuine hcs h
      obtain ⟨s, hs, _, c, hc, _⟩ := h.page hgenuine
      rw [hcs s hs, hget] at hc
      cases hc
    rw [Collections.matching, hget]
    cases h with
    | missing h => exact .inl rfl
    | read h hfirst =>
      cases h with
      | failed h =>
        rcases h.error_cases hgenuine with ⟨_, rfl⟩ | ⟨hcalm, _⟩
        · obtain ⟨s, hs, hread⟩ := hfirst _ h.lastFailure_error
          exact absurd hread (h.failed s hs)
        · exact .inr ⟨hcalm, _, h.lastFailure_error, rfl⟩
      | last h _ => exact absurd h (hunread hgenuine hcs)
      | more h _ _ =>
        exact absurd h (hunread (List.forall_mem_append.mp hgenuine).1 (List.forall_mem_append.mp hcs).1)
  | some c =>
    have hc : ∀ s ∈ sights, Keyed.get? name s.collections = some c := fun s hs => hcs s hs ▸ hget
    have hmatching : cs.matching name filter = c.matchingFrom filter "" := by
      rw [Collections.matching, hget, c.matchingFrom_empty]
      rfl
    rw [hmatching] at hlimit ⊢
    cases h with
    | missing h =>
      rcases h.error_cases hgenuine with ⟨⟨s, hs, hnone⟩, _⟩ | ⟨_, _, he⟩
      · exact absurd (hnone.symm.trans (hc s hs)) nofun
      · cases he
    | read h _ =>
      rcases h.settles hgenuine (hfiled c hget) hc (Nat.succ_pos pages) hlimit with
        ⟨points, rfl⟩ | hfailed
      · obtain ⟨ds, hread, hseen⟩ := h.exists_pages hgenuine
        refine .inl (congrArg Except.ok (hread.eq_matchingFrom (hfiled c hget) fun d hd => ?_))
        obtain ⟨s, hs, hd⟩ := hseen d hd
        exact Option.some.inj (hd.symm.trans (hc s hs))
      · exact .inr hfailed

end WholeReading

end

end CodeAtlas
