import CodeAtlas.Proofs.Amid
import CodeAtlas.Proofs.Calls
import CodeAtlas.Proofs.ReadsFirst
/-!
# Setting a collection up together

Any number of stores work on one vector store in memory, and each of them sets its collection up
whenever it likes, also several times at once. Their requests are served in any order, others call the
vector store in between, and calls may fail. Setting up only adds: somebody makes the collection once,
and what a store remembers of it is true from then on.

Results:
1. `Collections.grows_answer`: no call takes a collection or an index away.
2. `SymbolStore.heeds_ensureCollection`: what setting up asks for and remembers, whatever is added
   meanwhile.
3. `Team.Sound.step`, `Team.Sound.run`: what holds of all stores together after every move.
4. `Team.ends_of_fair`: whoever gets its turn again and again comes to an end.
5. `settingUp_safe`: no order of requests and no failure makes setting up unsafe.
-/

namespace CodeAtlas

/-! ## Collections that grow -/

namespace Collections

/-- Whatever collection is there stays there, and so do its indexes. -/
def Grows (cs ds : Collections) : Prop :=
  ∀ name c, Keyed.get? name cs = some c → ∃ d, Keyed.get? name ds = some d ∧ c.indexes ⊆ d.indexes

/-- An index on a key is declared. -/
def HasIndex (cs : Collections) (name key : String) : Prop :=
  ∃ c, Keyed.get? name cs = some c ∧ key ∈ c.indexes

variable {cs ds bs : Collections} {name key : String}

theorem Grows.refl (cs : Collections) : cs.Grows cs := fun _ c hc => ⟨c, hc, List.Subset.refl _⟩

theorem Grows.trans (h : cs.Grows ds) (h' : ds.Grows bs) : cs.Grows bs := by
  intro name c hc
  obtain ⟨d, hd, hcd⟩ := h name c hc
  obtain ⟨b, hb, hdb⟩ := h' name d hd
  exact ⟨b, hb, List.Subset.trans hcd hdb⟩

theorem Grows.contains (h : cs.Grows ds) (hcs : Keyed.contains name cs = true) :
    Keyed.contains name ds = true := by
  obtain ⟨c, hc⟩ := Option.isSome_iff_exists.mp hcs
  obtain ⟨d, hd, _⟩ := h name c hc
  exact contains_of_get? hd

theorem Grows.hasIndex (h : cs.Grows ds) (hcs : cs.HasIndex name key) : ds.HasIndex name key := by
  obtain ⟨c, hc, hkey⟩ := hcs
  obtain ⟨d, hd, hcd⟩ := h name c hc
  exact ⟨d, hd, hcd hkey⟩

theorem grows_insert {c : Collection}
    (h : ∀ d, Keyed.get? name cs = some d → d.indexes ⊆ c.indexes) :
    cs.Grows (Keyed.insert name c cs) := by
  intro other d hd
  rw [Keyed.get?_insert]
  split
  · next hname => exact ⟨c, rfl, h d (hname ▸ hd)⟩
  · exact ⟨d, hd, List.Subset.refl _⟩

/-- No call takes a collection or an index away. -/
theorem grows_answer (cs : Collections) (call : ClientCall) : cs.Grows (cs.answer call).2 := by
  rcases cs.answer_cases call with hsame | ⟨name, c, hbecomes, hnew⟩
  · rw [hsame]
    exact .refl cs
  · rw [hnew]
    refine grows_insert fun d hd => ?_
    rw [hd] at hbecomes
    cases hbecomes with
    | createIndex _ key => exact fun k hk => Keyed.mem_sortedSet.mpr (List.mem_cons_of_mem key hk)
    | upsert _ points => exact List.Subset.refl _
    | delete _ filter => exact List.Subset.refl _

/-- A collection that is made is there, and so it is if making it fails. -/
theorem contains_after_create (cs : Collections) (shape : CollectionShape) :
    Keyed.contains shape.name (cs.answer (.create shape)).2 = true := by
  rw [answer]
  split
  · next hthere => exact hthere
  · exact contains_of_get? (get?_insert_self _ cs)

/-- An index that is declared is there. -/
theorem hasIndex_after_createIndex (h : (cs.answer (.createIndex name key)).1 = .ok ()) :
    (cs.answer (.createIndex name key)).2.HasIndex name key := by
  rcases get?_changing cs name fun c => .ok (c.createIndex key) with
    ⟨_, hmissing⟩ | ⟨c, _, ⟨d, hd, _, hget⟩ | ⟨e, he, _⟩⟩
  · rw [answer, hmissing] at h
    cases h
  · cases hd
    exact ⟨_, hget, Keyed.mem_sortedSet.mpr List.mem_cons_self⟩
  · cases he

end Collections

namespace ClientCall

/-- Collections are asked for or added to, and points are neither read nor changed. -/
def IsSetUp : ClientCall → Prop
  | hasCollection _ | create _ | createIndex _ _ => True
  | _ => False

end ClientCall

/-- The calls to a vector store among requests. -/
def Request.calls : Request → List ClientCall
  | client call => [call]
  | _ => []

/-- Setting up leaves the shapes and points that are there. -/
theorem Collections.contents_setUp {cs : Collections} {call : ClientCall} (hcall : call.IsSetUp)
    {name : String} {content : CollectionShape × List (String × Point)}
    (h : cs.contents name = some content) : (cs.answer call).2.contents name = some content := by
  cases call with
  | hasCollection _ => exact h
  | createIndex other key =>
    rw [contents_createIndex]
    exact h
  | create shape =>
    rw [answer]
    split
    · exact h
    · next habsent =>
      rw [contents_insert]
      dsimp only
      rw [if_neg, h]
      rintro rfl
      obtain ⟨c, hc, _⟩ := Option.map_eq_some_iff.mp h
      exact habsent (contains_of_get? hc)
  | _ => cases hcall

/-! ## What setting up goes by -/

/-- What is known once a call has been answered and the collections are these. In calm surroundings no
call fails but for a reason of its own. -/
def ClientCall.Tells (calm : Prop) (cs : Collections) : (call : ClientCall) → call.Result → Prop
  | .hasCollection name, result =>
    (result = .ok true → Keyed.contains name cs = true) ∧
      (calm → result = .ok (Keyed.contains name cs))
  | .create shape, result =>
    (result = .ok () → Keyed.contains shape.name cs = true) ∧
      (calm → Keyed.contains shape.name cs = true)
  | .createIndex name key, result => result = .ok () → cs.HasIndex name key
  | _, _ => True

namespace SymbolStore

/-- What a store remembers of its collection is true. -/
def Knows (s : SymbolStore) (cs : Collections) : Milestone → Prop
  | .ready => Keyed.contains s.collection cs = true
  | .indexed => ∀ key ∈ indexedKeys, cs.HasIndex s.collection key

/-- The request is fit for setting up a collection: nothing is remembered that is not true. -/
def Permits (s : SymbolStore) (cs : Collections) : Request → Prop
  | .client call => call.IsSetUp
  | .reach m => s.Knows cs m
  | .hasReached _ | .pause _ => True
  | _ => False

/-- What is known once a request has been answered and the collections are these. -/
def Tells (s : SymbolStore) (calm : Prop) (cs : Collections) : (r : Request) → r.Answer → Prop
  | .client call, result => call.Tells calm cs result
  | .hasReached m, there => there = true → s.Knows cs m
  | _, _ => True

/-- Whatever is added to the collections meanwhile, the requests of a plan are fit for setting up, and
what it gives satisfies `post`, now and later. -/
def Heeds (s : SymbolStore) (calm : Prop) {α : Type} :
    Plan α → (α → Collections → Prop) → Collections → Prop
  | .pure a, post, cs => ∀ ds, cs.Grows ds → post a ds
  | .ask r next, post, cs =>
    (∀ ds, cs.Grows ds → s.Permits ds r) ∧
      ∀ answer ds, cs.Grows ds → s.Tells calm ds r answer → Heeds s calm (next answer) post ds

theorem Knows.grows {s : SymbolStore} {cs ds : Collections} {m : Milestone} (h : s.Knows cs m)
    (hgrows : cs.Grows ds) : s.Knows ds m := by
  cases m with
  | ready => exact hgrows.contains h
  | indexed => exact fun key hkey => hgrows.hasIndex (h key hkey)

section

variable {s : SymbolStore} {calm : Prop} {α β : Type} {cs ds : Collections}

theorem Heeds.grows {p : Plan α} {post : α → Collections → Prop} (hp : s.Heeds calm p post cs)
    (hgrows : cs.Grows ds) : s.Heeds calm p post ds := by
  cases p with
  | pure a => exact fun bs hbs => hp bs (hgrows.trans hbs)
  | ask r next =>
    exact ⟨fun bs hbs => hp.1 bs (hgrows.trans hbs),
      fun answer bs hbs => hp.2 answer bs (hgrows.trans hbs)⟩

theorem heeds_pure {a : α} {post : α → Collections → Prop} (h : ∀ ds, cs.Grows ds → post a ds) :
    s.Heeds calm (pure a : Plan α) post cs := h

theorem heeds_mono {p : Plan α} {post post' : α → Collections → Prop}
    (hp : s.Heeds calm p post cs) (h : ∀ a ds, cs.Grows ds → post a ds → post' a ds) :
    s.Heeds calm p post' cs := by
  induction p generalizing cs with
  | pure a => exact fun ds hds => h a ds hds (hp ds hds)
  | ask r next ih =>
    exact ⟨hp.1, fun answer ds hds htells => ih answer (hp.2 answer ds hds htells)
      fun a bs hbs => h a bs (hds.trans hbs)⟩

theorem heeds_bind {p : Plan α} {f : α → Plan β} {Q : α → Collections → Prop}
    {post : β → Collections → Prop} (hp : s.Heeds calm p Q cs)
    (hf : ∀ a ds, cs.Grows ds → Q a ds → s.Heeds calm (f a) post ds) :
    s.Heeds calm (p >>= f) post cs := by
  induction p generalizing cs with
  | pure a => exact hf a cs (.refl cs) (hp cs (.refl cs))
  | ask r next ih =>
    exact ⟨hp.1, fun answer ds hds htells => ih answer (hp.2 answer ds hds htells)
      fun a bs hbs => hf a bs (hds.trans hbs)⟩

/-- A single request, if what is known from its answer stays known. -/
theorem heeds_ask {r : Request} {post : r.Answer → Collections → Prop}
    (hpermits : ∀ ds, cs.Grows ds → s.Permits ds r)
    (h : ∀ answer ds, cs.Grows ds → s.Tells calm ds r answer →
      ∀ bs, ds.Grows bs → post answer bs) : s.Heeds calm (ask r) post cs :=
  ⟨hpermits, h⟩

/-- What comes of a call that is attempted again and again is one of its answers. -/
theorem heeds_call {call : ClientCall} {post : call.Result → Collections → Prop}
    (hcall : call.IsSetUp)
    (h : ∀ result ds, cs.Grows ds → call.Tells calm ds result → ∀ bs, ds.Grows bs → post result bs) :
    s.Heeds calm (s.call call).run post cs := by
  -- an answer goes on to satisfy `post`, whatever is added behind it
  have hfirst : ∀ ds, cs.Grows ds → s.Heeds calm (ask (.client call))
      (fun result bs => ∀ bs', bs.Grows bs' → post result bs') ds := fun ds hds =>
    heeds_ask (fun _ _ => hcall) fun result bs hbs htells bs' hbs' bs'' hbs'' =>
      h result bs (hds.trans hbs) htells bs'' (hbs'.trans hbs'')
  have hattempts : ∀ left attempt, ∀ ds, cs.Grows ds → s.Heeds calm (s.retry.attempts
      (fun nanos => ask (.pause nanos)) (ask (.client call)) left attempt) post ds := by
    intro left
    induction left with
    | zero => exact fun _ ds hds => heeds_mono (hfirst ds hds) fun _ bs _ hpost => hpost bs (.refl bs)
    | succ left ih =>
      refine fun attempt ds hds => heeds_bind (hfirst ds hds) fun result bs hbs hpost => ?_
      cases result with
      | ok x => exact hpost
      | error e =>
        dsimp only
        split
        · refine heeds_bind (Q := fun _ _ => True) (heeds_ask (fun _ _ => trivial)
            fun _ _ _ _ _ _ => trivial) fun _ bs' hbs' _ => ?_
          exact ih _ bs' ((hds.trans hbs).trans hbs')
        · exact hpost
  exact hattempts _ _ cs (.refl cs)

/-! ## Attempts -/

theorem heeds_lift_bind {p : Plan α} {f : α → Attempt β} {Q : α → Collections → Prop}
    {post : Except Failure β → Collections → Prop} (hp : s.Heeds calm p Q cs)
    (hf : ∀ a ds, cs.Grows ds → Q a ds → s.Heeds calm (f a).run post ds) :
    s.Heeds calm (ExceptT.lift p >>= f).run post cs := by
  rw [ExceptT.run_bind_lift]
  exact heeds_bind hp hf

theorem heeds_attempt_bind {a : Attempt α} {f : α → Attempt β}
    {Q : Except Failure α → Collections → Prop} {post : Except Failure β → Collections → Prop}
    (ha : s.Heeds calm a.run Q cs)
    (hok : ∀ x ds, cs.Grows ds → Q (.ok x) ds → s.Heeds calm (f x).run post ds)
    (herror : ∀ e ds, cs.Grows ds → Q (.error e) ds → ∀ bs, ds.Grows bs → post (.error e) bs) :
    s.Heeds calm (a >>= f).run post cs := by
  refine heeds_bind ha fun result ds hds hmid => ?_
  cases result with
  | ok x => exact hok x ds hds hmid
  | error e => exact heeds_pure (herror e ds hds hmid)

/-! ## Setting up -/

/-- What setting up may come to: if it succeeds, the collection is there, and in calm surroundings it
succeeds. -/
def SetsUp (s : SymbolStore) (calm : Prop) (result : Except Failure Unit) (cs : Collections) : Prop :=
  (result = .ok () → s.Knows cs .ready) ∧ (calm → result = .ok ())

theorem setsUp_ok (h : s.Knows cs .ready) : s.SetsUp calm (.ok ()) cs := ⟨fun _ => h, fun _ => rfl⟩

theorem heeds_ok (h : s.Knows cs .ready) :
    s.Heeds calm (pure (.ok ()) : Plan (Except Failure Unit)) (s.SetsUp calm) cs :=
  heeds_pure fun _ hds => setsUp_ok (h.grows hds)

theorem heeds_hasCollection (cs : Collections) : s.Heeds calm (s.call (.hasCollection s.collection)).run
    (fun result ds => (result = .ok true → s.Knows ds .ready) ∧
      (calm → ∃ there, result = .ok there ∧ (s.Knows cs .ready → there = true))) cs := by
  refine heeds_call trivial fun result ds hds htells bs hbs => ⟨fun h => ?_, fun hcalm => ?_⟩
  · exact hbs.contains (htells.1 h)
  · exact ⟨_, htells.2 hcalm, fun h => hds.contains h⟩

/-- The collection is made, or somebody else has made it. -/
theorem heeds_createIfAbsent (cs : Collections) :
    s.Heeds calm s.createIfAbsent.run (s.SetsUp calm) cs := by
  refine heeds_attempt_bind (heeds_hasCollection cs) (fun there ds hds hthere => ?_)
    fun e ds hds hfailed bs hbs => ?_
  · split
    · next htrue => exact heeds_ok (hthere.1 (htrue ▸ rfl))
    · refine heeds_lift_bind (Q := fun made bs =>
        (made = .ok () → s.Knows bs .ready) ∧ (calm → s.Knows bs .ready))
        (heeds_call trivial fun made bs hbs htells bs' hbs' => ?_) fun made bs hbs hmade => ?_
      · exact ⟨fun h => hbs'.contains (htells.1 h), fun hcalm => hbs'.contains (htells.2 hcalm)⟩
      · cases made with
        | ok _ => exact heeds_ok (hmade.1 rfl)
        | error e =>
          -- a failure to make it is none if somebody else has made it meanwhile
          refine heeds_lift_bind (heeds_hasCollection bs) fun again bs' hbs' hagain => ?_
          split
          · exact heeds_ok (hagain.1 rfl)
          · next hne =>
            refine heeds_pure fun _ _ => ⟨nofun, fun hcalm => ?_⟩
            obtain ⟨there, rfl, hthere⟩ := hagain.2 hcalm
            exact absurd (congrArg Except.ok (hthere (hmade.2 hcalm))) hne
  · refine ⟨nofun, fun hcalm => ?_⟩
    obtain ⟨_, he, _⟩ := hfailed.2 hcalm
    cases he

/-- If all indexes are told to be declared, they are. -/
theorem heeds_createIndexes (keys : List String) (cs : Collections) :
    s.Heeds calm (s.createIndexes keys)
      (fun all ds => all = true → ∀ key ∈ keys, ds.HasIndex s.collection key) cs := by
  induction keys generalizing cs with
  | nil => exact heeds_pure fun _ _ _ key hkey => absurd hkey List.not_mem_nil
  | cons key rest ih =>
    refine heeds_bind (Q := fun result ds => result = .ok () → ds.HasIndex s.collection key)
      (heeds_ask (fun _ _ => trivial) fun result ds hds htells bs hbs h => hbs.hasIndex (htells h))
      fun result ds hds hresult => ?_
    refine heeds_bind (ih ds) fun others bs hbs hothers => heeds_pure fun bs' hbs' hall => ?_
    obtain ⟨hfirst, hrest⟩ := Bool.and_eq_true_iff.mp hall
    have hkey : ds.HasIndex s.collection key := by
      cases result with
      | ok _ => exact hresult rfl
      | error e => cases hfirst
    intro k hk
    rcases List.mem_cons.mp hk with rfl | hk
    · exact (hbs.trans hbs').hasIndex hkey
    · exact hbs'.hasIndex (hothers hrest k hk)

theorem heeds_ensureCollection (cs : Collections) :
    s.Heeds calm s.ensureCollection.run (s.SetsUp calm) cs := by
  -- indexes are made only where the collection is known to be ready
  have hindexes : ∀ ds, s.Knows ds .ready → s.Heeds calm (ExceptT.run (do
      unless ← ask (.hasReached .indexed) do
        if ← s.createIndexes indexedKeys then ask (.reach .indexed) : Attempt Unit))
      (s.SetsUp calm) ds := by
    intro ds hready
    refine heeds_lift_bind (Q := fun _ _ => True) (heeds_ask (fun _ _ => trivial)
      fun _ _ _ _ _ _ => trivial) fun there bs hbs _ => ?_
    split
    · exact heeds_ok (hready.grows hbs)
    · refine heeds_lift_bind (heeds_createIndexes _ bs) fun all bs' hbs' hall => ?_
      have hready' := (hready.grows hbs).grows hbs'
      split
      · next htrue =>
        refine ⟨fun _ hgrows => Knows.grows (m := .indexed) (hall htrue) hgrows, fun _ _ hgrows _ => ?_⟩
        exact heeds_ok (hready'.grows hgrows)
      · exact heeds_ok hready'
  refine heeds_lift_bind (Q := fun there ds => there = true → s.Knows ds .ready)
    (heeds_ask (fun _ _ => trivial) fun there ds _ htells bs hbs h => (htells h).grows hbs)
    fun there ds hds hthere => ?_
  split
  · next htrue => exact hindexes ds (hthere htrue)
  · refine heeds_attempt_bind (heeds_createIfAbsent ds) (fun _ bs hbs hmade => ?_)
      fun e bs hbs hfailed bs' hbs' => ?_
    · have hready := hmade.1 rfl
      refine heeds_lift_bind (Q := fun _ bs => s.Knows bs .ready) (heeds_ask
        (fun _ hgrows => hready.grows hgrows) fun _ _ hgrows _ _ hgrows' =>
          (hready.grows hgrows).grows hgrows') fun _ bs' _ hready' => ?_
      exact hindexes bs' hready'
    · exact ⟨nofun, hfailed.2⟩

end

end SymbolStore

/-! ## What comes of calls -/

/-- A collection of this name has been made. -/
def Exchange.makes (name : String) : Exchange → Bool
  | ⟨.client (.create shape), .ok _⟩ => shape.name == name
  | _ => false

namespace ClientCall

variable {fails : Failure → Prop} {cs ds : Collections} {call : ClientCall} {result : call.Result}

theorem Comes.grows {result : Except Crash call.Result} (h : Comes fails cs call result ds) :
    cs.Grows ds := by
  cases h with
  | answered => exact Collections.grows_answer cs call
  | _ => exact .refl cs

theorem Comes.contents {result : Except Crash call.Result} (h : Comes fails cs call result ds)
    (hcall : call.IsSetUp) {name : String} {content : CollectionShape × List (String × Point)}
    (hthere : cs.contents name = some content) : ds.contents name = some content := by
  cases h with
  | answered => exact Collections.contents_setUp hcall hthere
  | _ => exact hthere

theorem tells_answer (calm : Prop) (cs : Collections) (call : ClientCall) :
    call.Tells calm (cs.answer call).2 (cs.answer call).1 := by
  cases call with
  | hasCollection name => exact ⟨fun h => Except.ok.inj h, fun _ => rfl⟩
  | create shape =>
    exact ⟨fun _ => cs.contains_after_create shape, fun _ => cs.contains_after_create shape⟩
  | createIndex name key => exact Collections.hasIndex_after_createIndex
  | _ => trivial

theorem Comes.tells {calm : Prop} (h : Comes fails cs call (.ok result) ds) (hcalm : ¬ calm) :
    call.Tells calm ds result := by
  cases h with
  | answered => exact tells_answer calm cs call
  | failed he =>
    cases call with
    | hasCollection name => exact ⟨nofun, fun h => absurd h hcalm⟩
    | create shape => exact ⟨nofun, fun h => absurd h hcalm⟩
    | createIndex name key => exact nofun
    | _ => trivial
  | absent name => exact ⟨nofun, fun h => absurd h hcalm⟩

/-- A collection is only made if it was missing, and then it is there. -/
theorem Comes.makes {name : String} (h : Comes fails cs call (.ok result) ds)
    (hmakes : Exchange.makes name ⟨.client call, result⟩ = true) :
    Keyed.contains name cs = false ∧ Keyed.contains name ds = true := by
  cases call with
  | create shape =>
    cases h with
    | answered =>
      have hthere := cs.contains_after_create shape
      cases hmade : (cs.answer (.create shape)).1 with
      | error e =>
        rw [hmade] at hmakes
        cases hmakes
      | ok _ =>
        rw [hmade] at hmakes
        cases (eq_of_beq hmakes : shape.name = name)
        refine ⟨?_, hthere⟩
        rw [Collections.answer] at hmade
        split at hmade
        · cases hmade
        · next habsent => exact Bool.eq_false_iff.mpr habsent
    | failed => cases hmakes
  | _ => cases hmakes

end ClientCall

/-! ## Stores at work together -/

/-- The surroundings as they are for a store that remembers so much of its collection. -/
def Host.remembering (h : Host) (reached : Milestone → Bool) : Host :=
  { h with isReady := reached .ready, isIndexed := reached .indexed }

theorem Host.IsReliable.remembering {h : Host} (hr : h.IsReliable) (reached : Milestone → Bool) :
    (h.remembering reached).IsReliable := ⟨hr.faults, hr.store⟩

/-- A collection that is being set up. -/
structure Errand (ι : Type) where
  /-- Whose collection it is. -/
  owner : ι
  /-- What is left to do. -/
  plan : Except Crash (Plan (Except Failure Unit))
  /-- Whether the store remembered everything of its collection when it began. -/
  knew : Bool
  /-- The calls to the vector store that have been made, the last first. -/
  calls : List ClientCall := []

/-- Nothing is left to do. -/
def Errand.HasEnded {ι : Type} (e : Errand ι) : Prop :=
  (∃ crash, e.plan = .error crash) ∨ ∃ r, e.plan = .ok (.pure r)

/-- Stores that work on one vector store. -/
structure Team (ι : Type) where
  /-- The vector store and what is to fail. -/
  host : Host
  /-- What each store remembers of its collection. -/
  reached : ι → Milestone → Bool := fun _ _ => false
  errands : List (Errand ι) := []
  /-- What has been asked of the surroundings and answered, the last first. -/
  log : List Exchange := []

/-- What may happen next. -/
inductive Team.Move (ι : Type) where
  /-- A store begins to set its collection up. -/
  | start (i : ι)
  /-- The next request of one that is being set up is served. -/
  | proceed (n : Nat)
  /-- Somebody else calls the vector store. -/
  | call (c : ClientCall)
  | failNext (n : Nat)
  | failNextOn (operation : String) (n : Nat)
  | fault (f : Fault)

/-- No failure is prepared. -/
def Team.Move.IsCalm {ι : Type} : Team.Move ι → Prop
  | start _ | proceed _ | call _ => True
  | _ => False

namespace Team

/-- Stores that have not begun, and the vector store that they are going to work on. -/
def ofMemory {ι : Type} (m : MemoryStore) : Team ι := { host := { store := .memory m } }

variable {ι : Type}

/-- The collections of the vector store. -/
def collections (t : Team ι) : Collections := t.host.collections

/-- The log with what has come of a request. -/
def note (t : Team ι) (r : Request) : Except Crash r.Answer → List Exchange
  | .ok answer => ⟨r, answer⟩ :: t.log
  | .error _ => t.log

variable [DecidableEq ι]

/-- Answers a request of a store. -/
def serve (t : Team ι) (i : ι) (r : Request) : Except Crash r.Answer × Team ι :=
  let (result, host) := Host.serve r (t.host.remembering (t.reached i))
  (result, { t with
    host
    reached := Function.update t.reached i host.remembered
    log := t.note r result })

variable (stores : ι → SymbolStore)

def step (t : Team ι) : Move ι → Team ι
  | .start i =>
    { t with errands := t.errands ++
        [⟨i, .ok (stores i).ensureCollection.run, t.reached i .ready && t.reached i .indexed, []⟩] }
  | .proceed n =>
    match t.errands[n]? with
    | some ⟨i, .ok (.ask r next), knew, calls⟩ =>
      let (result, t) := t.serve i r
      { t with errands := t.errands.set n ⟨i, result.map next, knew, r.calls ++ calls⟩ }
    | _ => t
  | .call c =>
    let (result, host) := Host.serve (.client c) t.host
    { t with host, log := t.note (.client c) result }
  | .failNext n => { t with host := t.host.prepare (·.failNext n) }
  | .failNextOn operation n => { t with host := t.host.prepare (·.failNextOn operation n) }
  | .fault f => { t with host := { t.host with faults := t.host.faults ++ [f] } }

def run (t : Team ι) (moves : List (Move ι)) : Team ι := moves.foldl (step stores) t

end Team

/-! ## What holds after every request -/

/-- Requests of a store that remembers everything are not calls. -/
def Request.IsSilent (r : Request) : Prop := r.calls = []

/-- Everything is remembered. -/
def Request.Recalls : (r : Request) → r.Answer → Prop
  | hasReached _, there => there = true
  | _, _ => True

theorem SymbolStore.silent_ensureCollection (s : SymbolStore) :
    s.ensureCollection.run.Within Request.IsSilent Request.Recalls fun _ => True := by
  refine within_lift_bind (Program.within_perform rfl) fun ready hready => ?_
  cases (hready : ready = true)
  refine within_lift_bind (Program.within_perform rfl) fun indexed hindexed => ?_
  cases (hindexed : indexed = true)
  trivial

variable {ι : Type}

/-- What holds of a collection that is being set up. -/
structure Errand.Sound (stores : ι → SymbolStore) (calm : Prop) (reached : ι → Milestone → Bool)
    (cs : Collections) (e : Errand ι) : Prop where
  plan : ∀ p, e.plan = .ok p →
    (stores e.owner).Heeds calm p ((stores e.owner).SetsUp calm) cs
  unbroken : calm → ∃ p, e.plan = .ok p
  silent : e.knew = true → (∀ m, reached e.owner m = true) ∧ e.calls = [] ∧
    ∀ p, e.plan = .ok p → p.Within Request.IsSilent Request.Recalls fun _ => True

theorem Errand.Sound.mono {stores : ι → SymbolStore} {calm : Prop} {e : Errand ι}
    {reached reached' : ι → Milestone → Bool} {cs ds : Collections}
    (h : e.Sound stores calm reached cs) (hgrows : cs.Grows ds)
    (hreached : ∀ i m, reached i m = true → reached' i m = true) :
    e.Sound stores calm reached' ds where
  plan p hp := (h.plan p hp).grows hgrows
  unbroken := h.unbroken
  silent hknew :=
    let ⟨hall, hsilent⟩ := h.silent hknew
    ⟨fun m => hreached _ m (hall m), hsilent⟩

namespace Team

/-- What holds of stores at work together. -/
structure Sound (stores : ι → SymbolStore) (calm : Prop) (t : Team ι) : Prop where
  isLocal : t.host.IsLocal
  reliable : calm → t.host.IsReliable
  knows : ∀ i m, t.reached i m = true → (stores i).Knows t.collections m
  made : ∀ name, t.log.countP (Exchange.makes name) ≤
    if Keyed.contains name t.collections then 1 else 0
  errands : ∀ e ∈ t.errands, e.Sound stores calm t.reached t.collections

/-- What others see of a request that has been served: collections have grown, what was remembered is
remembered, and what is remembered now is true. -/
structure Advances (stores : ι → SymbolStore) (calm : Prop) (t t' : Team ι) : Prop where
  isLocal : t'.host.IsLocal
  reliable : calm → t'.host.IsReliable
  grows : t.collections.Grows t'.collections
  reached : ∀ i m, t.reached i m = true → t'.reached i m = true
  knows : ∀ i m, t'.reached i m = true → (stores i).Knows t'.collections m
  made : ∀ name, t'.log.countP (Exchange.makes name) ≤
    if Keyed.contains name t'.collections then 1 else 0

variable {stores : ι → SymbolStore} {calm : Prop} {t t' : Team ι}

theorem Sound.advance (ht : t.Sound stores calm) (h : t.Advances stores calm t')
    (herrands : ∀ e ∈ t'.errands, e ∈ t.errands ∨ e.Sound stores calm t'.reached t'.collections) :
    t'.Sound stores calm where
  isLocal := h.isLocal
  reliable := h.reliable
  knows := h.knows
  made := h.made
  errands e he := (herrands e he).elim (fun hold => (ht.errands e hold).mono h.grows h.reached) id

/-- Collections that were made are there, and none was made twice. -/
theorem made_note {ds : Collections} {call : ClientCall} {result : Except Crash call.Result}
    (h : call.Comes (fun _ => True) t.collections result ds)
    (hmade : ∀ name, t.log.countP (Exchange.makes name) ≤
      if Keyed.contains name t.collections then 1 else 0) (name : String) :
    (t.note (.client call) result).countP (Exchange.makes name) ≤
      if Keyed.contains name ds then 1 else 0 := by
  -- what is there stays there, so only a collection that was missing can still be made
  have hold : t.log.countP (Exchange.makes name) ≤ if Keyed.contains name ds then 1 else 0 := by
    refine Nat.le_trans (hmade name) ?_
    split
    · next hthere => exact Nat.le_of_eq (if_pos (h.grows.contains hthere)).symm
    · exact Nat.zero_le _
  cases result with
  | error crash => exact hold
  | ok result =>
    rw [note, List.countP_cons]
    split
    · next hmakes =>
      obtain ⟨habsent, hthere⟩ := h.makes hmakes
      have hnone := hmade name
      rw [habsent] at hnone
      rw [hthere]
      exact Nat.add_le_add_right hnone 1
    · exact hold

theorem sound_ofMemory (stores : ι → SymbolStore) {calm : Prop} {m : MemoryStore}
    (h : calm → ∃ collections, m = { collections }) :
    (ofMemory m : Team ι).Sound stores calm where
  isLocal := ⟨m, rfl⟩
  reliable hcalm :=
    let ⟨collections, hm⟩ := h hcalm
    ⟨rfl, collections, congrArg VectorStore.memory hm⟩
  knows _ _ h := absurd h Bool.false_ne_true
  made _ := Nat.zero_le _
  errands _ he := absurd he List.not_mem_nil

/-- Failures may be prepared if surroundings need not be calm. -/
theorem Sound.disturb (ht : t.Sound stores calm) (hcalm : ¬ calm) {host : Host}
    (hlocal : host.IsLocal) (hsame : host.collections = t.collections) :
    ({ t with host } : Team ι).Sound stores calm := by
  have hcollections : ({ t with host } : Team ι).collections = t.collections := hsame
  refine ⟨hlocal, fun h => absurd h hcalm, ?_, ?_, ?_⟩
  · rw [hcollections]
    exact ht.knows
  · rw [hcollections]
    exact ht.made
  · rw [hcollections]
    exact ht.errands

/-- In calm surroundings, whatever has ended has succeeded. -/
theorem Sound.succeeded {calm : Prop} (ht : t.Sound stores calm) (hcalm : calm) {e : Errand ι}
    (he : e ∈ t.errands) (hended : e.HasEnded) : e.plan = .ok (.pure (.ok ())) := by
  have hsound := ht.errands e he
  rcases hended with ⟨crash, hcrash⟩ | ⟨r, hr⟩
  · obtain ⟨p, hp⟩ := hsound.unbroken hcalm
    cases hcrash.symm.trans hp
  · rw [hr, (hsound.plan _ hr _ (.refl _)).2 hcalm]

theorem remembered_remembering (h : Host) (reached : Milestone → Bool) :
    (h.remembering reached).remembered = reached := by
  funext m
  cases m <;> rfl

/-- A request of a store that is fit for setting up. -/
structure Serves (stores : ι → SymbolStore) (calm : Prop) (t : Team ι) (i : ι) (r : Request)
    (result : Except Crash r.Answer) (t' : Team ι) : Prop where
  advances : t.Advances stores calm t'
  errands : t'.errands = t.errands
  tells : ∀ a, result = .ok a → (stores i).Tells calm t'.collections r a
  unbroken : calm → ∃ a, result = .ok a
  recalls : (∀ m, t.reached i m = true) → ∀ a, result = .ok a → r.Recalls a
  contents : ∀ name content, t.collections.contents name = some content →
    t'.collections.contents name = some content

/-- What is left to do behind a request goes by what there is then. -/
theorem Serves.errand {i : ι} {r : Request} {next : r.Answer → Plan (Except Failure Unit)}
    {knew : Bool} {calls : List ClientCall} {result : Except Crash r.Answer}
    (hserves : t.Serves stores calm i r result t')
    (hold : Errand.Sound stores calm t.reached t.collections ⟨i, .ok (.ask r next), knew, calls⟩) :
    Errand.Sound stores calm t'.reached t'.collections
      ⟨i, result.map next, knew, r.calls ++ calls⟩ := by
  have hplan : ∀ p, result.map next = .ok p → ∃ answer, result = .ok answer ∧ next answer = p := by
    intro p hp
    cases result with
    | error crash => cases hp
    | ok answer => exact ⟨answer, rfl, Except.ok.inj hp⟩
  refine ⟨fun p hp => ?_, fun hcalm => ?_, fun hknew => ?_⟩
  · obtain ⟨answer, hanswer, rfl⟩ := hplan p hp
    exact (hold.plan _ rfl).2 answer _ hserves.advances.grows (hserves.tells answer hanswer)
  · obtain ⟨answer, hanswer⟩ := hserves.unbroken hcalm
    exact ⟨next answer, congrArg (Except.map next) hanswer⟩
  · obtain ⟨hall, hcalls, hwithin⟩ := hold.silent hknew
    obtain ⟨hsilent, hlater⟩ := hwithin _ rfl
    refine ⟨fun m => hserves.advances.reached i m (hall m), ?_, fun p hp => ?_⟩
    · exact List.append_eq_nil_iff.mpr ⟨hsilent, hcalls⟩
    · obtain ⟨answer, hanswer, rfl⟩ := hplan p hp
      exact hlater answer (hserves.recalls hall answer hanswer)

variable [DecidableEq ι]

/-- What comes of a call, whatever its failures. -/
theorem comes_of_serve (c : ClientCall) {h : Host} (hm : h.IsLocal) :
    c.Comes (fun _ => True) h.collections (Host.serve (.client c) h).1
        (Host.serve (.client c) h).2.collections ∧
      (Host.serve (.client c) h).2.IsLocal ∧
      (Host.serve (.client c) h).2.remembered = h.remembered :=
  Host.comes_of_serve c hm (fun _ => trivial) fun _ _ _ _ _ => trivial

theorem Sound.call (ht : t.Sound stores calm) (c : ClientCall) :
    (t.step stores (.call c)).Sound stores calm := by
  obtain ⟨hcomes, hlocal, _⟩ := comes_of_serve c ht.isLocal
  refine ht.advance ⟨hlocal, fun hcalm => ?_, hcomes.grows, fun _ _ h => h, fun i m hm =>
    (ht.knows i m hm).grows hcomes.grows, made_note hcomes ht.made⟩ fun e he => .inl he
  exact (Host.after_reliable (ht.reliable hcalm) c).1

theorem Sound.serves_client (ht : t.Sound stores calm) {i : ι} {c : ClientCall}
    (hpermits : c.IsSetUp) :
    t.Serves stores calm i (.client c) (t.serve i (.client c)).1 (t.serve i (.client c)).2 := by
  obtain ⟨hcomes, hlocal, hremembered⟩ :=
    comes_of_serve c (h := t.host.remembering (t.reached i)) ht.isLocal
  rw [remembered_remembering] at hremembered
  have hreached : (t.serve i (.client c)).2.reached = t.reached := by
    rw [serve]
    dsimp only
    rw [hremembered, Function.update_eq_self]
  have hanswered : calm → (t.serve i (.client c)).1 =
        .ok ((t.host.remembering (t.reached i)).answerTo c) ∧
      (t.serve i (.client c)).2.collections = (t.collections.answer c).2 ∧
      (t.serve i (.client c)).2.host.IsReliable := by
    intro hcalm
    have hr := (ht.reliable hcalm).remembering (t.reached i)
    obtain ⟨hafter, hcollections, _⟩ := Host.after_reliable hr c
    exact ⟨congrArg Prod.fst (Host.serve_client hr c), hcollections, hafter⟩
  refine ⟨⟨hlocal, fun hcalm => (hanswered hcalm).2.2, hcomes.grows,
    fun j m h => by rwa [hreached], fun j m hj => ?_, made_note hcomes ht.made⟩, rfl,
    fun a ha => ?_, fun hcalm => ⟨_, (hanswered hcalm).1⟩, fun _ _ _ => trivial,
    fun name content h => hcomes.contents hpermits h⟩
  · rw [hreached] at hj
    exact (ht.knows j m hj).grows hcomes.grows
  · by_cases hcalm : calm
    · obtain ⟨hresult, hcollections, _⟩ := hanswered hcalm
      cases hresult.symm.trans ha
      rw [hcollections]
      exact ClientCall.tells_answer calm t.collections c
    · exact ClientCall.Comes.tells (ha ▸ hcomes) hcalm

theorem Sound.serves_reach (ht : t.Sound stores calm) {i : ι} {m : Milestone}
    (hknows : (stores i).Knows t.collections m) :
    t.Serves stores calm i (.reach m) (t.serve i (.reach m)).1 (t.serve i (.reach m)).2 := by
  have hserve : t.serve i (.reach m) = (.ok (), { t with
      host := t.host.remembering (Function.update (t.reached i) m true)
      reached := Function.update t.reached i (Function.update (t.reached i) m true)
      log := ⟨.reach m, ()⟩ :: t.log }) := by
    have hremembered := remembered_remembering t.host (Function.update (t.reached i) m true)
    cases m <;> rw [← hremembered] <;> rfl
  have hreached : ∀ j m', Function.update t.reached i (Function.update (t.reached i) m true) j m' =
      true ↔ t.reached j m' = true ∨ (j = i ∧ m' = m) := by
    intro j m'
    by_cases hj : j = i
    · subst hj
      by_cases hm : m' = m
      · subst hm
        simp
      · simp [hm]
    · simp [hj]
  rw [hserve]
  refine ⟨⟨ht.isLocal, fun hcalm => (ht.reliable hcalm).remembering _,
    .refl _, fun j m' h => (hreached j m').mpr (.inl h), fun j m' h => ?_, ht.made⟩, rfl,
    fun _ _ => trivial, fun _ => ⟨_, rfl⟩, fun _ _ _ => trivial, fun _ _ h => h⟩
  rcases (hreached j m').mp h with h | ⟨rfl, rfl⟩
  · exact ht.knows j m' h
  · exact hknows

/-- Requests that are fit for setting up advance all stores together. -/
theorem Sound.serves (ht : t.Sound stores calm) {i : ι} {r : Request}
    (hpermits : (stores i).Permits t.collections r) :
    t.Serves stores calm i r (t.serve i r).1 (t.serve i r).2 := by
  -- a request that neither calls nor is remembered leaves all but the log
  have hquiet : ∀ answer, t.serve i r = (.ok answer, { t with
        host := t.host.remembering (t.reached i), log := ⟨r, answer⟩ :: t.log }) →
      (stores i).Tells calm t.collections r answer → ((∀ m, t.reached i m = true) → r.Recalls answer) →
      (∀ name, Exchange.makes name ⟨r, answer⟩ = false) →
      t.Serves stores calm i r (t.serve i r).1 (t.serve i r).2 := by
    intro answer hserve htells hrecalls hmakes
    rw [hserve]
    refine ⟨⟨ht.isLocal, fun hcalm => (ht.reliable hcalm).remembering _,
      .refl _, fun _ _ h => h, ht.knows, fun name => ?_⟩, rfl, fun a ha => ?_, fun _ => ⟨_, rfl⟩,
      fun hall a ha => ?_, fun _ _ h => h⟩
    · rw [List.countP_cons_of_neg (by rw [hmakes name]; exact Bool.false_ne_true)]
      exact ht.made name
    · cases ha
      exact htells
    · cases ha
      exact hrecalls hall
  cases r with
  | client c => exact ht.serves_client hpermits
  | hasReached m =>
    refine hquiet (t.reached i m) ?_ (ht.knows i m) (fun hall => hall m) fun _ => rfl
    cases m <;> simp only [serve, Host.serve, remembered_remembering, Function.update_eq_self] <;> rfl
  | reach m => exact ht.serves_reach hpermits
  | pause nanos =>
    refine hquiet () ?_ trivial (fun _ => trivial) fun _ => rfl
    simp only [serve, Host.serve, remembered_remembering, Function.update_eq_self]
    rfl
  | _ => cases hpermits

/-! ## Moves -/

theorem Sound.start (ht : t.Sound stores calm) (i : ι) :
    (t.step stores (.start i)).Sound stores calm := by
  have hnew : Errand.Sound stores calm t.reached t.collections ⟨i,
      .ok (stores i).ensureCollection.run, t.reached i .ready && t.reached i .indexed, []⟩ := by
    refine ⟨fun p hp => ?_, fun _ => ⟨_, rfl⟩, fun hknew => ⟨fun m => ?_, rfl, fun p hp => ?_⟩⟩
    · cases hp
      exact SymbolStore.heeds_ensureCollection _
    · obtain ⟨hready, hindexed⟩ := Bool.and_eq_true_iff.mp hknew
      cases m
      · exact hready
      · exact hindexed
    · cases hp
      exact (stores i).silent_ensureCollection
  refine { ht with errands := fun e he => ?_ }
  rcases List.mem_append.mp he with he | he
  · exact ht.errands e he
  · rw [List.mem_singleton.mp he]
    exact hnew

theorem Sound.proceed (ht : t.Sound stores calm) (n : Nat) :
    (t.step stores (.proceed n)).Sound stores calm := by
  rw [step]
  split
  · next i r next knew calls hn =>
    have hold := ht.errands _ (List.mem_of_getElem? hn)
    have hserves := ht.serves (i := i) ((hold.plan _ rfl).1 _ (.refl _))
    refine ht.advance { hserves.advances with } fun e he => ?_
    dsimp only at he
    rw [hserves.errands] at he
    rcases List.mem_or_eq_of_mem_set he with he | rfl
    · exact .inl he
    · exact .inr (hserves.errand hold)
  · exact ht

theorem Sound.step (ht : t.Sound stores calm) {move : Move ι} (hmove : calm → move.IsCalm) :
    (t.step stores move).Sound stores calm := by
  cases move with
  | start i => exact ht.start i
  | proceed n => exact ht.proceed n
  | call c => exact ht.call c
  | failNext n => exact ht.disturb hmove ⟨_, rfl⟩ rfl
  | failNextOn operation n => exact ht.disturb hmove ⟨_, rfl⟩ rfl
  | fault f => exact ht.disturb hmove ht.isLocal rfl

theorem Sound.run (ht : t.Sound stores calm) {moves : List (Move ι)}
    (hmoves : calm → ∀ move ∈ moves, move.IsCalm) : (t.run stores moves).Sound stores calm := by
  induction moves generalizing t with
  | nil => exact ht
  | cons move rest ih =>
    exact ih (ht.step fun hcalm => hmoves hcalm move List.mem_cons_self) fun hcalm later hlater =>
      hmoves hcalm later (List.mem_cons_of_mem move hlater)

/-- To set a collection up leaves the shapes and points that are there. -/
theorem Sound.contents_proceed (ht : t.Sound stores calm) (n : Nat) {name : String}
    {content : CollectionShape × List (String × Point)}
    (h : t.collections.contents name = some content) :
    (t.step stores (.proceed n)).collections.contents name = some content := by
  rw [Team.step]
  split
  · next i r next knew calls hn =>
    have hold := ht.errands _ (List.mem_of_getElem? hn)
    exact (ht.serves (i := i) ((hold.plan _ rfl).1 _ (.refl _))).contents name content h
  · exact h

end Team

/-! ## Coming to an end -/

namespace Team

variable {ι : Type} [DecidableEq ι] (stores : ι → SymbolStore)

/-- The stores after so many moves of an unending run. -/
def along (t : Team ι) (σ : ℕ → Move ι) (k : ℕ) : Team ι := t.run stores ((List.range k).map σ)

variable {stores} {t : Team ι} {σ : ℕ → Move ι}

@[simp] theorem along_zero : t.along stores σ 0 = t := rfl

theorem along_succ (k : ℕ) :
    t.along stores σ (k + 1) = (t.along stores σ k).step stores (σ k) := by
  simp only [along, run, List.range_succ, List.map_append, List.foldl_append, List.map_cons,
    List.map_nil, List.foldl_cons, List.foldl_nil]

/-- Whoever has not got its turn is where it was. -/
theorem step_errands_of_ne {n : ℕ} {e : Errand ι} (h : t.errands[n]? = some e) {move : Move ι}
    (hmove : move ≠ .proceed n) : (t.step stores move).errands[n]? = some e := by
  cases move with
  | start i => exact (List.getElem?_append_left (List.getElem?_eq_some_iff.mp h).1).trans h
  | proceed m =>
    rw [step]
    split
    · have hne : m ≠ n := fun heq => hmove (congrArg Move.proceed heq)
      exact (List.getElem?_set_ne hne).trans h
    · exact h
  | _ => exact h

variable (stores) in
/-- A turn serves one request of whoever gets it. -/
theorem step_errands_proceed {n : ℕ} {i : ι} {r : Request}
    {next : r.Answer → Plan (Except Failure Unit)} {knew : Bool} {calls : List ClientCall}
    (h : t.errands[n]? = some ⟨i, .ok (.ask r next), knew, calls⟩) :
    (t.step stores (.proceed n)).errands[n]? =
      some ⟨i, (t.serve i r).1.map next, knew, r.calls ++ calls⟩ := by
  rw [step, h]
  exact List.getElem?_set_self (List.getElem?_eq_some_iff.mp h).1

/-- Until its next turn, an errand is where it is. -/
theorem exists_turn {n k : ℕ} {e : Errand ι} (hfair : ∀ k, ∃ j ≥ k, σ j = .proceed n)
    (h : (t.along stores σ k).errands[n]? = some e) :
    ∃ j, σ j = .proceed n ∧ (t.along stores σ j).errands[n]? = some e := by
  obtain ⟨j, hkj, hj⟩ := hfair k
  obtain ⟨d, rfl⟩ := Nat.exists_eq_add_of_le hkj
  induction d generalizing k with
  | zero => exact ⟨k, hj, h⟩
  | succ d ih =>
    by_cases hk : σ k = .proceed n
    · exact ⟨k, hk, h⟩
    · have hnext : (t.along stores σ (k + 1)).errands[n]? = some e := by
        rw [along_succ]
        exact step_errands_of_ne h hk
      rw [← Nat.add_assoc, Nat.add_right_comm] at hj
      exact ih hnext (Nat.le_add_right _ d) hj

/-- Whoever gets its turn again and again comes to an end. -/
theorem ends_of_fair {n k : ℕ} {e : Errand ι} (hfair : ∀ k, ∃ j ≥ k, σ j = .proceed n)
    (h : (t.along stores σ k).errands[n]? = some e) :
    ∃ j e', (t.along stores σ j).errands[n]? = some e' ∧ e'.HasEnded := by
  obtain ⟨i, plan, knew, calls⟩ := e
  cases plan with
  | error crash => exact ⟨k, _, h, .inl ⟨crash, rfl⟩⟩
  | ok p =>
    -- what is left to do is a tree, and each turn goes down one of its branches
    induction p generalizing k calls with
    | pure r => exact ⟨k, _, h, .inr ⟨r, rfl⟩⟩
    | ask r next ih =>
      obtain ⟨j, hturn, hj⟩ := exists_turn hfair h
      have hserved := step_errands_proceed stores hj
      rw [← hturn, ← along_succ] at hserved
      cases hresult : ((t.along stores σ j).serve i r).1 with
      | error crash =>
        rw [hresult] at hserved
        exact ⟨j + 1, _, hserved, .inl ⟨crash, rfl⟩⟩
      | ok answer =>
        rw [hresult] at hserved
        exact ih answer _ hserved

/-! ## Main results -/

/-- Setting up has done no harm, and what it has told is true. -/
structure IsSafe (stores : ι → SymbolStore) (t : Team ι) : Prop where
  /-- No collection is made twice. -/
  madeOnce : ∀ name, t.log.countP (Exchange.makes name) ≤ 1
  /-- The next request of whoever sets up leaves the shapes and points that are there. -/
  contents : ∀ n name content, t.collections.contents name = some content →
    (t.step stores (.proceed n)).collections.contents name = some content
  ready : ∀ i, t.reached i .ready = true →
    Keyed.contains (stores i).collection t.collections = true
  indexed : ∀ i, t.reached i .indexed = true → ∀ key ∈ SymbolStore.indexedKeys,
    t.collections.HasIndex (stores i).collection key
  succeeded : ∀ e ∈ t.errands, e.plan = .ok (.pure (.ok ())) →
    Keyed.contains (stores e.owner).collection t.collections = true
  /-- Who remembered everything has called nobody. -/
  silent : ∀ e ∈ t.errands, e.knew = true → e.calls = []

theorem Sound.isSafe {calm : Prop} (ht : t.Sound stores calm) : t.IsSafe stores where
  madeOnce name := Nat.le_trans (ht.made name) (by split <;> omega)
  contents n _ _ := ht.contents_proceed n
  ready i := ht.knows i .ready
  indexed i := ht.knows i .indexed
  succeeded e he hplan := (((ht.errands e he).plan _ hplan) _ (.refl _)).1 rfl
  silent e he hknew := ((ht.errands e he).silent hknew).2.1

end Team

/-- Collections may be set up by any number of stores at once, while others call the vector store and
calls fail: setting up is safe after every request. If nothing fails, it never ends but in success, and
it ends for every store that gets its turn again and again. -/
theorem settingUp_safe {ι : Type} [DecidableEq ι] (stores : ι → SymbolStore) (m : MemoryStore)
    (moves : List (Team.Move ι)) :
    ((Team.ofMemory m).run stores moves).IsSafe stores ∧
    ((∃ collections, m = { collections }) → (∀ move ∈ moves, move.IsCalm) →
      (∀ e ∈ ((Team.ofMemory m).run stores moves).errands, e.HasEnded →
        e.plan = .ok (.pure (.ok ()))) ∧
      ∀ σ : ℕ → Team.Move ι, (∀ k, (σ k).IsCalm) →
        ∀ n < ((Team.ofMemory m).run stores moves).errands.length,
          (∀ k, ∃ j ≥ k, σ j = .proceed n) →
          ∃ k e, (((Team.ofMemory m).run stores moves).along stores σ k).errands[n]? = some e ∧
            e.plan = .ok (.pure (.ok ()))) := by
  constructor
  · exact ((Team.sound_ofMemory stores (False.elim : False → _)).run False.elim).isSafe
  · intro hm hcalm
    have hsound := (Team.sound_ofMemory stores fun _ : True => hm).run fun _ => hcalm
    refine ⟨fun e he => hsound.succeeded trivial he, fun σ hσ n hn hfair => ?_⟩
    obtain ⟨k, e, hk, hended⟩ := Team.ends_of_fair (k := 0) hfair (List.getElem?_eq_getElem hn)
    refine ⟨k, e, hk, (hsound.run fun _ move hmove => ?_).succeeded trivial
      (List.mem_of_getElem? hk) hended⟩
    obtain ⟨j, _, rfl⟩ := List.mem_map.mp hmove
    exact hσ j

/-- Two stores set one collection up in turns, and both succeed. -/
theorem settingUp_safe_in_turns : ∃ k e,
    (((Team.ofMemory {}).run (fun _ : Bool => .patient) [.start false, .start true]).along
      (fun _ => .patient) (fun k => .proceed (k % 2)) k).errands[1]? = some e ∧
    e.plan = .ok (.pure (.ok ())) := by
  refine ((settingUp_safe (fun _ : Bool => .patient) {} [.start false, .start true]).2 ⟨[], rfl⟩
    fun move hmove => ?_).2 (fun k => .proceed (k % 2)) (fun _ => trivial) 1 Nat.one_lt_two
    fun k => ⟨2 * k + 1, by omega, congrArg Team.Move.proceed (by omega)⟩
  rcases List.mem_pair.mp hmove with rfl | rfl <;> trivial

end CodeAtlas
