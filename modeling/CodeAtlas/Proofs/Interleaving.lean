import CodeAtlas.Proofs.Amid
import CodeAtlas.Proofs.Reporting
/-!
# Two callers of one store

Two callers work on different projects of one collection, and their requests are served in turns, in
any order. Neither notices the other: what a caller's operations give, and the points of its project
that are left at the end, are those of the caller's working alone.

Results:
1. `keeps_runAll`: a sequence of operations keeps to what belongs to its project.
2. `Duo.Sound.runsAmid`: what one of two does is a run amid changes that do not concern it.
3. `undisturbed_of_turns`: two callers and any order of their requests.
-/

namespace CodeAtlas

/-! ## Callers -/

/-- An operation on a project. -/
inductive ProjectOperation where
  | storeProject (p : Project)
  | storeFiles (files : List FiledSource)
  | deleteFiles (paths : List String)
  | deleteProject
  | loadProject
  | loadFiles

namespace ProjectOperation

/-- What an operation gives. -/
@[reducible] def Result : ProjectOperation → Type
  | storeProject _ => Uuid
  | storeFiles _ | deleteFiles _ => Nat
  | deleteProject => Bool
  | loadProject => Option Project
  | loadFiles => List StoredFile

/-- The operation on the project of an id. -/
def run (s : SymbolStore) (id : Uuid) : (op : ProjectOperation) → Attempt op.Result
  | storeProject p => s.storeProject { p with id }
  | storeFiles files => s.storeFiles id files
  | deleteFiles paths => s.deleteFiles id paths
  | deleteProject => s.deleteProject id
  | loadProject => s.loadProject id
  | loadFiles => s.loadFiles id

/-- The ids of the symbols that an operation writes. -/
def symbolIds : ProjectOperation → List Uuid
  | storeFiles files => files.flatMap (·.ids)
  | _ => []

/-- An operation with what has come of it. -/
abbrev Outcome := (op : ProjectOperation) × Except Failure op.Result

/-- Operations one after another, whatever comes of each. -/
def runAll (s : SymbolStore) (id : Uuid) : List ProjectOperation → Plan (List Outcome)
  | [] => return []
  | op :: rest => do
    let result ← (op.run s id).run
    return ⟨op, result⟩ :: (← runAll s id rest)

variable {m : Holding} {s : SymbolStore} {ids : Nat → Uuid}

theorem keeps_run (hids : ∀ n, m.owns (ids n).render) (hown : m.owns m.project.render)
    (op : ProjectOperation) (hop : ∀ id ∈ op.symbolIds, m.owns id.render) :
    m.KeepsAttempt s.collection ids (op.run s m.project) := by
  cases op with
  | storeProject p => exact SymbolStore.keeps_storeProject hids hown rfl
  | storeFiles files =>
    exact SymbolStore.keeps_storeFiles hids fun f hf id hid =>
      hop id (List.mem_flatMap_of_mem hf hid)
  | deleteFiles paths => exact SymbolStore.keeps_deleteFiles hids paths
  | deleteProject => exact SymbolStore.keeps_deleteProject hids hown
  | loadProject => exact SymbolStore.keeps_loadProject hids hown
  | loadFiles => exact SymbolStore.keeps_loadFiles hids

theorem keeps_runAll (hids : ∀ n, m.owns (ids n).render) (hown : m.owns m.project.render)
    (ops : List ProjectOperation) (hops : ∀ op ∈ ops, ∀ id ∈ op.symbolIds, m.owns id.render) :
    m.Keeps s.collection ids (runAll s m.project ops) fun _ => True := by
  induction ops with
  | nil => exact Holding.keeps_pure trivial
  | cons op rest ih =>
    exact Holding.keeps_bind (keeps_run hids hown op (hops op List.mem_cons_self)) fun _ _ =>
      Holding.keeps_bind (ih fun op' hop' => hops op' (List.mem_cons_of_mem op hop')) fun _ _ =>
        Holding.keeps_pure trivial

end ProjectOperation

/-- Who works on a project of a store, and the fresh ids it gets. -/
structure Caller where
  store : SymbolStore
  project : Uuid
  operations : List ProjectOperation
  fresh : Nat → Uuid

namespace Caller

/-- What the caller does. -/
def plan (c : Caller) : Plan (List ProjectOperation.Outcome) :=
  ProjectOperation.runAll c.store c.project c.operations

/-- The ids under which the caller writes points. -/
def Uses (c : Caller) (id : Uuid) : Prop :=
  id = c.project ∨ (∃ n, id = c.fresh n) ∨ ∃ op ∈ c.operations, id ∈ op.symbolIds

/-- What belongs to the caller. -/
def holding (c : Caller) : Holding := ⟨c.project, fun text => ∃ id, c.Uses id ∧ id.render = text⟩

/-- What comes of the caller's working alone. -/
def alone (c : Caller) (h : Host) : Except Crash (List ProjectOperation.Outcome) × Host :=
  Program.run (Host.serveFrom c.fresh) c.plan h

theorem owns_fresh (c : Caller) (n : Nat) : c.holding.owns (c.fresh n).render :=
  ⟨_, .inr (.inl ⟨n, rfl⟩), rfl⟩

theorem keeps_plan (c : Caller) :
    c.holding.Keeps c.store.collection c.fresh c.plan fun _ => True :=
  ProjectOperation.keeps_runAll (m := c.holding) c.owns_fresh ⟨_, .inl rfl, rfl⟩ c.operations
    fun op hop id hid => ⟨id, .inr (.inr ⟨op, hop, hid⟩), rfl⟩

end Caller

/-! ## Taking turns -/

/-- Somebody at work, in surroundings of its own. -/
structure Party (α : Type) where
  /-- What is left of the plan. -/
  plan : Except Crash (Plan α)
  fresh : Nat → Uuid
  host : Host

/-- Makes a single request. -/
def Party.step {α : Type} (p : Party α) : Party α :=
  match p.plan with
  | .ok plan =>
    let (plan, host) := plan.step (Host.serveFrom p.fresh) p.host
    { p with plan, host }
  | .error _ => p

/-- Two at work on one store. With `shares`, what is remembered of the collection is remembered for
both. -/
structure Duo (α β : Type) where
  shares : Bool
  left : Party α
  right : Party β

inductive Side where
  | left | right
deriving DecidableEq, Repr

def Side.other : Side → Side
  | left => right
  | right => left

/-- The surroundings with the store of others. -/
def Host.withStoreOf (h : Host) (shares : Bool) (k : Host) : Host :=
  { h with
    store := k.store
    isReady := if shares then k.isReady else h.isReady
    isIndexed := if shares then k.isIndexed else h.isIndexed }

namespace Duo

variable {α β : Type}

def swap (d : Duo α β) : Duo β α := ⟨d.shares, d.right, d.left⟩

/-- A request of the left one, after which the right one has the same store. -/
def stepLeft (d : Duo α β) : Duo α β :=
  { d with
    left := d.left.step
    right := { d.right with host := d.right.host.withStoreOf d.shares d.left.step.host } }

def step : Side → Duo α β → Duo α β
  | .left, d => d.stepLeft
  | .right, d => d.swap.stepLeft.swap

/-- Requests in turns. -/
def run (d : Duo α β) (turns : List Side) : Duo α β := turns.foldl (fun d side => d.step side) d

/-- Both are done. -/
def Ends (d : Duo α β) (a : α) (b : β) : Prop :=
  d.left.plan = .ok (.pure a) ∧ d.right.plan = .ok (.pure b)

/-- Two callers that have not begun. -/
def ofCallers (shares : Bool) (c d : Caller) (h k : Host) :
    Duo (List ProjectOperation.Outcome) (List ProjectOperation.Outcome) :=
  ⟨shares, ⟨.ok c.plan, c.fresh, h⟩, ⟨.ok d.plan, d.fresh, k⟩⟩

end Duo

/-! ## What turns do -/

theorem Host.withStoreOf_reliable {h k : Host} (hh : h.IsReliable) (hk : k.IsReliable)
    (shares : Bool) : (h.withStoreOf shares k).IsReliable :=
  ⟨hh.faults, hk.store⟩

/-- The party keeps to what belongs to it, in reliable surroundings. -/
structure Party.Sound (m : Holding) (collection : String) {α : Type} (p : Party α) : Prop where
  plan : ∃ plan, p.plan = .ok plan ∧ plan.Within (m.Allows collection) m.Gives fun _ => True
  fresh : ∀ n, m.owns (p.fresh n).render
  reliable : p.host.IsReliable

/-- A request of a party does to the collections what a call does that keeps to what belongs to the
party, or nothing. -/
theorem Party.Sound.step {m : Holding} {collection : String} {α : Type} {p : Party α}
    (hp : p.Sound m collection) (hthere : Keyed.contains collection p.host.collections = true) :
    p.step.Sound m collection ∧ p.step.fresh = p.fresh ∧
      (p.step.host.collections = p.host.collections ∨ ∃ call, m.Permits collection call ∧
        p.step.host.collections = (p.host.collections.answer call).2) ∧
      (∀ a, p.plan = .ok (.pure a) → p.step = p) ∧
      ∀ r next, p.plan = .ok (.ask r next) → ∃ answer,
        Host.serveFrom p.fresh r p.host = (.ok answer, p.step.host) ∧
          p.step.plan = .ok (next answer) := by
  obtain ⟨plan, hplan, hwithin⟩ := hp.plan
  cases plan with
  | pure a =>
    have hstep : p.step = p := by
      rw [Party.step, hplan]
      exact congrArg (fun plan => { p with plan }) hplan.symm
    rw [hstep]
    refine ⟨hp, rfl, .inl rfl, fun _ _ => rfl, fun r next hask => ?_⟩
    cases hplan.symm.trans hask
  | ask r next =>
    obtain ⟨answer, h', hserve, hgives, hr, hcollections⟩ :=
      Host.serve_allowed hp.fresh hp.reliable hthere hwithin.1
    have hstep : p.step = { p with plan := .ok (next answer), host := h' } := by
      rw [Party.step, hplan]
      simp only [Program.step, hserve, Except.map]
    rw [hstep]
    refine ⟨⟨⟨_, rfl, hwithin.2 answer hgives⟩, hp.fresh, hr⟩, rfl, hcollections, fun a hpure => ?_,
      fun r' next' hask => ?_⟩
    · cases hplan.symm.trans hpure
    · cases hplan.symm.trans hask
      exact ⟨answer, hserve, rfl⟩

namespace Duo

/-- Both keep to what belongs to them, and they have the same store. -/
structure Sound (m n : Holding) (collection : String) {α β : Type} (d : Duo α β) : Prop where
  left : d.left.Sound m collection
  right : d.right.Sound n collection
  store : d.right.host.store = d.left.host.store
  divides : d.left.host.collections.Divides m n collection

namespace Sound

variable {m n : Holding} {collection : String} {α β : Type} {d : Duo α β}

theorem collections_eq (hd : d.Sound m n collection) :
    d.right.host.collections = d.left.host.collections :=
  congrArg (fun store : VectorStore => store.toMemory.collections) hd.store

theorem swap (hd : d.Sound m n collection) : d.swap.Sound n m collection :=
  ⟨hd.right, hd.left, hd.store.symm, hd.collections_eq ▸ hd.divides.symm⟩

theorem there (hd : d.Sound m n collection) :
    Keyed.contains collection d.left.host.collections = true := by
  obtain ⟨c, hc, _⟩ := hd.divides
  exact Collections.contains_of_get? hc

theorem agreeOn (hd : d.Sound m n collection) :
    d.left.host.AgreeOn m collection d.left.host := by
  obtain ⟨c, hc, hdiv⟩ := hd.divides
  exact ⟨hd.left.reliable, hd.left.reliable, rfl, rfl, c, c, hc, hc, hdiv.filed.agreeOn⟩

/-- A request of the left one changes nothing that belongs to the right one. -/
theorem stepLeft (hd : d.Sound m n collection) (apart : m.Apart n) :
    d.stepLeft.Sound m n collection ∧ d.right.host.AgreeOn n collection d.stepLeft.right.host := by
  obtain ⟨hleft, _, hcollections, _⟩ := hd.left.step hd.there
  have hother : d.left.step.host.collections.Divides m n collection ∧
      d.left.host.collections.AgreeOn n collection d.left.step.host.collections := by
    rcases hcollections with hsame | ⟨call, hcall, hchange⟩
    · obtain ⟨c, hc, hdiv⟩ := hd.divides
      rw [hsame]
      exact ⟨⟨c, hc, hdiv⟩, c, c, hc, hc, hdiv.filed.agreeOn⟩
    · obtain ⟨hdiv, hagree⟩ :=
        Collections.agreeOn_answer_other hd.divides.symm apart.symm hcall
      rw [hchange]
      exact ⟨hdiv.symm, hagree⟩
  have hreliable := Host.withStoreOf_reliable hd.right.reliable hleft.reliable d.shares
  refine ⟨⟨hleft, ⟨hd.right.plan, hd.right.fresh, hreliable⟩, rfl, hother.1⟩,
    hd.right.reliable, hreliable, rfl, rfl, ?_⟩
  rw [hd.collections_eq]
  exact hother.2

theorem step (hd : d.Sound m n collection) (apart : m.Apart n) (side : Side) :
    (d.step side).Sound m n collection := by
  cases side with
  | left => exact (hd.stepLeft apart).1
  | right => exact (hd.swap.stepLeft apart.symm).1.swap

theorem run (hd : d.Sound m n collection) (apart : m.Apart n) (turns : List Side) :
    (d.run turns).Sound m n collection := by
  induction turns generalizing d with
  | nil => exact hd
  | cons side turns ih => exact ih (hd.step apart side)

/-- What the left one does is a run amid changes that do not concern it. -/
theorem runsAmid (hd : d.Sound m n collection) (apart : m.Apart n) (turns : List Side) {p : Plan α}
    {a : α} (hp : d.left.plan = .ok p) (hend : (d.run turns).left.plan = .ok (.pure a)) :
    ∃ h, p.RunsAmid (Host.serveFrom d.left.fresh) (Host.AgreeOn m collection) d.left.host a h ∧
      h.AgreeOn m collection (d.run turns).left.host := by
  induction turns generalizing d p with
  | nil =>
    cases hp.symm.trans hend
    exact ⟨_, .pure a _, hd.agreeOn⟩
  | cons side turns ih =>
    cases side with
    | left =>
      obtain ⟨_, hfresh, _, hpure, hask⟩ := hd.left.step hd.there
      cases p with
      | pure b =>
        have hsame : (d.step .left).left = d.left := hpure b hp
        have := ih (hd.step apart .left) (hsame ▸ hp) hend
        rwa [hsame] at this
      | ask r next =>
        obtain ⟨answer, hserve, hnext⟩ := hask r next hp
        obtain ⟨h, hrest, hagree⟩ := ih (hd.step apart .left) hnext hend
        rw [show (d.step .left).left.fresh = d.left.fresh from hfresh] at hrest
        exact ⟨h, .ask hd.agreeOn hserve hrest, hagree⟩
    | right =>
      have hbetween := (hd.swap.stepLeft apart.symm).2
      obtain ⟨h, hrest, hagree⟩ := ih (hd.step apart .right) hp hend
      obtain ⟨h', hrun, hsame⟩ := hrest.of_env (fun _ _ _ => Host.AgreeOn.trans) hbetween
        (hagree.trans hagree.symm)
      exact ⟨h', hrun, hsame.trans hagree⟩

/-- The left one is done if it is its turn often enough. -/
theorem leftEnds (hd : d.Sound m n collection) (apart : m.Apart n) :
    ∃ turns a, (d.run turns).left.plan = .ok (.pure a) ∧
      (d.run turns).right.plan = d.right.plan := by
  obtain ⟨p, hp, _⟩ := hd.left.plan
  induction p generalizing d with
  | pure a => exact ⟨[], a, hp, rfl⟩
  | ask r next ih =>
    obtain ⟨_, _, _, _, hask⟩ := hd.left.step hd.there
    obtain ⟨answer, _, hnext⟩ := hask r next hp
    obtain ⟨_, hplan, hwithin⟩ := (hd.step apart .left).left.plan
    obtain ⟨turns, a, hend, hright⟩ := ih answer (hd.step apart .left) hnext
      (Except.ok.inj (hplan.symm.trans hnext) ▸ hwithin)
    exact ⟨.left :: turns, a, hend, hright⟩

end Sound

theorem run_append (d : Duo α β) (turns more : List Side) :
    d.run (turns ++ more) = (d.run turns).run more :=
  List.foldl_append

theorem swap_run (d : Duo α β) (turns : List Side) :
    (d.run turns).swap = d.swap.run (turns.map Side.other) := by
  induction turns generalizing d with
  | nil => rfl
  | cons side turns ih => cases side <;> exact ih _

end Duo

/-! ## The outcome -/

namespace Host

/-- The points of a collection that tell the id of a project. -/
def pointsAbout (h : Host) (collection : String) (id : Uuid) : List Point :=
  (h.pointsOf collection).filter fun p => (SymbolStore.projectFilter id).accepts p.payload

theorem AgreeOn.pointsAbout {m : Holding} {collection : String} {h k : Host}
    (hk : h.AgreeOn m collection k) :
    h.pointsAbout collection m.project = k.pointsAbout collection m.project := by
  obtain ⟨c, d, hc, hd, hsame⟩ := hk.collections
  have hconfines : m.Confines (SymbolStore.projectFilter m.project) :=
    fun payload haccepts => Payload.accepts_projectFilter.mp haccepts
  have hfound := hsame.filter_eq hconfines fun _ => true
  rw [Host.pointsAbout, Host.pointsAbout, pointsOf, pointsOf]
  rw [show Keyed.get? collection h.store.toMemory.collections = some c from hc,
    show Keyed.get? collection k.store.toMemory.collections = some d from hd]
  rw [List.filter_true, List.filter_true] at hfound
  refine List.filter_map.trans (Eq.trans ?_ List.filter_map.symm)
  exact congrArg (List.map (·.2)) hfound

end Host

section

variable {c d : Caller} {h k : Host} {points : Collection}

theorem Duo.sound_ofCallers (shares : Bool) (hname : d.store.collection = c.store.collection)
    (hh : h.IsReliable) (hk : k.IsReliable) (hstore : k.store = h.store)
    (hpoints : Keyed.get? c.store.collection h.collections = some points)
    (hdiv : points.Divides c.holding d.holding) :
    (Duo.ofCallers shares c d h k).Sound c.holding d.holding c.store.collection :=
  ⟨⟨⟨_, rfl, c.keeps_plan.within⟩, c.owns_fresh, hh⟩,
    ⟨⟨_, rfl, hname ▸ d.keeps_plan.within⟩, d.owns_fresh, hk⟩, hstore, points, hpoints, hdiv⟩

/-- What the left one gives and leaves is what comes of its working alone. -/
theorem Duo.Sound.alone {β : Type} {m n : Holding} {duo : Duo (List ProjectOperation.Outcome) β}
    {turns : List Side} {xs : List ProjectOperation.Outcome} {collection : String}
    (hduo : duo.Sound m n collection) (apart : m.Apart n) (hm : m = c.holding)
    (hname : collection = c.store.collection) (hleft : duo.left = ⟨.ok c.plan, c.fresh, h⟩)
    (hend : (duo.run turns).left.plan = .ok (.pure xs)) :
    ∃ h', c.alone h = (.ok xs, h') ∧
      (duo.run turns).left.host.pointsAbout collection c.project =
        h'.pointsAbout collection c.project := by
  subst hm hname
  obtain ⟨g, hrun, hagree⟩ := hduo.runsAmid apart turns (p := c.plan) (by rw [hleft]) hend
  have hself := hduo.agreeOn
  rw [hleft] at hrun hself
  obtain ⟨h', hrun', hagree', _⟩ := c.keeps_plan.settles hself hrun
  exact ⟨h', hrun', (hagree.symm.trans hagree').pointsAbout⟩

/-- Two callers that work on different projects of a collection do not notice each other, whatever
the order of their requests: both come to an end, and what each of them is given, and the points that
tell the id of its project, are what comes of its working alone. -/
theorem undisturbed_of_turns (shares : Bool) (hname : d.store.collection = c.store.collection)
    (hh : h.IsReliable) (hk : k.IsReliable) (hstore : k.store = h.store)
    (hpoints : Keyed.get? c.store.collection h.collections = some points)
    (apart : c.holding.Apart d.holding) (hdiv : points.Divides c.holding d.holding)
    (turns : List Side) :
    (∃ more xs ys, ((Duo.ofCallers shares c d h k).run (turns ++ more)).Ends xs ys) ∧
      ∀ xs ys, ((Duo.ofCallers shares c d h k).run turns).Ends xs ys →
        (∃ h', c.alone h = (.ok xs, h') ∧
          ((Duo.ofCallers shares c d h k).run turns).left.host.pointsAbout c.store.collection
            c.project = h'.pointsAbout c.store.collection c.project) ∧
        ∃ k', d.alone k = (.ok ys, k') ∧
          ((Duo.ofCallers shares c d h k).run turns).right.host.pointsAbout c.store.collection
            d.project = k'.pointsAbout c.store.collection d.project := by
  have hsound := Duo.sound_ofCallers shares hname hh hk hstore hpoints hdiv
  constructor
  · have hrun := hsound.run apart turns
    obtain ⟨first, xs, hleft, _⟩ := hrun.leftEnds apart
    obtain ⟨then', ys, hright, hkept⟩ := (hrun.run apart first).swap.leftEnds apart.symm
    refine ⟨first ++ then'.map Side.other, xs, ys, ?_⟩
    rw [Duo.run_append, Duo.run_append]
    have hswap := Duo.swap_run (((Duo.ofCallers shares c d h k).run turns).run first).swap then'
    have hleft' := congrArg (fun duo => duo.left.plan) hswap
    have hright' := congrArg (fun duo => duo.right.plan) hswap
    exact ⟨hleft'.symm.trans (hkept.trans hleft), hright'.symm.trans hright⟩
  · rintro xs ys ⟨hleft, hright⟩
    refine ⟨hsound.alone apart rfl rfl rfl hleft, ?_⟩
    have hswap := Duo.swap_run (Duo.ofCallers shares c d h k) turns
    have hright' := (congrArg (fun duo => duo.left.plan) hswap.symm).trans hright
    obtain ⟨k', hk', hsame⟩ := hsound.swap.alone apart.symm rfl hname.symm rfl hright'
    rw [← hswap] at hsame
    exact ⟨k', hk', hsame⟩

end

section

set_option maxRecDepth 100000

/-- A file without symbols. -/
def SourceFile.blank : SourceFile :=
  { path := "a.py", language := "python", hash := "", size := 0, modified := ⟨0, 0⟩ }

theorem SourceFile.length_ids_blank : ([] : List Uuid).length = blank.symbolCount := rfl

/-- A caller that writes a project and a file and reads the file back. Its ids are odd. -/
def Caller.writing : Caller where
  store := .patient
  project := .ofNat 1
  operations := [
    .storeProject { id := .ofNat 1, name := "r", rootPath := "/r" },
    .storeFiles [⟨.blank, [], SourceFile.length_ids_blank⟩],
    .loadFiles]
  fresh n := .ofNat (2 * n + 3)

/-- A caller that deletes a project and looks for it. Its ids are even. -/
def Caller.deleting : Caller where
  store := .patient
  project := .ofNat 2
  operations := [.deleteProject, .loadProject]
  fresh n := .ofNat (2 * n + 4)

/-- A collection with the project that is to be deleted. -/
def Collection.mingled : Collection where
  shape := ⟨"points", 0, .cosine⟩
  points := [((Uuid.ofNat 2).render,
    ⟨(Uuid.ofNat 2).render, [], .ofProject { id := .ofNat 2, name := "s", rootPath := "/s" }⟩)]

/-- The surroundings of both callers. -/
def Host.mingled : Host := { store := .memory { collections := [("points", .mingled)] } }

/-- Both in turns, until they are done. -/
def mingledTurns : List Side := (List.replicate 17 [Side.left, .right]).flatten

/-- Whether both are done. -/
def Duo.isOver {α β : Type} (d : Duo α β) : Bool :=
  match d.left.plan, d.right.plan with
  | .ok (.pure _), .ok (.pure _) => true
  | _, _ => false

theorem Duo.ends_of_isOver {α β : Type} {d : Duo α β} (h : d.isOver = true) : ∃ a b, d.Ends a b := by
  rw [isOver] at h
  split at h
  · next a b hleft hright => exact ⟨a, b, hleft, hright⟩
  · cases h

theorem Uuid.parity {a b : Nat} (h : ofNat a = ofNat b) : a % 2 = b % 2 := by
  have hnumber := congrArg (fun u : Uuid => u.number.toNat) h
  simp only [ofNat, BitVec.toNat_ofNat] at hnumber
  omega

theorem Caller.writing_odd {id : Uuid} (h : writing.Uses id) : ∃ n, id = .ofNat (2 * n + 1) := by
  rcases h with rfl | ⟨n, rfl⟩ | ⟨op, hop, hid⟩
  · exact ⟨0, rfl⟩
  · exact ⟨n + 1, rfl⟩
  · simp only [writing, List.mem_cons, List.not_mem_nil, or_false] at hop
    rcases hop with rfl | rfl | rfl <;> cases hid

theorem Caller.deleting_even {id : Uuid} (h : deleting.Uses id) : ∃ n, id = .ofNat (2 * n) := by
  rcases h with rfl | ⟨n, rfl⟩ | ⟨op, hop, hid⟩
  · exact ⟨1, rfl⟩
  · exact ⟨n + 2, rfl⟩
  · simp only [deleting, List.mem_cons, List.not_mem_nil, or_false] at hop
    rcases hop with rfl | rfl <;> cases hid

theorem Caller.apart_writing : Caller.writing.holding.Apart Caller.deleting.holding where
  project h := by
    have := Uuid.parity (a := 1) (b := 2) h
    omega
  ids := by
    rintro text ⟨id, hid, rfl⟩ ⟨id', hid', hrender⟩
    obtain ⟨a, rfl⟩ := writing_odd hid
    obtain ⟨b, rfl⟩ := deleting_even hid'
    have := Uuid.parity (Uuid.render_inj.mp hrender)
    omega

theorem Collection.divides_mingled :
    Collection.mingled.Divides Caller.writing.holding Caller.deleting.holding := by
  have htag : Caller.deleting.holding.Tags
      ⟨(Uuid.ofNat 2).render, [], .ofProject { id := .ofNat 2, name := "s", rootPath := "/s" }⟩ :=
    Payload.projectId?_ofProject _
  refine ⟨⟨List.pairwise_singleton _ _, fun e he => ?_⟩, fun e he hwriting => ?_, fun e he _ => ?_⟩
  · rw [List.mem_singleton.mp he]
  · rw [List.mem_singleton.mp he] at hwriting
    exact absurd htag (Caller.apart_writing.not_tags hwriting)
  · rw [List.mem_singleton.mp he]
    rintro ⟨id, hid, hrender⟩
    obtain ⟨n, rfl⟩ := Caller.writing_odd hid
    have := Uuid.parity (Uuid.render_inj.mp hrender)
    omega

theorem undisturbed_of_mingled : ∃ xs ys h' k',
    ((Duo.ofCallers true .writing .deleting .mingled .mingled).run mingledTurns).Ends xs ys ∧
    Caller.writing.alone .mingled = (.ok xs, h') ∧ Caller.deleting.alone .mingled = (.ok ys, k') ∧
      (h'.pointsAbout "points" (.ofNat 1)).length = 2 ∧
      (k'.pointsAbout "points" (.ofNat 2)).length = 0 := by
  have hends : ((Duo.ofCallers true .writing .deleting .mingled .mingled).run mingledTurns).isOver =
      true := by decide +kernel
  have hleft : (((Duo.ofCallers true .writing .deleting .mingled .mingled).run
      mingledTurns).left.host.pointsAbout "points" (.ofNat 1)).length = 2 := by decide +kernel
  have hright : (((Duo.ofCallers true .writing .deleting .mingled .mingled).run
      mingledTurns).right.host.pointsAbout "points" (.ofNat 2)).length = 0 := by decide +kernel
  obtain ⟨xs, ys, hover⟩ := Duo.ends_of_isOver hends
  obtain ⟨⟨h', hh', hpoints⟩, k', hk', hpoints'⟩ := (undisturbed_of_turns (c := .writing)
    (d := .deleting) true rfl ⟨rfl, _, rfl⟩ ⟨rfl, _, rfl⟩ rfl rfl
    Caller.apart_writing Collection.divides_mingled mingledTurns).2 xs ys hover
  rw [show Caller.writing.project = Uuid.ofNat 1 from rfl] at hpoints
  rw [show Caller.deleting.project = Uuid.ofNat 2 from rfl] at hpoints'
  exact ⟨xs, ys, h', k', hover, hh', hk', hpoints ▸ hleft, hpoints' ▸ hright⟩

end

end CodeAtlas
