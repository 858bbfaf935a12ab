import CodeAtlas.Proofs.Calls
import CodeAtlas.Proofs.Drafts
import CodeAtlas.Proofs.Requests
/-!
# Writing with and without an embedder

Embedders may fail, or give too few vectors, too many, or some that do not fit, and something else
every time that they are asked. Nothing of what is stored depends on it but the vectors: with
vectors taken for blank ones, a store with an embedder works as one without.

Results:
1. `Host.serve_blank`: what is given and left does not depend on the vectors of points, but for
   reading them.
2. `Host.run_replies`: the embedder of some surroundings is one that always replies the same.
3. `Blanks.run`: plans that differ in vectors alone give the same, and leave the same but for
   vectors.
4. `SymbolStore.blanks_storeFiles`: files are written as without an embedder.
-/

namespace CodeAtlas

/-! ## Blank vectors -/

/-- A point with a blank vector of the same size. -/
def Point.blank (p : Point) : Point := { p with vector := List.replicate p.vector.length .zero }

namespace Collection

/-- A collection with blank vectors. -/
def blank (c : Collection) : Collection :=
  { c with points := c.points.map fun (id, p) => (id, p.blank) }

end Collection

/-- Collections with blank vectors. -/
def Collections.blank (cs : Collections) : Collections := cs.map fun (name, c) => (name, c.blank)

/-- A call that writes points with blank vectors. -/
def ClientCall.blank : ClientCall → ClientCall
  | upsert name points => upsert name (points.map Point.blank)
  | call => call

/-- A store with blank vectors. -/
def VectorStore.blank : VectorStore → VectorStore
  | memory s => memory { s with collections := s.collections.blank }
  | remote s => remote s

/-- Surroundings with blank vectors, in their points and in the calls that have been made, that do
not tell what an embedder has been asked for. -/
def Host.blank (h : Host) : Host :=
  { h with store := h.store.blank, calls := h.calls.map ClientCall.blank, embeddings := [] }

namespace Collection

theorem blank_upsert (c : Collection) (points : List Point) :
    c.blank.upsert (points.map Point.blank) = (c.upsert points).blank := by
  have hpoints : ∀ entries : List (String × Point),
      (points.map Point.blank).foldl (fun acc p => Keyed.insert p.id p acc)
        (entries.map fun (id, p) => (id, p.blank)) =
      (points.foldl (fun acc p => Keyed.insert p.id p acc) entries).map
        fun (id, p) => (id, p.blank) := by
    induction points with
    | nil => exact fun _ => rfl
    | cons p rest ih =>
      intro entries
      rw [List.map_cons, List.foldl_cons, List.foldl_cons, ← ih, ← Keyed.insert_map]
      rfl
  rw [upsert, upsert, blank, blank, hpoints]

theorem blank_delete (c : Collection) (filter : Filter) :
    c.blank.delete filter = (c.delete filter).blank := by
  rw [delete, delete, blank, blank, List.filter_map]
  rfl

end Collection

namespace Collections

theorem blank_changing {cs : Collections} {name : String}
    {f g : Collection → Except Failure Collection}
    (h : ∀ c, g c.blank = (f c).map Collection.blank) :
    cs.blank.changing name g = ((cs.changing name f).1, (cs.changing name f).2.blank) := by
  rw [changing, changing, require, require, blank, Keyed.get?_map]
  cases hc : Keyed.get? name cs with
  | none => rfl
  | some c =>
    rw [Option.map_some]
    dsimp only [Except.bind]
    rw [h]
    cases f c with
    | error e => rfl
    | ok d => exact congrArg (Prod.mk _) (Keyed.insert_map Collection.blank name d cs)

theorem checkSizes_blank (c : Collection) (points : List Point) :
    checkSizes c.blank (points.map Point.blank) = checkSizes c points := by
  have hlength : ∀ p : Point, p.blank.vector.length = p.vector.length := fun _ =>
    List.length_replicate
  have hsame : ((fun p : Point => p.vector.length != c.blank.shape.vectorSize) ∘ Point.blank) =
      fun p => p.vector.length != c.shape.vectorSize := funext fun p => by
    rw [Function.comp_apply, hlength]
    rfl
  rw [checkSizes, checkSizes, List.find?_map, hsame]
  cases points.find? (fun p => p.vector.length != c.shape.vectorSize) with
  | none => rfl
  | some p => exact congrArg (fun n => Except.error (Failure.storage
      ("Wrong vector dimension: expected " ++ toString c.shape.vectorSize ++ ", got " ++
        toString n))) (hlength p)

end Collections

/-- Whether a collection is there does not depend on its vectors. -/
theorem Collections.contains_blank (cs : Collections) (name : String) :
    Keyed.contains name cs.blank = Keyed.contains name cs := by
  rw [blank, Keyed.contains, Keyed.get?_map, Option.isSome_map, Keyed.contains]

namespace ClientCall

/-- What comes of a call tells nothing of vectors. -/
def IsReticent : ClientCall → Prop
  | retrieve _ _ | scroll _ _ _ _ | search _ _ _ _ => False
  | _ => True

/-- What comes of a call, as something that comes of the call with blank vectors. -/
def blanked : (call : ClientCall) → call.Result → call.blank.Result
  | hasCollection _, result => result
  | create _, result => result
  | createIndex _ _, result => result
  | upsert _ _, result => result
  | retrieve _ _, result => result
  | scroll _ _ _ _, result => result
  | delete _ _, result => result
  | search _ _ _ _, result => result

@[simp] theorem blanked_error (call : ClientCall) (e : Failure) :
    call.blanked (.error e) = .error e := by
  cases call <;> rfl

@[simp] theorem operation_blank (call : ClientCall) : call.blank.operation = call.operation := by
  cases call <;> rfl

end ClientCall

/-- What comes of a call that tells nothing of vectors is the same if all vectors are blank. -/
theorem Collections.answer_blank (cs : Collections) {call : ClientCall} (hcall : call.IsReticent) :
    cs.blank.answer call.blank = (call.blanked (cs.answer call).1, (cs.answer call).2.blank) := by
  cases call with
  | hasCollection name => exact congrArg (fun b => (Except.ok b, cs.blank)) (cs.contains_blank name)
  | create shape =>
    change cs.blank.answer (.create shape) = _
    rw [answer, answer, contains_blank]
    split
    · rfl
    · exact congrArg (Prod.mk _) (Keyed.insert_map Collection.blank shape.name { shape } cs)
  | createIndex name key => exact blank_changing fun c => rfl
  | upsert name points =>
    refine blank_changing fun c => ?_
    rw [checkSizes_blank, Collection.blank_upsert]
    cases checkSizes c points <;> rfl
  | delete name filter =>
    change cs.blank.answer (.delete name filter) = _
    rw [answer, answer]
    split
    · rfl
    · exact blank_changing fun c => congrArg Except.ok (c.blank_delete filter)
  | _ => cases hcall

theorem VectorStore.answer_blank (store : VectorStore) {call : ClientCall}
    (hcall : call.IsReticent) : store.blank.answer call.blank =
      (call.blanked (store.answer call).1, (store.answer call).2.blank) := by
  cases store with
  | remote s =>
    refine Prod.ext ?_ rfl
    cases call with
    | upsert name points => cases points <;> rfl
    | delete name filter =>
      obtain ⟨conditions⟩ := filter
      cases conditions <;> rfl
    | hasCollection _ => rfl
    | create _ => rfl
    | createIndex _ _ => rfl
    | _ => cases hcall
  | memory m =>
    simp only [blank, answer, MemoryStore.answer, ClientCall.operation_blank]
    -- which calls fail has nothing to do with vectors
    have htake : MemoryStore.takeFailure { m with collections := m.collections.blank }
        call.operation = ((m.takeFailure call.operation).1, { (m.takeFailure call.operation).2 with
          collections := (m.takeFailure call.operation).2.collections.blank }) := by
      unfold MemoryStore.takeFailure
      dsimp only
      split
      · rfl
      · split <;> rfl
    rw [htake]
    cases m.takeFailure call.operation with
    | mk failed m' =>
      cases failed with
      | true =>
        dsimp only
        rw [ClientCall.blanked_error]
      | false =>
        dsimp only
        rw [m'.collections.answer_blank hcall]

/-- What comes of a call that tells nothing of vectors is the same if all vectors are blank,
whatever mishaps wait for it. -/
theorem Host.serve_blank (h : Host) {call : ClientCall} (hcall : call.IsReticent) :
    serve (.client call.blank) h.blank = ((serve (.client call) h).1.map call.blanked,
      (serve (.client call) h).2.blank) := by
  have hgo : ∀ g : Host, answerCall.go g.blank call.blank =
      ((answerCall.go g call).1.map call.blanked, (answerCall.go g call).2.blank) := by
    intro g
    simp only [answerCall.go, blank, g.store.answer_blank hcall]
    rfl
  simp only [serve, answerCall, ClientCall.operation_blank, show h.blank.faults = h.faults from rfl]
  generalize takeFault call.operation h.faults = t
  obtain ⟨mishap, faults⟩ := t
  have hreached := hgo { h with faults, calls := call :: h.calls }
  cases mishap with
  | none => exact hreached
  | some mishap =>
    cases mishap with
    | failure e =>
      dsimp only [Except.map]
      rw [ClientCall.blanked_error]
      rfl
    | crash message => rfl
    | absent =>
      cases call with
      | hasCollection name => rfl
      | create shape => exact hreached
      | createIndex name key => exact hreached
      | upsert name points => exact hreached
      | delete name filter => exact hreached
      | _ => cases hcall

/-- Vectors are neither written nor told of. -/
def Request.IsMute : Request → Prop
  | client (.hasCollection _) | client (.create _) | client (.createIndex _ _)
  | client (.delete _ _) => True
  | client _ | embed _ | embedAll _ => False
  | _ => True

theorem Request.IsMute.isReticent {call : ClientCall} (h : IsMute (.client call)) :
    call.IsReticent := by
  cases call <;> trivial

theorem Host.serve_mute (h : Host) {r : Request} (hr : r.IsMute) :
    serve r h.blank = ((serve r h).1, (serve r h).2.blank) := by
  cases r with
  | client call =>
    have hserve := h.serve_blank hr.isReticent
    cases call with
    | hasCollection _ => exact hserve.trans (Prod.ext (congrFun Except.map_id _) rfl)
    | create _ => exact hserve.trans (Prod.ext (congrFun Except.map_id _) rfl)
    | createIndex _ _ => exact hserve.trans (Prod.ext (congrFun Except.map_id _) rfl)
    | delete _ _ => exact hserve.trans (Prod.ext (congrFun Except.map_id _) rfl)
    | _ => cases hr
  | embed text => cases hr
  | embedAll texts => cases hr
  | hasReached m => cases m <;> rfl
  | reach m => cases m <;> rfl
  | change c =>
    simp only [serve, show h.blank.disk = h.disk from rfl]
    split <;> rfl
  | _ => rfl

/-- Points are written as if their vectors were blank. -/
theorem Host.serve_upsert (h : Host) (name : String) (points : List Point) :
    serve (.client (.upsert name (points.map Point.blank))) h.blank =
      ((serve (.client (.upsert name points)) h).1,
        (serve (.client (.upsert name points)) h).2.blank) :=
  (h.serve_blank (show ClientCall.IsReticent (.upsert name points) from trivial)).trans
    (Prod.ext (congrFun Except.map_id _) rfl)

/-! ## Plans that differ in vectors -/

/-- What an embedder has been asked for, and what it has replied. -/
abbrev Reply := List String × Except Failure (List Embedding)

/-- Surroundings with an embedder that may reply differently every time. -/
structure Advised where
  host : Host
  /-- How often the embedder has been asked. -/
  asked : Nat := 0
  /-- What it has replied last. -/
  heard : Option Reply := none
  /-- The calls to the store, each with what the embedder had replied last, the last first. -/
  calls : List (ClientCall × Option Reply) := []

namespace Advised

/-- What an embedder replies to texts, each time that it is asked. -/
abbrev Replies := Nat → List String → Except Failure (List Embedding)

/-- Answers a request. -/
def serve (replies : Replies) : Program.Service Request.Answer Advised
  | .embedAll texts, a =>
    let reply := replies a.asked texts
    (.ok reply, { a with
      host := (Host.serve (.embedAll texts) a.host).2
      asked := a.asked + 1
      heard := some (texts, reply) })
  | .client call, a =>
    let (result, host) := Host.serve (.client call) a.host
    (result, { a with host, calls := (call, a.heard) :: a.calls })
  | r, a =>
    let (result, host) := Host.serve r a.host
    (result, { a with host })

/-- Runs an attempt. -/
def attempt {α : Type} (replies : Replies) (h : Host) (a : Attempt α) :
    Except Crash (Except Failure α) × Advised :=
  Program.run (serve replies) a.run { host := h }

/-- Requests for anything but vectors go to the surroundings. -/
theorem serve_mute (replies : Replies) (a : Advised) {r : Request} (hr : r.IsMute) :
    (serve replies r a).1 = (Host.serve r a.host).1 ∧
      (serve replies r a).2.host = (Host.serve r a.host).2 := by
  cases r with
  | embedAll texts => cases hr
  | _ => exact ⟨rfl, rfl⟩

end Advised

namespace Host

/-- What the embedder of the surroundings replies, always the same. -/
def replies (h : Host) : Advised.Replies := fun _ texts =>
  match h.embedder with
  | some e => e.embedAll texts
  | none => .error noEmbedder

theorem embedder_serve (r : Request) (h : Host) : (serve r h).2.embedder = h.embedder := by
  cases r with
  | client call => exact (h.after_answerCall call).2.2
  | hasReached m => cases m <;> rfl
  | reach m => cases m <;> rfl
  | change c =>
    simp only [serve]
    split <;> rfl
  | _ => rfl

/-- The embedder of the surroundings is one of those that may reply differently every time. -/
theorem run_replies {α : Type} (p : Plan α) (h : Host) (a : Advised)
    (ha : a.host.embedder = h.embedder) : Program.run serve p a.host =
      ((Program.run (Advised.serve h.replies) p a).1,
        (Program.run (Advised.serve h.replies) p a).2.host) := by
  induction p generalizing a with
  | pure x => rfl
  | ask r next ih =>
    have hserve : serve r a.host = ((Advised.serve h.replies r a).1,
        (Advised.serve h.replies r a).2.host) := by
      cases r with
      | embedAll texts => exact congrArg (fun e => (Except.ok (match e with
          | some e => Embedder.embedAll e texts
          | none => .error noEmbedder), _)) ha
      | _ => rfl
    have hkept := (congrArg (·.2.embedder) hserve).symm.trans
      ((embedder_serve r a.host).trans ha)
    rw [Program.run, Program.run, hserve]
    cases hanswer : Advised.serve h.replies r a with
    | mk result a' =>
      rw [hanswer] at hkept
      cases result with
      | ok answer => exact ih answer a' hkept
      | error crash => rfl

end Host

/-- Results of two runs that both break down, or else are related. -/
def Alike {α β : Type} (R : α → β → Prop) : Except Crash α → Except Crash β → Prop
  | .ok a, .ok b => R a b
  | .error crash, .error crash' => crash = crash'
  | _, _ => False

theorem Alike.eq {α : Type} {r r' : Except Crash α} (h : Alike Eq r r') : r = r' := by
  cases r with
  | ok a =>
    cases r' with
    | ok b => exact congrArg _ h
    | error crash => cases h
  | error crash =>
    cases r' with
    | ok b => cases h
    | error crash' => exact congrArg _ h

/-- The second plan asks for the same as the first one, but for no vectors, and writes blank
ones. -/
inductive Blanks {α β : Type} (R : α → β → Prop) : Plan α → Plan β → Prop
  | pure {a : α} {b : β} (h : R a b) : Blanks R (.pure a) (.pure b)
  | embedAll {texts : List String} {next : Except Failure (List Embedding) → Plan α} {q : Plan β}
    (later : ∀ reply, Blanks R (next reply) q) : Blanks R (.ask (.embedAll texts) next) q
  | upsert {name : String} {points : List Point} {next : Except Failure Unit → Plan α}
    {next' : Except Failure Unit → Plan β}
    (later : ∀ result, Blanks R (next result) (next' result)) :
    Blanks R (.ask (.client (.upsert name points)) next)
      (.ask (.client (.upsert name (points.map Point.blank))) next')
  | ask {r : Request} {next : r.Answer → Plan α} {next' : r.Answer → Plan β} (hr : r.IsMute)
    (later : ∀ answer, Blanks R (next answer) (next' answer)) :
    Blanks R (.ask r next) (.ask r next')

namespace Blanks

variable {α β γ δ : Type} {R : α → β → Prop} {S : γ → δ → Prop} {p : Plan α} {q : Plan β}

theorem bind {f : α → Plan γ} {g : β → Plan δ} (hp : Blanks R p q)
    (hf : ∀ a b, R a b → Blanks S (f a) (g b)) : Blanks S (p >>= f) (q >>= g) := by
  induction hp with
  | pure h => exact hf _ _ h
  | embedAll _ ih => exact .embedAll ih
  | upsert _ ih => exact .upsert ih
  | ask hr _ ih => exact .ask hr ih

theorem of_mute {p : Plan α} (hp : Program.Asks Request.IsMute p) : Blanks Eq p p := by
  induction hp with
  | pure => exact .pure rfl
  | ask first _ ih => exact .ask first ih

/-- Whatever the embedder replies, the two plans give alike, and leave the same but for vectors. -/
theorem run (hp : Blanks R p q) (replies : Advised.Replies) (a : Advised) :
    Alike R (Program.run (Advised.serve replies) p a).1 (Program.run Host.serve q a.host.blank).1 ∧
      (Program.run Host.serve q a.host.blank).2 =
        (Program.run (Advised.serve replies) p a).2.host.blank := by
  induction hp generalizing a with
  | pure h => exact ⟨h, rfl⟩
  | embedAll _ ih => exact ih _ _
  | @upsert name points next next' _ ih =>
    have hserve := a.host.serve_upsert name points
    simp only [Program.run, Advised.serve, hserve]
    cases Host.serve (.client (.upsert name points)) a.host with
    | mk result host =>
      cases result with
      | ok result => exact ih result { a with host, calls := _ }
      | error crash => exact ⟨rfl, rfl⟩
  | @ask r next next' hr _ ih =>
    have hserve := a.host.serve_mute hr
    obtain ⟨hresult, hhost⟩ := a.serve_mute replies hr
    rw [Program.run, Program.run, hserve, ← hresult, ← hhost]
    cases Advised.serve replies r a with
    | mk result a' =>
      cases result with
      | ok answer => exact ih answer a'
      | error crash => exact ⟨rfl, rfl⟩

end Blanks

/-! ## Files with and without an embedder -/

theorem SymbolStore.Prepares.isMute {s : SymbolStore} {r : Request} (h : s.Prepares r) :
    r.IsMute := by
  cases h <;> trivial

theorem blanks_attempt_bind {α β : Type} {a a' : Attempt α} {f f' : α → Attempt β}
    (ha : Blanks Eq a.run a'.run) (hf : ∀ x, Blanks Eq (f x).run (f' x).run) :
    Blanks Eq (a >>= f).run (a' >>= f').run := by
  refine ha.bind fun result result' h => ?_
  subst h
  cases result with
  | ok x => exact hf x
  | error e => exact .pure rfl

theorem blanks_lift_bind {α α' β : Type} {R : α → α' → Prop} {p : Plan α} {q : Plan α'}
    {f : α → Attempt β} {g : α' → Attempt β} (hp : Blanks R p q)
    (hf : ∀ x y, R x y → Blanks Eq (f x).run (g y).run) :
    Blanks Eq (ExceptT.lift p >>= f).run (ExceptT.lift q >>= g).run := by
  rw [ExceptT.run_bind_lift, ExceptT.run_bind_lift]
  exact hp.bind hf

namespace SymbolStore

variable (s : SymbolStore)

/-- The same store without an embedder. -/
def withoutEmbedder : SymbolStore := { s with hasEmbedder := false }

theorem blanks_upsert (name : String) (points : List Point) :
    Blanks Eq (s.call (.upsert name points)).run
      (s.withoutEmbedder.call (.upsert name (points.map Point.blank))).run := by
  have hattempts : ∀ left attempt, Blanks Eq
      (s.retry.attempts (fun nanos => ask (.pause nanos)) (ask (.client (.upsert name points)))
        left attempt)
      (s.retry.attempts (fun nanos => ask (.pause nanos))
        (ask (.client (.upsert name (points.map Point.blank)))) left attempt) := by
    intro left
    induction left with
    | zero => exact fun _ => .upsert fun _ => .pure rfl
    | succ left ih =>
      intro attempt
      refine .upsert fun result => ?_
      cases result with
      | ok _ => exact .pure rfl
      | error e =>
        change Blanks Eq (ite _ _ _) (ite _ _ _)
        split
        · exact .ask trivial fun _ => ih _
        · exact .pure rfl
  exact hattempts _ _

/-- All vectors have the right size, so blank ones are placeholders. -/
theorem map_blank_fill (batch : List Draft) (vectors : List Embedding) :
    (s.fill batch vectors).map Point.blank = s.withoutEmbedder.fill batch [] := by
  induction batch generalizing vectors with
  | nil => rfl
  | cons d rest ih =>
    have hlength : (if d.text.isSome then s.fitting vectors.head? else s.placeholder).length =
        s.vectorSize := by
      split
      · exact s.length_fitting _
      · exact List.length_replicate
    rw [fill_cons, fill_cons, List.map_cons, ih, Point.blank, hlength, List.drop_nil]
    split <;> rfl

theorem blanks_vectorize (batch : List Draft) :
    Blanks (fun points points' => points' = points.map Point.blank) (s.vectorize batch)
      (s.withoutEmbedder.vectorize batch) := by
  have hfilled : ∀ vectors, Blanks (fun points points' => points' = points.map Point.blank)
      (pure (s.fill batch vectors) : Plan (List Point)) (s.withoutEmbedder.vectorize batch) :=
    fun vectors => .pure (s.map_blank_fill batch vectors).symm
  rw [vectorize, embedTexts]
  split
  · exact hfilled []
  · refine .embedAll fun reply => ?_
    cases reply with
    | ok vectors => exact hfilled _
    | error e => exact hfilled []

theorem blanks_writeBatches (batches : List (List Draft)) :
    Blanks Eq (s.writeBatches batches).run (s.withoutEmbedder.writeBatches batches).run := by
  induction batches with
  | nil => exact .pure rfl
  | cons batch rest ih =>
    refine blanks_lift_bind (s.blanks_vectorize batch) fun points points' h => ?_
    subst h
    exact blanks_attempt_bind (s.blanks_upsert s.collection points) fun _ => ih

theorem createIndexes_withoutEmbedder (keys : List String) :
    s.withoutEmbedder.createIndexes keys = s.createIndexes keys := by
  induction keys with
  | nil => rfl
  | cons key rest ih =>
    rw [createIndexes, createIndexes, ih]
    rfl

theorem createIfAbsent_withoutEmbedder :
    s.withoutEmbedder.createIfAbsent = s.createIfAbsent := by
  refine bind_congr (x := s.call (.hasCollection s.collection)) fun present => ?_
  refine ite_congr rfl (fun _ => rfl) fun _ => ?_
  refine bind_congr (x := (s.call (.create s.shape)).outcome) fun made => ?_
  cases made with
  | ok _ => rfl
  | error e =>
    refine bind_congr (x := (s.call (.hasCollection s.collection)).outcome) fun present => ?_
    rcases present with _ | _ | _ <;> rfl

/-- A collection is set up without an embedder. -/
theorem ensureCollection_withoutEmbedder :
    s.withoutEmbedder.ensureCollection = s.ensureCollection := by
  rw [ensureCollection, ensureCollection, createIndexes_withoutEmbedder,
    createIfAbsent_withoutEmbedder]

/-- Files are written as without an embedder, but for vectors. -/
theorem blanks_storeFiles (project : Uuid) (files : List FiledSource) : Blanks Eq
    (s.storeFiles project files).run (s.withoutEmbedder.storeFiles project files).run := by
  have hdrafts : Program.Asks Request.IsMute (draftAll project files) :=
    .mono (fun r (hr : r = .freshId) => hr ▸ trivial) (asks_draftAll project files)
  rw [storeFiles, storeFiles, ensureCollection_withoutEmbedder]
  split
  · exact .pure rfl
  · refine blanks_attempt_bind (.of_mute (s.asks_ensureCollection.mono fun _ => Prepares.isMute))
      fun _ => blanks_lift_bind (.of_mute hdrafts) fun drafts drafts' h => ?_
    subst h
    exact blanks_attempt_bind (s.blanks_writeBatches _) fun _ => .pure rfl

end SymbolStore

end CodeAtlas
