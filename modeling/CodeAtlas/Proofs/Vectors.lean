import CodeAtlas.Proofs.Blanks
/-!
# Which vector a point gets

Texts are sent to an embedder batch by batch, and a reply counts only if it has one vector for each
text. Points with and without text are mixed. Still a vector never gets to a point whose text it is
not for: every call that writes points follows the reply to the texts of these very points.

Results:
1. `Plan.Abides` and how it composes: what holds of every call and of what has been replied before
   it.
2. `Plan.Abides.run`: all calls of a run are as it says.
3. `SymbolStore.fills_fill`: the points of a batch have the vectors that are for their texts.
4. `SymbolStore.abides_storeFiles`: files are written with such vectors.
5. `storeFiles_advised`: embedders decide on vectors alone, and each vector is for the text of its
   point.
-/

namespace CodeAtlas

/-! ## Calls and what had been replied before -/

/-- Something other than a call, vectors or a fresh id is asked for. -/
def Request.IsAside : Request → Prop
  | client _ | embedAll _ | freshId => False
  | _ => True

theorem Host.serve_aside (h : Host) {r : Request} (hr : r.IsAside) :
    (serve r h).2.nextId = h.nextId ∧ (serve r h).2.calls = h.calls := by
  cases r with
  | client call => cases hr
  | embedAll texts => cases hr
  | freshId => cases hr
  | hasReached m => cases m <;> exact ⟨rfl, rfl⟩
  | reach m => cases m <;> exact ⟨rfl, rfl⟩
  | change c =>
    simp only [serve]
    split <;> exact ⟨rfl, rfl⟩
  | _ => exact ⟨rfl, rfl⟩

theorem Advised.serve_aside (replies : Replies) (a : Advised) {r : Request} (hr : r.IsAside) :
    serve replies r a = ((Host.serve r a.host).1, { a with host := (Host.serve r a.host).2 }) := by
  cases r with
  | client call => cases hr
  | embedAll texts => cases hr
  | freshId => cases hr
  | _ => rfl

/-- Every call that a plan makes is allowed after what the embedder has replied last. Of what the
plan gives, of the number from which on ids are fresh, and of the last reply `post` holds. -/
inductive Plan.Abides {α : Type} (allowed : ClientCall → Option Reply → Prop)
    (post : α → Nat → Option Reply → Prop) : Plan α → Nat → Option Reply → Prop
  | pure {a : α} {n : Nat} {heard : Option Reply} (h : post a n heard) :
    Abides allowed post (.pure a) n heard
  | call {call : ClientCall} {next : call.Result → Plan α} {n : Nat} {heard : Option Reply}
    (first : allowed call heard) (later : ∀ result, Abides allowed post (next result) n heard) :
    Abides allowed post (.ask (.client call) next) n heard
  | embedAll {texts : List String} {next : Except Failure (List Embedding) → Plan α} {n : Nat}
    {heard : Option Reply}
    (later : ∀ reply, Abides allowed post (next reply) n (some (texts, reply))) :
    Abides allowed post (.ask (.embedAll texts) next) n heard
  | freshId {next : Uuid → Plan α} {n : Nat} {heard : Option Reply}
    (later : Abides allowed post (next (.ofNat n)) (n + 1) heard) :
    Abides allowed post (.ask .freshId next) n heard
  | aside {r : Request} {next : r.Answer → Plan α} {n : Nat} {heard : Option Reply}
    (hr : r.IsAside) (later : ∀ answer, Abides allowed post (next answer) n heard) :
    Abides allowed post (.ask r next) n heard

namespace Plan

variable {α β : Type} {allowed : ClientCall → Option Reply → Prop}
  {mid : α → Nat → Option Reply → Prop} {post : β → Nat → Option Reply → Prop} {p : Plan α}
  {n : Nat} {heard : Option Reply}

theorem Abides.bind {f : α → Plan β} (hp : Abides allowed mid p n heard)
    (hf : ∀ a m heard', mid a m heard' → Abides allowed post (f a) m heard') :
    Abides allowed post (p >>= f) n heard := by
  induction hp with
  | pure h => exact hf _ _ _ h
  | call first _ ih => exact .call first ih
  | embedAll _ ih => exact .embedAll ih
  | freshId _ ih => exact .freshId ih
  | aside hr _ ih => exact .aside hr ih

/-- A plan that asks for neither vectors nor ids leaves the last reply the last one. -/
theorem abides_of_asks {P : Request → Prop} (hp : Program.Asks P p)
    (hP : ∀ r, P r → r.IsAside ∨ ∃ call, r = .client call ∧ allowed call heard) :
    Abides allowed (fun _ m heard' => m = n ∧ heard' = heard) p n heard := by
  induction hp with
  | pure => exact .pure ⟨rfl, rfl⟩
  | ask first _ ih =>
    rcases hP _ first with haside | ⟨call, rfl, hcall⟩
    · exact .aside haside ih
    · exact .call hcall ih

/-- What comes next comes only if the first part succeeds, and does not depend on what it gives. -/
theorem Abides.attempt_bind {a : Attempt α} {f : α → Attempt β}
    (ha : Abides allowed (fun _ m heard' => m = n ∧ heard' = heard) a.run n heard)
    (hf : ∀ x, Abides allowed (fun _ _ _ => True) (f x).run n heard) :
    Abides allowed (fun _ _ _ => True) (a >>= f).run n heard := by
  refine ha.bind ?_
  rintro (e | x) m heard' ⟨rfl, rfl⟩
  · exact .pure trivial
  · exact hf x

theorem Abides.lift_bind {f : α → Attempt β} {post : Except Failure β → Nat → Option Reply → Prop}
    (hp : Abides allowed mid p n heard)
    (hf : ∀ a m heard', mid a m heard' → Abides allowed post (f a).run m heard') :
    Abides allowed post (ExceptT.lift p >>= f).run n heard := by
  rw [ExceptT.run_bind_lift]
  exact hp.bind hf

theorem abides_call {s : SymbolStore} {call : ClientCall} (hcall : allowed call heard) :
    Abides allowed (fun _ m heard' => m = n ∧ heard' = heard) (s.call call).run n heard := by
  have hasks : (s.call call).Asks fun r =>
      r.IsAside ∨ ∃ call, r = .client call ∧ allowed call heard :=
    asks_call s call (.inr ⟨call, rfl, hcall⟩) fun _ => .inl trivial
  exact abides_of_asks hasks fun _ hr => hr

/-- All calls of a run are allowed after what the embedder had replied last. -/
theorem Abides.run (hp : Abides allowed mid p n heard) (replies : Advised.Replies) {a : Advised}
    (hn : a.host.nextId = n) (hheard : a.heard = heard) :
    ∃ made, (Program.run (Advised.serve replies) p a).2.calls = made ++ a.calls ∧
      (Program.run (Advised.serve replies) p a).2.host.calls = made.map Prod.fst ++ a.host.calls ∧
      ∀ call reply, (call, reply) ∈ made → allowed call reply := by
  induction hp generalizing a with
  | pure => exact ⟨[], rfl, rfl, fun _ _ h => nomatch h⟩
  -- a call is noted with what the embedder had replied before it
  | @call call next n heard first later ih =>
    obtain ⟨hlog, hid, _⟩ := a.host.after_answerCall call
    rw [Program.run, Advised.serve]
    cases hserve : Host.serve (.client call) a.host with
    | mk result host =>
      rw [← Host.serve, hserve] at hlog hid
      have hfirst : ∀ made : List (ClientCall × Option Reply),
          (∀ call reply, (call, reply) ∈ made → allowed call reply) →
          ∀ call' reply, (call', reply) ∈ made ++ [(call, a.heard)] → allowed call' reply := by
        intro made hmade call' reply hmem
        rcases List.mem_append.mp hmem with hmem | hmem
        · exact hmade call' reply hmem
        · cases List.mem_singleton.mp hmem
          exact hheard ▸ first
      cases result with
      | error crash => exact ⟨[(call, a.heard)], rfl, hlog, hfirst [] fun _ _ h => nomatch h⟩
      | ok result =>
        obtain ⟨made, hcalls, hlogged, hmade⟩ := @ih result
          { a with host, calls := (call, a.heard) :: a.calls } (hid.trans hn) hheard
        refine ⟨made ++ [(call, a.heard)], ?_, ?_, hfirst made hmade⟩
        · rw [List.append_assoc]
          exact hcalls
        · rw [List.map_append, List.append_assoc, List.map_singleton, List.singleton_append, ← hlog]
          exact hlogged
  | embedAll _ ih => exact @ih _ _ hn rfl
  | freshId _ ih =>
    subst hn
    exact @ih { a with host := (Host.serve .freshId a.host).2 } rfl hheard
  | @aside r next n heard hr later ih =>
    obtain ⟨hsame, hcalls⟩ := a.host.serve_aside hr
    rw [Program.run, a.serve_aside replies hr]
    cases hserve : Host.serve r a.host with
    | mk result host =>
      rw [hserve] at hsame hcalls
      cases result with
      | error crash => exact ⟨[], rfl, hcalls, fun _ _ h => nomatch h⟩
      | ok answer =>
        rw [← hcalls]
        exact @ih answer { a with host } (hsame.trans hn) hheard

end Plan

/-! ## Vectors for texts -/

namespace SymbolStore

variable (s : SymbolStore)

/-- An embedder has replied one vector for each text of a batch, and a vector is the one that it has
replied for the text of a point. -/
def IsReplied (batch : List Draft) (heard : Option Reply) (i : Nat) (v : Embedding) : Prop :=
  ∃ vectors, heard = some (texts batch, .ok vectors) ∧ vectors.length = (texts batch).length ∧
    vectors[place batch i]? = some v

/-- The points of a batch, with vectors that are as an embedder has replied last. -/
structure Fills (batch : List Draft) (heard : Option Reply) (points : List Point) : Prop where
  /-- Ids and payloads have nothing to do with vectors. -/
  entries : points.map Point.entry = batch.map Draft.entry
  sized : ∀ p ∈ points, p.vector.length = s.vectorSize
  /-- If there are texts, an embedder has been asked for them and for nothing since. -/
  asked : s.hasEmbedder = true → texts batch ≠ [] → ∃ reply, heard = some (texts batch, reply)
  unasked : s.hasEmbedder = false → heard = none
  /-- A file has no text and no vector of its own. -/
  files : ∀ p ∈ points, p.payload.IsFile → p.vector = s.placeholder
  /-- A symbol has the vector that is for its own text, if the vector fits. -/
  symbols : ∀ i d p text, batch[i]? = some d → points[i]? = some p → d.text = some text →
    (texts batch)[place batch i]? = some text ∧
      (∀ v, IsReplied batch heard i v → v.length = s.vectorSize → p.vector = v) ∧
      ((∀ v, IsReplied batch heard i v → v.length ≠ s.vectorSize) → p.vector = s.placeholder)

/-- What is called to write batches: the collection is set up, and the points of batches are written
with vectors that are as an embedder has replied last. -/
inductive Writes (all : List (List Draft)) : ClientCall → Option Reply → Prop
  | hasCollection {heard : Option Reply} : Writes all (.hasCollection s.collection) heard
  | create {heard : Option Reply} : Writes all (.create s.shape) heard
  | createIndex {heard : Option Reply} (key : String) :
    Writes all (.createIndex s.collection key) heard
  | upsert {heard : Option Reply} {batch : List Draft} {points : List Point} (hbatch : batch ∈ all)
    (hfills : s.Fills batch heard points) : Writes all (.upsert s.collection points) heard

/-- The vectors of a reply that has one for each text. -/
def vectorsOf (batch : List Draft) : Option Reply → List Embedding
  | some (_, .ok vectors) => if vectors.length == (texts batch).length then vectors else []
  | _ => []

theorem getElem?_vectorsOf {batch : List Draft} {heard : Option Reply}
    (hasked : ∀ asked reply, heard = some (asked, reply) → asked = texts batch) {i : Nat}
    {v : Embedding} :
    (vectorsOf batch heard)[place batch i]? = some v ↔ IsReplied batch heard i v := by
  rcases heard with _ | ⟨asked, e | vectors⟩
  · exact ⟨nofun, fun ⟨_, heq, _⟩ => nomatch heq⟩
  · exact ⟨nofun, fun ⟨_, heq, _⟩ => nomatch heq⟩
  · cases hasked _ _ rfl
    rw [vectorsOf]
    constructor
    · intro h
      split at h
      · next hlength => exact ⟨vectors, rfl, eq_of_beq hlength, h⟩
      · cases h
    · rintro ⟨_, heq, hlength, h⟩
      cases heq
      rwa [if_pos (beq_iff_eq.mpr hlength)]

theorem vectorsOf_of_no_texts {batch : List Draft} (hbatch : texts batch = [])
    (heard : Option Reply) : vectorsOf batch heard = [] := by
  rcases heard with _ | ⟨asked, e | vectors⟩
  · rfl
  · rfl
  · rw [vectorsOf, hbatch]
    cases vectors <;> rfl

/-- A vector that fits is taken as it is. -/
theorem fitting_eq {v : Embedding} (hv : v.length = s.vectorSize) : s.fitting (some v) = v := by
  rw [fitting, Option.filter_some, if_pos (beq_iff_eq.mpr hv)]
  rfl

theorem fitting_placeholder {v : Option Embedding}
    (hv : ∀ w, v = some w → w.length ≠ s.vectorSize) : s.fitting v = s.placeholder := by
  cases v with
  | none => rfl
  | some w =>
    rw [fitting, Option.filter_some, if_neg fun h => hv w rfl (eq_of_beq h)]
    rfl

/-- Points that take the vectors of the last reply have each the vector for its own text. -/
theorem fills_fill {batch : List Draft} {heard : Option Reply}
    (hbatch : ∀ d ∈ batch, d.text = none ↔ d.payload.IsFile)
    (hasked : s.hasEmbedder = true → texts batch ≠ [] → ∃ reply, heard = some (texts batch, reply))
    (hunasked : s.hasEmbedder = false → heard = none) :
    s.Fills batch heard (s.fill batch (vectorsOf batch heard)) := by
  -- points and drafts go together place by place
  have hpoint : ∀ (i : Nat) (p : Point), (s.fill batch (vectorsOf batch heard))[i]? = some p →
      ∃ d, batch[i]? = some d ∧ p.payload = d.payload := by
    intro i p hp
    have hentry : (batch.map Draft.entry)[i]? = some p.entry := by
      rw [← fill_entries (s := s) batch (vectorsOf batch heard), List.getElem?_map, hp]
      rfl
    rw [List.getElem?_map] at hentry
    obtain ⟨d, hd, hsame⟩ := Option.map_eq_some_iff.mp hentry
    exact ⟨d, hd, (congrArg Prod.snd hsame).symm⟩
  refine ⟨fill_entries batch _, fun p hp => ?_, hasked, hunasked, fun p hp hfile => ?_, ?_⟩
  · obtain ⟨i, hp⟩ := List.mem_iff_getElem?.mp hp
    obtain ⟨d, hd, _⟩ := hpoint i p hp
    rw [s.vector_fill hd hp]
    split
    · exact s.length_fitting _
    · exact List.length_replicate
  · obtain ⟨i, hp⟩ := List.mem_iff_getElem?.mp hp
    obtain ⟨d, hd, hpayload⟩ := hpoint i p hp
    have htext := (hbatch d (List.mem_of_getElem? hd)).mpr (hpayload ▸ hfile)
    rw [s.vector_fill hd hp, htext]
    rfl
  · intro i d p text hd hp htext
    have hplace := texts_place hd htext
    have hanswered : ∀ asked reply, heard = some (asked, reply) → asked = texts batch := by
      intro asked reply hheard
      cases hembedder : s.hasEmbedder with
      | true =>
        obtain ⟨_, hreply⟩ := hasked hembedder (List.ne_nil_of_mem (List.mem_of_getElem? hplace))
        rw [hheard] at hreply
        cases hreply
        rfl
      | false =>
        rw [hunasked hembedder] at hheard
        cases hheard
    have hvector := s.vector_fill hd hp
    rw [htext, Option.isSome_some, if_pos rfl] at hvector
    refine ⟨hplace, fun v hv hlength => ?_, fun hnone => ?_⟩
    · rw [hvector, (getElem?_vectorsOf hanswered).mpr hv, s.fitting_eq hlength]
    · rw [hvector, s.fitting_placeholder fun w hw => hnone w ((getElem?_vectorsOf hanswered).mp hw)]

/-- The points of a batch get their vectors. -/
theorem abides_vectorize {allowed : ClientCall → Option Reply → Prop} {n : Nat}
    {heard : Option Reply} {batch : List Draft}
    (hbatch : ∀ d ∈ batch, d.text = none ↔ d.payload.IsFile)
    (hunasked : s.hasEmbedder = false → heard = none) :
    Plan.Abides allowed (fun points m heard' => m = n ∧ (s.hasEmbedder = false → heard' = none) ∧
      s.Fills batch heard' points) (s.vectorize batch) n heard := by
  have hfilled : ∀ heard' vectors, vectors = vectorsOf batch heard' →
      (s.hasEmbedder = true → texts batch ≠ [] → ∃ reply, heard' = some (texts batch, reply)) →
      (s.hasEmbedder = false → heard' = none) →
      Plan.Abides allowed (fun points m heard' => m = n ∧ (s.hasEmbedder = false → heard' = none) ∧
        s.Fills batch heard' points) (pure (s.fill batch vectors)) n heard' := by
    rintro heard' vectors rfl hasked hunasked
    exact .pure ⟨rfl, hunasked, s.fills_fill hbatch hasked hunasked⟩
  rw [vectorize, embedTexts]
  split
  · next hsilent =>
    rw [Bool.or_eq_true, Bool.not_eq_true', List.isEmpty_iff] at hsilent
    refine hfilled heard [] ?_ (fun hembedder htexts => ?_) hunasked
    · rcases hsilent with hembedder | htexts
      · rw [hunasked hembedder]
        rfl
      · exact (vectorsOf_of_no_texts htexts heard).symm
    · rcases hsilent with hnone | hnone
      · rw [hembedder] at hnone
        cases hnone
      · exact absurd hnone htexts
  · next hspeaks =>
    have hembedder : s.hasEmbedder ≠ false := by
      intro hnone
      rw [hnone] at hspeaks
      exact hspeaks rfl
    refine .embedAll fun reply => ?_
    have hheard : s.hasEmbedder = false → some (texts batch, reply) = none :=
      fun hnone => absurd hnone hembedder
    cases reply with
    | error e => exact hfilled _ [] rfl (fun _ _ => ⟨_, rfl⟩) hheard
    | ok vectors => exact hfilled _ _ rfl (fun _ _ => ⟨_, rfl⟩) hheard

/-- Every batch is written with the vectors that are for its texts. -/
theorem abides_writeBatches {all : List (List Draft)} {batches : List (List Draft)} {n : Nat}
    {heard : Option Reply} (hall : ∀ batch ∈ batches, batch ∈ all)
    (htext : ∀ batch ∈ batches, ∀ d ∈ batch, d.text = none ↔ d.payload.IsFile)
    (hunasked : s.hasEmbedder = false → heard = none) :
    Plan.Abides (s.Writes all) (fun _ _ _ => True) (s.writeBatches batches).run n heard := by
  induction batches generalizing n heard with
  | nil => exact .pure trivial
  | cons batch rest ih =>
    refine (s.abides_vectorize (htext batch List.mem_cons_self) hunasked).lift_bind ?_
    rintro points m heard' ⟨rfl, hunasked', hfills⟩
    have hwrites : s.Writes all (.upsert s.collection points) heard' :=
      .upsert (hall batch List.mem_cons_self) hfills
    refine Plan.Abides.attempt_bind (Plan.abides_call hwrites) fun _ => ?_
    exact ih (fun b hb => hall b (List.mem_cons_of_mem batch hb))
      (fun b hb => htext b (List.mem_cons_of_mem batch hb)) hunasked'

theorem abides_draftAll {allowed : ClientCall → Option Reply → Prop} (project : Uuid) (n : Nat)
    (heard : Option Reply) (files : List FiledSource) :
    Plan.Abides allowed
      (fun drafts _ heard' => drafts = draftsFrom project n files ∧ heard' = heard)
      (draftAll project files) n heard := by
  induction files generalizing n with
  | nil => exact .pure ⟨rfl, rfl⟩
  | cons f rest ih =>
    refine .freshId ((ih (n + 1)).bind ?_)
    rintro drafts m heard' ⟨rfl, rfl⟩
    exact .pure ⟨rfl, rfl⟩

/-- Files are written with the vectors that are for their texts, whatever an embedder replies. -/
theorem abides_storeFiles (project : Uuid) (files : List FiledSource) (n : Nat) :
    Plan.Abides (s.Writes (batches batchSize (draftsFrom project n files))) (fun _ _ _ => True)
      (s.storeFiles project files).run n none := by
  have hprepares : ∀ r, s.Prepares r → r.IsAside ∨ ∃ call, r = .client call ∧
      s.Writes (batches batchSize (draftsFrom project n files)) call none := by
    intro r hr
    cases hr with
    | hasCollection => exact .inr ⟨_, rfl, .hasCollection⟩
    | create => exact .inr ⟨_, rfl, .create⟩
    | createIndex key => exact .inr ⟨_, rfl, .createIndex key⟩
    | _ => exact .inl trivial
  rw [storeFiles]
  split
  · exact .pure trivial
  · refine Plan.Abides.attempt_bind
      (Plan.abides_of_asks s.asks_ensureCollection hprepares) fun _ => ?_
    refine (abides_draftAll project n none files).lift_bind ?_
    rintro drafts m heard' ⟨rfl, rfl⟩
    refine Plan.Abides.bind (s.abides_writeBatches (fun _ h => h) ?_ fun _ => rfl) ?_
    · intro batch hbatch d hd
      have hmem : d ∈ draftsFrom project n files := by
        rw [← flatten_batches (show 0 < batchSize by decide) (draftsFrom project n files)]
        exact List.mem_flatten_of_mem hbatch hd
      exact text_eq_none_iff hmem
    · rintro (_ | _) _ _ _ <;> exact .pure trivial

end SymbolStore

/-! ## What an embedder decides -/

open SymbolStore in
/-- Whatever an embedder replies, each time that it is asked: files are written as without one, with
the same result, the same calls and the same points but for vectors, and every batch is written with
vectors that are for its own texts, as far as they have come and fit. -/
theorem storeFiles_advised (s : SymbolStore) (project : Uuid) (files : List FiledSource) (h : Host)
    (replies : Advised.Replies) :
    let told := Advised.attempt replies h (s.storeFiles project files)
    let untold := h.attempt (s.withoutEmbedder.storeFiles project files)
    told.1 = untold.1 ∧ told.2.host.blank = untold.2.blank ∧
      told.2.host.calls = told.2.calls.map Prod.fst ++ h.calls ∧
      ∀ call heard, (call, heard) ∈ told.2.calls →
        s.Writes (batches batchSize (draftsFrom project h.nextId files)) call heard := by
  intro told untold
  obtain ⟨hresult, hleft⟩ := (s.blanks_storeFiles project files).run replies { host := h }
  -- without an embedder nothing is asked of one, so any replies will do
  obtain ⟨hresult', hleft'⟩ :=
    (s.withoutEmbedder.blanks_storeFiles project files).run h.replies { host := h }
  have hhost : untold = _ := h.run_replies _ { host := h } rfl
  rw [hhost]
  refine ⟨hresult.eq.trans hresult'.eq.symm, hleft.symm.trans hleft', ?_⟩
  obtain ⟨made, hcalls, hlog, hmade⟩ :=
    (s.abides_storeFiles project files h.nextId).run replies (a := { host := h }) rfl rfl
  rw [List.append_nil] at hcalls
  exact ⟨hcalls ▸ hlog, fun call heard hmem => hmade call heard (hcalls ▸ hmem)⟩

end CodeAtlas
