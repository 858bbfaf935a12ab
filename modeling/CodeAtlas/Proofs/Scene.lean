import CodeAtlas.Host
import CodeAtlas.Proofs.Collection
import CodeAtlas.Proofs.Ensures
import CodeAtlas.Proofs.Orderly
/-!
# Scenes

What matters about surroundings is a scene: the index that the collection stands for, ids that were
given out and that nothing has been filed under, and the files. A plan is judged by the scenes it
leads to, so that no proof about a plan has to look at surroundings again.

A regime says what is taken for granted in all of this. Surroundings are honest if no reading fails
as if the collection were not there, and they may fail in any other way at any time. If an index is
to be orderly, this is part of every scene. An index knows nothing of vectors: points that matter as
they are, to the last bit, are guarded.

Results:
1. `Regime.Spec` and `Regime.Tries`, judgements about plans and attempts, and how they compose.
2. `spec_freshId`: a fresh id is under nothing that is there, as long as there are ids left.
3. `spec_client`: a call fails and changes nothing, or the collections answer it.
-/

namespace CodeAtlas

/-- What is taken for granted. -/
structure Regime where
  /-- The collection that the points are kept in. -/
  collection : String
  /-- Whether indexes are orderly. -/
  orderly : Prop
  /-- Whether surroundings are honest. -/
  honest : Prop
  /-- The contents of files that there may be. -/
  known : ByteArray → Prop

/-- What matters about surroundings. -/
structure Scene where
  index : Index
  /-- Ids that nothing has been filed under. -/
  pending : List String
  disk : FileSystem
  changes : List DiskChange
  /-- Points that are there just as they are. -/
  guards : List Point := []

/-- The configuration has exclude patterns and nothing else. -/
def Project.IsPlain (p : Project) : Prop :=
  p.config = [(excludeKey, .strings p.excludePatterns)]

/-- A collection, if there is one, has a point just as it is. -/
def Point.IsIn (g : Point) (col : Option Collection) : Prop :=
  ∃ c, col = some c ∧ Keyed.get? g.id c.points = some g

namespace Scene

/-- A collection, if there is one, has what the index stands for, and the points that are guarded. -/
def Describes (v : Scene) (col : Option Collection) : Prop :=
  v.index.Describes col ∧ ∀ g ∈ v.guards, g.IsIn col

/-- An id that nothing else can get any more. -/
def Uses (v : Scene) (t : String) : Prop :=
  t ∈ v.index.ids ++ v.pending ∨ ∃ e ∈ v.index.files, e.project.render = t

/-- What is known of files was read from their bytes, projects are plain, the ids are different, and
nothing is filed under a pending one. -/
structure Sound (c : Regime) (v : Scene) : Prop where
  orderly : c.orderly → v.index.Orderly
  plain : ∀ p ∈ v.index.projects, p.IsPlain
  origin : ∀ e ∈ v.index.files, e.file.StemsFrom c.known
  nodup : (v.index.ids ++ v.pending).Nodup
  apart : ∀ e ∈ v.index.files, e.project.render ∉ v.pending

/-- A scene becomes another one, in which the collection is as it is now. -/
structure Becomes (c : Regime) (v : Scene) (col : Option Collection) (v' : Scene) : Prop where
  describes : v'.Describes col
  sound : v'.Sound c
  uses : ∀ t, v'.Uses t → v.Uses t
  disk : v'.disk = v.disk
  changes : v'.changes = v.changes

theorem Becomes.refl {c : Regime} {v : Scene} {col : Option Collection} (hsound : v.Sound c)
    (hcol : v.Describes col) : v.Becomes c col v :=
  ⟨hcol, hsound, fun _ ht => ht, rfl, rfl⟩

end Scene

namespace Host

/-- The text is that of an id that was given out. -/
def Issued (h : Host) (t : String) : Prop := ∃ n < h.nextId, t = (Uuid.ofNat n).render

/-- No reading fails as if there were no collection. -/
def Honest (h : Host) : Prop :=
  ∀ f ∈ h.faults, f.operation = "retrieve" ∨ f.operation = "scroll" →
    ∀ message, f.mishap ≠ .failure (.notFound message)

end Host

namespace Regime

variable (c : Regime)

/-- The surroundings look like the scene. -/
structure At (v : Scene) (h : Host) : Prop where
  sound : v.Sound c
  store : ∃ s, h.store = .memory s ∧ v.Describes (Keyed.get? c.collection s.collections)
  honest : c.honest → h.Honest
  disk : h.disk = v.disk
  changes : h.changes = v.changes
  issued : ∀ t, v.Uses t → h.Issued t

/-- From a scene on, a plan leads from scene to scene, and what it gives satisfies `post`: as long
as there are ids left. -/
def Spec {α : Type} (v : Scene) (p : Plan α) (post : α → Scene → Prop) : Prop :=
  ∀ h, c.At v h → Program.Ensures Host.serve (·.nextId ≤ Uuid.supply) (fun h => ∃ v, c.At v h) p
    (fun a h => ∃ v, c.At v h ∧ post a v) h

/-- What becomes of an attempt: `ok` is about what it gives, and `err` about a failure. -/
def onResult {α : Type} (ok : α → Scene → Prop) (err : Failure → Scene → Prop) :
    Except Failure α → Scene → Prop
  | .ok a => ok a
  | .error e => err e

/-- The judgement about attempts. -/
def Tries {α : Type} (v : Scene) (a : Attempt α) (ok : α → Scene → Prop)
    (err : Failure → Scene → Prop) : Prop :=
  c.Spec v a.run (onResult ok err)

end Regime

section

variable {c : Regime} {v : Scene} {α β : Type}

/-! ## Plans -/

theorem spec_pure {a : α} {post : α → Scene → Prop} (h : post a v) :
    c.Spec v (pure a) post :=
  fun _ hat => ⟨v, hat, h⟩

theorem spec_mono {p : Plan α} {post post' : α → Scene → Prop} (hp : c.Spec v p post)
    (h : ∀ a v, post a v → post' a v) : c.Spec v p post' := fun host hat =>
  Program.ensures_mono (fun a _ ⟨v, hv, ha⟩ => ⟨v, hv, h a v ha⟩) (hp host hat)

theorem spec_bind {p : Plan α} {f : α → Plan β} {mid : α → Scene → Prop} {post : β → Scene → Prop}
    (hp : c.Spec v p mid) (hf : ∀ a v, mid a v → c.Spec v (f a) post) :
    c.Spec v (p >>= f) post := fun host hat =>
  Program.ensures_bind <|
    Program.ensures_mono (fun a h ⟨v, hv, ha⟩ => hf a v ha h hv) (hp host hat)

/-- If what a step gives tells the scene that it leads to, the rest is judged from this scene. -/
theorem spec_bind_at {p : Plan α} {f : α → Plan β} {w : α → Scene} {post : β → Scene → Prop}
    (hp : c.Spec v p fun a v' => v' = w a) (hf : ∀ a, c.Spec (w a) (f a) post) :
    c.Spec v (p >>= f) post :=
  spec_bind hp fun a _ h => h ▸ hf a

/-- What makes a scene sound may be used. -/
theorem spec_of_sound {p : Plan α} {post : α → Scene → Prop}
    (h : v.Sound c → c.Spec v p post) : c.Spec v p post :=
  fun host hat => h hat.sound host hat

/-- Pending ids have no order. -/
theorem Regime.At.of_perm {h : Host} {pending : List String} (hat : c.At v h)
    (hperm : v.pending.Perm pending) : c.At { v with pending } h := by
  refine { hat with sound := ?_, issued := ?_ }
  · refine { hat.sound with nodup := ?_, apart := ?_ }
    · exact ((hperm.append_left v.index.ids).nodup_iff).mp hat.sound.nodup
    · exact fun e he hmem => hat.sound.apart e he (hperm.mem_iff.mpr hmem)
  · rintro t (ht | ht)
    · exact hat.issued t (.inl ((hperm.append_left v.index.ids).mem_iff.mpr ht))
    · exact hat.issued t (.inr ht)

theorem spec_of_perm {p : Plan α} {post : α → Scene → Prop} {pending : List String}
    (hperm : v.pending.Perm pending) (h : c.Spec { v with pending } p post) :
    c.Spec v p post :=
  fun host hat => h host (hat.of_perm hperm)

theorem spec_up_to_perm {p : Plan α} {post : α → Scene → Prop}
    (h : c.Spec v p fun a v' => ∃ pending, v'.pending.Perm pending ∧ post a { v' with pending }) :
    c.Spec v p post := fun host hat =>
  Program.ensures_mono (fun _ _ ⟨_, hv, _, hperm, ha⟩ =>
    ⟨_, hv.of_perm hperm, ha⟩) (h host hat)

/-! ## Attempts -/

theorem tries_pure {a : α} {ok : α → Scene → Prop} {err : Failure → Scene → Prop} (h : ok a v) :
    c.Tries v (pure a) ok err :=
  spec_pure h

theorem tries_throw {e : Failure} {ok : α → Scene → Prop} {err : Failure → Scene → Prop}
    (h : err e v) : c.Tries v (throw e) ok err :=
  spec_pure h

theorem tries_mono {a : Attempt α} {ok ok' : α → Scene → Prop} {err err' : Failure → Scene → Prop}
    (ha : c.Tries v a ok err) (hok : ∀ x v, ok x v → ok' x v) (herr : ∀ e v, err e v → err' e v) :
    c.Tries v a ok' err' :=
  spec_mono ha fun r v h => match r with
    | .ok x => hok x v h
    | .error e => herr e v h

theorem tries_bind {a : Attempt α} {f : α → Attempt β} {mid : α → Scene → Prop}
    {ok : β → Scene → Prop} {err : Failure → Scene → Prop} (ha : c.Tries v a mid err)
    (hf : ∀ x v, mid x v → c.Tries v (f x) ok err) : c.Tries v (a >>= f) ok err :=
  spec_bind ha fun r v h => match r with
    | .ok x => hf x v h
    | .error _ => spec_pure h

/-- Less may be asked of the scenes that failures leave. -/
theorem tries_mono_err {a : Attempt α} {ok : α → Scene → Prop} {err err' : Failure → Scene → Prop}
    (ha : c.Tries v a ok err) (herr : ∀ e v, err e v → err' e v) : c.Tries v a ok err' :=
  tries_mono ha (fun _ _ h => h) herr

theorem tries_bind_at {a : Attempt α} {f : α → Attempt β} {w : α → Scene} {ok : β → Scene → Prop}
    {err : Failure → Scene → Prop} (ha : c.Tries v a (fun x v' => v' = w x) err)
    (hf : ∀ x, c.Tries (w x) (f x) ok err) : c.Tries v (a >>= f) ok err :=
  tries_bind ha fun x _ h => h ▸ hf x

theorem tries_of_sound {a : Attempt α} {ok : α → Scene → Prop} {err : Failure → Scene → Prop}
    (h : v.Sound c → c.Tries v a ok err) : c.Tries v a ok err :=
  spec_of_sound h

/-- A plan within an attempt. -/
theorem tries_lift {p : Plan α} {ok : α → Scene → Prop} {err : Failure → Scene → Prop}
    (hp : c.Spec v p ok) : c.Tries v (ExceptT.lift p) ok err :=
  spec_bind hp fun _ _ h => spec_pure h

/-- What comes of an attempt, be it a failure. -/
theorem tries_outcome {a : Attempt α} (ok : Except Failure α → Scene → Prop)
    {err err' : Failure → Scene → Prop} (ha : c.Tries v a (fun x => ok (.ok x)) err')
    (herr : ∀ e v, err' e v → ok (.error e) v) : c.Tries v a.outcome ok err :=
  tries_lift <| spec_mono ha fun r v h => match r with
    | .ok _ => h
    | .error e => herr e v h

end

/-! ## Requests -/

/-- A fault that is left was there before, and a mishap comes from a fault for the operation. -/
theorem takeFault_mem (operation : String) (faults : List Fault) :
    (∀ m, (takeFault operation faults).1 = some m →
        ∃ f ∈ faults, f.operation = operation ∧ f.mishap = m) ∧
      ∀ f ∈ (takeFault operation faults).2,
        ∃ g ∈ faults, g.operation = f.operation ∧ g.mishap = f.mishap := by
  induction faults with
  | nil => exact ⟨nofun, nofun⟩
  | cons f rest ih =>
    obtain ⟨hmishap, hleft⟩ := ih
    have later : ∀ m, (takeFault operation rest).1 = some m →
        ∃ g ∈ f :: rest, g.operation = operation ∧ g.mishap = m := fun m hm =>
      let ⟨g, hg, h⟩ := hmishap m hm
      ⟨g, List.mem_cons_of_mem f hg, h⟩
    have left : ∀ f' : Fault, f'.operation = f.operation → f'.mishap = f.mishap →
        ∀ x ∈ f' :: (takeFault operation rest).2,
          ∃ g ∈ f :: rest, g.operation = x.operation ∧ g.mishap = x.mishap := by
      intro f' hop hm x hx
      rcases List.mem_cons.mp hx with rfl | hx
      · exact ⟨f, List.mem_cons_self, hop.symm, hm.symm⟩
      · obtain ⟨g, hg, h⟩ := hleft x hx
        exact ⟨g, List.mem_cons_of_mem f hg, h⟩
    rw [takeFault]
    split
    · exact ⟨later, left f rfl rfl⟩
    · next hop =>
      split
      · refine ⟨fun m hm => ⟨f, List.mem_cons_self, ?_, Option.some.inj hm⟩, fun g hg => ?_⟩
        · simpa using hop
        · exact ⟨g, List.mem_cons_of_mem f hg, rfl, rfl⟩
      · exact ⟨later, left _ rfl rfl⟩

theorem Host.Honest.takeFault {h : Host} (hh : h.Honest) (operation : String) :
    Host.Honest { h with faults := (CodeAtlas.takeFault operation h.faults).2 } := by
  intro f hf hop message
  obtain ⟨g, hg, hgop, hgm⟩ := (takeFault_mem operation h.faults).2 f hf
  exact hgm ▸ hh g hg (hgop ▸ hop) message

theorem MemoryStore.collections_takeFailure (s : MemoryStore) (operation : String) :
    (s.takeFailure operation).2.collections = s.collections := by
  rw [takeFailure]
  split
  · rfl
  · split <;> rfl

/-- A call fails for an announced reason and nothing happens, or the collections answer it. -/
theorem MemoryStore.answer_cases (m : MemoryStore) (call : ClientCall) :
    ((∃ message, (m.answer call).1 = .error (.transient message)) ∧
        (m.answer call).2.collections = m.collections) ∨
      ((m.answer call).1 = (m.collections.answer call).1 ∧
        (m.answer call).2.collections = (m.collections.answer call).2) := by
  have hsame := m.collections_takeFailure call.operation
  rw [answer]
  split
  · next m' htake =>
    rw [htake] at hsame
    exact .inl ⟨⟨_, rfl⟩, hsame⟩
  · next m' htake =>
    rw [htake] at hsame
    change m'.collections = m.collections at hsame
    rw [hsame]
    exact .inr ⟨rfl, rfl⟩

/-- The answer of a collection that seems not to be there. -/
def SeemsAbsent : (call : ClientCall) → call.Result → Prop
  | .hasCollection _, result => result = .ok false
  | _, _ => False

namespace Host

/-- The surroundings after a call has been taken note of, and a fault for it has been used up. -/
def noted (h : Host) (call : ClientCall) : Host :=
  { h with faults := (CodeAtlas.takeFault call.operation h.faults).2, calls := call :: h.calls }

/-- What may become of a call: a mishap, the answer that there is no such collection, or what the store
makes of it. -/
inductive Takes (h : Host) (call : ClientCall) : Except Crash call.Result × Host → Prop
  | failed {f : Fault} {e : Failure} (hf : f ∈ h.faults) (hop : f.operation = call.operation)
      (hmishap : f.mishap = .failure e) : h.Takes call (.ok (.error e), h.noted call)
  | crashed (crash : Crash) : h.Takes call (.error crash, h.noted call)
  | absent {result : call.Result} (hresult : SeemsAbsent call result) :
      h.Takes call (.ok result, h.noted call)
  | reached : h.Takes call (answerCall.go (h.noted call) call)

theorem takes_call (h : Host) (call : ClientCall) : h.Takes call (h.answerCall call) := by
  simp only [answerCall]
  split
  · next e hmishap =>
    obtain ⟨f, hf, hop, hfailure⟩ := (takeFault_mem call.operation h.faults).1 _ hmishap
    exact .failed hf hop hfailure
  · exact .crashed _
  -- only a question for a collection can be answered wrongly
  · split
    · exact .absent rfl
    · exact .reached
  · exact .reached

/-- A call is taken note of, and neither takes an id nor changes the embedder. -/
theorem after_answerCall (h : Host) (call : ClientCall) :
    (h.answerCall call).2.calls = call :: h.calls ∧ (h.answerCall call).2.nextId = h.nextId ∧
      (h.answerCall call).2.embedder = h.embedder := by
  have htakes := h.takes_call call
  generalize h.answerCall call = answer at htakes ⊢
  cases htakes with
  | failed | crashed | absent | reached => exact ⟨rfl, rfl, rfl⟩

end Host

/-- A failure that surroundings may produce. -/
def Regime.Allows (c : Regime) (operation : String) (e : Failure) : Prop :=
  c.honest → operation = "retrieve" ∨ operation = "scroll" → ∀ message, e ≠ .notFound message

section

variable {c : Regime} {v : Scene}

/-- Surroundings that differ in nothing that matters. -/
theorem Regime.At.of_same {h h' : Host} (hat : c.At v h) (hstore : h'.store = h.store)
    (hfaults : h'.faults = h.faults) (hdisk : h'.disk = h.disk) (hchanges : h'.changes = h.changes)
    (hnext : h'.nextId = h.nextId) : c.At v h' where
  sound := hat.sound
  store := hstore ▸ hat.store
  honest hc := by
    intro f hf
    exact hat.honest hc f (hfaults ▸ hf)
  disk := hdisk.trans hat.disk
  changes := hchanges.trans hat.changes
  issued t ht := by
    obtain ⟨n, hn, heq⟩ := hat.issued t ht
    exact ⟨n, hnext ▸ hn, heq⟩

/-- A request that is always answered and changes nothing that matters. -/
theorem spec_quiet {r : Request} {post : r.Answer → Scene → Prop}
    (hr : ∀ h, c.At v h → ∃ answer h', Host.serve r h = (.ok answer, h') ∧ h'.store = h.store ∧
      h'.faults = h.faults ∧ h'.disk = h.disk ∧ h'.changes = h.changes ∧ h'.nextId = h.nextId ∧
      post answer v) : c.Spec v (ask r) post := by
  intro h hat
  obtain ⟨answer, h', hserve, hstore, hfaults, hdisk, hchanges, hnext, hpost⟩ := hr h hat
  have hat' : c.At v h' := hat.of_same hstore hfaults hdisk hchanges hnext
  refine Program.ensures_perform (fun a s heq _ => ?_) (fun crash s heq _ => ?_)
  · rw [hserve] at heq
    cases heq
    exact ⟨⟨v, hat'⟩, v, hat', hpost⟩
  · rw [hserve] at heq
    cases heq

theorem spec_look (paths : List String) :
    c.Spec v (ask (.look paths)) fun fs v' => fs = v.disk ∧ v' = v :=
  spec_quiet fun h hat => ⟨_, h, rfl, rfl, rfl, rfl, rfl, rfl, hat.disk, rfl⟩

theorem spec_now : c.Spec v (ask .now) fun _ v' => v' = v :=
  spec_quiet fun h _ => ⟨_, h, rfl, rfl, rfl, rfl, rfl, rfl, rfl⟩

theorem spec_pause {nanos : Nat} : c.Spec v (ask (.pause nanos)) fun _ v' => v' = v :=
  spec_quiet fun h _ => ⟨_, h, rfl, rfl, rfl, rfl, rfl, rfl, rfl⟩

theorem spec_report {message : String} : c.Spec v (ask (.report message)) fun _ v' => v' = v :=
  spec_quiet fun _ _ => ⟨_, _, rfl, rfl, rfl, rfl, rfl, rfl, rfl⟩

theorem spec_embed {text : String} : c.Spec v (ask (.embed text)) fun _ v' => v' = v :=
  spec_quiet fun _ _ => ⟨_, _, rfl, rfl, rfl, rfl, rfl, rfl, rfl⟩

theorem spec_embedAll {texts : List String} : c.Spec v (ask (.embedAll texts)) fun _ v' => v' = v :=
  spec_quiet fun _ _ => ⟨_, _, rfl, rfl, rfl, rfl, rfl, rfl, rfl⟩

theorem spec_hasReached {m : Milestone} : c.Spec v (ask (.hasReached m)) fun _ v' => v' = v := by
  cases m <;> exact spec_quiet fun h _ => ⟨_, h, rfl, rfl, rfl, rfl, rfl, rfl, rfl⟩

theorem spec_reach {m : Milestone} : c.Spec v (ask (.reach m)) fun _ v' => v' = v := by
  cases m <;> exact spec_quiet fun _ _ => ⟨_, _, rfl, rfl, rfl, rfl, rfl, rfl, rfl⟩

/-- A fresh id is under nothing that is there. -/
theorem spec_freshId : c.Spec v (ask .freshId) fun id v' =>
    v' = { v with pending := id.render :: v.pending } := by
  intro h hat
  refine Program.ensures_perform (fun id s heq hrely => ?_) (fun crash s heq _ => ?_)
  · cases heq
    have hbelow : h.nextId < Uuid.supply := hrely
    have hnew : ∀ t, v.Uses t → t ≠ (Uuid.ofNat h.nextId).render := by
      rintro t ht rfl
      obtain ⟨n, hn, heq⟩ := hat.issued _ ht
      rw [Uuid.render_inj, Uuid.ofNat_inj hbelow (Nat.lt_trans hn hbelow)] at heq
      exact Nat.lt_irrefl _ (heq ▸ hn)
    have hat' : c.At { v with pending := (Uuid.ofNat h.nextId).render :: v.pending }
        { h with nextId := h.nextId + 1 } := by
      refine { hat with sound := ?_, issued := ?_ }
      · refine { hat.sound with nodup := ?_, apart := ?_ }
        · refine List.perm_middle.nodup_iff.mpr (List.nodup_cons.mpr ⟨?_, hat.sound.nodup⟩)
          exact fun hmem => hnew _ (.inl hmem) rfl
        · intro e he hmem
          rcases List.mem_cons.mp hmem with heq | hmem
          · exact hnew _ (.inr ⟨e, he, rfl⟩) heq
          · exact hat.sound.apart e he hmem
      · rintro t (ht | ht)
        · rcases List.mem_cons.mp (List.perm_middle.mem_iff.mp ht) with rfl | ht
          · exact ⟨h.nextId, Nat.lt_succ_self _, rfl⟩
          · obtain ⟨n, hn, heq⟩ := hat.issued t (.inl ht)
            exact ⟨n, Nat.lt_succ_of_lt hn, heq⟩
        · obtain ⟨n, hn, heq⟩ := hat.issued t (.inr ht)
          exact ⟨n, Nat.lt_succ_of_lt hn, heq⟩
    exact ⟨⟨_, hat'⟩, _, hat', rfl⟩
  · cases heq

/-- A change of the files is made, or refused. -/
theorem spec_change {change : DiskChange} (post : Except DiskError Unit → Scene → Prop)
    (hok : ∀ disk, post (.ok ()) { v with disk, changes := change :: v.changes })
    (herr : ∀ e, post (.error e) v) : c.Spec v (ask (.change change)) post := by
  intro h hat
  refine Program.ensures_perform (fun result s heq _ => ?_) (fun crash s heq _ => ?_)
  · simp only [Host.serve] at heq
    split at heq
    · next disk _ =>
      cases heq
      have hat' : c.At { v with disk, changes := change :: v.changes }
          { h with disk, changes := change :: h.changes } :=
        { hat with
          sound := { hat.sound with }
          disk := rfl
          changes := congrArg _ hat.changes }
      exact ⟨⟨_, hat'⟩, _, hat', hok disk⟩
    · next e _ =>
      cases heq
      exact ⟨⟨v, hat⟩, v, hat, herr e⟩
  · simp only [Host.serve] at heq
    split at heq <;> cases heq

/-- A call that leaves the collections as they are leaves the scene. -/
theorem Regime.At.noted {h : Host} (hat : c.At v h) (call : ClientCall) {s : MemoryStore}
    (hs : v.Describes (Keyed.get? c.collection s.collections)) :
    c.At v { h.noted call with store := .memory s } :=
  { hat with
    store := ⟨s, rfl, hs⟩
    honest := fun hc => (hat.honest hc).takeFault call.operation }

/-- A call that comes to the store fails and changes nothing, or the collections answer it. -/
theorem Regime.At.reached {h : Host} (hat : c.At v h) {call : ClientCall}
    {post : call.Result → Scene → Prop} (hfail : ∀ message, post (.error (.transient message)) v)
    (hserve : ∀ cs : Collections, v.Describes (Keyed.get? c.collection cs) →
      ∃ v', v.Becomes c (Keyed.get? c.collection (cs.answer call).2) v' ∧
        post (cs.answer call).1 v') :
    ∃ result, (Host.answerCall.go (h.noted call) call).1 = .ok result ∧
      ∃ v', c.At v' (Host.answerCall.go (h.noted call) call).2 ∧ post result v' := by
  obtain ⟨s, hs, hdescribes⟩ := hat.store
  have hstore : (h.noted call).store = .memory s := hs
  simp only [Host.answerCall.go, hstore, VectorStore.answer]
  rcases s.answer_cases call with ⟨⟨message, hresult⟩, hsame⟩ | ⟨hresult, hafter⟩
  · rw [hresult]
    exact ⟨_, rfl, v, hat.noted call (hsame ▸ hdescribes), hfail _⟩
  · obtain ⟨v', hbecomes, hpost⟩ := hserve _ hdescribes
    rw [← hafter] at hbecomes
    rw [hresult]
    refine ⟨_, rfl, v', ?_, hpost⟩
    exact {
      sound := hbecomes.sound
      store := ⟨_, rfl, hbecomes.describes⟩
      honest := fun hc => (hat.honest hc).takeFault call.operation
      disk := hat.disk.trans hbecomes.disk.symm
      changes := hat.changes.trans hbecomes.changes.symm
      issued := fun t ht => hat.issued t (hbecomes.uses t ht) }

/-- A call fails and changes nothing, or a collection seems not to be there, or the collections
answer: then `hserve` tells what the scene becomes. -/
theorem spec_client {call : ClientCall} (post : call.Result → Scene → Prop)
    (hfail : ∀ e, c.Allows call.operation e → post (.error e) v)
    (habsent : ∀ result, SeemsAbsent call result → post result v)
    (hserve : v.Sound c → ∀ cs : Collections, v.Describes (Keyed.get? c.collection cs) →
      ∃ v', v.Becomes c (Keyed.get? c.collection (cs.answer call).2) v' ∧
        post (cs.answer call).1 v') :
    c.Spec v (ask (.client call)) post := by
  intro h hat
  have hnoted : c.At v (h.noted call) := by
    obtain ⟨s, hs, hdescribes⟩ := hat.store
    have := hat.noted call hdescribes
    rwa [← hs] at this
  -- whatever becomes of the call, it leaves a scene behind
  have hserved : (∃ result, (h.answerCall call).1 = .ok result ∧
        ∃ v', c.At v' (h.answerCall call).2 ∧ post result v') ∨
      (∃ crash, (h.answerCall call).1 = .error crash) ∧ ∃ v', c.At v' (h.answerCall call).2 := by
    have htakes := h.takes_call call
    generalize h.answerCall call = answer at htakes ⊢
    cases htakes with
    | failed hf hop hmishap =>
      refine .inl ⟨_, rfl, v, hnoted, hfail _ fun hc hreads message hne => ?_⟩
      exact hat.honest hc _ hf (hop ▸ hreads) message (hne ▸ hmishap)
    | crashed crash => exact .inr ⟨⟨crash, rfl⟩, v, hnoted⟩
    | absent hresult => exact .inl ⟨_, rfl, v, hnoted, habsent _ hresult⟩
    | reached => exact .inl (hat.reached (fun _ => hfail _ fun _ _ _ => nofun) (hserve hat.sound))
  refine Program.ensures_perform (fun a h' heq _ => ?_) (fun crash h' heq _ => ?_)
  · have heq : h.answerCall call = (.ok a, h') := heq
    rw [heq] at hserved
    rcases hserved with ⟨a', ha, v', hv', hpost⟩ | ⟨⟨crash, hcrash⟩, _⟩
    · cases ha
      exact ⟨⟨v', hv'⟩, v', hv', hpost⟩
    · cases hcrash
  · have heq : h.answerCall call = (.error crash, h') := heq
    rw [heq] at hserved
    rcases hserved with ⟨a', ha, _⟩ | ⟨_, hv'⟩
    · cases ha
    · exact hv'

end

end CodeAtlas
