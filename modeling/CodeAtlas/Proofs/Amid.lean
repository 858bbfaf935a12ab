import CodeAtlas.Proofs.Delivery
import CodeAtlas.Proofs.Holding
import CodeAtlas.Proofs.Writing
/-!
# Work amid the work of others

While a plan is under way, others may change what does not belong to its project, before each of its
requests. A plan that keeps to what belongs to its project does not notice: it gives and leaves what it
gives and leaves by itself. This holds of all operations on the project of a store.

Results:
1. `Program.RunsAmid`: runs of a program while other things happen between its requests.
2. `keeps_bind`, `keeps_steady`, `keeps_idle`: plans whose outcome does not depend on what happens in
   between.
3. `keeps_storeFiles`, `keeps_loadFiles` and their kin: the operations on a project are such plans.
-/

namespace CodeAtlas

namespace Program

variable {R : Type} {A : R → Type} {σ α β : Type}

/-- A single request of a program, and what is left of it. -/
def step (serve : Service A σ) : Program A α → σ → Except Crash (Program A α) × σ
  | pure a, s => (.ok (pure a), s)
  | ask r next, s => ((serve r s).1.map next, (serve r s).2)

/-- All requests that a program makes satisfy `P` and what it gives satisfies `Q`, as long as the
answers satisfy `G`. -/
def Within (P : R → Prop) (G : (r : R) → A r → Prop) (Q : α → Prop) : Program A α → Prop
  | pure a => Q a
  | ask r next => P r ∧ ∀ answer, G r answer → Within P G Q (next answer)

section

variable {P P' : R → Prop} {G : (r : R) → A r → Prop} {Q : α → Prop} {Q' : β → Prop}

theorem Within.mono {Q₁ : α → Prop} {p : Program A α} (hp : p.Within P G Q) (hP : ∀ r, P r → P' r)
    (hQ : ∀ a, Q a → Q₁ a) : p.Within P' G Q₁ := by
  induction p with
  | pure a => exact hQ a hp
  | ask r next ih => exact ⟨hP r hp.1, fun answer hanswer => ih answer (hp.2 answer hanswer)⟩

theorem within_bind {p : Program A α} {f : α → Program A β} (hp : p.Within P G Q)
    (hf : ∀ a, Q a → (f a).Within P G Q') : (p >>= f).Within P G Q' := by
  induction p with
  | pure a => exact hf a hp
  | ask r next ih => exact ⟨hp.1, fun answer hanswer => ih answer (hp.2 answer hanswer)⟩

theorem within_perform {r : R} (h : P r) : (perform r : Program A (A r)).Within P G (G r) :=
  ⟨h, fun _ hanswer => hanswer⟩

end

/-- What a program gives and leaves if `env` may happen before each of its requests. -/
inductive RunsAmid (serve : Service A σ) (env : σ → σ → Prop) : Program A α → σ → α → σ → Prop
  | pure (a : α) (s : σ) : RunsAmid serve env (pure a) s a s
  | ask {r : R} {next : A r → Program A α} {s t t' u : σ} {answer : A r} {a : α} (between : env s t)
    (served : serve r t = (.ok answer, t')) (later : RunsAmid serve env (next answer) t' a u) :
    RunsAmid serve env (ask r next) s a u

section

variable {serve : Service A σ} {env : σ → σ → Prop} {s t u : σ}

theorem runsAmid_bind {p : Program A α} {f : α → Program A β} {b : β}
    (h : RunsAmid serve env (p >>= f) s b u) :
    ∃ a t, RunsAmid serve env p s a t ∧ RunsAmid serve env (f a) t b u := by
  induction p generalizing s with
  | pure a => exact ⟨a, s, .pure a s, h⟩
  | ask r next ih =>
    cases h with
    | ask between served later =>
      obtain ⟨a, t, hp, hf⟩ := ih _ later
      exact ⟨a, t, .ask between served hp, hf⟩

/-- What happens before a run happens before its first request, or after it if it makes none. -/
theorem RunsAmid.of_env {p : Program A α} {a : α} (h : RunsAmid serve env p t a u)
    (htrans : ∀ s t u, env s t → env t u → env s u) (hst : env s t) (hrefl : env u u) :
    ∃ v, RunsAmid serve env p s a v ∧ env v u := by
  cases h with
  | pure => exact ⟨s, .pure a s, hst⟩
  | ask between served later => exact ⟨u, .ask (htrans _ _ _ hst between) served later, hrefl⟩

end

end Program

/-! ## Surroundings that agree in what belongs to a project -/

namespace Host

/-- Answers a request as `serve` does, but with the ids of a supply. -/
def serveFrom (ids : Nat → Uuid) : Program.Service Request.Answer Host
  | .freshId, h => (.ok (ids h.nextId), { h with nextId := h.nextId + 1 })
  | r, h => serve r h

theorem serveFrom_ofNat : serveFrom Uuid.ofNat = serve := by
  funext r h
  cases r <;> rfl

/-- Reliable surroundings with the same points that belong to a project, and with the same embedder
and the same fresh ids. What a store remembers of its collection may be different. -/
structure AgreeOn (m : Holding) (collection : String) (h k : Host) : Prop where
  left : h.IsReliable
  right : k.IsReliable
  embedder : h.embedder = k.embedder
  nextId : h.nextId = k.nextId
  collections : h.collections.AgreeOn m collection k.collections

section

variable {m : Holding} {collection : String} {h k g : Host}

theorem AgreeOn.symm (hk : h.AgreeOn m collection k) : k.AgreeOn m collection h :=
  ⟨hk.right, hk.left, hk.embedder.symm, hk.nextId.symm, hk.collections.symm⟩

theorem AgreeOn.trans (hk : h.AgreeOn m collection k) (hg : k.AgreeOn m collection g) :
    h.AgreeOn m collection g :=
  ⟨hk.left, hg.right, hk.embedder.trans hg.embedder, hk.nextId.trans hg.nextId,
    hk.collections.trans hg.collections⟩

end

end Host

namespace Holding

/-- The request keeps to what belongs to the project. -/
def Allows (m : Holding) (collection : String) : Request → Prop
  | .client call => m.Permits collection call
  | .embedAll _ | .hasReached _ | .reach _ | .freshId | .pause _ => True
  | _ => False

/-- What is known of the answers to requests: fresh ids are set aside for the project, and the
collection is there. -/
def Gives (m : Holding) : (r : Request) → r.Answer → Prop
  | .freshId, id => m.owns id.render
  | .client (.hasCollection _), there => there = .ok true
  | _, _ => True

end Holding

namespace Request

/-- The answer does not depend on what a store remembers. -/
def IsSteady : Request → Prop
  | hasReached _ => False
  | _ => True

/-- Neither points nor ids change. -/
def IsIdle : Request → Prop
  | client (.hasCollection _) | client (.createIndex _ _) | hasReached _ | reach _ | pause _ => True
  | _ => False

end Request

namespace Host

section

variable {m : Holding} {collection : String} {ids : Nat → Uuid} {h k : Host} {r : Request}

/-- What a request that keeps to a project does to the collections. -/
theorem serve_allowed (hids : ∀ n, m.owns (ids n).render) (hr : h.IsReliable)
    (hthere : Keyed.contains collection h.collections = true) (hallows : m.Allows collection r) :
    ∃ answer h', serveFrom ids r h = (.ok answer, h') ∧ m.Gives r answer ∧ h'.IsReliable ∧
      (h'.collections = h.collections ∨
        ∃ call, m.Permits collection call ∧ h'.collections = (h.collections.answer call).2) := by
  cases r with
  | client call =>
    obtain ⟨hafter, hcollections, _⟩ := after_reliable hr call
    refine ⟨_, _, serve_client hr call, ?_, hafter, .inr ⟨call, hallows, hcollections⟩⟩
    cases call with
    | hasCollection name =>
      cases hallows
      exact congrArg Except.ok hthere
    | _ => trivial
  | freshId => exact ⟨_, _, rfl, hids _, { hr with }, .inl rfl⟩
  | embedAll texts => exact ⟨_, _, rfl, trivial, { hr with }, .inl rfl⟩
  | hasReached milestone => cases milestone <;> exact ⟨_, _, rfl, trivial, hr, .inl rfl⟩
  | reach milestone => cases milestone <;> exact ⟨_, _, rfl, trivial, { hr with }, .inl rfl⟩
  | pause nanos => exact ⟨_, _, rfl, trivial, hr, .inl rfl⟩
  | _ => cases hallows

/-- A steady request that keeps to a project is answered alike where what belongs to the project is
the same. -/
theorem serve_steady (hids : ∀ n, m.owns (ids n).render) (hk : h.AgreeOn m collection k)
    (hallows : m.Allows collection r) (hsteady : r.IsSteady) :
    ∃ answer h' k', serveFrom ids r h = (.ok answer, h') ∧ serveFrom ids r k = (.ok answer, k') ∧
      m.Gives r answer ∧ h'.AgreeOn m collection k' := by
  -- both surroundings have the same supply of ids and the same embedder
  cases r with
  | client call =>
    obtain ⟨hleft, hcollections, hembedder, _, hid⟩ := after_reliable hk.left call
    obtain ⟨hright, hcollections', hembedder', _, hid'⟩ := after_reliable hk.right call
    obtain ⟨hanswer, hagree⟩ := Collections.agreeOn_answer hk.collections hallows
    refine ⟨h.answerTo call, _, _, serve_client hk.left call, ?_, ?_, hleft, hright, ?_, ?_, ?_⟩
    · exact (serve_client hk.right call).trans
        (congrArg (fun answer => (Except.ok answer, k.after call)) hanswer.symm)
    · cases call with
      | hasCollection name =>
        cases hallows
        obtain ⟨c, d, hc, _⟩ := hk.collections
        exact congrArg Except.ok (Collections.contains_of_get? hc)
      | _ => trivial
    · rw [hembedder, hembedder', hk.embedder]
    · rw [hid, hid', hk.nextId]
    · rw [hcollections, hcollections']
      exact hagree
  | freshId =>
    refine ⟨_, _, { k with nextId := k.nextId + 1 }, rfl, ?_, hids h.nextId, { hk with
      left := { hk.left with }
      right := { hk.right with }
      nextId := congrArg (· + 1) hk.nextId }⟩
    rw [hk.nextId]
    rfl
  | embedAll texts =>
    refine ⟨_, _, { k with embeddings := .embedAll texts :: k.embeddings }, rfl, ?_, trivial, { hk with
      left := { hk.left with }
      right := { hk.right with } }⟩
    rw [hk.embedder]
    rfl
  | reach milestone =>
    cases milestone <;> exact ⟨_, _, _, rfl, rfl, trivial, { hk with
      left := { hk.left with }
      right := { hk.right with } }⟩
  | pause nanos => exact ⟨_, _, _, rfl, rfl, trivial, hk⟩
  | hasReached milestone => cases hsteady
  | _ => cases hallows

/-- An idle request leaves what belongs to the project. -/
theorem serve_idle (hh : h.AgreeOn m collection h)
    (hallows : m.Allows collection r) (hidle : r.IsIdle) :
    ∃ answer h', serveFrom ids r h = (.ok answer, h') ∧ m.Gives r answer ∧
      h.AgreeOn m collection h' := by
  cases r with
  | client call =>
    obtain ⟨hleft, hcollections, hembedder, _, hid⟩ := after_reliable hh.left call
    obtain ⟨c, d, hc, hd, hcd⟩ := hh.collections
    refine ⟨_, _, serve_client hh.left call, ?_, hh.left, hleft, hembedder.symm, hid.symm, ?_⟩
    · cases call with
      | hasCollection name =>
        cases hallows
        exact congrArg Except.ok (Collections.contains_of_get? hc)
      | _ => trivial
    · rw [hcollections]
      cases call with
      | hasCollection name => exact hh.collections
      | createIndex name key =>
        cases hallows
        -- an index of keys changes no points
        rcases Collections.changing_cases hc fun c => .ok (c.createIndex key) with
          ⟨e, hnever, _⟩ | ⟨c', hmade, hchange⟩
        · cases hnever
        · cases hmade
          refine ⟨c, _, hc, ?_, hcd.left.agreeOn.createIndexRight key⟩
          rw [Collections.answer, hchange]
          exact Collections.get?_insert_self _ _
      | _ => cases hidle
  | hasReached milestone => cases milestone <;> exact ⟨_, _, rfl, trivial, hh⟩
  | reach milestone =>
    cases milestone <;> exact ⟨_, _, rfl, trivial, { hh with right := { hh.right with } }⟩
  | pause nanos => exact ⟨_, _, rfl, trivial, hh⟩
  | _ => cases hidle

end

end Host

/-! ## Plans that do not notice others -/

namespace Holding

/-- The plan keeps to what belongs to the project. Whatever happens to the rest in between, it gives
and leaves what it gives and leaves if nothing happens, and what it gives satisfies `Q`. -/
structure Keeps (m : Holding) (collection : String) (ids : Nat → Uuid) {α : Type} (p : Plan α)
    (Q : α → Prop) : Prop where
  within : p.Within (m.Allows collection) m.Gives Q
  settles : ∀ {h k h' : Host} {a : α}, h.AgreeOn m collection k →
    p.RunsAmid (Host.serveFrom ids) (Host.AgreeOn m collection) h a h' →
      ∃ k', Program.run (Host.serveFrom ids) p k = (.ok a, k') ∧ h'.AgreeOn m collection k' ∧ Q a

section

variable {m : Holding} {collection : String} {ids : Nat → Uuid} {α β : Type} {Q : α → Prop}
  {Q' : β → Prop}

theorem keeps_pure {a : α} (h : Q a) : m.Keeps collection ids (pure a : Plan α) Q where
  within := h
  settles hk hrun := by
    cases hrun
    exact ⟨_, rfl, hk, h⟩

theorem keeps_bind {p : Plan α} {f : α → Plan β} (hp : m.Keeps collection ids p Q)
    (hf : ∀ a, Q a → m.Keeps collection ids (f a) Q') : m.Keeps collection ids (p >>= f) Q' where
  within := Program.within_bind hp.within fun a ha => (hf a ha).within
  settles hk hrun := by
    obtain ⟨a, t, hfirst, hrest⟩ := Program.runsAmid_bind hrun
    obtain ⟨k₁, hk₁, hagree, ha⟩ := hp.settles hk hfirst
    obtain ⟨k₂, hk₂, hagree', hb⟩ := (hf a ha).settles hagree hrest
    exact ⟨k₂, (run_bind_of_ok hk₁ f).trans hk₂, hagree', hb⟩

/-- A plan of steady requests is answered alike, one request after another. -/
theorem keeps_steady (hids : ∀ n, m.owns (ids n).render) {p : Plan α}
    (hp : p.Within (fun r => m.Allows collection r ∧ r.IsSteady) m.Gives Q) :
    m.Keeps collection ids p Q where
  within := hp.mono (fun _ => And.left) fun _ => id
  settles {h k h' a} hk hrun := by
    induction hrun generalizing k with
    | pure a s => exact ⟨k, rfl, hk, hp⟩
    | @ask r next s t t' u answer a between served later ih =>
      obtain ⟨answer', t₁, k₁, ht, hk₁, hgives, hagree⟩ :=
        Host.serve_steady hids (between.symm.trans hk) hp.1.1 hp.1.2
      cases served.symm.trans ht
      obtain ⟨k₂, hk₂, hrest⟩ := ih (hp.2 answer hgives) hagree
      refine ⟨k₂, ?_, hrest⟩
      rw [Program.run, hk₁]
      exact hk₂

/-- A plan of idle requests that can give but one thing gives it and leaves what was there. -/
theorem keeps_idle {p : Plan α} {a : α}
    (hp : p.Within (fun r => m.Allows collection r ∧ r.IsIdle) m.Gives (· = a)) :
    m.Keeps collection ids p (· = a) where
  within := hp.mono (fun _ => And.left) fun _ => id
  settles {h k h' b} hk hrun := by
    have hamid : h.AgreeOn m collection h' ∧ b = a := by
      have hh := hk.trans hk.symm
      clear hk
      induction hrun with
      | pure b s => exact ⟨hh, hp⟩
      | @ask r next s t t' u answer b between served later ih =>
        obtain ⟨answer', t₁, ht, hgives, hagree⟩ :=
          Host.serve_idle (between.symm.trans between) hp.1.1 hp.1.2
        cases served.symm.trans ht
        obtain ⟨hrest, hb⟩ := ih (hp.2 answer hgives) (hagree.symm.trans hagree)
        exact ⟨(between.trans hagree).trans hrest, hb⟩
    have halone : ∃ k', Program.run (Host.serveFrom ids) p k = (.ok a, k') ∧
        k.AgreeOn m collection k' := by
      have hh := hk.symm.trans hk
      clear hk hrun hamid
      induction p generalizing k with
      | pure b => exact ⟨k, by rw [← show b = a from hp]; rfl, hh⟩
      | ask r next ih =>
        obtain ⟨answer, k₁, hk₁, hgives, hagree⟩ := Host.serve_idle hh hp.1.1 hp.1.2
        obtain ⟨k₂, hk₂, hrest⟩ := ih answer (hp.2 answer hgives) (hagree.symm.trans hagree)
        refine ⟨k₂, ?_, hagree.trans hrest⟩
        rw [Program.run, hk₁]
        exact hk₂
    obtain ⟨hleft, rfl⟩ := hamid
    obtain ⟨k', hk', hright⟩ := halone
    exact ⟨k', hk', (hleft.symm.trans hk).trans hright, rfl⟩

theorem keeps_ask (hids : ∀ n, m.owns (ids n).render) {r : Request}
    (hallows : m.Allows collection r) (hsteady : r.IsSteady) :
    m.Keeps collection ids (ask r) (m.Gives r) :=
  keeps_steady hids (Program.within_perform ⟨hallows, hsteady⟩)

end

/-! ## Attempts -/

/-- The attempt keeps to what belongs to the project and does not notice others. -/
def KeepsAttempt (m : Holding) (collection : String) (ids : Nat → Uuid) {α : Type} (a : Attempt α) :
    Prop :=
  m.Keeps collection ids a.run fun _ => True

section

variable {m : Holding} {collection : String} {ids : Nat → Uuid} {α β : Type}

theorem keepsAttempt_pure (x : α) : m.KeepsAttempt collection ids (pure x) := keeps_pure trivial

theorem keepsAttempt_throw (e : Failure) : m.KeepsAttempt collection ids (throw e : Attempt α) :=
  keeps_pure trivial

theorem keepsAttempt_bind {a : Attempt α} {f : α → Attempt β} {Q : Except Failure α → Prop}
    (ha : m.Keeps collection ids a.run Q)
    (hf : ∀ x, Q (.ok x) → m.KeepsAttempt collection ids (f x)) :
    m.KeepsAttempt collection ids (a >>= f) := by
  refine keeps_bind ha fun result hresult => ?_
  cases result with
  | ok x => exact hf x hresult
  | error e => exact keeps_pure trivial

theorem keeps_lift {p : Plan α} {Q : α → Prop} (hp : m.Keeps collection ids p Q) :
    m.Keeps collection ids (ExceptT.lift p : Attempt α).run fun r => ∃ x, r = .ok x ∧ Q x :=
  keeps_bind hp fun x hx => keeps_pure ⟨x, rfl, hx⟩

theorem keepsAttempt_lift_bind {p : Plan α} {f : α → Attempt β} {Q : α → Prop}
    (hp : m.Keeps collection ids p Q) (hf : ∀ x, Q x → m.KeepsAttempt collection ids (f x)) :
    m.KeepsAttempt collection ids (ExceptT.lift p >>= f) := by
  refine keepsAttempt_bind (keeps_lift hp) fun x hx => ?_
  obtain ⟨y, hy, hQ⟩ := hx
  cases hy
  exact hf x hQ

end

end Holding

namespace SymbolStore

open Holding

/-- What comes of a call that is attempted again and again is one of its answers. -/
theorem within_call {P : Request → Prop} {G : (r : Request) → r.Answer → Prop} (s : SymbolStore)
    {call : ClientCall} (hcall : P (.client call)) (hpause : ∀ nanos, P (.pause nanos)) :
    (s.call call).run.Within P G (G (.client call)) := by
  have hattempts : ∀ left attempt, Program.Within P G (G (.client call))
      (s.retry.attempts (fun nanos => ask (.pause nanos)) (ask (.client call)) left attempt) := by
    intro left
    induction left with
    | zero => exact fun _ => Program.within_perform hcall
    | succ left ih =>
      refine fun attempt => Program.within_bind (Program.within_perform hcall) fun result hresult => ?_
      cases result with
      | ok x => exact hresult
      | error e =>
        dsimp only
        split
        · exact Program.within_bind (Program.within_perform (hpause _)) fun _ _ => ih _
        · exact hresult
  exact hattempts _ _

variable {m : Holding} {ids : Nat → Uuid} (s : SymbolStore)

theorem within_lift_bind {P : Request → Prop} {G : (r : Request) → r.Answer → Prop} {α β : Type}
    {Q : α → Prop} {Q' : Except Failure β → Prop} {p : Plan α} {f : α → Attempt β}
    (hp : p.Within P G Q) (hf : ∀ a, Q a → (f a).run.Within P G Q') :
    (ExceptT.lift p >>= f).run.Within P G Q' := by
  have hlift : (ExceptT.lift p : Attempt α).run.Within P G fun r => ∃ a, r = .ok a ∧ Q a :=
    Program.within_bind hp fun a ha => ⟨a, rfl, ha⟩
  refine Program.within_bind hlift fun result hresult => ?_
  obtain ⟨a, rfl, ha⟩ := hresult
  exact hf a ha

/-- The collection is there, so it is not made, and nothing changes but its indexes. -/
theorem keeps_ensureCollection :
    m.Keeps s.collection ids s.ensureCollection.run (· = .ok ()) := by
  have hcreate : ∀ keys, (s.createIndexes keys).Within
      (fun r => m.Allows s.collection r ∧ r.IsIdle) m.Gives fun _ => True := by
    intro keys
    induction keys with
    | nil => trivial
    | cons key rest ih =>
      exact Program.within_bind (Program.within_perform ⟨rfl, trivial⟩) fun _ _ =>
        Program.within_bind ih fun _ _ => trivial
  have hindexes : Program.Within (fun r => m.Allows s.collection r ∧ r.IsIdle) m.Gives (· = .ok ())
      (ExceptT.run (do
        unless ← ask (.hasReached .indexed) do
          if ← s.createIndexes indexedKeys then ask (.reach .indexed) : Attempt Unit)) := by
    refine within_lift_bind (Program.within_perform ⟨trivial, trivial⟩) fun there _ => ?_
    split
    · rfl
    · refine within_lift_bind (hcreate _) fun all _ => ?_
      split
      · exact ⟨⟨trivial, trivial⟩, fun _ _ => rfl⟩
      · rfl
  -- the collection is there, so that none is made
  have hpresent : s.createIfAbsent.run.Within (fun r => m.Allows s.collection r ∧ r.IsIdle) m.Gives
      (· = .ok ()) := by
    refine Program.within_bind (s.within_call ⟨rfl, trivial⟩ fun _ => ⟨trivial, trivial⟩)
      fun result hresult => ?_
    cases (show result = .ok true from hresult)
    rfl
  refine keeps_idle (within_lift_bind (Program.within_perform ⟨trivial, trivial⟩) fun ready _ => ?_)
  split
  · exact hindexes
  · refine Program.within_bind hpresent fun result hresult => ?_
    cases hresult
    exact within_lift_bind (Q := fun _ => True) ⟨⟨trivial, trivial⟩, fun _ _ => trivial⟩
      fun _ _ => hindexes

variable {s} (hids : ∀ n, m.owns (ids n).render)

include hids

theorem keeps_call {call : ClientCall} (hcall : m.Permits s.collection call) :
    m.Keeps s.collection ids (s.call call).run (m.Gives (.client call)) :=
  keeps_steady hids (s.within_call ⟨hcall, trivial⟩ fun _ => ⟨trivial, trivial⟩)

theorem keepsAttempt_orIfMissing (call : ClientCall) (hcall : m.Permits s.collection call)
    (fallback : call.Answer) : m.KeepsAttempt s.collection ids (orIfMissing fallback (s.call call)) := by
  refine keepsAttempt_lift_bind (keeps_call hids hcall) fun result _ => ?_
  split
  · exact keepsAttempt_pure _
  · exact keepsAttempt_pure _
  · exact keepsAttempt_throw _

/-! ## Reading -/

theorem keeps_scrollFrom {filter : Filter} (hfilter : m.Confines filter) (pages : Nat)
    (start : Option Json) : m.KeepsAttempt s.collection ids (s.scrollFrom filter pages start) := by
  induction pages generalizing start with
  | zero => exact keepsAttempt_throw _
  | succ pages ih =>
    refine keepsAttempt_bind (keeps_call hids ⟨rfl, hfilter⟩) fun page _ => ?_
    split
    · exact keepsAttempt_bind (ih _) fun _ _ => keepsAttempt_pure _
    · exact keepsAttempt_pure _

theorem keeps_scrollAll {filter : Filter} (hfilter : m.Confines filter) :
    m.KeepsAttempt s.collection ids (s.scrollAll filter) := by
  refine keepsAttempt_bind (keepsAttempt_orIfMissing hids (.scroll _ _ _ _) ⟨rfl, hfilter⟩ _)
    fun page _ => ?_
  split
  · exact keepsAttempt_bind (keeps_scrollFrom hids hfilter _ _) fun _ _ => keepsAttempt_pure _
  · exact keepsAttempt_pure _

theorem keeps_loadFiles : m.KeepsAttempt s.collection ids (s.loadFiles m.project) := by
  refine keepsAttempt_bind (keeps_scrollAll hids fun payload haccepts => ?_) fun _ _ =>
    keepsAttempt_pure _
  exact (Payload.accepts_files.mp haccepts).2

theorem keeps_loadProject (hown : m.owns m.project.render) :
    m.KeepsAttempt s.collection ids (s.loadProject m.project) := by
  refine keepsAttempt_bind (keepsAttempt_orIfMissing hids (.retrieve _ _)
    ⟨rfl, fun id hid => ?_⟩ _) fun _ _ =>
    keepsAttempt_pure _
  rw [List.mem_singleton.mp hid]
  exact hown

/-! ## Writing -/

theorem keeps_storeProject (hown : m.owns m.project.render) {p : Project} (hp : p.id = m.project) :
    m.KeepsAttempt s.collection ids (s.storeProject p) := by
  refine keepsAttempt_bind s.keeps_ensureCollection fun _ _ =>
    keepsAttempt_bind (keeps_call hids ⟨rfl, fun pt hpt => ?_⟩) fun _ _ => keepsAttempt_pure _
  rw [List.mem_singleton.mp hpt, Holding.Tags, Payload.projectId?_ofProject, hp]
  exact ⟨rfl, hown⟩

omit hids in
/-- Points of a file tell the id of its project, and are under the ids that the file has. -/
theorem mem_drafts {project fileId : Uuid} {f : FiledSource} {d : Draft}
    (h : d ∈ drafts project fileId f) : d.payload.projectId? = some project.render ∧
      ∃ id, d.id = id.render ∧ (id = fileId ∨ id ∈ f.ids) := by
  have hpoint : (d.id, d.payload) ∈ (IndexedFile.whole project fileId f).points := by
    rw [IndexedFile.points_whole]
    exact List.mem_map_of_mem h
  refine ⟨(IndexedFile.tells_of_mem_points hpoint).1, ?_⟩
  have hid : d.id ∈ fileId.render :: f.ids.map Uuid.render := by
    rw [← IndexedFile.ids_points_whole project]
    exact List.mem_map_of_mem hpoint
  rcases List.mem_cons.mp hid with hid | hid
  · exact ⟨fileId, hid, .inl rfl⟩
  · obtain ⟨id, hmem, hrender⟩ := List.mem_map.mp hid
    exact ⟨id, hrender.symm, .inr hmem⟩

theorem keeps_draftAll {files : List FiledSource}
    (hfiles : ∀ f ∈ files, ∀ id ∈ f.ids, m.owns id.render) :
    m.Keeps s.collection ids (draftAll m.project files) fun drafts => ∀ d ∈ drafts,
      d.payload.projectId? = some m.project.render ∧ m.owns d.id := by
  induction files with
  | nil => exact keeps_pure fun d hd => absurd hd List.not_mem_nil
  | cons f rest ih =>
    refine keeps_bind (keeps_ask hids trivial trivial) fun fileId hfileId => ?_
    refine keeps_bind (ih fun g hg => hfiles g (List.mem_cons_of_mem f hg)) fun later hlater => ?_
    refine keeps_pure fun d hd => ?_
    rcases List.mem_append.mp hd with hd | hd
    · obtain ⟨htag, id, hid, rfl | hmem⟩ := mem_drafts hd
      · exact ⟨htag, hid ▸ hfileId⟩
      · exact ⟨htag, hid ▸ hfiles f List.mem_cons_self id hmem⟩
    · exact hlater d hd

theorem keeps_vectorize (batch : List Draft) :
    m.Keeps s.collection ids (s.vectorize batch) fun points =>
      points.map Point.entry = batch.map Draft.entry := by
  have hembed : m.Keeps s.collection ids (s.embedTexts (batch.filterMap (·.text))) fun _ => True := by
    rw [embedTexts]
    split
    · exact keeps_pure trivial
    · refine keeps_bind (keeps_ask hids trivial trivial) fun result _ => ?_
      cases result <;> exact keeps_pure trivial
  exact keeps_bind hembed fun vectors _ => keeps_pure (fill_entries batch vectors)

theorem keeps_writeBatches {batches : List (List Draft)}
    (hbatches : ∀ batch ∈ batches, ∀ d ∈ batch,
      d.payload.projectId? = some m.project.render ∧ m.owns d.id) :
    m.KeepsAttempt s.collection ids (s.writeBatches batches) := by
  induction batches with
  | nil => exact keepsAttempt_pure _
  | cons batch rest ih =>
    refine keepsAttempt_lift_bind (keeps_vectorize hids batch) fun points hpoints => ?_
    refine keepsAttempt_bind (keeps_call hids ⟨rfl, fun p hp => ?_⟩) fun _ _ =>
      ih fun b hb => hbatches b (List.mem_cons_of_mem batch hb)
    have hentry : p.entry ∈ batch.map Draft.entry := hpoints ▸ List.mem_map_of_mem hp
    obtain ⟨d, hd, hsame⟩ := List.mem_map.mp hentry
    have hown := hbatches batch List.mem_cons_self d hd
    rw [show d.id = p.id from congrArg Prod.fst hsame,
      show d.payload = p.payload from congrArg Prod.snd hsame] at hown
    exact hown

theorem keeps_storeFiles {files : List FiledSource}
    (hfiles : ∀ f ∈ files, ∀ id ∈ f.ids, m.owns id.render) :
    m.KeepsAttempt s.collection ids (s.storeFiles m.project files) := by
  rw [storeFiles]
  split
  · exact keepsAttempt_pure _
  · refine keepsAttempt_bind s.keeps_ensureCollection fun _ _ =>
      keepsAttempt_lift_bind (keeps_draftAll hids hfiles) fun drafts hdrafts =>
        keepsAttempt_bind (keeps_writeBatches hids fun batch hbatch d hd => hdrafts d ?_) fun _ _ =>
          keepsAttempt_pure _
    rw [← flatten_batches (show 0 < batchSize by decide) drafts]
    exact List.mem_flatten.mpr ⟨batch, hbatch, hd⟩

/-! ## Deleting -/

theorem keeps_deleteFiles (paths : List String) :
    m.KeepsAttempt s.collection ids (s.deleteFiles m.project paths) := by
  rw [deleteFiles]
  split
  · exact keepsAttempt_pure _
  · refine keepsAttempt_bind (keeps_call hids ⟨rfl, fun payload haccepts => ?_⟩) fun _ _ =>
      keepsAttempt_pure _
    exact (Payload.accepts_paths.mp haccepts).1

theorem keeps_deleteProject (hown : m.owns m.project.render) :
    m.KeepsAttempt s.collection ids (s.deleteProject m.project) := by
  refine keepsAttempt_bind (keeps_loadProject hids hown) fun found _ => ?_
  cases found with
  | none => exact keepsAttempt_pure _
  | some _ =>
    refine keepsAttempt_bind (keeps_call hids ⟨rfl, fun payload haccepts => ?_⟩) fun _ _ =>
      keepsAttempt_pure _
    exact Payload.accepts_projectFilter.mp haccepts

end SymbolStore

end CodeAtlas
