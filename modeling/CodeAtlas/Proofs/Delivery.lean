import CodeAtlas.Host
import CodeAtlas.Proofs.Repeating
import CodeAtlas.SymbolStore.Files
/-!
# Calls that are delivered more than once

A call to a store may get lost, or its answer may, and from where the call was made the two look the
same: the failure may pass, so the call is made again. Then it is answered a second time, or for the
first time. Neither does any harm: whatever becomes of the calls of an operation that writes, if the
operation succeeds, it gives what it gives when every call is answered, and it leaves the same
collections and points.

Results:
1. `Settled.after`: to answer a call that may have been answered leaves what answering it once leaves.
2. `call_cases`: what comes of a call that is attempted again and again.
3. `faithful_createIfAbsent`, `faithful_storeFiles` and their kin: what operations give and leave does
   not depend on what becomes of their calls.
4. `sameContents_of_fates`: all operations that write are harmless.
-/

namespace CodeAtlas

/-! ## Networks -/

/-- What becomes of a call to a store. -/
inductive Fate where
  | answered
  /-- It does not arrive, and what comes back is a failure that may pass. -/
  | lost (e : Failure) (passing : e.isTransient = true)
  /-- It takes effect, and instead of the answer a failure comes back that may pass. -/
  | late (e : Failure) (passing : e.isTransient = true)

/-- Surroundings whose store is far away, and what becomes of the next calls to it. Later ones are
answered. -/
structure Network where
  host : Host
  fates : List Fate

/-- Answers a request, unless it is a call that something else becomes of. -/
def Network.serve : Program.Service Request.Answer Network
  | .client _, ⟨h, .lost e _ :: fates⟩ => (.ok (.error e), ⟨h, fates⟩)
  | .client call, ⟨h, .late e _ :: fates⟩ =>
    (.ok (.error e), ⟨(Host.serve (.client call) h).2, fates⟩)
  | .client call, ⟨h, fates⟩ =>
    ((Host.serve (.client call) h).1, ⟨(Host.serve (.client call) h).2, fates.tail⟩)
  | r, ⟨h, fates⟩ => ((Host.serve r h).1, ⟨(Host.serve r h).2, fates⟩)

/-! ## Surroundings in which nothing fails -/

namespace Host

/-- Points are kept in memory, and no call is to fail. -/
structure IsReliable (h : Host) : Prop where
  faults : h.faults = []
  store : ∃ collections, h.store = .memory { collections }

/-- The collections that are there. -/
def collections (h : Host) : Collections := h.store.toMemory.collections

/-- Their shapes and points. -/
def contents (h : Host) : String → Option (CollectionShape × List (String × Point)) :=
  h.collections.contents

/-- The answer to a call. -/
def answerTo (h : Host) (call : ClientCall) : call.Result := (h.collections.answer call).1

/-- The surroundings after a call. -/
def after (h : Host) (call : ClientCall) : Host := (serve (.client call) h).2

/-- Reliable surroundings that do not differ in anything that matters to a store. -/
structure Matches (h k : Host) : Prop where
  left : h.IsReliable
  right : k.IsReliable
  contents : h.contents = k.contents
  embedder : h.embedder = k.embedder
  isReady : h.isReady = k.isReady
  nextId : h.nextId = k.nextId

theorem IsReliable.refl {h : Host} (hr : h.IsReliable) : h.Matches h := ⟨hr, hr, rfl, rfl, rfl, rfl⟩

namespace Matches

variable {h k g : Host}

theorem symm (hm : h.Matches k) : k.Matches h :=
  ⟨hm.right, hm.left, hm.contents.symm, hm.embedder.symm, hm.isReady.symm, hm.nextId.symm⟩

theorem trans (hm : h.Matches k) (hm' : k.Matches g) : h.Matches g :=
  ⟨hm.left, hm'.right, hm.contents.trans hm'.contents, hm.embedder.trans hm'.embedder,
    hm.isReady.trans hm'.isReady, hm.nextId.trans hm'.nextId⟩

end Matches

section

variable {h k : Host} (hr : h.IsReliable)

include hr

/-- A call in reliable surroundings is answered by the collections. -/
theorem serve_client (call : ClientCall) :
    serve (.client call) h = (.ok (h.answerTo call), h.after call) := by
  obtain ⟨cs, hcs⟩ := hr.store
  refine Prod.ext ?_ rfl
  simp only [serve, answerCall, hr.faults, takeFault, answerCall.go, answerTo, collections, hcs,
    VectorStore.answer, VectorStore.toMemory, MemoryStore.answer, MemoryStore.takeFailure,
    Keyed.get?_nil]

/-- What a call leaves of reliable surroundings. -/
theorem after_reliable (call : ClientCall) : (h.after call).IsReliable ∧
    (h.after call).collections = (h.collections.answer call).2 ∧
    (h.after call).embedder = h.embedder ∧ (h.after call).isReady = h.isReady ∧
    (h.after call).nextId = h.nextId := by
  obtain ⟨cs, hcs⟩ := hr.store
  have hafter : h.after call = { h with
      faults := []
      calls := call :: h.calls
      store := .memory { collections := (cs.answer call).2 } } := by
    simp only [after, serve, answerCall, hr.faults, takeFault, answerCall.go, hcs,
      VectorStore.answer, MemoryStore.answer, MemoryStore.takeFailure, Keyed.get?_nil]
  rw [hafter, collections, collections, hcs]
  exact ⟨⟨rfl, _, rfl⟩, rfl, rfl, rfl, rfl⟩

end

/-- A call is answered alike in matching surroundings. -/
theorem Matches.answerTo {h k : Host} (hm : h.Matches k) (call : ClientCall) :
    h.answerTo call = k.answerTo call :=
  (Collections.answer_congr hm.contents call).1

/-- A call leaves matching surroundings of matching ones. -/
theorem Matches.after {h k : Host} (hm : h.Matches k) (call : ClientCall) :
    (h.after call).Matches (k.after call) := by
  obtain ⟨hleft, hcontents, hembedder, hready, hid⟩ := after_reliable hm.left call
  obtain ⟨hright, hcontents', hembedder', hready', hid'⟩ := after_reliable hm.right call
  refine ⟨hleft, hright, ?_, ?_, ?_, ?_⟩
  · refine (congrArg Collections.contents hcontents).trans ?_
    refine (Collections.answer_congr hm.contents call).2.trans ?_
    exact (congrArg Collections.contents hcontents').symm
  · rw [hembedder, hembedder', hm.embedder]
  · rw [hready, hready', hm.isReady]
  · rw [hid, hid', hm.nextId]

/-- A call that changes nothing leaves what was there. -/
theorem matches_after {h : Host} (hr : h.IsReliable) {call : ClientCall}
    (hcall : (h.collections.answer call).2.contents = h.contents) : (h.after call).Matches h := by
  obtain ⟨hafter, hcollections, hembedder, hready, hid⟩ := after_reliable hr call
  exact ⟨hafter, hr, (congrArg Collections.contents hcollections).trans hcall, hembedder, hready, hid⟩

/-! ## Calls that may have been answered -/

/-- The surroundings are those before a call or those after it. -/
def Settled (call : ClientCall) (h g : Host) : Prop := g.Matches h ∨ g.Matches (h.after call)

/-- To answer a call that may have been answered leaves what answering it once leaves. -/
theorem Settled.after {call : ClientCall} {h g : Host} (hh : h.IsReliable)
    (hg : Settled call h g) : (g.after call).Matches (h.after call) := by
  rcases hg with hm | hm
  · exact hm.after call
  · -- the collections have been changed as they are to be changed
    refine (hm.after call).trans ?_
    obtain ⟨hr, hagain, hembedder, hready, hid⟩ := after_reliable hm.right call
    refine ⟨hr, hm.right, ?_, hembedder, hready, hid⟩
    refine (congrArg Collections.contents hagain).trans ?_
    rw [Host.contents, (after_reliable hh call).2.1]
    exact Collections.contents_again call h.collections

/-- A call that may be repeated gets the same answer. -/
theorem Settled.answerTo {call : ClientCall} (hcall : call.isRepeatable = true) {h g : Host}
    (hh : h.IsReliable) (hg : Settled call h g) : g.answerTo call = h.answerTo call := by
  rcases hg with hm | hm
  · exact hm.answerTo call
  · rw [hm.answerTo call, Host.answerTo, (after_reliable hh call).2.1]
    exact Collections.answer_again hcall h.collections

/-- What may come of a call that is made until it is answered, or until enough failures have come
back. -/
def MayGive (h : Host) (call : ClientCall) (r : call.Result) (h' : Host) : Prop :=
  ((∃ g, Settled call h g ∧ r = g.answerTo call) ∧ h'.Matches (h.after call)) ∨
    (∃ e, r = .error e ∧ e.isTransient = true) ∧ Settled call h h'

theorem MayGive.settled {h h' : Host} {call : ClientCall} {r : call.Result}
    (hgives : h.MayGive call r h') : Settled call h h' :=
  hgives.elim (fun hanswered => .inr hanswered.2) And.right

end Host

/-! ## Runs -/

section

variable {σ α β : Type} {serve : Program.Service Request.Answer σ} {s s' : σ}

/-- An attempt that succeeds is followed by what comes next. -/
theorem run_attempt_bind {a : Attempt α} {x : α} (h : Program.run serve a.run s = (.ok (.ok x), s'))
    (f : α → Attempt β) :
    Program.run serve (a >>= f).run s = Program.run serve (f x).run s' := by
  change Program.run serve (a.run >>= ExceptT.bindCont f : Plan (Except Failure β)) s = _
  refine (Program.run_bind serve a.run _ s).trans ?_
  rw [h]
  rfl

/-- What succeeds has succeeded in both of its parts. -/
theorem run_attempt_bind_ok {a : Attempt α} {f : α → Attempt β} {y : β}
    (h : Program.run serve (a >>= f).run s = (.ok (.ok y), s')) :
    ∃ x t, Program.run serve a.run s = (.ok (.ok x), t) ∧
      Program.run serve (f x).run t = (.ok (.ok y), s') := by
  have hbind := (Program.run_bind serve a.run (ExceptT.bindCont f) s).symm.trans h
  split at hbind
  · next result t hrun =>
    cases result with
    | ok x => exact ⟨x, t, hrun, hbind⟩
    | error e => cases hbind
  · cases hbind

theorem run_bind_ok {p : Plan α} {f : α → Plan β} {y : β}
    (h : Program.run serve (p >>= f) s = (.ok y, s')) :
    ∃ x t, Program.run serve p s = (.ok x, t) ∧ Program.run serve (f x) t = (.ok y, s') := by
  have hbind := (Program.run_bind serve p f s).symm.trans h
  split at hbind
  · next x t hrun => exact ⟨x, t, hrun, hbind⟩
  · cases hbind

theorem run_bind_of_ok {p : Plan α} {x : α} (h : Program.run serve p s = (.ok x, s'))
    (f : α → Plan β) : Program.run serve (p >>= f) s = Program.run serve (f x) s' := by
  refine (Program.run_bind serve p f s).trans ?_
  rw [h]

theorem run_ask {r : Request} {answer : r.Answer} (h : serve r s = (.ok answer, s')) :
    Program.run serve (ask r) s = (.ok answer, s') := by
  rw [ask, Program.perform, Program.run, h]
  rfl

theorem run_ask_ok {r : Request} {answer : r.Answer}
    (h : Program.run serve (ask r) s = (.ok answer, s')) : serve r s = (.ok answer, s') := by
  rw [ask, Program.perform, Program.run] at h
  split at h
  · next answer' t hserve =>
    cases h
    exact hserve
  · cases h

/-- What a run gives, if it comes to an end. -/
theorem exists_of_toOption {r : Except Crash α} (h : r.toOption.isSome = true) :
    ∃ a, r = .ok a := by
  cases r with
  | error crash => cases h
  | ok a => exact ⟨a, rfl⟩

/-- What a run gives, if it succeeds. -/
theorem eq_of_toOption {r : Except Crash (Except Failure α)} {x : α}
    (h : r.toOption.bind Except.toOption = some x) : r = .ok (.ok x) := by
  cases r with
  | error crash => cases h
  | ok r =>
    cases r with
    | error e => cases h
    | ok y =>
      cases h
      rfl

theorem run_lift {p : Plan α} {x : α} (h : Program.run serve p s = (.ok x, s')) :
    Program.run serve (ExceptT.lift p : Attempt α).run s = (.ok (.ok x), s') :=
  run_bind_of_ok h _

theorem run_lift_ok {p : Plan α} {x : α}
    (h : Program.run serve (ExceptT.lift p : Attempt α).run s = (.ok (.ok x), s')) :
    Program.run serve p s = (.ok x, s') := by
  obtain ⟨x', t, hp, hx⟩ := run_bind_ok h
  cases hx
  exact hp

end

/-! ## Attempting again and again -/

namespace Network

/-- What comes of a call that is made once. -/
theorem serve_client_cases {n : Network} (hr : n.host.IsReliable) (call : ClientCall) :
    ∃ r n', serve (.client call) n = (.ok r, n') ∧
      ((r = n.host.answerTo call ∧ n'.host = n.host.after call) ∨
        (∃ e, r = .error e ∧ e.isTransient = true) ∧
          (n'.host = n.host ∨ n'.host = n.host.after call)) := by
  obtain ⟨h, fates⟩ := n
  have hanswer : Host.serve (.client call) h = (.ok (h.answerTo call), h.after call) :=
    Host.serve_client hr call
  have hanswered : ((Host.serve (.client call) h).1,
      (⟨(Host.serve (.client call) h).2, fates.tail⟩ : Network)) =
        (.ok (h.answerTo call), ⟨h.after call, fates.tail⟩) := by
    rw [hanswer]
  cases fates with
  | nil => exact ⟨_, _, hanswered, .inl ⟨rfl, rfl⟩⟩
  | cons fate fates =>
    cases fate with
    | answered => exact ⟨_, _, hanswered, .inl ⟨rfl, rfl⟩⟩
    | lost e passing => exact ⟨_, _, rfl, .inr ⟨⟨e, rfl, passing⟩, .inl rfl⟩⟩
    | late e passing => exact ⟨_, _, rfl, .inr ⟨⟨e, rfl, passing⟩, .inr rfl⟩⟩

variable {h : Host} {call : ClientCall} {r : call.Result} {n n' : Network}

/-- What comes of a call that may have been answered, if it is made once more. -/
theorem mayGive_of_serve (hh : h.IsReliable) (hn : Host.Settled call h n.host)
    (hserve : serve (.client call) n = (.ok r, n')) : h.MayGive call r n'.host := by
  obtain ⟨r', n₁, hserve', hcases⟩ := serve_client_cases (hn.elim (·.left) (·.left)) call
  rw [hserve] at hserve'
  cases hserve'
  rcases hcases with ⟨hr, hhost⟩ | ⟨hfailed, hhost | hhost⟩
  · exact .inl ⟨⟨n.host, hn, hr⟩, hhost ▸ hn.after hh⟩
  · exact .inr ⟨hfailed, hhost ▸ hn⟩
  · exact .inr ⟨hfailed, .inr (hhost ▸ hn.after hh)⟩

/-- What comes of a call that may have been answered, if it is made again and again. -/
theorem mayGive_of_attempts {s : SymbolStore} (hh : h.IsReliable) (left attempt : Nat)
    (hn : Host.Settled call h n.host)
    (hrun : Program.run serve (s.retry.attempts (fun nanos => ask (.pause nanos))
      (ask (.client call)) left attempt) n = (.ok r, n')) : h.MayGive call r n'.host := by
  induction left generalizing attempt n with
  | zero => exact mayGive_of_serve hh hn (run_ask_ok hrun)
  | succ left ih =>
    obtain ⟨r₁, n₁, hfirst, hrest⟩ := run_bind_ok hrun
    have hgives := mayGive_of_serve hh hn (run_ask_ok hfirst)
    cases r₁ with
    | ok a =>
      cases hrest
      exact hgives
    | error e =>
      dsimp only at hrest
      split at hrest
      · obtain ⟨_, n₂, hpause, hagain⟩ := run_bind_ok hrest
        cases run_ask_ok hpause
        exact ih _ hgives.settled hagain
      · cases hrest
        exact hgives

/-- What comes of a call of a store. -/
theorem mayGive_of_call {s : SymbolStore} (hr : n.host.IsReliable)
    (hrun : Program.run serve (s.call call).run n = (.ok r, n')) :
    n.host.MayGive call r n'.host :=
  mayGive_of_attempts hr _ _ (.inl hr.refl) hrun

/-- A call that may be repeated and does not end with a failure that may pass is answered as it is
answered once. -/
theorem call_cases {s : SymbolStore} (hcall : call.isRepeatable = true) (hr : n.host.IsReliable)
    (hrun : Program.run serve (s.call call).run n = (.ok r, n')) :
    (r = n.host.answerTo call ∧ n'.host.Matches (n.host.after call)) ∨
      (∃ e, r = .error e ∧ e.isTransient = true) := by
  rcases mayGive_of_call hr hrun with ⟨⟨g, hg, hanswer⟩, hafter⟩ | ⟨hfailed, _⟩
  · exact .inl ⟨hanswer.trans (hg.answerTo hcall hr), hafter⟩
  · exact .inr hfailed

/-- If nothing else becomes of calls, they are answered by the surroundings. -/
theorem run_answered {α : Type} (p : Plan α) (h : Host) :
    Program.run serve p ⟨h, []⟩ = ((h.run p).1, ⟨(h.run p).2, []⟩) := by
  induction p generalizing h with
  | pure a => rfl
  | ask r next ih =>
    have hserve : serve r ⟨h, []⟩ = ((Host.serve r h).1, ⟨(Host.serve r h).2, []⟩) := by
      cases r <;> rfl
    rw [Host.run, Program.run, Program.run, hserve]
    cases hanswer : Host.serve r h with
    | mk result h' =>
      cases result with
      | ok answer => exact ih answer h'
      | error crash => rfl

end Network

/-- A call in reliable surroundings is made once, unless the answer is a failure that may pass. -/
theorem Host.attempt_call (s : SymbolStore) (call : ClientCall) {h : Host} (hr : h.IsReliable)
    (hanswer : ∀ e, h.answerTo call = .error e → e.isTransient = false) :
    h.attempt (s.call call) = (.ok (h.answerTo call), h.after call) := by
  have hask : Program.run serve (ask (.client call)) h = (.ok (h.answerTo call), h.after call) :=
    run_ask (serve_client hr call)
  change Program.run serve (s.retry.attempts (fun nanos => ask (.pause nanos)) (ask (.client call))
    (max 1 s.retry.maxAttempts - 1) 1) h = _
  cases max 1 s.retry.maxAttempts - 1 with
  | zero => exact hask
  | succ left =>
    refine (run_bind_of_ok hask _).trans ?_
    cases hresult : h.answerTo call with
    | ok a => rfl
    | error e =>
      dsimp only
      rw [hanswer e hresult]
      rfl

/-! ## Faithful attempts -/

/-- Whatever becomes of its calls, a plan gives what it gives if all of them are answered, and leaves
the same. -/
def FaithfulPlan {α : Type} (p : Plan α) : Prop :=
  ∀ ⦃n : Network⦄ ⦃k : Host⦄, n.host.Matches k → ∀ ⦃a n'⦄,
    Program.run Network.serve p n = (.ok a, n') →
      ∃ k', k.run p = (.ok a, k') ∧ n'.host.Matches k'

/-- Whatever becomes of its calls, an attempt that succeeds gives what it gives if all of them are
answered, and leaves the same. -/
def Attempt.IsFaithful {α : Type} (a : Attempt α) : Prop :=
  ∀ ⦃n : Network⦄ ⦃k : Host⦄, n.host.Matches k → ∀ ⦃x n'⦄,
    Program.run Network.serve a.run n = (.ok (.ok x), n') →
      ∃ k', k.attempt a = (.ok (.ok x), k') ∧ n'.host.Matches k'

/-- Whatever becomes of its calls, an attempt succeeds and leaves what was there. -/
def Attempt.IsIdle (a : Attempt Unit) : Prop :=
  ∀ ⦃n : Network⦄, n.host.IsReliable →
    ∃ n', Program.run Network.serve a.run n = (.ok (.ok ()), n') ∧ n'.host.Matches n.host

section

variable {α β : Type}

theorem faithfulPlan_pure (a : α) : FaithfulPlan (pure a) := by
  intro n k hm a' n' hrun
  cases hrun
  exact ⟨k, rfl, hm⟩

theorem faithfulPlan_bind {p : Plan α} {f : α → Plan β} (hp : FaithfulPlan p)
    (hf : ∀ a, FaithfulPlan (f a)) : FaithfulPlan (p >>= f) := by
  intro n k hm b n' hrun
  obtain ⟨a, n₁, hfirst, hrest⟩ := run_bind_ok hrun
  obtain ⟨k₁, hk₁, hm₁⟩ := hp hm hfirst
  obtain ⟨k₂, hk₂, hm₂⟩ := hf a hm₁ hrest
  exact ⟨k₂, (run_bind_of_ok hk₁ f).trans hk₂, hm₂⟩

theorem faithful_pure (a : α) : (pure a : Attempt α).IsFaithful := by
  intro n k hm a' n' hrun
  cases hrun
  exact ⟨k, rfl, hm⟩

theorem faithful_bind {a : Attempt α} {f : α → Attempt β} (ha : a.IsFaithful)
    (hf : ∀ x, (f x).IsFaithful) : (a >>= f).IsFaithful := by
  intro n k hm y n' hrun
  obtain ⟨x, n₁, hfirst, hrest⟩ := run_attempt_bind_ok hrun
  obtain ⟨k₁, hk₁, hm₁⟩ := ha hm hfirst
  obtain ⟨k₂, hk₂, hm₂⟩ := hf x hm₁ hrest
  exact ⟨k₂, (run_attempt_bind hk₁ f).trans hk₂, hm₂⟩

theorem faithful_lift {p : Plan α} (hp : FaithfulPlan p) :
    Attempt.IsFaithful (ExceptT.lift p) := by
  intro n k hm x n' hrun
  obtain ⟨k', hk', hm'⟩ := hp hm (run_lift_ok hrun)
  exact ⟨k', run_lift hk', hm'⟩

/-- What leaves what was there is faithful. -/
theorem faithful_of_idle {a : Attempt Unit} (ha : a.IsIdle) : a.IsFaithful := by
  intro n k hm x n' hrun
  obtain ⟨n₁, hrun₁, hm₁⟩ := ha hm.left
  rw [hrun] at hrun₁
  cases hrun₁
  obtain ⟨m, hclean, hm'⟩ := ha (n := ⟨k, []⟩) hm.right
  obtain ⟨hresult, rfl⟩ := Prod.mk.inj ((Network.run_answered a.run k).symm.trans hclean)
  exact ⟨_, Prod.ext hresult rfl, (hm₁.trans hm).trans hm'.symm⟩

theorem idle_pure : Attempt.IsIdle (pure ()) := fun _ hr => ⟨_, rfl, hr.refl⟩

/-- A plan that leaves what was there, whatever comes of it, may come first. -/
theorem idle_bind {p : Plan α} {f : α → Attempt Unit}
    (hp : ∀ n : Network, n.host.IsReliable →
      ∃ a n', Program.run Network.serve p n = (.ok a, n') ∧ n'.host.Matches n.host)
    (hf : ∀ a, (f a).IsIdle) : Attempt.IsIdle (ExceptT.lift p >>= f) := by
  intro n hr
  obtain ⟨a, n₁, hfirst, hm₁⟩ := hp n hr
  obtain ⟨n₂, hrest, hm₂⟩ := hf a hm₁.left
  exact ⟨n₂, (run_attempt_bind (run_lift hfirst) f).trans hrest, hm₂.trans hm₁⟩

/-- A request that is no call to the store, and is answered alike in matching surroundings. -/
theorem faithfulPlan_ask {r : Request}
    (hr : ∀ n : Network,
      Network.serve r n = ((Host.serve r n.host).1, ⟨(Host.serve r n.host).2, n.fates⟩))
    (hanswer : ∀ h k : Host, h.Matches k → (Host.serve r h).1 = (Host.serve r k).1 ∧
      (Host.serve r h).2.Matches (Host.serve r k).2) : FaithfulPlan (ask r) := by
  intro n k hm a n' hrun
  obtain ⟨hsame, hm'⟩ := hanswer n.host k hm
  obtain ⟨hresult, rfl⟩ := Prod.mk.inj ((hr n).symm.trans (run_ask_ok hrun))
  exact ⟨_, run_ask (Prod.ext (hsame.symm.trans hresult) rfl), hm'⟩

end

theorem faithfulPlan_freshId : FaithfulPlan (ask .freshId) :=
  faithfulPlan_ask (fun _ => rfl) fun _ _ hm =>
    ⟨congrArg (fun id => Except.ok (Uuid.ofNat id)) hm.nextId, { hm with
      left := { hm.left with }
      right := { hm.right with }
      nextId := congrArg (· + 1) hm.nextId }⟩

theorem faithfulPlan_embedAll (texts : List String) : FaithfulPlan (ask (.embedAll texts)) := by
  refine faithfulPlan_ask (fun _ => rfl) fun h k hm => ⟨?_, { hm with
    left := { hm.left with }
    right := { hm.right with } }⟩
  rw [Host.serve, Host.serve, hm.embedder]

theorem faithfulPlan_hasReached : FaithfulPlan (ask (.hasReached .ready)) :=
  faithfulPlan_ask (fun _ => rfl) fun _ _ hm => ⟨congrArg Except.ok hm.isReady, hm⟩

theorem faithfulPlan_reach : FaithfulPlan (ask (.reach .ready)) :=
  faithfulPlan_ask (fun _ => rfl) fun _ _ hm => ⟨rfl, { hm with
    left := { hm.left with }
    right := { hm.right with }
    isReady := rfl }⟩

/-! ## Setting the collection up -/

namespace SymbolStore

variable (s : SymbolStore)

/-- A call that may be repeated is faithful. -/
theorem faithful_call {call : ClientCall} (hcall : call.isRepeatable = true) :
    (s.call call).IsFaithful := by
  intro n k hm a n' hrun
  rcases Network.call_cases hcall hm.left hrun with ⟨hanswer, hafter⟩ | ⟨e, he, _⟩
  · rw [hm.answerTo call] at hanswer
    refine ⟨k.after call, ?_, hafter.trans (hm.after call)⟩
    rw [hanswer]
    refine Host.attempt_call s call hm.right fun e he => ?_
    rw [he] at hanswer
    cases hanswer
  · cases he

/-- If a collection is to be made that is missing, then behind all calls it has been made, or it is
still missing and a failure has come back. -/
theorem made_of_createIfAbsent {n n' : Network} {x : Unit}
    (habsent : n.host.answerTo (.hasCollection s.collection) = .ok false)
    (hr : n.host.IsReliable)
    (hrun : Program.run Network.serve (do
      match ← (s.call (.create s.shape)).outcome with
      | .ok () => pure ()
      | .error e =>
        match ← (s.call (.hasCollection s.collection)).outcome with
        | .ok true => pure ()
        | _ => throw e : Attempt Unit).run n = (.ok (.ok x), n')) :
    n'.host.Matches (n.host.after (.create s.shape)) := by
  obtain ⟨made, n₁, hmade, hrest⟩ := run_attempt_bind_ok hrun
  have hgives := Network.mayGive_of_call hr (run_lift_ok hmade)
  cases made with
  | ok _ =>
    cases hrest
    rcases hgives with ⟨_, hafter⟩ | ⟨⟨e, he, _⟩, _⟩
    · exact hafter
    · cases he
  -- a call that seems to have failed has been carried out if the collection is there now
  | error e =>
    obtain ⟨again, n₂, hagain, hlast⟩ := run_attempt_bind_ok hrest
    have hthere : again = .ok true ∧ n' = n₂ := by
      cases again with
      | error _ => cases hlast
      | ok there =>
        cases there with
        | false => cases hlast
        | true =>
          cases hlast
          exact ⟨rfl, rfl⟩
    obtain ⟨rfl, rfl⟩ := hthere
    have hr₁ : n₁.host.IsReliable := hgives.settled.elim (·.left) (·.left)
    rcases Network.call_cases rfl hr₁ (run_lift_ok hagain) with ⟨hanswer, hafter⟩ | ⟨_, he, _⟩
    · rcases hgives.settled with hsame | hmade
      · rw [hsame.answerTo, habsent] at hanswer
        cases hanswer
      · exact (hafter.trans (Host.matches_after hr₁ rfl)).trans hmade
    · cases he

/-- A collection is there, or it is made, whatever becomes of the calls: if it is made and nobody is
told, it is found to be there after all. -/
theorem faithful_createIfAbsent : s.createIfAbsent.IsFaithful := by
  intro n k hm x n' hrun
  obtain ⟨present, n₁, hfirst, hrest⟩ := run_attempt_bind_ok hrun
  obtain ⟨k₁, hk₁, hm₁⟩ := s.faithful_call rfl hm hfirst
  cases present with
  | true =>
    cases hrest
    exact ⟨k₁, (run_attempt_bind hk₁ _).trans rfl, hm₁⟩
  | false =>
    have habsent : n₁.host.answerTo (.hasCollection s.collection) = .ok false := by
      rcases Network.call_cases rfl hm.left hfirst with ⟨hanswer, hafter⟩ | ⟨_, he, _⟩
      · exact (hafter.trans (Host.matches_after hm.left rfl)).answerTo _ |>.trans hanswer.symm
      · cases he
    have hmissing : Keyed.contains s.collection k₁.collections = false :=
      Except.ok.inj ((hm₁.answerTo _).symm.trans habsent)
    have hcreate : k₁.answerTo (.create s.shape) = .ok () := by
      rw [Host.answerTo, Collections.answer, if_neg]
      rw [show s.shape.name = s.collection from rfl, hmissing]
      exact Bool.false_ne_true
    have hclean := Host.attempt_call s (.create s.shape) hm₁.right fun e he => by
      rw [hcreate] at he
      cases he
    rw [hcreate] at hclean
    refine ⟨k₁.after (.create s.shape), ?_,
      (s.made_of_createIfAbsent habsent hm₁.left hrest).trans (hm₁.after _)⟩
    refine (run_attempt_bind hk₁ _).trans ?_
    exact (run_attempt_bind (run_lift hclean) _).trans rfl

/-- Indexes are declared or not, and nothing else changes. -/
theorem idle_createIndexes (keys : List String) (n : Network) (hr : n.host.IsReliable) :
    ∃ all n', Program.run Network.serve (s.createIndexes keys) n = (.ok all, n') ∧
      n'.host.Matches n.host := by
  induction keys generalizing n with
  | nil => exact ⟨_, _, rfl, hr.refl⟩
  | cons key rest ih =>
    obtain ⟨r, n₁, hserve, hcases⟩ := Network.serve_client_cases hr (.createIndex s.collection key)
    have hm₁ : n₁.host.Matches n.host := by
      have hafter := Host.matches_after hr (Collections.contents_createIndex n.host.collections
        s.collection key)
      rcases hcases with ⟨_, hhost⟩ | ⟨_, hhost | hhost⟩
      · exact hhost ▸ hafter
      · exact hhost ▸ hr.refl
      · exact hhost ▸ hafter
    obtain ⟨all, n₂, hrest, hm₂⟩ := ih n₁ hm₁.left
    refine ⟨r.toBool && all, n₂, ?_, hm₂.trans hm₁⟩
    refine (run_bind_of_ok (run_ask hserve) _).trans ?_
    exact (run_bind_of_ok hrest _).trans rfl

theorem faithful_ensureCollection : s.ensureCollection.IsFaithful := by
  have hindexes : Attempt.IsFaithful (do
      unless ← ask (.hasReached .indexed) do
        if ← s.createIndexes indexedKeys then ask (.reach .indexed) : Attempt Unit) := by
    refine faithful_of_idle (idle_bind (fun n hr => ⟨_, _, rfl, hr.refl⟩) fun there => ?_)
    split
    · exact idle_pure
    · refine idle_bind (s.idle_createIndexes _) fun all => ?_
      split
      · intro n hr
        exact ⟨_, rfl, { hr.refl with left := { hr with } }⟩
      · exact idle_pure
  refine faithful_bind (faithful_lift faithfulPlan_hasReached) fun there => ?_
  split
  · exact hindexes
  · exact faithful_bind s.faithful_createIfAbsent fun _ =>
      faithful_bind (faithful_lift faithfulPlan_reach) fun _ => hindexes

/-! ## Writing -/

theorem faithful_storeProject (p : Project) : (s.storeProject p).IsFaithful :=
  faithful_bind s.faithful_ensureCollection fun _ =>
    faithful_bind (s.faithful_call rfl) fun _ => faithful_pure _

theorem faithfulPlan_draftAll (project : Uuid) (files : List FiledSource) :
    FaithfulPlan (draftAll project files) := by
  induction files with
  | nil => exact faithfulPlan_pure _
  | cons f rest ih =>
    exact faithfulPlan_bind faithfulPlan_freshId fun _ =>
      faithfulPlan_bind ih fun _ => faithfulPlan_pure _

theorem faithfulPlan_vectorize (batch : List Draft) : FaithfulPlan (s.vectorize batch) := by
  refine faithfulPlan_bind ?_ fun _ => faithfulPlan_pure _
  rw [embedTexts]
  split
  · exact faithfulPlan_pure _
  · refine faithfulPlan_bind (faithfulPlan_embedAll _) fun result => ?_
    cases result <;> exact faithfulPlan_pure _

/-- The points of a batch have their ids before the call that writes them is made for the first
time. -/
theorem faithful_writeBatches (batches : List (List Draft)) :
    (s.writeBatches batches).IsFaithful := by
  induction batches with
  | nil => exact faithful_pure _
  | cons batch rest ih =>
    exact faithful_bind (faithful_lift (s.faithfulPlan_vectorize batch)) fun _ =>
      faithful_bind (s.faithful_call rfl) fun _ => ih

theorem faithful_storeFiles (project : Uuid) (files : List FiledSource) :
    (s.storeFiles project files).IsFaithful := by
  rw [storeFiles]
  split
  · exact faithful_pure _
  · exact faithful_bind s.faithful_ensureCollection fun _ =>
      faithful_bind (faithful_lift (faithfulPlan_draftAll project files)) fun _ =>
        faithful_bind (s.faithful_writeBatches _) fun _ => faithful_pure _

/-! ## Deleting -/

theorem faithful_deleteFiles (project : Uuid) (paths : List String) :
    (s.deleteFiles project paths).IsFaithful := by
  rw [deleteFiles]
  split
  · exact faithful_pure _
  · exact faithful_bind (s.faithful_call rfl) fun _ => faithful_pure _

/-- A failure that may pass is not taken for a missing collection. -/
theorem faithful_orIfMissing (call : ClientCall) (hcall : call.isRepeatable = true)
    (fallback : call.Answer) : (orIfMissing fallback (s.call call)).IsFaithful := by
  intro n k hm x n' hrun
  obtain ⟨result, n₁, hfirst, hrest⟩ := run_attempt_bind_ok hrun
  have hdefinite : ∀ e, result = .error e → e.isTransient = false := by
    rintro e rfl
    cases e with
    | notFound message => rfl
    | _ => cases hrest
  rcases Network.call_cases hcall hm.left (run_lift_ok hfirst) with
    ⟨hanswer, hafter⟩ | ⟨e, he, hpassing⟩
  · rw [hm.answerTo call] at hanswer
    have hclean := Host.attempt_call s call hm.right fun e he => hdefinite e (hanswer.trans he)
    rw [← hanswer] at hclean
    have hm' := hafter.trans (hm.after call)
    cases result with
    | ok a =>
      cases hrest
      exact ⟨k.after call, (run_attempt_bind (run_lift hclean) _).trans rfl, hm'⟩
    | error e =>
      cases e with
      | notFound message =>
        cases hrest
        exact ⟨k.after call, (run_attempt_bind (run_lift hclean) _).trans rfl, hm'⟩
      | _ => cases hrest
  · rw [hdefinite e he] at hpassing
    cases hpassing

theorem faithful_deleteProject (id : Uuid) : (s.deleteProject id).IsFaithful := by
  refine faithful_bind ?_ fun found => ?_
  · exact faithful_bind (s.faithful_orIfMissing (.retrieve s.collection [id.render]) rfl [])
      fun _ => faithful_pure _
  · cases found with
    | none => exact faithful_pure _
    | some _ => exact faithful_bind (s.faithful_call rfl) fun _ => faithful_pure _

end SymbolStore

/-! ## Operations -/

/-- An operation of a store that writes. -/
inductive StoreOperation where
  | ensureCollection
  | storeProject (p : Project)
  | storeFiles (project : Uuid) (files : List FiledSource)
  | deleteFiles (project : Uuid) (paths : List String)
  | deleteProject (id : Uuid)

namespace StoreOperation

/-- What an operation gives. -/
@[reducible] def Result : StoreOperation → Type
  | ensureCollection => Unit
  | storeProject _ => Uuid
  | storeFiles _ _ | deleteFiles _ _ => Nat
  | deleteProject _ => Bool

def run (s : SymbolStore) : (op : StoreOperation) → Attempt op.Result
  | ensureCollection => s.ensureCollection
  | storeProject p => s.storeProject p
  | storeFiles project files => s.storeFiles project files
  | deleteFiles project paths => s.deleteFiles project paths
  | deleteProject id => s.deleteProject id

theorem faithful_run (s : SymbolStore) (op : StoreOperation) : (op.run s).IsFaithful := by
  cases op with
  | ensureCollection => exact s.faithful_ensureCollection
  | storeProject p => exact s.faithful_storeProject p
  | storeFiles project files => exact s.faithful_storeFiles project files
  | deleteFiles project paths => exact s.faithful_deleteFiles project paths
  | deleteProject id => exact s.faithful_deleteProject id

end StoreOperation

/-- Whatever becomes of its calls, an operation that succeeds gives what it gives if all of them are
answered, and leaves the same collections with the same points. -/
theorem sameContents_of_fates (s : SymbolStore) (op : StoreOperation) {h : Host}
    (hr : h.IsReliable) {fates : List Fate} {result : op.Result} {n' : Network}
    (hrun : Program.run Network.serve (op.run s).run ⟨h, fates⟩ = (.ok (.ok result), n')) :
    ∃ h', h.attempt (op.run s) = (.ok (.ok result), h') ∧ n'.host.contents = h'.contents := by
  obtain ⟨h', hclean, hm⟩ := op.faithful_run s (n := ⟨h, fates⟩) hr.refl hrun
  exact ⟨h', hclean, hm.contents⟩

section

set_option maxRecDepth 100000

/-- A store that attempts its calls again. -/
def SymbolStore.patient : SymbolStore :=
  { collection := "points", vectorSize := 0, retry := { baseDelay := 0 } }

/-- A project that is to be written. -/
def StoreOperation.small : StoreOperation :=
  .storeProject { id := .ofNat 1, name := "r", rootPath := "/r" }

/-- The collection is made and the project is written, and neither time anybody is told. -/
def untold : List Fate :=
  [.lost (.transient "timeout") rfl, .answered, .late (.transient "timeout") rfl, .answered,
    .answered, .lost (.transient "timeout") rfl, .answered, .answered, .answered, .answered,
    .answered, .late (.transient "timeout") rfl, .answered]

/-- The network behind the operation. -/
def Network.behind (fates : List Fate) : Network :=
  (Program.run serve (StoreOperation.small.run .patient).run ⟨{}, fates⟩).2

theorem sameContents_of_untold : ∃ h', (Network.behind untold).fates = [] ∧
    Host.attempt {} (StoreOperation.small.run .patient) = (.ok (.ok (Uuid.ofNat 1)), h') ∧
      (Network.behind untold).host.contents = h'.contents := by
  have hfates : (Network.behind untold).fates.length = 0 := by decide +kernel
  have hresult : ((Program.run Network.serve (StoreOperation.small.run .patient).run
      ⟨{}, untold⟩).1.toOption.bind Except.toOption : Option Uuid) = some (.ofNat 1) := by
    decide +kernel
  obtain ⟨h', hclean, hsame⟩ := sameContents_of_fates .patient .small (h := {}) ⟨rfl, {}, rfl⟩
    (Prod.ext (eq_of_toOption hresult) rfl)
  exact ⟨h', List.eq_nil_of_length_eq_zero hfates, hclean, hsame⟩

end

end CodeAtlas
