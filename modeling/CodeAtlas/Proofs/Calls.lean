import CodeAtlas.Proofs.Delivery
import CodeAtlas.Proofs.Requests
import CodeAtlas.Proofs.Scene
/-!
# What may become of a call

A call makes a collection or changes one, or it changes nothing. A vector store in memory can be told
to fail, and so can the surroundings. So a call is answered, or it fails and nothing has happened, or a
collection seems not to be there, or the surroundings break down.

Results:
1. `Collections.answer_cases`: what a call may do to collections.
2. `ClientCall.Comes`: what may come of a call that may fail.
3. `Host.comes_of_serve`: nothing else comes of it.
4. `Host.answered_of_faultless`: surroundings break down only if they have been told to.
5. `Host.comes_of_call`: no more comes of a call that is attempted again.
-/

namespace CodeAtlas

/-! ## Collections behind a call -/

/-- What a call makes of a collection, or of the place of one. -/
inductive Collection.Becomes : Option Collection → Collection → Prop
  | made (shape : CollectionShape) : Becomes none { shape }
  | createIndex (c : Collection) (key : String) : Becomes (some c) (c.createIndex key)
  | upsert (c : Collection) (points : List Point) : Becomes (some c) (c.upsert points)
  | delete (c : Collection) (filter : Filter) : Becomes (some c) (c.delete filter)

namespace Collections

theorem after_changing (cs : Collections) (name : String)
    (f : Collection → Except Failure Collection) : (cs.changing name f).2 = cs ∨
      ∃ c d, Keyed.get? name cs = some c ∧ f c = .ok d ∧
        (cs.changing name f).2 = Keyed.insert name d cs := by
  rw [changing, require]
  cases hc : Keyed.get? name cs with
  | none => exact .inl rfl
  | some c =>
    dsimp only [Except.bind]
    cases hd : f c with
    | error e => exact .inl rfl
    | ok d => exact .inr ⟨c, d, rfl, hd, rfl⟩

/-- A call makes or changes one collection, or nothing. -/
theorem answer_cases (cs : Collections) (call : ClientCall) : (cs.answer call).2 = cs ∨
    ∃ name c, Collection.Becomes (Keyed.get? name cs) c ∧
      (cs.answer call).2 = Keyed.insert name c cs := by
  -- most changes put one collection in the place of another
  have hchanging : ∀ name (f : Collection → Except Failure Collection),
      (∀ c d, f c = .ok d → Collection.Becomes (some c) d) → (cs.changing name f).2 = cs ∨
        ∃ name' c, Collection.Becomes (Keyed.get? name' cs) c ∧
          (cs.changing name f).2 = Keyed.insert name' c cs := by
    intro name f hf
    rcases cs.after_changing name f with hsame | ⟨c, d, hc, hd, hnew⟩
    · exact .inl hsame
    · exact .inr ⟨name, d, hc ▸ hf c d hd, hnew⟩
  cases call with
  | create shape =>
    rw [answer]
    split
    · exact .inl rfl
    · next habsent =>
      refine .inr ⟨shape.name, { shape }, ?_, rfl⟩
      rw [Option.not_isSome_iff_eq_none.mp habsent]
      exact .made shape
  | createIndex name key =>
    refine hchanging name _ fun c d hd => ?_
    cases hd
    exact .createIndex c key
  | upsert name points =>
    refine hchanging name _ fun c d hd => ?_
    obtain ⟨_, rfl⟩ := upsert_eq_ok hd
    exact .upsert c points
  | delete name filter =>
    rw [answer]
    split
    · exact .inl rfl
    · refine hchanging name _ fun c d hd => ?_
      cases hd
      exact .delete c filter
  | _ => exact .inl rfl

/-- A call that is no writing changes nothing. -/
theorem answer_of_idle {call : ClientCall} (hcall : call.isWrite = false) (cs : Collections) :
    (cs.answer call).2 = cs := by
  cases call with
  | hasCollection _ => rfl
  | retrieve _ _ => rfl
  | scroll _ _ _ _ => rfl
  | search _ _ _ _ => rfl
  | _ => cases hcall

/-- A call that fails changes nothing. -/
theorem answer_of_error {cs : Collections} {call : ClientCall} {e : Failure}
    (h : (cs.answer call).1 = .error e) : (cs.answer call).2 = cs := by
  have hchanging : ∀ name (f : Collection → Except Failure Collection),
      (cs.changing name f).1 = .error e → (cs.changing name f).2 = cs := by
    intro name f hf
    rcases cs.after_changing name f with hsame | ⟨c, d, hc, hd, _⟩
    · exact hsame
    · rw [changing, require, hc] at hf
      dsimp only [Except.bind] at hf
      rw [hd] at hf
      cases hf
  cases call with
  | create shape =>
    rw [answer] at h ⊢
    split
    · rfl
    · next habsent =>
      rw [if_neg habsent] at h
      cases h
  | createIndex name key => exact hchanging name _ h
  | upsert name points => exact hchanging name _ h
  | delete name filter =>
    rw [answer] at h ⊢
    split
    · rfl
    · next hconditions =>
      rw [if_neg hconditions] at h
      exact hchanging name _ h
  | _ => rfl

end Collections

/-! ## Calls that may fail -/

/-- What may come of a call to a vector store in memory: what is given, and the collections behind it.
The failures are of the kind `fails`. -/
inductive ClientCall.Comes (fails : Failure → Prop) (cs : Collections) :
    (call : ClientCall) → Except Crash call.Result → Collections → Prop
  | answered (call : ClientCall) : Comes fails cs call (.ok (cs.answer call).1) (cs.answer call).2
  | failed (call : ClientCall) {e : Failure} (he : fails e) : Comes fails cs call (.ok (.error e)) cs
  | absent (name : String) : Comes fails cs (.hasCollection name) (.ok (.ok false)) cs
  | crashed (call : ClientCall) (crash : Crash) : Comes fails cs call (.error crash) cs

namespace ClientCall.Comes

variable {fails : Failure → Prop} {cs ds : Collections} {call : ClientCall}

/-- A failure leaves the collections as they were. -/
theorem same_of_error {e : Failure} (h : Comes fails cs call (.ok (.error e)) ds) : ds = cs := by
  generalize hresult : (.ok (.error e) : Except Crash call.Result) = result at h
  cases h with
  | answered => exact Collections.answer_of_error (Except.ok.inj hresult).symm
  | _ => rfl

/-- Nothing is left but what there was or what an answer leaves. -/
theorem same_or_answered {result : Except Crash call.Result} (h : Comes fails cs call result ds) :
    ds = cs ∨ ds = (cs.answer call).2 := by
  cases h with
  | answered => exact .inr rfl
  | _ => exact .inl rfl

/-- What is given is what the collections answer, unless it is that there is no collection. -/
theorem answered_of_ok {answer : call.Answer} (h : Comes fails cs call (.ok (.ok answer)) ds)
    (hcall : ∀ name, call ≠ .hasCollection name) :
    (cs.answer call).1 = .ok answer ∧ ds = (cs.answer call).2 := by
  generalize hresult : (.ok (.ok answer) : Except Crash call.Result) = result at h
  cases h with
  | answered => exact ⟨(Except.ok.inj hresult).symm, rfl⟩
  | failed => cases hresult
  | absent name => exact absurd rfl (hcall name)
  | crashed => cases hresult

end ClientCall.Comes

namespace Host

/-- Points are kept in memory. -/
def IsLocal (h : Host) : Prop := ∃ m, h.store = .memory m

/-- What is remembered of a collection. -/
def remembered (h : Host) : Milestone → Bool
  | .ready => h.isReady
  | .indexed => h.isIndexed

/-- The surroundings with other failures of the vector store in wait. -/
def prepare (h : Host) (f : MemoryStore → MemoryStore) : Host :=
  { h with store := .memory (f h.store.toMemory) }

theorem IsReliable.isLocal {h : Host} (hr : h.IsReliable) : h.IsLocal :=
  let ⟨_, hm⟩ := hr.store
  ⟨_, hm⟩

section

variable {h : Host} {fails : Failure → Prop}

/-- What comes of a call that reaches the vector store. -/
theorem comes_of_go (call : ClientCall) (hm : h.IsLocal)
    (hpassing : ∀ message, fails (.transient message)) :
    call.Comes fails h.collections (answerCall.go h call).1 (answerCall.go h call).2.collections ∧
      (answerCall.go h call).2.IsLocal ∧ (answerCall.go h call).2.remembered = h.remembered := by
  obtain ⟨m, hm⟩ := hm
  have hcollections : h.collections = m.collections := by rw [collections, hm]; rfl
  rw [hcollections]
  simp only [answerCall.go, hm, VectorStore.answer]
  refine ⟨?_, ⟨_, rfl⟩, rfl⟩
  change call.Comes fails m.collections (.ok (m.answer call).1) (m.answer call).2.collections
  rcases m.answer_cases call with ⟨⟨message, hresult⟩, hsame⟩ | ⟨hresult, hafter⟩
  · rw [hresult, hsame]
    exact .failed call (hpassing _)
  · rw [hresult, hafter]
    exact .answered call

/-- What comes of a call in surroundings that keep points in memory. -/
theorem comes_of_serve (call : ClientCall) (hm : h.IsLocal)
    (hpassing : ∀ message, fails (.transient message))
    (hfaults : ∀ f ∈ h.faults, f.operation = call.operation → ∀ e, f.mishap = .failure e → fails e) :
    call.Comes fails h.collections (serve (.client call) h).1 (serve (.client call) h).2.collections ∧
      (serve (.client call) h).2.IsLocal ∧ (serve (.client call) h).2.remembered = h.remembered := by
  have htakes := h.takes_call call
  rw [serve]
  generalize h.answerCall call = answer at htakes ⊢
  cases htakes with
  | failed hf hop hmishap => exact ⟨.failed call (hfaults _ hf hop _ hmishap), hm, rfl⟩
  | crashed crash => exact ⟨.crashed call _, hm, rfl⟩
  | absent hresult =>
    cases call with
    | hasCollection name =>
      cases hresult
      exact ⟨.absent name, hm, rfl⟩
    | _ => cases hresult
  | reached => exact comes_of_go (h := h.noted call) call hm hpassing

/-- If no fault waits, a call is answered, be it with a failure. -/
theorem answered_of_faultless (hfaults : h.faults = []) (call : ClientCall) :
    (∃ result, (serve (.client call) h).1 = .ok result) ∧ (serve (.client call) h).2.faults = [] := by
  simp only [serve, answerCall, hfaults, takeFault, answerCall.go]
  exact ⟨⟨_, rfl⟩, trivial⟩

end

/-- What comes of a call in surroundings that may fail in whatever way. -/
theorem comes_of_local {h : Host} (hm : h.IsLocal) (call : ClientCall) :
    call.Comes (fun _ => True) h.collections (serve (.client call) h).1
      (serve (.client call) h).2.collections ∧ (serve (.client call) h).2.IsLocal := by
  obtain ⟨hcomes, hlocal, _⟩ : call.Comes (fun _ => True) h.collections _ _ ∧ _ :=
    comes_of_serve call hm (fun _ => trivial) fun _ _ _ _ _ => trivial
  exact ⟨hcomes, hlocal⟩

/-- A call is the last one, or it has failed and others come behind it. -/
theorem run_callThen {call : ClientCall} {nanos : Nat} {rest : Plan call.Result} {h g : Host}
    {result : call.Result} (hrun : h.run (callThen call nanos rest) = (.ok result, g)) :
    serve (.client call) h = (.ok result, g) ∨
      ∃ e t, serve (.client call) h = (.ok (.error e), t) ∧ t.run rest = (.ok result, g) := by
  obtain ⟨first, t, hfirst, hlater⟩ := run_bind_ok hrun
  have hserve := run_ask_ok hfirst
  cases first with
  | ok answer =>
    cases hlater
    exact .inl hserve
  | error e =>
    dsimp only at hlater
    split at hlater
    · obtain ⟨_, u, hpause, hagain⟩ := run_bind_ok hlater
      cases run_ask_ok hpause
      exact .inr ⟨e, t, hserve, hagain⟩
    · cases hlater
      exact .inl hserve

/-- Attempts that fail leave nothing behind, so what comes of all of them comes of one. -/
theorem comes_of_call {s : SymbolStore} {call : ClientCall} {h g : Host} {result : call.Result}
    (hm : h.IsLocal) (hrun : h.run (s.call call).run = (.ok result, g)) :
    call.Comes (fun _ => True) h.collections (.ok result) g.collections ∧ g.IsLocal := by
  have honce : ∀ h : Host, h.IsLocal → serve (.client call) h = (.ok result, g) →
      call.Comes (fun _ => True) h.collections (.ok result) g.collections ∧ g.IsLocal := by
    intro h hm hserve
    have hcomes := comes_of_local hm call
    rwa [hserve] at hcomes
  refine s.call_induction (motive := fun p => ∀ h : Host, h.IsLocal → h.run p = (.ok result, g) →
    call.Comes (fun _ => True) h.collections (.ok result) g.collections ∧ g.IsLocal)
    (fun h hm hrun => honce h hm (run_ask_ok hrun)) (fun nanos rest ih h hm hrun => ?_) h hm hrun
  rcases run_callThen hrun with hserve | ⟨e, t, hserve, hagain⟩
  · exact honce h hm hserve
  · obtain ⟨hfailed, ht⟩ := comes_of_local hm call
    rw [hserve] at hfailed ht
    rw [← hfailed.same_of_error]
    exact ih t ht hagain

end Host

end CodeAtlas
