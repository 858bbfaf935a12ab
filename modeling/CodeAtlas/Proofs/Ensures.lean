import CodeAtlas.Program
/-!
# What holds while a program runs

A program is judged in surroundings that keep a promise for as long as it runs: `rely` is what is
taken for granted after each request, `keep` is what has to hold there, and `post` is about what
the program gives. What is promised about a run is read off the program, one request at a time.

Results:
1. `ensures_bind`, `ensures_mono`: judgements compose as programs do.
2. `Ensures.keeps`: what a program keeps holds after every request of its run.
3. `Ensures.result`: what a program gives is as it was judged.
-/

namespace CodeAtlas.Program

variable {R : Type} {A : R → Type} {σ α β : Type}

/-- The states after the requests of a run, one after another. -/
def states (serve : Service A σ) : Program A α → σ → List σ
  | pure _, _ => []
  | ask r next, s =>
    match serve r s with
    | (.ok answer, s) => s :: states serve (next answer) s
    | (.error _, s) => [s]

/-- Where a run ends is after its last request, if it has made any. -/
theorem run_mem_states_or_eq (serve : Service A σ) (p : Program A α) (s : σ) :
    (run serve p s).2 ∈ states serve p s ∨ (run serve p s).2 = s := by
  induction p generalizing s with
  | pure a => exact .inr rfl
  | ask r next ih =>
    left
    cases hs : serve r s with
    | mk result s' =>
      simp only [run, states, hs]
      cases result with
      | ok answer =>
        rcases ih answer s' with h | h
        · exact List.mem_cons_of_mem s' h
        · exact List.mem_cons.mpr (.inl h)
      | error crash => exact List.mem_singleton.mpr rfl

/-- What every request keeps, a run keeps. -/
theorem run_keeps {serve : Service A σ} {P : σ → Prop} (hP : ∀ r s, P s → P (serve r s).2)
    (p : Program A α) {s : σ} (hs : P s) : P (run serve p s).2 := by
  induction p generalizing s with
  | pure a => exact hs
  | ask r next ih =>
    have hnext := hP r s hs
    unfold run
    split
    · next answer s' h =>
      rw [h] at hnext
      exact ih answer hnext
    · next crash s' h =>
      rw [h] at hnext
      exact hnext

/-- From a state on, every request leads to a state that keeps `keep`, and what is given at the end
satisfies `post`: all of this as long as `rely` holds after each request. -/
def Ensures (serve : Service A σ) (rely keep : σ → Prop) :
    Program A α → (α → σ → Prop) → σ → Prop
  | pure a, post, s => post a s
  | ask r next, post, s =>
    match serve r s with
    | (.ok answer, s) => rely s → keep s ∧ Ensures serve rely keep (next answer) post s
    | (.error _, s) => rely s → keep s

variable {serve : Service A σ} {rely keep : σ → Prop}

@[simp] theorem ensures_pure (a : α) (post : α → σ → Prop) (s : σ) :
    Ensures serve rely keep (Pure.pure a : Program A α) post s ↔ post a s := Iff.rfl

theorem ensures_mono {p : Program A α} {post post' : α → σ → Prop} {s : σ}
    (h : ∀ a s, post a s → post' a s) (hp : Ensures serve rely keep p post s) :
    Ensures serve rely keep p post' s := by
  induction p generalizing s with
  | pure a => exact h a s hp
  | ask r next ih =>
    unfold Ensures at hp ⊢
    split at hp
    · exact fun hr => ⟨(hp hr).1, ih _ (hp hr).2⟩
    · exact hp

theorem ensures_bind {p : Program A α} {f : α → Program A β} {post : β → σ → Prop} {s : σ}
    (hp : Ensures serve rely keep p (fun a s => Ensures serve rely keep (f a) post s) s) :
    Ensures serve rely keep (p >>= f) post s := by
  induction p generalizing s with
  | pure a => exact hp
  | ask r next ih =>
    change Ensures serve rely keep (ask r fun answer => next answer >>= f) post s
    unfold Ensures at hp ⊢
    split at hp
    · exact fun hr => ⟨(hp hr).1, ih _ (hp hr).2⟩
    · exact hp

/-- A single request. -/
theorem ensures_perform {r : R} {post : A r → σ → Prop} {s : σ}
    (hok : ∀ answer s', serve r s = (.ok answer, s') → rely s' → keep s' ∧ post answer s')
    (hcrash : ∀ crash s', serve r s = (.error crash, s') → rely s' → keep s') :
    Ensures serve rely keep (perform r) post s := by
  unfold perform Ensures
  split
  · next answer s' h => exact hok answer s' h
  · next crash s' h => exact hcrash crash s' h

/-! ## Runs -/

section

variable (earlier : ∀ r s, rely (serve r s).2 → rely s)

include earlier

theorem rely_of_run {p : Program A α} {s : σ} (h : rely (run serve p s).2) : rely s := by
  induction p generalizing s with
  | pure a => exact h
  | ask r next ih =>
    refine earlier r s ?_
    unfold run at h
    split at h
    · next answer s' hs => exact hs ▸ ih _ h
    · next crash s' hs => exact hs ▸ h

theorem rely_of_states {p : Program A α} {s s' : σ} (hmem : s' ∈ states serve p s)
    (h : rely s') : rely s := by
  induction p generalizing s with
  | pure a => cases hmem
  | ask r next ih =>
    refine earlier r s ?_
    unfold states at hmem
    split at hmem
    · next answer t ht =>
      rw [ht]
      rcases List.mem_cons.mp hmem with rfl | hmem
      · exact h
      · exact ih _ hmem
    · next crash t ht =>
      rw [ht]
      exact List.mem_singleton.mp hmem ▸ h

/-- What a program keeps holds after every request of its run. -/
theorem Ensures.keeps {p : Program A α} {post : α → σ → Prop} {s s' : σ}
    (hp : Ensures serve rely keep p post s) (hmem : s' ∈ states serve p s) (h : rely s') :
    keep s' := by
  induction p generalizing s with
  | pure a => cases hmem
  | ask r next ih =>
    unfold Ensures at hp
    unfold states at hmem
    split at hmem
    · next answer t ht =>
      rw [ht] at hp
      rcases List.mem_cons.mp hmem with rfl | hmem
      · exact (hp h).1
      · have : rely t := rely_of_states earlier hmem h
        exact ih _ (hp this).2 hmem
    · next crash t ht =>
      rw [ht] at hp
      cases List.mem_singleton.mp hmem
      exact hp h

/-- What a program gives is as it was judged. -/
theorem Ensures.result {p : Program A α} {post : α → σ → Prop} {s s' : σ} {a : α}
    (hp : Ensures serve rely keep p post s) (hrun : run serve p s = (.ok a, s'))
    (h : rely s') : post a s' := by
  induction p generalizing s with
  | pure b =>
    cases hrun
    exact hp
  | ask r next ih =>
    unfold Ensures at hp
    unfold run at hrun
    split at hrun
    · next answer t ht =>
      rw [ht] at hp
      have : rely t := rely_of_run earlier (p := next answer) (hrun ▸ h)
      exact ih _ (hp this).2 hrun
    · cases hrun

/-- What a program keeps holds where its run ends, if it held at the beginning. -/
theorem Ensures.kept {p : Program A α} {post : α → σ → Prop} {s : σ}
    (hp : Ensures serve rely keep p post s) (hs : keep s) (h : rely (run serve p s).2) :
    keep (run serve p s).2 := by
  induction p generalizing s with
  | pure a => exact hs
  | ask r next ih =>
    unfold Ensures at hp
    unfold run at h ⊢
    split at h
    · next answer t ht =>
      simp only [ht] at hp ⊢
      have : rely t := rely_of_run earlier h
      exact ih _ (hp this).2 (hp this).1 h
    · next crash t ht =>
      simp only [ht] at hp ⊢
      exact hp h

end

end CodeAtlas.Program
