import CodeAtlas.Proofs.Requests
import CodeAtlas.Proofs.Tracking
/-!
# Reading comes before writing

A run reads all points that it goes by before it writes anything, and a reading that fails and is not
attempted again ends the run. So whenever a reading fails for good, nothing has been written, neither
points nor files. There is one exception: a reading by id or of a first page that fails because
something is not there is taken for one of an empty collection.

Results:
1. `IsPrudent`: readings come before writings, and those that fail end the attempt.
2. `prudent_indexProject`, `prudent_updateProject`: runs are prudent.
3. `endsUnchanged_of_failedReading`: a run with a reading that fails for good changes nothing.
-/

namespace CodeAtlas

/-! ## Readings that fail -/

/-- A reading by id or of a first page fails because something is not there. -/
def ClientCall.seesNothing : ClientCall → Failure → Bool
  | retrieve _ _, .notFound _ => true
  | scroll _ _ _ none, .notFound _ => true
  | _, _ => false

/-- A request with its answer. -/
abbrev Exchange := (r : Request) × r.Answer

/-- A reading that has failed, if the failure is not passed over. -/
def Exchange.isFailedReading (passedOver : ClientCall → Failure → Bool) : Exchange → Bool
  | ⟨.client call, .error e⟩ => call.isRead && !passedOver call e
  | _ => false

/-- The next request is a pause, behind which a call is attempted again. -/
def pausesNext : List Exchange → Bool
  | ⟨.pause _, _⟩ :: _ => true
  | _ => false

/-- Some reading fails for good: it is not attempted again, and the failure is not passed over. -/
def hasFailedReading (passedOver : ClientCall → Failure → Bool) : List Exchange → Bool
  | [] => false
  | e :: rest =>
    (e.isFailedReading passedOver && !pausesNext rest) || hasFailedReading passedOver rest

/-! ## Prudent plans -/

/-- The next request is a pause. -/
def Pauses {α : Type} : Plan α → Prop
  | .ask (.pause _) _ => True
  | _ => False

/-- A reading that fails is attempted again behind a pause or ends the plan with a failure. -/
def HeedsFailures {α : Type} : (r : Request) → (r.Answer → Plan (Except Failure α)) → Prop
  | .client call, next => call.isRead = true → ∀ e, call.seesNothing e = false →
    Pauses (next (.error e)) ∨ ∃ e', next (.error e) = .pure (.error e')
  | _, _ => True

/-- No points are read after a writing, and the failures of readings are heeded. -/
inductive IsPrudent {α : Type} : Plan (Except Failure α) → Prop
  | pure {result : Except Failure α} : IsPrudent (.pure result)
  | ask {r : Request} {next : r.Answer → Plan (Except Failure α)}
    (later : ∀ answer, IsPrudent (next answer))
    (order : r.IsWrite → ∀ answer, Program.Asks Request.IsBlind (next answer))
    (heeds : HeedsFailures r next) : IsPrudent (.ask r next)

section

variable {α β : Type}

/-- What reads no points is prudent. -/
theorem prudent_of_blind {p : Plan (Except Failure α)} (hp : Program.Asks Request.IsBlind p) :
    IsPrudent p := by
  induction hp with
  | pure => exact .pure
  | @ask r next first later ih =>
    refine .ask ih (fun _ => later) ?_
    cases r with
    | client call => exact fun hread => absurd hread first
    | _ => trivial

/-- What nothing is written in may be followed by anything prudent, and anything prudent by what reads
nothing. -/
theorem prudent_bind {a : Attempt α} {f : α → Attempt β} (ha : IsPrudent a.run)
    (hf : ∀ x, IsPrudent (f x).run)
    (horder : a.Asks Request.IsHarmless ∨ ∀ x, (f x).Asks Request.IsBlind) :
    IsPrudent (a >>= f).run := by
  change Program.Asks Request.IsHarmless a.run ∨ _ at horder
  change IsPrudent (a.run >>= ExceptT.bindCont f : Plan (Except Failure β))
  generalize a.run = p at ha horder
  -- the order is passed on with the rest of the first part
  induction ha with
  | @pure result =>
    cases result with
    | ok x => exact hf x
    | error e => exact .pure
  | @ask r next _ order heeds ih =>
    refine .ask (fun answer => ih answer (horder.imp_left fun h => ?_)) (fun hwrite answer => ?_) ?_
    · cases h with
      | ask _ later => exact later answer
    · have hlate := horder.resolve_left fun h => by
        cases h with
        | ask first _ => exact first hwrite
      refine Program.asks_bind (order hwrite answer) fun result => ?_
      cases result with
      | ok x => exact hlate x
      | error e => exact .pure
    · cases r with
      | client call =>
        intro hread e hheeded
        change Pauses (next (.error e) >>= ExceptT.bindCont f) ∨
          ∃ e', next (.error e) >>= ExceptT.bindCont f = .pure (.error e')
        rcases heeds hread e hheeded with hpause | ⟨e', hends⟩
        · left
          cases hnext : next (.error e) with
          | pure _ =>
            rw [hnext] at hpause
            cases hpause
          | ask r' next' =>
            rw [hnext] at hpause
            cases r' with
            | pause nanos => trivial
            | _ => cases hpause
        · rw [hends]
          exact .inr ⟨e', rfl⟩
      | _ => trivial

end

/-! ## Reading -/

/-- An attempt that reads and writes nothing. -/
structure Attempt.IsReading {α : Type} (a : Attempt α) : Prop where
  prudent : IsPrudent a.run
  harmless : a.Asks Request.IsHarmless

section

variable {α β : Type}

theorem reading_bind {a : Attempt α} {f : α → Attempt β} (ha : a.IsReading)
    (hf : ∀ x, (f x).IsReading) : (a >>= f).IsReading :=
  ⟨prudent_bind ha.prudent (fun x => (hf x).prudent) (.inl ha.harmless),
    asks_bind ha.harmless fun x => (hf x).harmless⟩

theorem reading_pure (x : α) : (pure x : Attempt α).IsReading := ⟨.pure, .pure⟩

theorem reading_throw (e : Failure) : (throw e : Attempt α).IsReading := ⟨.pure, .pure⟩

theorem reading_of_blind {a : Attempt α} (h : a.Asks Request.IsBlind)
    (h' : a.Asks Request.IsHarmless) : a.IsReading :=
  ⟨prudent_of_blind h, h'⟩

theorem reading_report (message : String) : (Attempt.report message).IsReading :=
  reading_of_blind (asks_report (fun _ => id) message) (asks_report (fun _ => id) message)

end

theorem ClientCall.isHarmless_of_isRead {call : ClientCall} (h : call.isRead = true) :
    Request.IsHarmless (.client call) := by
  cases call with
  | retrieve _ _ => exact Bool.false_ne_true
  | scroll _ _ _ _ => exact Bool.false_ne_true
  | _ => cases h

namespace SymbolStore

variable (s : SymbolStore) {α : Type}

/-- What goes on behind a reading is prudent if it heeds failures. -/
theorem prudent_call_bind {call : ClientCall} (hread : call.isRead = true)
    {next : Except Failure call.Answer → Plan (Except Failure α)}
    (hnext : ∀ result, IsPrudent (next result))
    (hheeds : ∀ e, call.seesNothing e = false → ∃ e', next (.error e) = .pure (.error e')) :
    IsPrudent ((s.call call).run >>= next) := by
  have horder : Request.IsWrite (.client call) → ∀ p : Plan (Except Failure α),
      Program.Asks Request.IsBlind p :=
    fun hwrite => absurd hwrite (ClientCall.isHarmless_of_isRead hread)
  have hattempts : ∀ left attempt, IsPrudent (s.retry.attempts (fun nanos => ask (.pause nanos))
      (ask (.client call)) left attempt >>= next) := by
    intro left
    induction left with
    | zero =>
      exact fun _ => .ask hnext (fun hwrite _ => horder hwrite _) fun _ e he => .inr (hheeds e he)
    | succ left ih =>
      intro attempt
      -- behind a failure there is a pause, or the failure is what goes on
      have hagain : ∀ (e : Failure) (again : Plan (Except Failure call.Answer)),
          again = (if e.isTransient then do
            ask (.pause (s.retry.delayFor attempt))
            s.retry.attempts (fun nanos => ask (.pause nanos)) (ask (.client call)) left
              (attempt + 1)
          else return .error e) →
          IsPrudent (again >>= next) ∧ (call.seesNothing e = false →
            Pauses (again >>= next) ∨ ∃ e', again >>= next = .pure (.error e')) := by
        rintro e _ rfl
        split
        · exact ⟨.ask (fun _ => ih _) (fun hwrite => hwrite.elim) trivial, fun _ => .inl trivial⟩
        · exact ⟨hnext _, fun he => .inr (hheeds e he)⟩
      refine .ask (fun answer => ?_) (fun hwrite _ => horder hwrite _)
        fun _ e => (hagain e _ rfl).2
      cases answer with
      | ok a => exact hnext _
      | error e => exact (hagain e _ rfl).1
  exact hattempts _ _

/-- A reading on which nothing is based if it fails. -/
theorem reading_call {call : ClientCall} (hread : call.isRead = true) : (s.call call).IsReading := by
  refine ⟨?_, asks_call s call (ClientCall.isHarmless_of_isRead hread) fun _ => id⟩
  have hbind : IsPrudent ((s.call call).run >>= pure) :=
    s.prudent_call_bind hread (fun _ => .pure) fun e _ => ⟨e, rfl⟩
  rwa [bind_pure] at hbind

/-- What is not there reads as something that is empty. -/
theorem reading_orIfMissing {call : ClientCall} (hread : call.isRead = true)
    (hmissing : ∀ message, call.seesNothing (.notFound message) = true) (fallback : call.Answer) :
    (orIfMissing fallback (s.call call)).IsReading := by
  constructor
  · rw [orIfMissing, Attempt.outcome, ExceptT.run_bind_lift]
    refine s.prudent_call_bind hread (fun result => ?_) fun e he => ?_
    · split <;> exact .pure
    · cases e with
      | notFound message =>
        rw [hmissing message] at he
        cases he
      | _ => exact ⟨_, rfl⟩
  · refine asks_bind (asks_outcome (asks_call s call (ClientCall.isHarmless_of_isRead hread)
      fun _ => id)) fun result => ?_
    split <;> exact .pure

theorem reading_scrollFrom (filter : Filter) (pages : Nat) (start : Option Json) :
    (s.scrollFrom filter pages start).IsReading := by
  induction pages generalizing start with
  | zero => exact reading_throw _
  | succ pages ih =>
    refine reading_bind (s.reading_call rfl) fun page => ?_
    split
    · exact reading_bind (ih _) fun _ => reading_pure _
    · exact reading_pure _

theorem reading_scrollAll (filter : Filter) : (s.scrollAll filter).IsReading := by
  refine reading_bind (s.reading_orIfMissing rfl (fun _ => rfl) _) fun page => ?_
  split
  · exact reading_bind (s.reading_scrollFrom _ _ _) fun _ => reading_pure _
  · exact reading_pure _

theorem reading_loadProject (id : Uuid) : (s.loadProject id).IsReading :=
  reading_bind (s.reading_orIfMissing rfl (fun _ => rfl) _) fun _ => reading_pure _

theorem reading_loadProjects : s.loadProjects.IsReading :=
  reading_bind (s.reading_scrollAll _) fun _ => reading_pure _

theorem reading_findByRoot (root : String) : (s.findByRoot root).IsReading :=
  reading_bind s.reading_loadProjects fun _ => reading_pure _

theorem reading_loadFiles (project : Uuid) : (s.loadFiles project).IsReading :=
  reading_bind (s.reading_scrollAll _) fun _ => reading_pure _

end SymbolStore

/-! ## Runs -/

section

variable {α β : Type}

/-- What reads is followed by anything prudent. -/
theorem prudent_of_reading {a : Attempt α} {f : α → Attempt β} (ha : a.IsReading)
    (hf : ∀ x, IsPrudent (f x).run) : IsPrudent (a >>= f).run :=
  prudent_bind ha.prudent hf (.inl ha.harmless)

/-- What reads no points may follow anything prudent. -/
theorem prudent_before_blind {a : Attempt α} {f : α → Attempt β} (ha : IsPrudent a.run)
    (hf : ∀ x, (f x).Asks Request.IsBlind) : IsPrudent (a >>= f).run :=
  prudent_bind ha (fun x => prudent_of_blind (hf x)) (.inr hf)

end

namespace Indexer

variable (x : Indexer)

theorem reading_validateRoot (path : String) : (x.validateRoot path).IsReading :=
  reading_of_blind (x.asks_validateRoot (fun _ => id) path) (x.asks_validateRoot (fun _ => id) path)

theorem reading_knownProject (id : Uuid) : (x.knownProject id).IsReading := by
  refine reading_bind (x.store.reading_loadProject id) fun found => ?_
  split
  · exact reading_throw _
  · have hroot := x.asks_validateRoot (P := Request.IsBlind) (fun _ h => h)
    have hroot' := x.asks_validateRoot (P := Request.IsHarmless) (fun _ h => h)
    refine reading_bind (reading_of_blind (asks_outcome (hroot _)) (asks_outcome (hroot' _)))
      fun result => ?_
    split
    · exact reading_pure _
    · exact reading_throw _

/-- The project of a root is looked up before it is deleted. -/
theorem prudent_beginProject (root : String) (patterns : List String) :
    IsPrudent (x.beginProject root patterns).run := by
  have hfresh : Attempt.freshId.IsReading :=
    reading_of_blind (asks_lift (Program.asks_perform id)) (asks_lift (Program.asks_perform id))
  refine prudent_of_reading hfresh fun id =>
    prudent_of_reading (x.store.reading_findByRoot root) fun found => ?_
  split
  · exact .pure
  · next old =>
    refine prudent_before_blind ?_ fun _ => asks_pure _
    refine prudent_of_reading (x.store.reading_loadProject old.id) fun known => ?_
    split
    · exact .pure
    · exact prudent_of_blind <|
        asks_bind (asks_call x.store _ Bool.false_ne_true fun _ h => h) fun _ => asks_pure _

theorem prudent_indexProject (path : String) (patterns : List String) :
    IsPrudent (x.indexProject path patterns).run := by
  refine prudent_of_reading (x.reading_validateRoot path) fun root =>
    prudent_of_reading (reading_report _) fun _ =>
      prudent_before_blind (x.prudent_beginProject root patterns) fun project => ?_
  have hreport : ∀ message, (Attempt.report message).Asks Request.IsBlind :=
    asks_report fun _ => id
  have hnow : Attempt.now.Asks Request.IsBlind := asks_lift (Program.asks_perform id)
  have hstore : ∀ project, (x.store.storeProject project).Asks Request.IsBlind :=
    fun project => (x.store.asks_storeProject project).mono fun _ => Request.IsPlain.isBlind
  exact asks_bind (hstore _) fun _ => asks_bind (hreport _) fun _ =>
    asks_bind (x.asks_scanRoot (fun _ => id) root patterns) fun _ =>
    asks_bind (asks_parseFiles (fun _ => id) _ _ _) fun _ => asks_bind (hreport _) fun _ =>
    asks_bind (hreport _) fun _ =>
    asks_bind ((x.asks_storeOrMark _ _).mono fun _ => Request.IsPlain.isBlind) fun _ =>
    asks_bind hnow fun _ => asks_bind (hstore _) fun _ =>
    asks_bind (hreport _) fun _ => asks_bind (asks_writeAll (fun _ _ => id) _ _) fun _ =>
    asks_bind (hreport _) fun _ => asks_pure _

theorem prudent_updateProject (id : Uuid) (force : Bool) :
    IsPrudent (x.updateProject id force).run := by
  have hscan : ∀ root patterns, (x.scanRoot root patterns).IsReading := fun root patterns =>
    reading_of_blind (x.asks_scanRoot (fun _ => fun h => h) root patterns)
      (x.asks_scanRoot (fun _ => fun h => h) root patterns)
  have hchanges : ∀ current stored, (changes force current stored).IsReading :=
    fun current stored => reading_of_blind (asks_changes (fun _ => fun h => h) force current stored)
      (asks_changes (fun _ => fun h => h) force current stored)
  have hreport : ∀ message, (Attempt.report message).Asks Request.IsBlind :=
    asks_report fun _ => fun h => h
  have hnow : Attempt.now.Asks Request.IsBlind := asks_lift (Program.asks_perform fun h => h)
  refine prudent_of_reading (x.reading_knownProject id) fun r =>
    prudent_of_reading (reading_report _) fun _ =>
    prudent_of_reading (x.store.reading_loadFiles id) fun stored =>
    prudent_of_reading (reading_report _) fun _ => prudent_of_reading (reading_report _) fun _ =>
    prudent_of_reading (hscan _ _) fun found => prudent_of_reading (hchanges _ _) fun diff => ?_
  have hblind : ∀ c : DiskChange, c.IsOutput False (x.config.outputDirFor r.2 r.1.name) →
      Request.IsBlind (.change c) := fun _ _ h => h
  exact prudent_of_blind <|
    asks_bind ((x.asks_purge _ _).mono fun _ => Request.IsPlain.isBlind) fun _ =>
    asks_bind (asks_parseFiles (fun _ => fun h => h) _ _ _) fun _ =>
    asks_bind ((x.asks_storeOrMark _ _).mono fun _ => Request.IsPlain.isBlind) fun _ =>
    asks_bind hnow fun _ =>
    asks_bind ((x.store.asks_storeProject _).mono fun _ => Request.IsPlain.isBlind) fun _ =>
    asks_bind (hreport _) fun _ => asks_bind (Output.asks_writeProject hblind _) fun _ =>
    asks_bind (Output.asks_writeStructure hblind _) fun _ =>
    asks_bind (Output.asks_writeFiles hblind _) fun _ =>
    asks_bind (asks_removeDocuments hblind _) fun _ => asks_bind (hreport _) fun _ => asks_pure _

end Indexer

/-! ## Surroundings -/

namespace Host

/-- The points and the files are the same. -/
structure SameData (h h' : Host) : Prop where
  collections : h'.store.toMemory.collections = h.store.toMemory.collections
  disk : h'.disk = h.disk
  changes : h'.changes = h.changes

theorem SameData.refl (h : Host) : SameData h h := ⟨rfl, rfl, rfl⟩

theorem SameData.trans {h h' h'' : Host} (h₁ : SameData h h') (h₂ : SameData h' h'') :
    SameData h h'' :=
  ⟨h₂.collections.trans h₁.collections, h₂.disk.trans h₁.disk, h₂.changes.trans h₁.changes⟩

/-- A call that is no writing leaves the collections as they are. -/
theorem collections_answer {store : VectorStore} {call : ClientCall} (hcall : call.isWrite = false) :
    (store.answer call).2.toMemory.collections = store.toMemory.collections := by
  cases store with
  | remote s => rfl
  | memory s =>
    change (s.answer call).2.collections = s.collections
    rcases s.answer_cases call with ⟨_, hsame⟩ | ⟨_, hafter⟩
    · exact hsame
    · rw [hafter]
      cases call with
      | hasCollection | retrieve | scroll | search => rfl
      | _ => cases hcall

/-- A request that is no writing changes neither points nor files. -/
theorem sameData_serve {r : Request} (hr : r.IsHarmless) (h : Host) : SameData h (serve r h).2 := by
  cases r with
  | client call =>
    have hcall : call.isWrite = false := Bool.not_eq_true _ ▸ hr
    have htakes := h.takes_call call
    rw [serve]
    generalize h.answerCall call = answer at htakes ⊢
    cases htakes with
    | failed | crashed | absent => exact ⟨rfl, rfl, rfl⟩
    | reached => exact ⟨collections_answer hcall, rfl, rfl⟩
  | change c => exact absurd trivial hr
  | hasReached m => cases m <;> exact .refl h
  | reach m => cases m <;> exact ⟨rfl, rfl, rfl⟩
  | _ => exact ⟨rfl, rfl, rfl⟩

/-- An attempt ends with a failure and changes neither points nor files. -/
structure EndsUnchanged {α : Type} (h : Host) (a : Attempt α) : Prop where
  failed : ∃ e, (h.attempt a).1 = .ok (.error e)
  same : h.SameData (h.attempt a).2

/-- What an attempt asks for and is answered. -/
def traceOf {α : Type} (h : Host) (a : Attempt α) : List Exchange := Program.trace serve a.run h

end Host

section

variable {α : Type} {h : Host}

/-- What reads no points has no reading that fails. -/
theorem not_hasFailedReading_of_blind {passedOver : ClientCall → Failure → Bool}
    {t : List Exchange} (ht : ∀ e ∈ t, e.1.IsBlind) : hasFailedReading passedOver t = false := by
  induction t with
  | nil => rfl
  | cons e rest ih =>
    have hfirst : e.isFailedReading passedOver = false := by
      obtain ⟨r, answer⟩ := e
      have hblind := ht ⟨r, answer⟩ List.mem_cons_self
      unfold Exchange.isFailedReading
      split
      · next call e heq =>
        cases heq
        rw [Bool.eq_false_iff.mpr hblind, Bool.false_and]
      · rfl
    rw [hasFailedReading, hfirst, Bool.false_and, Bool.false_or]
    exact ih fun e he => ht e (List.mem_cons_of_mem _ he)

theorem pausesNext_of_pauses {p : Plan α} (hp : Pauses p) :
    pausesNext (Program.trace Host.serve p h) = true := by
  cases p with
  | pure a => cases hp
  | ask r next =>
    cases r with
    | pause nanos => rfl
    | _ => cases hp

/-- A prudent plan with a reading that fails for good ends with a failure, and nothing has been
written. -/
theorem ends_of_failedReading {p : Plan (Except Failure α)} (hp : IsPrudent p)
    (hfailed : hasFailedReading ClientCall.seesNothing (Program.trace Host.serve p h) = true) :
    (∃ e, (Program.run Host.serve p h).1 = .ok (.error e)) ∧
      h.SameData (Program.run Host.serve p h).2 := by
  induction hp generalizing h with
  | pure => cases hfailed
  | @ask r next _ order heeds ih =>
    unfold Program.trace at hfailed
    unfold Program.run
    cases hserve : Host.serve r h with
    | mk result h' =>
      rw [hserve] at hfailed
      cases result with
      | error crash => cases hfailed
      | ok answer =>
        have hsame : r.IsHarmless → h.SameData h' := fun hr => by
          have := Host.sameData_serve hr h
          rwa [hserve] at this
        dsimp only at hfailed ⊢
        rw [hasFailedReading, Bool.or_eq_true, Bool.and_eq_true] at hfailed
        rcases hfailed with ⟨hfirst, hnopause⟩ | hlater
        · -- the call is not attempted again, so its failure ends the plan
          cases r with
          | client call =>
            cases answer with
            | ok a => cases hfirst
            | error e =>
              obtain ⟨hread, hheeded⟩ := (Bool.and_eq_true _ _).mp hfirst
              rcases heeds hread e (by simpa using hheeded) with hpause | ⟨e', hends⟩
              · exact absurd (pausesNext_of_pauses hpause) (by simpa using hnopause)
              · rw [hends]
                exact ⟨⟨e', rfl⟩, hsame (ClientCall.isHarmless_of_isRead hread)⟩
          | _ => cases hfirst
        -- behind the first write no reading can fail: all that is left is blind
        · by_cases hwrite : r.IsWrite
          · have hblind : ∀ e ∈ Program.trace Host.serve (next answer) h', e.1.IsBlind :=
              fun e he => (order hwrite answer).of_mem_trace he
            rw [not_hasFailedReading_of_blind hblind] at hlater
            cases hlater
          · obtain ⟨hends, hrest⟩ := ih answer hlater
            exact ⟨hends, (hsame hwrite).trans hrest⟩

end

/-- A run with a reading that fails for good, after whatever attempts, ends with a failure and has
changed neither points nor files: unless something that is not there was to be read by its id or from
a first page on. -/
theorem endsUnchanged_of_failedReading (h : Host) (x : Indexer) :
    (∀ path patterns,
      hasFailedReading ClientCall.seesNothing (h.traceOf (x.indexProject path patterns)) = true →
        h.EndsUnchanged (x.indexProject path patterns)) ∧
    ∀ id force,
      hasFailedReading ClientCall.seesNothing (h.traceOf (x.updateProject id force)) = true →
        h.EndsUnchanged (x.updateProject id force) := by
  constructor
  · intro path patterns hfailed
    obtain ⟨hends, hsame⟩ := ends_of_failedReading (x.prudent_indexProject path patterns) hfailed
    exact ⟨hends, hsame⟩
  · intro id force hfailed
    obtain ⟨hends, hsame⟩ := ends_of_failedReading (x.prudent_updateProject id force) hfailed
    exact ⟨hends, hsame⟩

section

set_option maxRecDepth 100000

/-- Surroundings in which a project is indexed, the text of its file has changed, and the next reading
of a page fails. -/
def Host.unreadable (failure : Failure) : Host :=
  (Host.indexed "def f():\n    pass\n").later "def g():\n    pass\n"
    [⟨"scroll", .failure failure, 0⟩]

theorem endsUnchanged_of_unreadable :
    (Host.unreadable (.storage "broken")).EndsUnchanged
      (Indexer.sample.updateProject (.ofNat 1) false) := by
  refine (endsUnchanged_of_failedReading _ _).2 _ _ ?_
  decide +kernel

/-- If something is not there, the run may go on and write. -/
theorem not_endsUnchanged_of_notFound :
    ¬ ∀ (h : Host) (x : Indexer),
      (∀ path patterns,
        hasFailedReading (fun _ _ => false) (h.traceOf (x.indexProject path patterns)) = true →
          h.EndsUnchanged (x.indexProject path patterns)) ∧
      ∀ id force,
        hasFailedReading (fun _ _ => false) (h.traceOf (x.updateProject id force)) = true →
          h.EndsUnchanged (x.updateProject id force) := by
  intro hall
  have hrun : hasFailedReading (fun _ _ => false) ((Host.unreadable (.notFound "gone")).traceOf
      (Indexer.sample.updateProject (.ofNat 1) false)) = true ∧
      ((Host.unreadable (.notFound "gone")).result?
        (Indexer.sample.updateProject (.ofNat 1) false)).isSome := by
    decide +kernel
  obtain ⟨e, he⟩ := ((hall (Host.unreadable (.notFound "gone")) .sample).2 (.ofNat 1) false
    hrun.1).failed
  obtain ⟨o, ho⟩ := Option.isSome_iff_exists.mp hrun.2
  rw [Host.attempt_of_result? ho] at he
  cases he

end

end CodeAtlas
