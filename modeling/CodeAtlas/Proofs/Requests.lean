import CodeAtlas.Indexing.Full
import CodeAtlas.Indexing.Update
import CodeAtlas.Proofs.Ensures
/-!
# What programs ask for

What a program may ask for can be read off it, whatever the answers are. A few kinds of requests
matter: those that read points, which everything that is written later may rest on, and those that
change the points or the files. Files are changed for documents alone, all of them below one output
directory.

Results:
1. `Program.Asks` and how it composes.
2. `Program.trace`: the requests of a run with their answers.
3. `asks_storeProject`, `asks_storeOrMark` and their kin: what is written into a store is written
   without reading points or changing files.
4. `asks_writeAll`, `asks_removeDocuments`: which files are changed for documents.
-/

namespace CodeAtlas

namespace Program

variable {R : Type} {A : R → Type} {σ α β : Type} {P Q : R → Prop}

/-- All requests that a program may make satisfy `P`. -/
inductive Asks (P : R → Prop) : Program A α → Prop
  | pure {a : α} : Asks P (pure a)
  | ask {r : R} {next : A r → Program A α} (first : P r) (later : ∀ answer, Asks P (next answer)) :
    Asks P (ask r next)

theorem Asks.mono {p : Program A α} (h : ∀ r, P r → Q r) (hp : Asks P p) : Asks Q p := by
  induction hp with
  | pure => exact .pure
  | ask first _ ih => exact .ask (h _ first) ih

theorem asks_bind {p : Program A α} {f : α → Program A β} (hp : Asks P p)
    (hf : ∀ a, Asks P (f a)) : Asks P (p >>= f) := by
  induction hp with
  | pure => exact hf _
  | ask first _ ih => exact .ask first ih

theorem asks_perform {r : R} (h : P r) : Asks P (perform r : Program A (A r)) :=
  .ask h fun _ => .pure

/-- The requests of a run with their answers. A request that breaks the run down has none. -/
def trace (serve : Service A σ) : Program A α → σ → List ((r : R) × A r)
  | pure _, _ => []
  | ask r next, s =>
    match serve r s with
    | (.ok answer, s) => ⟨r, answer⟩ :: trace serve (next answer) s
    | (.error _, _) => []

/-- The requests of a run are among those that the program may make. -/
theorem Asks.of_mem_trace {serve : Service A σ} {p : Program A α} (hp : Asks P p) {s : σ}
    {e : (r : R) × A r} (he : e ∈ trace serve p s) : P e.1 := by
  induction hp generalizing s with
  | pure => cases he
  | ask first _ ih =>
    unfold trace at he
    split at he
    · rcases List.mem_cons.mp he with rfl | he
      · exact first
      · exact ih _ he
    · cases he

/-- The requests of one program after another. -/
theorem trace_bind (serve : Service A σ) (p : Program A α) (f : α → Program A β) (s : σ) :
    trace serve (p >>= f) s = trace serve p s ++
      match run serve p s with
      | (.ok a, t) => trace serve (f a) t
      | (.error _, _) => [] := by
  induction p generalizing s with
  | pure a => rfl
  | ask r next ih =>
    change trace serve (ask r fun answer => next answer >>= f) s = _
    rw [trace, trace, run]
    cases serve r s with
    | mk result t =>
      cases result with
      | ok answer => exact congrArg (⟨r, answer⟩ :: ·) (ih answer t)
      | error crash => rfl

/-- What every request that is made keeps, a run keeps. -/
theorem Asks.run_keeps {serve : Service A σ} {p : Program A α} (hp : Asks P p) {J : σ → Prop}
    (hJ : ∀ r s, P r → J s → J (serve r s).2) {s : σ} (hs : J s) : J (run serve p s).2 := by
  induction hp generalizing s with
  | pure => exact hs
  | @ask r next first _ ih =>
    have hnext := hJ r s first hs
    rw [run]
    cases hserve : serve r s with
    | mk result t =>
      rw [hserve] at hnext
      cases result with
      | ok answer => exact ih answer hnext
      | error crash => exact hnext

end Program

/-! ## Kinds of requests -/

/-- Whether a call reads points, be it by their ids or one after another. -/
def ClientCall.isRead : ClientCall → Bool
  | retrieve _ _ | scroll _ _ _ _ => true
  | _ => false

namespace Request

/-- Points are read. -/
def IsRead : Request → Prop
  | client call => call.isRead = true
  | _ => False

/-- Points or files may change. -/
def IsWrite : Request → Prop
  | client call => call.isWrite = true
  | change _ => True
  | _ => False

/-- No points are read. -/
def IsBlind (r : Request) : Prop := ¬ r.IsRead

/-- Neither are points read nor files looked at or changed. -/
def IsPlain : Request → Prop
  | client call => call.isRead ≠ true
  | look _ => False
  | change _ => False
  | _ => True

/-- Nothing is changed. -/
def IsHarmless (r : Request) : Prop := ¬ r.IsWrite

/-- Files are changed as is allowed. -/
def KeepsTo (allowed : DiskChange → Prop) : Request → Prop
  | change c => allowed c
  | _ => True

variable {r : Request} {allowed : DiskChange → Prop}

theorem KeepsTo.mono {allowed' : DiskChange → Prop} (h : ∀ c, allowed c → allowed' c)
    (hr : r.KeepsTo allowed) : r.KeepsTo allowed' := by
  cases r with
  | change c => exact h c hr
  | _ => trivial

theorem IsPlain.isBlind (h : r.IsPlain) : r.IsBlind := by
  cases r with
  | client call => exact h
  | _ => exact id

theorem IsPlain.keepsTo (h : r.IsPlain) : r.KeepsTo allowed := by
  cases r with
  | change c => exact h.elim
  | _ => trivial

theorem IsHarmless.keepsTo (h : r.IsHarmless) : r.KeepsTo allowed := by
  cases r with
  | change c => exact absurd trivial h
  | _ => trivial

end Request

/-! ## Calls that are made again -/

/-- A call, and if it fails for a passing reason, a pause and what comes then. -/
def callThen (call : ClientCall) (nanos : Nat) (rest : Plan call.Result) : Plan call.Result := do
  match ← ask (.client call) with
  | .ok a => return .ok a
  | .error e =>
    if e.isTransient then
      ask (.pause nanos)
      rest
    else return .error e

/-- What holds of a call that is made once, and of one that is made before others, holds of a call
that is attempted again and again. -/
theorem SymbolStore.call_induction (s : SymbolStore) {call : ClientCall}
    {motive : Plan call.Result → Prop} (last : motive (ask (.client call)))
    (more : ∀ nanos rest, motive rest → motive (callThen call nanos rest)) :
    motive (s.call call).run := by
  have hattempts : ∀ left attempt, motive (s.retry.attempts (fun nanos => ask (.pause nanos))
      (ask (.client call)) left attempt) := by
    intro left
    induction left with
    | zero => exact fun _ => last
    | succ left ih =>
      intro attempt
      have hsucc : s.retry.attempts (fun nanos => ask (.pause nanos)) (ask (.client call))
          (left + 1) attempt = callThen call (s.retry.delayFor attempt) (s.retry.attempts
            (fun nanos => ask (.pause nanos)) (ask (.client call)) left (attempt + 1)) :=
        bind_congr fun result => by cases result <;> rfl
      rw [hsucc]
      exact more _ _ (ih (attempt + 1))
  exact hattempts _ _

/-- The documents about a project below its output directory. -/
inductive OutputLayout.IsDocument (dir : String) : String → Prop
  | project : IsDocument dir (projectDocument dir)
  | summary : IsDocument dir (structureDocument dir)
  | file (path : String) : IsDocument dir (fileDocument dir path)

/-- The changes by which the documents about a project are written and taken away below its output
directory. Those about files are only cleared away together if all are written anew. -/
inductive DiskChange.IsOutput (whole : Prop) (dir : String) : DiskChange → Prop
  | clear (hwhole : whole) : IsOutput whole dir (.removeTree (OutputLayout.filesDir dir))
  | directory (path : String) : IsOutput whole dir (.makeDirs path)
  | write {path : String} (hpath : OutputLayout.IsDocument dir path) (content : ByteArray) :
    IsOutput whole dir (.write path content)
  | remove (path : String) : IsOutput whole dir (.removeFile (OutputLayout.fileDocument dir path))

/-! ## Attempts -/

/-- All requests that an attempt may make satisfy `P`. -/
def Attempt.Asks {α : Type} (P : Request → Prop) (a : Attempt α) : Prop := Program.Asks P a.run

section

variable {P : Request → Prop} {α β : Type}

theorem Attempt.Asks.mono {Q : Request → Prop} {a : Attempt α} (ha : a.Asks P)
    (h : ∀ r, P r → Q r) : a.Asks Q :=
  Program.Asks.mono h ha

theorem asks_pure (a : α) : Attempt.Asks P (pure a) := Program.Asks.pure

theorem asks_throw (e : Failure) : Attempt.Asks P (throw e : Attempt α) :=
  Program.Asks.pure

theorem asks_bind {a : Attempt α} {f : α → Attempt β} (ha : a.Asks P) (hf : ∀ x, (f x).Asks P) :
    (a >>= f).Asks P :=
  Program.asks_bind ha fun result => match result with
    | .ok x => hf x
    | .error _ => .pure

theorem asks_lift {p : Plan α} (hp : Program.Asks P p) : Attempt.Asks P (ExceptT.lift p) :=
  Program.asks_bind hp fun _ => .pure

theorem asks_outcome {a : Attempt α} (ha : a.Asks P) : a.outcome.Asks P := asks_lift ha

theorem asks_report (h : ∀ message, P (.report message)) (message : String) :
    (Attempt.report message).Asks P :=
  asks_lift (Program.asks_perform (h message))

theorem asks_look (h : ∀ paths, P (.look paths)) (paths : List String) :
    (Attempt.look paths).Asks P :=
  asks_lift (Program.asks_perform (h paths))

/-- A call is attempted again after pauses. -/
theorem asks_call (s : SymbolStore) (call : ClientCall) (hcall : P (.client call))
    (hpause : ∀ nanos, P (.pause nanos)) : (s.call call).Asks P := by
  refine s.call_induction (motive := Program.Asks P) (Program.asks_perform hcall)
    fun nanos rest ih => ?_
  refine Program.asks_bind (Program.asks_perform hcall) fun result => ?_
  cases result with
  | ok a => exact .pure
  | error e =>
    dsimp only
    split
    · exact Program.asks_bind (Program.asks_perform (hpause nanos)) fun _ => ih
    · exact .pure

theorem asks_foldlM {step : β → α → Attempt β} (hstep : ∀ b a, (step b a).Asks P) (as : List α)
    (b : β) : (as.foldlM step b).Asks P := by
  induction as generalizing b with
  | nil => exact asks_pure b
  | cons a as ih => exact asks_bind (hstep b a) fun b' => ih b'

end

/-! ## Writing points -/

namespace SymbolStore

/-- The requests by which a store sets its collection up. -/
inductive Prepares (s : SymbolStore) : Request → Prop
  | hasCollection : Prepares s (.client (.hasCollection s.collection))
  | create : Prepares s (.client (.create s.shape))
  | createIndex (key : String) : Prepares s (.client (.createIndex s.collection key))
  | pause (nanos : Nat) : Prepares s (.pause nanos)
  | hasReached (m : Milestone) : Prepares s (.hasReached m)
  | reach (m : Milestone) : Prepares s (.reach m)

theorem Prepares.isPlain {s : SymbolStore} {r : Request} (h : s.Prepares r) : r.IsPlain := by
  cases h with
  | hasCollection => exact Bool.false_ne_true
  | create => exact Bool.false_ne_true
  | createIndex key => exact Bool.false_ne_true
  | _ => trivial

variable (s : SymbolStore)

theorem asks_createIfAbsent : s.createIfAbsent.Asks s.Prepares := by
  have hcall : ∀ call : ClientCall, s.Prepares (.client call) → (s.call call).Asks s.Prepares :=
    fun call h => asks_call s call h .pause
  refine asks_bind (hcall _ .hasCollection) fun present => ?_
  split
  · exact asks_pure _
  · refine asks_bind (asks_outcome (hcall _ .create)) fun made => ?_
    split
    · exact asks_pure _
    · refine asks_bind (asks_outcome (hcall _ .hasCollection)) fun present => ?_
      split
      · exact asks_pure _
      · exact asks_throw _

theorem asks_createIndexes (keys : List String) :
    Program.Asks s.Prepares (s.createIndexes keys) := by
  induction keys with
  | nil => exact .pure
  | cons key rest ih =>
    exact Program.asks_bind (Program.asks_perform (.createIndex key)) fun _ =>
      Program.asks_bind ih fun _ => .pure

theorem asks_ensureCollection : s.ensureCollection.Asks s.Prepares := by
  have hindexes : Attempt.Asks s.Prepares (do
      unless ← ask (.hasReached .indexed) do
        if ← s.createIndexes indexedKeys then ask (.reach .indexed) : Attempt Unit) := by
    refine asks_bind (asks_lift (Program.asks_perform (.hasReached _))) fun there => ?_
    split
    · exact asks_pure _
    · refine asks_bind (asks_lift (s.asks_createIndexes _)) fun all => ?_
      split
      · exact asks_lift (Program.asks_perform (.reach _))
      · exact asks_pure _
  refine asks_bind (asks_lift (Program.asks_perform (.hasReached _))) fun there => ?_
  split
  · exact hindexes
  · exact asks_bind (asks_createIfAbsent s) fun _ =>
      asks_bind (asks_lift (Program.asks_perform (.reach _))) fun _ => hindexes

/-- A project is written without reading points or changing files. -/
theorem asks_storeProject (p : Project) : (s.storeProject p).Asks Request.IsPlain :=
  asks_bind ((asks_ensureCollection s).mono fun _ => Prepares.isPlain) fun _ =>
    asks_bind (asks_call s _ Bool.false_ne_true fun _ => trivial) fun _ => asks_pure _

/-- To draft points takes fresh ids only. -/
theorem asks_draftAll (project : Uuid) (files : List FiledSource) :
    Program.Asks (· = .freshId) (draftAll project files) := by
  induction files with
  | nil => exact .pure
  | cons f rest ih =>
    exact Program.asks_bind (Program.asks_perform rfl) fun _ => Program.asks_bind ih fun _ => .pure

theorem asks_vectorize (batch : List Draft) :
    Program.Asks Request.IsPlain (s.vectorize batch) := by
  refine Program.asks_bind ?_ fun _ => .pure
  rw [embedTexts]
  split
  · exact .pure
  · refine Program.asks_bind (Program.asks_perform trivial) fun result => ?_
    cases result <;> exact .pure

theorem asks_writeBatches (batches : List (List Draft)) :
    (s.writeBatches batches).Asks Request.IsPlain := by
  induction batches with
  | nil => exact asks_pure _
  | cons batch rest ih =>
    exact asks_bind (asks_lift (s.asks_vectorize batch)) fun _ =>
      asks_bind (asks_call s _ Bool.false_ne_true fun _ => trivial) fun _ => ih

theorem asks_storeFiles (project : Uuid) (files : List FiledSource) :
    (s.storeFiles project files).Asks Request.IsPlain := by
  have hdrafts : Program.Asks Request.IsPlain (draftAll project files) :=
    .mono (fun r (hr : r = .freshId) => hr ▸ trivial) (asks_draftAll project files)
  rw [storeFiles]
  split
  · exact asks_pure _
  · exact asks_bind ((asks_ensureCollection s).mono fun _ => Prepares.isPlain) fun _ =>
      asks_bind (asks_lift hdrafts) fun _ => asks_bind (s.asks_writeBatches _) fun _ => asks_pure _

theorem asks_deleteFiles (project : Uuid) (paths : List String) :
    (s.deleteFiles project paths).Asks Request.IsPlain := by
  rw [deleteFiles]
  split
  · exact asks_pure _
  · exact asks_bind (asks_call s _ Bool.false_ne_true fun _ => trivial) fun _ => asks_pure _

end SymbolStore

/-! ## Writing documents -/

section

variable {P : Request → Prop} {whole : Prop} {dir : String}

namespace Output

theorem asks_change {c : DiskChange} (h : P (.change c)) : (change c).Asks P :=
  Program.asks_bind (Program.asks_perform h) fun _ => .pure

theorem asks_remove {c : DiskChange} (h : P (.change c)) : (remove c).Asks P := by
  refine Program.asks_bind (Program.asks_perform h) fun result => ?_
  split <;> exact .pure

variable (h : ∀ c : DiskChange, c.IsOutput whole dir → P (.change c))

include h

theorem asks_writeText {path : String} (hpath : OutputLayout.IsDocument dir path) (text : String) :
    (writeText path text).Asks P := by
  rw [writeText]
  split
  · exact asks_bind (asks_change (h _ (.directory _))) fun _ => asks_change (h _ (.write hpath _))
  · exact asks_change (h _ (.write hpath _))

theorem asks_writeProject (p : Project) : (writeProject dir p).Asks P :=
  asks_writeText h .project _

theorem asks_writeStructure (files : List FileSummary) : (writeStructure dir files).Asks P :=
  asks_writeText h .summary _

theorem asks_writeFiles (files : List SourceFile) : (writeFiles dir files).Asks P := by
  induction files with
  | nil => exact asks_pure _
  | cons f rest ih =>
    rw [writeFiles]
    split
    · exact asks_bind (asks_remove (h _ (.remove _))) fun _ => ih
    · exact asks_bind (asks_writeText h (.file _) _) fun _ => ih

end Output

namespace Indexer

theorem asks_writeAll (h : ∀ c : DiskChange, c.IsOutput True dir → P (.change c))
    (project : Project) (files : List SourceFile) : (writeAll dir project files).Asks P :=
  asks_bind (asks_bind (Output.asks_remove (h _ (.clear trivial))) fun _ => asks_pure _) fun _ =>
    asks_bind (Output.asks_writeProject h _) fun _ =>
      asks_bind (Output.asks_writeStructure h _) fun _ => Output.asks_writeFiles h files

theorem asks_removeDocuments (h : ∀ c : DiskChange, c.IsOutput whole dir → P (.change c))
    (paths : List String) : (removeDocuments dir paths).Asks P := by
  induction paths with
  | nil => exact asks_pure _
  | cons path rest ih => exact asks_bind (Output.asks_remove (h _ (.remove _))) fun _ => ih

end Indexer

end

/-! ## Indexing -/

namespace Indexer

variable (x : Indexer)

/-- Looking for the place of a root changes nothing, and no points are read. -/
theorem asks_validateRoot {P : Request → Prop} (h : ∀ paths, P (.look paths)) (path : String) :
    (x.validateRoot path).Asks P :=
  asks_bind (asks_look h _) fun _ => .pure

theorem asks_scanRoot {P : Request → Prop} (h : ∀ paths, P (.look paths)) (root : String)
    (patterns : List String) : (x.scanRoot root patterns).Asks P :=
  asks_bind (asks_look h _) fun _ => asks_pure _

theorem asks_parseFiles {P : Request → Prop} (h : ∀ message, P (.report message))
    (fs : FileSystem) (word : String) (files : List ScannedFile) :
    (parseFiles fs word files).Asks P := by
  refine asks_foldlM (fun run f => ?_) files _
  dsimp only
  split
  · exact asks_bind (asks_report h _) fun _ => asks_pure _
  · exact asks_pure _

theorem asks_changes {P : Request → Prop} (h : ∀ message, P (.report message)) (force : Bool)
    (current stored : List (String × String)) : (changes force current stored).Asks P := by
  have htold : ∀ d : HashDiff, Attempt.Asks P (do
      Attempt.report ("Changes: " ++ toString d.added.length ++ " added, " ++
        toString d.modified.length ++ " modified, " ++ toString d.deleted.length ++ " deleted")
      return d : Attempt HashDiff) :=
    fun _ => asks_bind (asks_report h _) fun _ => asks_pure _
  rw [changes]
  dsimp only
  split
  · exact asks_bind (asks_bind (asks_report h _) fun _ => asks_pure _) fun _ => htold _
  · exact asks_bind (asks_pure _) fun _ => htold _

theorem asks_freshIds (n : Nat) : Program.Asks Request.IsPlain (freshIds n) := by
  induction n with
  | zero => exact .pure
  | succ n ih =>
    exact Program.asks_bind (Program.asks_perform trivial) fun _ => Program.asks_bind ih fun _ => .pure

theorem asks_fileSources (files : List SourceFile) :
    Program.Asks Request.IsPlain (fileSources files) := by
  induction files with
  | nil => exact .pure
  | cons f rest ih =>
    exact Program.asks_bind (asks_freshIds _) fun _ => Program.asks_bind ih fun _ => .pure

theorem asks_storeOrMark (project : Project) (files : List SourceFile) :
    (x.storeOrMark project files).Asks Request.IsPlain := by
  refine asks_bind (asks_lift (asks_fileSources files)) fun filed =>
    asks_bind (asks_outcome (x.store.asks_storeFiles _ _)) fun result => ?_
  split
  · exact asks_pure _
  · exact asks_bind (asks_outcome (x.store.asks_storeProject _)) fun _ => asks_throw _

theorem asks_purge (project : Uuid) (paths : List String) :
    (x.purge project paths).Asks Request.IsPlain := by
  rw [purge]
  split
  · exact asks_pure _
  · exact asks_bind (x.store.asks_deleteFiles _ _) fun _ => asks_report (fun _ => trivial) _

end Indexer

end CodeAtlas
