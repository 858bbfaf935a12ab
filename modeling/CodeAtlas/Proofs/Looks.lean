import CodeAtlas.Proofs.Outputs
import CodeAtlas.Proofs.Parsing
import Mathlib.Data.List.Basic
/-!
# What runs see of files

A run looks at files to find out where its root is, and to walk the root. It walks at most once, before
it changes any file, and all that it goes by afterwards is what a scan of the root finds and what is
in the files found. So whatever else a file system has does not matter to it.

Results:
1. `looks_bind`: the looks of one attempt after another.
2. `FileSystem.Resembles`: two file systems in which a scan finds the same.
3. `WalksOnce`: a plan walks a root at most once and goes by what a scan of it finds.
4. `walksOnce_indexProject`, `walksOnce_updateProject`: once their root is known, runs walk it once.
-/

namespace CodeAtlas

/-! ## Requests -/

namespace Request

/-- Files are not looked at. -/
def LooksAway : Request → Prop
  | look _ => False
  | _ => True

/-- Files are neither looked at nor changed. -/
def LeavesFiles : Request → Prop
  | look _ => False
  | change _ => False
  | _ => True

variable {r : Request}

theorem LeavesFiles.looksAway (h : r.LeavesFiles) : r.LooksAway := by
  cases r with
  | look paths => exact h
  | _ => trivial

theorem LeavesFiles.keepsFiles (h : r.LeavesFiles) : Host.KeepsFiles r := by
  cases r with
  | change c => exact h
  | _ => trivial

theorem IsPlain.leavesFiles (h : r.IsPlain) : r.LeavesFiles := by
  cases r with
  | look paths => exact h
  | change c => exact h
  | _ => trivial

end Request

namespace SymbolStore

variable (s : SymbolStore)

theorem leavesFiles_call (call : ClientCall) : (s.call call).Asks Request.LeavesFiles :=
  asks_call s call trivial fun _ => trivial

theorem leavesFiles_orIfMissing {α : Type} (fallback : α) {a : Attempt α}
    (ha : a.Asks Request.LeavesFiles) : (orIfMissing fallback a).Asks Request.LeavesFiles := by
  refine asks_bind (asks_outcome ha) fun result => ?_
  split
  · exact asks_pure _
  · exact asks_pure _
  · exact asks_throw _

theorem leavesFiles_scrollFrom (filter : Filter) (pages : Nat) (start : Option Json) :
    (s.scrollFrom filter pages start).Asks Request.LeavesFiles := by
  induction pages generalizing start with
  | zero => exact asks_throw _
  | succ pages ih =>
    refine asks_bind (s.leavesFiles_call _) fun page => ?_
    split
    · exact asks_bind (ih _) fun _ => asks_pure _
    · exact asks_pure _

theorem leavesFiles_scrollAll (filter : Filter) :
    (s.scrollAll filter).Asks Request.LeavesFiles := by
  refine asks_bind (leavesFiles_orIfMissing _ (s.leavesFiles_call _)) fun page => ?_
  split
  · exact asks_bind (s.leavesFiles_scrollFrom _ _ _) fun _ => asks_pure _
  · exact asks_pure _

theorem leavesFiles_loadProject (id : Uuid) : (s.loadProject id).Asks Request.LeavesFiles :=
  asks_bind (leavesFiles_orIfMissing _ (s.leavesFiles_call _)) fun _ => asks_pure _

theorem leavesFiles_findByRoot (root : String) : (s.findByRoot root).Asks Request.LeavesFiles :=
  asks_bind (asks_bind (s.leavesFiles_scrollAll _) fun _ => asks_pure _) fun _ => asks_pure _

theorem leavesFiles_loadFiles (project : Uuid) :
    (s.loadFiles project).Asks Request.LeavesFiles :=
  asks_bind (s.leavesFiles_scrollAll _) fun _ => asks_pure _

theorem leavesFiles_deleteProject (id : Uuid) :
    (s.deleteProject id).Asks Request.LeavesFiles := by
  refine asks_bind (s.leavesFiles_loadProject id) fun found => ?_
  split
  · exact asks_pure _
  · exact asks_bind (s.leavesFiles_call _) fun _ => asks_pure _

theorem leavesFiles_storeProject (p : Project) : (s.storeProject p).Asks Request.LeavesFiles :=
  (s.asks_storeProject p).mono fun _ => Request.IsPlain.leavesFiles

end SymbolStore

theorem Indexer.leavesFiles_beginProject (x : Indexer) (root : String) (patterns : List String) :
    (x.beginProject root patterns).Asks Request.LeavesFiles := by
  refine asks_bind (asks_lift (Program.asks_perform trivial)) fun id =>
    asks_bind (x.store.leavesFiles_findByRoot root) fun found => ?_
  split
  · exact asks_pure _
  · exact asks_bind (x.store.leavesFiles_deleteProject _) fun _ => asks_pure _

/-! ## Looks -/

/-- A look at files, with what was seen. -/
def Exchange.look? : Exchange → Option (List String × FileSystem)
  | ⟨.look paths, fs⟩ => some (paths, fs)
  | _ => none

namespace Host

variable {α β : Type} {h : Host}

/-- The looks at files while a plan is run, with what was seen. -/
def looks (h : Host) (p : Plan α) : List (List String × FileSystem) :=
  (Program.trace serve p h).filterMap Exchange.look?

/-- What is looked at by one attempt after another. -/
theorem looks_bind (h : Host) (a : Attempt α) (f : α → Attempt β) : h.looks (a >>= f).run =
    h.looks a.run ++ match h.attempt a with
      | (.ok (.ok x), g) => g.looks (f x).run
      | _ => [] := by
  change (Program.trace serve (a.run >>= ExceptT.bindCont f : Plan (Except Failure β)) h).filterMap
    Exchange.look? = _
  rw [Program.trace_bind, List.filterMap_append]
  unfold attempt run looks
  cases Program.run serve a.run h with
  | mk result g =>
    cases result with
    | error crash => rfl
    | ok result => cases result <;> rfl

theorem looks_of_looksAway {p : Plan α} (hp : Program.Asks Request.LooksAway p) :
    h.looks p = [] := by
  refine List.filterMap_eq_nil_iff.mpr fun ⟨r, answer⟩ he => ?_
  have haway : r.LooksAway := hp.of_mem_trace he
  cases r with
  | look paths => exact haway.elim
  | _ => rfl

theorem looks_of_leavesFiles {a : Attempt α} (ha : a.Asks Request.LeavesFiles) :
    h.looks a.run = [] :=
  looks_of_looksAway (ha.mono fun _ => Request.LeavesFiles.looksAway)

end Host

/-! ## Walks -/

/-- A scan of a root finds the same files in two file systems, and the same in them. -/
structure FileSystem.Resembles (excludes : ExcludeSet) (maxSize : Nat) (root : String)
    (fs fs' : FileSystem) : Prop where
  found : scan fs excludes maxSize root = scan fs' excludes maxSize root
  contents : ∀ f ∈ scan fs excludes maxSize root, fs.find f.path = fs'.find f.path

/-- A plan walks a root at most once, and does not look at files in any other way. It changes no files
before, and what it does afterwards depends only on what a scan of the root finds. -/
inductive WalksOnce {α : Type} (excludes : ExcludeSet) (maxSize : Nat) (root : String) :
    Plan α → Prop
  | pure {a : α} : WalksOnce excludes maxSize root (.pure a)
  | ask {r : Request} {next : r.Answer → Plan α} (first : r.LeavesFiles)
    (later : ∀ answer, WalksOnce excludes maxSize root (next answer)) :
    WalksOnce excludes maxSize root (.ask r next)
  | walk {next : FileSystem → Plan α} (later : ∀ fs, Program.Asks Request.LooksAway (next fs))
    (same : ∀ fs fs', fs.Resembles excludes maxSize root fs' → next fs = next fs') :
    WalksOnce excludes maxSize root (.ask (.look [root]) next)

section

variable {α β : Type} {excludes : ExcludeSet} {maxSize : Nat} {root : String}

/-- What leaves files alone may come before a walk. -/
theorem walksOnce_bind {a : Attempt α} {f : α → Attempt β} (ha : a.Asks Request.LeavesFiles)
    (hf : ∀ x, WalksOnce excludes maxSize root (f x).run) :
    WalksOnce excludes maxSize root (a >>= f).run := by
  change WalksOnce excludes maxSize root
    (a.run >>= ExceptT.bindCont f : Plan (Except Failure β))
  change Program.Asks Request.LeavesFiles a.run at ha
  generalize a.run = p at ha
  induction ha with
  | @pure result =>
    cases result with
    | ok x => exact hf x
    | error e => exact .pure
  | ask first _ ih => exact .ask first ih

/-- A plan that walks a root at most once sees the files as they are at the beginning. -/
theorem WalksOnce.looks {p : Plan α} (hp : WalksOnce excludes maxSize root p) (h : Host) :
    h.looks p = [] ∨ h.looks p = [([root], h.disk)] := by
  induction hp generalizing h with
  | pure => exact .inl rfl
  | @ask r next first _ ih =>
    have hdisk := Host.disk_serve first.keepsFiles h
    rw [Host.looks, Program.trace]
    cases hserve : Host.serve r h with
    | mk result t =>
      rw [hserve] at hdisk
      cases result with
      | error crash => exact .inl rfl
      | ok answer =>
        have hskip : Exchange.look? ⟨r, answer⟩ = none := by
          cases r with
          | look paths => exact first.elim
          | _ => rfl
        dsimp only
        rw [List.filterMap_cons_none hskip, ← hdisk]
        exact ih answer t
  | @walk next later _ =>
    have hnone : h.looks (next h.disk) = [] := Host.looks_of_looksAway (later h.disk)
    exact .inr (congrArg (([root], h.disk) :: ·) hnone)

end

/-! ## What a scan finds -/

theorem Snapshot.ofFiles_congr {fs fs' : FileSystem} {found : List ScannedFile}
    (h : ∀ f ∈ found, fs.find f.path = fs'.find f.path) :
    ofFiles fs found = ofFiles fs' found := by
  refine List.foldl_ext _ _ _ fun snapshot f hf => ?_
  rw [FileSystem.read, FileSystem.read, h f hf]

/-- The files of a snapshot are among those that it was taken of. -/
theorem Snapshot.mem_of_get?_files {fs : FileSystem} {found : List ScannedFile} {path : String}
    {f : ScannedFile} (h : Keyed.get? path (ofFiles fs found).files = some f) : f ∈ found := by
  have hall : ∀ path f, Keyed.get? path (ofFiles fs found).files = some f → f ∈ found := by
    refine List.foldlRecOn (motive := fun snapshot : Snapshot =>
      ∀ path f, Keyed.get? path snapshot.files = some f → f ∈ found) found _
        (fun _ _ h => by cases h) fun snapshot hsnapshot g hg path f hf => ?_
    split at hf
    · rw [Keyed.get?_insert] at hf
      split at hf
      · cases hf
        exact hg
      · exact hsnapshot path f hf
    · exact hsnapshot path f hf
  exact hall path f h

namespace Indexer

variable (x : Indexer) {α : Type}

theorem parseFiles_congr {fs fs' : FileSystem} {files : List ScannedFile}
    (h : ∀ f ∈ files, fs.find f.path = fs'.find f.path) (word : String) :
    parseFiles fs word files = parseFiles fs' word files := by
  have hread : ∀ f ∈ files, ParseRun.read? fs f = ParseRun.read? fs' f := by
    intro f hf
    rw [ParseRun.read?, ParseRun.read?, h f hf]
  rw [parseFiles, parseFiles, ParseRun.ofFiles, ParseRun.ofFiles]
  generalize ({} : ParseRun) = run
  clear h
  induction files generalizing run with
  | nil => rfl
  | cons f rest ih =>
    rw [List.foldlM_cons, List.foldlM_cons, hread f List.mem_cons_self]
    exact bind_congr fun run => ih (fun f hf => hread f (List.mem_cons_of_mem _ hf)) run

/-- A scan walks its root, and is the walk of a plan that does not look at files any more. -/
theorem walksOnce_scanRoot {root : String} {extra : List String}
    {f : FileSystem × List ScannedFile → Attempt α}
    (later : ∀ r, (f r).Asks Request.LooksAway)
    (same : ∀ fs fs' found, (∀ s ∈ found, fs.find s.path = fs'.find s.path) →
      f (fs, found) = f (fs', found)) :
    WalksOnce (x.excludes extra) x.config.maxFileSize root (x.scanRoot root extra >>= f).run := by
  refine .walk (fun fs => later _) fun fs fs' h => ?_
  change (f (fs, scan fs _ _ root)).run = (f (fs', scan fs' _ _ root)).run
  rw [← h.found, same fs fs' _ h.contents]

/-! ## Runs -/

theorem looksAway_report (message : String) : (Attempt.report message).Asks Request.LooksAway :=
  asks_report (fun _ => trivial) message

/-- Once the root is known, indexing walks it once. -/
theorem walksOnce_indexProject (path : String) (patterns : List String) :
    ∃ rest : String → Attempt IndexOutcome, x.indexProject path patterns =
      x.validateRoot path >>= rest ∧ ∀ root,
        WalksOnce (x.excludes patterns) x.config.maxFileSize root (rest root).run := by
  refine ⟨_, rfl, fun root => ?_⟩
  refine walksOnce_bind (asks_report (fun _ => trivial) _) fun _ =>
    walksOnce_bind (x.leavesFiles_beginProject root patterns) fun project =>
    walksOnce_bind (x.store.leavesFiles_storeProject project) fun _ =>
    walksOnce_bind (asks_report (fun _ => trivial) _) fun _ =>
    x.walksOnce_scanRoot (fun r => ?_) fun fs fs' found h => ?_
  · exact asks_bind (asks_parseFiles (fun _ => trivial) _ _ _) fun _ =>
      asks_bind (looksAway_report _) fun _ => asks_bind (looksAway_report _) fun _ =>
      asks_bind ((x.asks_storeOrMark _ _).mono fun _ h => h.leavesFiles.looksAway) fun _ =>
      asks_bind (asks_lift (Program.asks_perform trivial)) fun _ =>
      asks_bind ((x.store.leavesFiles_storeProject _).mono fun _ => Request.LeavesFiles.looksAway)
        fun _ => asks_bind (looksAway_report _) fun _ =>
      asks_bind (asks_writeAll (fun _ _ => trivial) _ _) fun _ =>
      asks_bind (looksAway_report _) fun _ => asks_pure _
  · exact congrArg (· >>= _) (parseFiles_congr h "Parsed")

/-- Once the project is known, an update walks its root once. -/
theorem walksOnce_updateProject (id : Uuid) (force : Bool) :
    ∃ rest : Project × String → Attempt UpdateOutcome, x.updateProject id force =
      x.knownProject id >>= rest ∧ ∀ r,
        WalksOnce (x.excludes r.1.excludePatterns) x.config.maxFileSize r.2 (rest r).run := by
  have hwrite : ∀ dir (c : DiskChange), c.IsOutput False dir → Request.LooksAway (.change c) :=
    fun _ _ _ => trivial
  refine ⟨_, rfl, fun r => ?_⟩
  refine walksOnce_bind (asks_report (fun _ => trivial) _) fun _ =>
    walksOnce_bind (x.store.leavesFiles_loadFiles id) fun stored =>
    walksOnce_bind (asks_report (fun _ => trivial) _) fun _ =>
    walksOnce_bind (asks_report (fun _ => trivial) _) fun _ =>
    x.walksOnce_scanRoot (fun r => ?_) fun fs fs' found h => ?_
  · exact asks_bind (asks_changes (fun _ => trivial) force _ _) fun _ =>
      asks_bind ((x.asks_purge _ _).mono fun _ h => h.leavesFiles.looksAway) fun _ =>
      asks_bind (asks_parseFiles (fun _ => trivial) _ _ _) fun _ =>
      asks_bind ((x.asks_storeOrMark _ _).mono fun _ h => h.leavesFiles.looksAway) fun _ =>
      asks_bind (asks_lift (Program.asks_perform trivial)) fun _ =>
      asks_bind ((x.store.leavesFiles_storeProject _).mono fun _ => Request.LeavesFiles.looksAway)
        fun _ => asks_bind (looksAway_report _) fun _ =>
      asks_bind (Output.asks_writeProject (hwrite _) _) fun _ =>
      asks_bind (Output.asks_writeStructure (hwrite _) _) fun _ =>
      asks_bind (Output.asks_writeFiles (hwrite _) _) fun _ =>
      asks_bind (asks_removeDocuments (hwrite _) _) fun _ =>
      asks_bind (looksAway_report _) fun _ => asks_pure _
  · dsimp only
    rw [Snapshot.ofFiles_congr h]
    refine bind_congr fun diff => bind_congr fun _ => congrArg (· >>= _) (parseFiles_congr ?_ _)
    intro f hf
    obtain ⟨path, _, hpath⟩ := List.mem_filterMap.mp hf
    exact h f (Snapshot.mem_of_get?_files hpath)

end Indexer

end CodeAtlas
