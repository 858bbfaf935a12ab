import CodeAtlas.Proofs.Filing
import CodeAtlas.Proofs.Paging
import CodeAtlas.Proofs.ReadsFirst
/-!
# Reading back what has been written

Files are written in batches of points and read page by page, and on either way calls may fail and
be attempted again. Whatever the number of files and symbols, and wherever a batch or a page ends:
if the writing succeeds and no reading fails for good, each file is read back once, besides those
that were there before.

Results:
1. `Host.ReadsAll` and how it splits: no reading of a plan fails for good.
2. `SymbolStore.run_scrollAll`: then just the points are read that a filter accepts.
3. `SymbolStore.matching_of_gains`: which files are found behind a writing.
4. `storeFiles_complete`: files are written as a whole, and read back.
-/

namespace CodeAtlas

/-! ## Readings that do not fail -/

section

variable {α β : Type} {h g : Host}

/-- A plan comes to an end, and none of its readings fails for good. -/
structure Host.ReadsAll (h : Host) (p : Plan α) : Prop where
  ends : ∃ a, (h.run p).1 = .ok a
  read : hasFailedReading (fun _ _ => false) (Program.trace Host.serve p h) = false

theorem pausesNext_of_not_pauses {p : Plan α} (hp : ¬ Pauses p) :
    pausesNext (Program.trace Host.serve p h) = false := by
  cases p with
  | pure a => rfl
  | ask r next =>
    rw [Program.trace]
    split
    · cases r with
      | pause nanos => exact absurd trivial hp
      | _ => rfl
    · rfl

theorem hasFailedReading_append {passedOver : ClientCall → Failure → Bool} {t u : List Exchange}
    (hu : pausesNext u = false) : hasFailedReading passedOver (t ++ u) =
      (hasFailedReading passedOver t || hasFailedReading passedOver u) := by
  induction t with
  | nil => rfl
  | cons e rest ih =>
    have hnext : pausesNext (rest ++ u) = pausesNext rest := by
      cases rest with
      | nil => exact hu
      | cons e' rest =>
        obtain ⟨r, answer⟩ := e'
        cases r <;> rfl
    rw [List.cons_append, hasFailedReading, hasFailedReading, ih, hnext, Bool.or_assoc]

namespace Host.ReadsAll

/-- If no reading fails for good, neither does one of the first part, nor of what comes behind
it. -/
theorem bind {p : Plan α} {f : α → Plan β} (hall : h.ReadsAll (p >>= f))
    (hf : ∀ a, ¬ Pauses (f a)) : ∃ a t, h.run p = (.ok a, t) ∧ h.ReadsAll p ∧ t.ReadsAll (f a) := by
  obtain ⟨⟨b, hends⟩, hread⟩ := hall
  rw [Program.trace_bind] at hread
  have hbind := Program.run_bind serve p f h
  have hends' : (Program.run serve (Program.bind p f) h).1 = .ok b := hends
  rw [hbind] at hends'
  cases hrun : Program.run serve p h with
  | mk result t =>
    rw [hrun] at hread hends'
    cases result with
    | error crash => cases hends'
    | ok a =>
      rw [hasFailedReading_append (pausesNext_of_not_pauses (hf a)), Bool.or_eq_false_iff] at hread
      exact ⟨a, t, hrun, ⟨⟨a, congrArg Prod.fst hrun⟩, hread.1⟩, ⟨b, hends'⟩, hread.2⟩

theorem pause {nanos : Nat} {next : Unit → Plan α} (hall : h.ReadsAll (.ask (.pause nanos) next)) :
    h.ReadsAll (next ()) := ⟨hall.ends, hall.read⟩

/-- A reading is answered, or it fails and is attempted again. -/
theorem ask_client {call : ClientCall} {next : call.Result → Plan α} (hcall : call.isRead = true)
    (hall : h.ReadsAll (.ask (.client call) next)) :
    ∃ result t, serve (.client call) h = (.ok result, t) ∧ t.ReadsAll (next result) ∧
      ∀ e, result = .error e → pausesNext (Program.trace serve (next result) t) = true := by
  obtain ⟨⟨a, hends⟩, hread⟩ := hall
  rw [run, Program.run] at hends
  rw [Program.trace] at hread
  cases hserve : serve (.client call) h with
  | mk result t =>
    rw [hserve] at hends hread
    cases result with
    | error crash => cases hends
    | ok result =>
      dsimp only at hends hread
      rw [hasFailedReading, Bool.or_eq_false_iff] at hread
      refine ⟨result, t, rfl, ⟨⟨a, hends⟩, hread.2⟩, ?_⟩
      rintro e rfl
      have hfirst := hread.1
      rw [Exchange.isFailedReading, hcall] at hfirst
      simpa using hfirst

/-- A reading is answered, or others come behind it. -/
theorem callThen {call : ClientCall} {nanos : Nat} {rest : Plan call.Result}
    (hcall : call.isRead = true) (hall : h.ReadsAll (callThen call nanos rest)) :
    (∃ answer t, serve (.client call) h = (.ok (.ok answer), t) ∧
      h.run (CodeAtlas.callThen call nanos rest) = (.ok (.ok answer), t)) ∨
    ∃ e t, serve (.client call) h = (.ok (.error e), t) ∧ t.ReadsAll rest ∧
      h.run (CodeAtlas.callThen call nanos rest) = t.run rest := by
  obtain ⟨result, t, hserve, hlater, hretried⟩ := hall.ask_client hcall
  cases result with
  | ok answer => exact .inl ⟨answer, t, hserve, (run_bind_of_ok (run_ask hserve) _).trans rfl⟩
  | error e =>
    refine .inr ⟨e, t, hserve, ?_⟩
    by_cases htransient : e.isTransient = true
    · have hpaused : t.ReadsAll (do
          ask (.pause nanos)
          rest) := (congrArg t.ReadsAll (if_pos htransient)).mp hlater
      refine ⟨hpaused.pause, (run_bind_of_ok (run_ask hserve) _).trans ?_⟩
      exact (congrArg (Program.run serve · t) (if_pos htransient)).trans rfl
    · -- without a pause this would be the last request, and the reading would have failed for good
      have hstops := (congrArg (fun p => pausesNext (Program.trace serve p t))
        (if_neg htransient)).symm.trans (hretried e rfl)
      cases hstops

end Host.ReadsAll

end

/-! ## Reading page by page -/

namespace SymbolStore

variable {s : SymbolStore} {h : Host}

theorem not_pauses_call {α : Type} (call : ClientCall) (f : call.Answer → Attempt α) :
    ¬ Pauses (s.call call >>= f).run := by
  change ¬ Pauses (s.retry.attempts (fun nanos => ask (.pause nanos)) (ask (.client call))
    (max 1 s.retry.maxAttempts - 1) 1 >>= ExceptT.bindCont f)
  cases max 1 s.retry.maxAttempts - 1 <;> exact id

/-- A reading that does not fail for good is answered as the collections are. -/
theorem run_read {call : ClientCall} (hcall : call.isRead = true) (hm : h.IsLocal)
    (hall : h.ReadsAll (s.call call).run) : ∃ answer t,
      h.attempt (s.call call) = (.ok (.ok answer), t) ∧
      (h.collections.answer call).1 = .ok answer ∧ t.collections = h.collections ∧ t.IsLocal := by
  have hnamed : ∀ name, call ≠ .hasCollection name := by
    rintro name rfl
    cases hcall
  have hidle : call.isWrite = false := by
    cases call <;> first | rfl | cases hcall
  -- a call that is answered is answered as the collections are, which stay the same
  have hanswered : ∀ {h t : Host} {answer : call.Answer}, h.IsLocal →
      Host.serve (.client call) h = (.ok (.ok answer), t) →
      (h.collections.answer call).1 = .ok answer ∧ t.collections = h.collections ∧ t.IsLocal := by
    intro h t answer hm hserve
    obtain ⟨hcomes, hlocal⟩ := Host.comes_of_local hm call
    rw [hserve] at hcomes hlocal
    obtain ⟨hanswer, hafter⟩ := hcomes.answered_of_ok hnamed
    exact ⟨hanswer, hafter.trans (Collections.answer_of_idle hidle _), hlocal⟩
  refine s.call_induction (motive := fun p => ∀ h : Host, h.IsLocal → h.ReadsAll p →
    ∃ answer t, h.run p = (.ok (.ok answer), t) ∧ (h.collections.answer call).1 = .ok answer ∧
      t.collections = h.collections ∧ t.IsLocal) ?_ ?_ h hm hall
  · intro h hm hall
    obtain ⟨result, t, hserve, _, hretried⟩ := hall.ask_client hcall
    cases result with
    | ok answer => exact ⟨answer, t, run_ask hserve, hanswered hm hserve⟩
    | error e => cases hretried e rfl
  · intro nanos rest ih h hm hall
    rcases hall.callThen hcall with ⟨answer, t, hserve, hrun⟩ | ⟨e, t, hserve, hrest, hrun⟩
    · exact ⟨answer, t, hrun, hanswered hm hserve⟩
    · obtain ⟨hcomes, ht⟩ := Host.comes_of_local hm call
      rw [hserve] at hcomes ht
      obtain ⟨answer, u, hagain, hgiven⟩ := ih t ht hrest
      rw [hcomes.same_of_error] at hgiven
      exact ⟨answer, u, hrun.trans hagain, hgiven⟩

/-- What is read behind a page. -/
def behindPage (s : SymbolStore) (filter : Filter) (pages : Nat) (page : Page) :
    Attempt (List Point) := do
  match page.next with
  | some next => return page.points ++ (← s.scrollFrom filter pages (some next))
  | none => return page.points

theorem scrollFrom_succ (filter : Filter) (pages : Nat) (start : Option Json) :
    s.scrollFrom filter (pages + 1) start =
      s.call (.scroll s.collection filter pageSize start) >>= s.behindPage filter pages := rfl

theorem scrollAll_eq (filter : Filter) : s.scrollAll filter =
    orIfMissing ⟨[], none⟩ (s.call (.scroll s.collection filter pageSize none)) >>=
      s.behindPage filter s.pageLimit := rfl

theorem not_pauses_behindPage (filter : Filter) (pages : Nat) (page : Page) :
    ¬ Pauses (s.behindPage filter pages page).run := by
  rw [behindPage]
  split
  · cases pages with
    | zero => exact id
    | succ pages =>
      rw [scrollFrom_succ, bind_assoc]
      exact not_pauses_call _ _
  · exact id

/-- What comes behind an attempt, if none of the readings fails for good. -/
theorem readsAll_attempt_bind {α β : Type} {a : Attempt α} {f : α → Attempt β}
    (hall : h.ReadsAll (a >>= f).run) (hf : ∀ x, ¬ Pauses (f x).run) :
    h.ReadsAll a.run ∧ ∀ x t, h.attempt a = (.ok (.ok x), t) → t.ReadsAll (f x).run := by
  obtain ⟨result, t, hrun, hfirst, hlater⟩ := Host.ReadsAll.bind (f := ExceptT.bindCont f) hall
    fun result => match result with
      | .ok x => hf x
      | .error e => id
  refine ⟨hfirst, fun x u hx => ?_⟩
  cases hrun.symm.trans hx
  exact hlater

/-- The first page is read like any other, if that does not fail. -/
theorem readsAll_orIfMissing {α : Type} {fallback : α} {a : Attempt α}
    (hall : h.ReadsAll (orIfMissing fallback a).run) : h.ReadsAll a.run := by
  rw [orIfMissing, Attempt.outcome, ExceptT.run_bind_lift] at hall
  obtain ⟨_, _, _, hfirst, _⟩ := hall.bind fun result => by
    split <;> exact id
  exact hfirst

section

variable {filter : Filter} {c : Collection} {pages : Nat} {start : Option Json}

/-- A page that is read without failure is one of the collection. -/
theorem run_scroll (hm : h.IsLocal)
    (hall : h.ReadsAll (s.call (.scroll s.collection filter pageSize start)).run) : ∃ c t,
      h.attempt (s.call (.scroll s.collection filter pageSize start)) =
        (.ok (.ok (c.scroll filter pageSize start)), t) ∧
      Keyed.get? s.collection h.collections = some c ∧ t.collections = h.collections ∧
      t.IsLocal := by
  obtain ⟨page, t, hrun, hanswer, hkept⟩ := run_read rfl hm hall
  obtain ⟨c, hc, rfl⟩ := Collections.reading_eq_ok hanswer
  exact ⟨c, t, hrun, hc, hkept⟩

/-- Behind a page the next one is read, if there is one, and all that is left with it. -/
theorem run_behindPage (hfiled : c.Filed)
    (hlimit : (c.matchingFrom filter (Collection.startId start)).length ≤ pageSize * (pages + 1))
    (hfrom : ∀ start', 0 < pages →
      (c.matchingFrom filter (Collection.startId start')).length ≤ pageSize * pages →
      h.ReadsAll (s.scrollFrom filter pages start').run → ∃ t,
        h.attempt (s.scrollFrom filter pages start') =
          (.ok (.ok (c.matchingFrom filter (Collection.startId start'))), t))
    (hall : h.ReadsAll (s.behindPage filter pages (c.scroll filter pageSize start)).run) : ∃ t,
      h.attempt (s.behindPage filter pages (c.scroll filter pageSize start)) =
        (.ok (.ok (c.matchingFrom filter (Collection.startId start))), t) := by
  rw [behindPage] at hall ⊢
  split at hall
  · next next hnext =>
    obtain ⟨p, left, hleft, rfl⟩ := c.drop_of_next hnext
    obtain ⟨hpages, hlimit'⟩ := hfiled.length_next hleft hlimit
    obtain ⟨hlater, _⟩ := readsAll_attempt_bind hall fun _ => id
    obtain ⟨t, hrun⟩ := hfrom (some (.str p.id)) hpages hlimit' hlater
    have hpoints : c.matchingFrom filter (Collection.startId start) =
        (c.scroll filter pageSize start).points ++ c.matchingFrom filter p.id := by
      rw [c.scroll_pageSize, hfiled.matchingFrom_next hleft, ← hleft, List.take_append_drop]
    rw [hpoints]
    exact ⟨t, (run_attempt_bind hrun _).trans rfl⟩
  · next hnext =>
    rw [c.scroll_pageSize, List.take_of_length_le (c.length_of_no_next hnext)]
    exact ⟨h, rfl⟩

/-- If no reading fails for good, all points are read from a page on. -/
theorem run_scrollFrom (hfiled : c.Filed) (hm : h.IsLocal)
    (hc : Keyed.get? s.collection h.collections = some c) (hpages : 0 < pages)
    (hlimit : (c.matchingFrom filter (Collection.startId start)).length ≤ pageSize * pages)
    (hall : h.ReadsAll (s.scrollFrom filter pages start).run) : ∃ t,
      h.attempt (s.scrollFrom filter pages start) =
        (.ok (.ok (c.matchingFrom filter (Collection.startId start))), t) := by
  induction pages generalizing start h with
  | zero => cases hpages
  | succ pages ih =>
    rw [scrollFrom_succ] at hall ⊢
    obtain ⟨hfirst, hlater⟩ := readsAll_attempt_bind hall (not_pauses_behindPage filter pages)
    obtain ⟨d, t, hrun, hd, hsame, ht⟩ := run_scroll hm hfirst
    cases hc.symm.trans hd
    obtain ⟨u, hrest⟩ := run_behindPage hfiled hlimit
      (fun _ hpages' hlimit' hall' => ih ht (hsame ▸ hc) hpages' hlimit' hall') (hlater _ t hrun)
    exact ⟨u, (run_attempt_bind hrun _).trans hrest⟩

/-- If no reading fails for good, just the points are read that a filter accepts. -/
theorem run_scrollAll (hm : h.IsLocal) (hfiled : h.collections.IsFiled s.collection)
    (hlimit : (h.collections.matching s.collection filter).length ≤ pageSize * (s.pageLimit + 1))
    (hall : h.ReadsAll (s.scrollAll filter).run) : ∃ t, h.attempt (s.scrollAll filter) =
      (.ok (.ok (h.collections.matching s.collection filter)), t) := by
  rw [scrollAll_eq] at hall ⊢
  obtain ⟨hfirst, hlater⟩ := readsAll_attempt_bind hall (not_pauses_behindPage filter s.pageLimit)
  obtain ⟨c, t, hcall, hc, hsame, ht⟩ := run_scroll hm (readsAll_orIfMissing hfirst)
  have hrun : h.attempt (orIfMissing ⟨[], none⟩
      (s.call (.scroll s.collection filter pageSize none))) =
        (.ok (.ok (c.scroll filter pageSize none)), t) :=
    (run_attempt_bind (run_lift hcall) _).trans rfl
  have hmatching : h.collections.matching s.collection filter =
      c.matchingFrom filter (Collection.startId none) := by
    rw [Collections.matching, hc]
    exact (c.matchingFrom_empty filter).symm
  rw [hmatching] at hlimit ⊢
  have hc' : Keyed.get? s.collection t.collections = some c := hsame ▸ hc
  obtain ⟨u, hrest⟩ := run_behindPage (hfiled c hc) hlimit
    (fun _ hpages hlimit' hall' => run_scrollFrom (hfiled c hc) ht hc' hpages hlimit' hall')
    (hlater _ t hrun)
  exact ⟨u, (run_attempt_bind hrun _).trans hrest⟩

end

/-! ## Files behind a writing -/

/-- Which points are files of a project. -/
def filesOf (project : Uuid) : Filter := ⟨[.text "type" "file", .text "project_id" project.render]⟩

/-- The files that the points of a store tell of a project. -/
def storedFiles (s : SymbolStore) (project : Uuid) (cs : Collections) : List StoredFile :=
  (cs.matching s.collection (filesOf project)).filterMap (Payload.toFile? ·.payload)

/-- Of the points of a file just that of the file itself is read back, as what it tells of the
file. -/
theorem filterMap_payloads_whole (project id : Uuid) (f : FiledSource) :
    (((IndexedFile.whole project id f).points.map (·.2)).filter
      (filesOf project).accepts).filterMap Payload.toFile? = [StoredFile.ofSource f.file] := by
  have hfile : (filesOf project).accepts (.ofFile project f.file) = true :=
    Payload.accepts_files.mpr
      ⟨Payload.isFile_ofFile project f.file, Payload.projectId?_ofFile project f.file⟩
  have hsymbols : ∀ n, ((Payload.symbols project f.file).take n).filter
      (filesOf project).accepts = [] := by
    refine fun n => List.filter_eq_nil_iff.mpr fun payload hpayload haccepts => ?_
    have hsymbol := (Payload.mem_symbols (List.mem_of_mem_take hpayload)).isSymbol
    exact hsymbol.not_isFile (Payload.accepts_files.mp haccepts).1
  rw [IndexedFile.payloads_points]
  change List.filterMap _ (List.filter _ (Payload.ofFile project f.file :: _)) = _
  rw [List.filter_cons_of_pos hfile,
    List.filterMap_cons_some (Payload.toFile?_ofFile project f.file)]
  exact congrArg (fun payloads => _ :: List.filterMap _ payloads) (hsymbols _)

/-- Each file that is written is read back once. -/
theorem filterMap_filedFrom (project : Uuid) (n : Nat) (files : List FiledSource) :
    ((((IndexedFile.filedFrom project n files).flatMap IndexedFile.points).map (·.2)).filter
      (filesOf project).accepts).filterMap Payload.toFile? =
      files.map fun f => StoredFile.ofSource f.file := by
  induction files generalizing n with
  | nil => rfl
  | cons f rest ih =>
    rw [IndexedFile.filedFrom, List.flatMap_cons, List.map_append, List.filter_append,
      List.filterMap_append, ih, filterMap_payloads_whole]
    rfl

theorem matching_eq (cs : Collections) (filter : Filter) : cs.matching s.collection filter =
    ((cs.pointsOf s.collection).map (·.2)).filter (filter.accepts ·.payload) := by
  rw [Collections.matching, Collections.pointsOf]
  cases Keyed.get? s.collection cs <;> rfl

/-- Behind a writing there are the files that were there before, and those that were written. -/
theorem storedFiles_of_gains {cs ds : Collections} {points : List Point} {project : Uuid} {n : Nat}
    {files : List FiledSource} (hgains : s.Gains cs ds points)
    (hpoints : points.map Point.entry =
      (IndexedFile.filedFrom project n files).flatMap IndexedFile.points) :
    (s.storedFiles project ds).Perm
      (s.storedFiles project cs ++ files.map fun f => StoredFile.ofSource f.file) := by
  have hnew : (points.filter ((filesOf project).accepts ·.payload)).filterMap
      (Payload.toFile? ·.payload) = files.map fun f => StoredFile.ofSource f.file := by
    rw [← filterMap_filedFrom project n files, ← hpoints, List.map_map, List.filter_map,
      List.filterMap_map]
    rfl
  rw [storedFiles, storedFiles, matching_eq, matching_eq, ← hnew, ← List.filterMap_append,
    ← List.filter_append]
  refine ((hgains.points.map _).filter _).filterMap _ |>.trans (.of_eq ?_)
  rw [List.map_append, List.map_map]
  exact congrArg (fun ps => List.filterMap _ (List.filter _ (_ ++ ps))) (List.map_id points)

/-- If no reading fails for good, the files of a project are read in the order of their paths. -/
theorem run_loadFiles {project : Uuid} (hm : h.IsLocal)
    (hfiled : h.collections.IsFiled s.collection)
    (hlimit : (h.collections.matching s.collection (filesOf project)).length ≤
      pageSize * (s.pageLimit + 1))
    (hall : h.ReadsAll (s.loadFiles project).run) : ∃ stored,
      (h.attempt (s.loadFiles project)).1 = .ok (.ok stored) ∧
      stored.Pairwise (·.path ≤ ·.path) ∧ stored.Perm (s.storedFiles project h.collections) := by
  rw [loadFiles] at hall ⊢
  obtain ⟨hread, _⟩ := readsAll_attempt_bind hall fun _ => id
  obtain ⟨t, hrun⟩ := run_scrollAll hm hfiled hlimit hread
  refine ⟨_, congrArg Prod.fst ((run_attempt_bind hrun _).trans rfl), ?_, Sorting.sort_perm _ _⟩
  have hsorted := @Sorting.pairwise_sort StoredFile (fun a b => a.path ≤ b.path)
    (fun a b => by simpa using String.le_total a.path b.path)
    (fun a b c => by simpa using String.le_trans) (s.storedFiles project h.collections)
  exact hsorted.imp of_decide_eq_true

end SymbolStore

/-! ## Main result -/

/-- Whatever is asked for, points stay in the order of their ids. -/
theorem Host.isFiled_run {α : Type} (p : Plan α) {h : Host} {name : String} (hm : h.IsLocal)
    (hfiled : h.collections.IsFiled name) : (h.run p).2.collections.IsFiled name := by
  refine (Program.run_keeps (P := fun t : Host => t.IsLocal ∧ t.collections.IsFiled name)
    (fun r t ht => ?_) p ⟨hm, hfiled⟩).2
  obtain ⟨hm, hfiled⟩ := ht
  cases r with
  | client call =>
    obtain ⟨hcomes, hlocal⟩ := comes_of_local hm call
    refine ⟨hlocal, ?_⟩
    rcases hcomes.same_or_answered with hsame | hanswered
    · rwa [hsame]
    · rw [hanswered]
      exact Collections.isFiled_answer hfiled call
  | hasReached m => cases m <;> exact ⟨hm, hfiled⟩
  | reach m => cases m <;> exact ⟨hm, hfiled⟩
  | change c =>
    simp only [serve]
    split <;> exact ⟨hm, hfiled⟩
  | _ => exact ⟨hm, hfiled⟩

open SymbolStore in
/-- If files are written, however often calls fail meanwhile, then they are counted with all of
their symbols, and each of them and each of its symbols has got one point of its own besides all
points that were there. If then no reading fails for good, the files are read back in the order of
their paths, each as it was written, besides those that were there. -/
theorem storeFiles_complete (s : SymbolStore) (project : Uuid) (files : List FiledSource)
    {h g : Host} {count : Nat} (hm : h.IsLocal) (hfiled : h.collections.IsFiled s.collection)
    (hnodup : (idsFrom h.nextId files).Nodup)
    (hnew : ∀ id ∈ idsFrom h.nextId files,
      id.render ∉ Keyed.keys (h.collections.pointsOf s.collection))
    (hrun : h.attempt (s.storeFiles project files) = (.ok (.ok count), g)) :
    count = pointCount files ∧
    (∃ points, points.length = count ∧ points.map Point.entry =
        (IndexedFile.filedFrom project h.nextId files).flatMap IndexedFile.points ∧
      s.Gains h.collections g.collections points) ∧
    ((g.collections.matching s.collection (filesOf project)).length ≤
        pageSize * (s.pageLimit + 1) →
      g.ReadsAll (s.loadFiles project).run → ∃ stored,
        (g.attempt (s.loadFiles project)).1 = .ok (.ok stored) ∧
        stored.Pairwise (·.path ≤ ·.path) ∧
        stored.Perm (s.storedFiles project h.collections ++
          files.map fun f => StoredFile.ofSource f.file)) := by
  obtain ⟨hcount, hlocal, points, hentries, hgains⟩ := files_of_storeFiles hm hnodup hnew hrun
  have hlength : points.length = count := by
    rw [hcount, ← length_draftsFrom project h.nextId, ← List.length_map (f := Point.entry),
      hentries, ← entries_draftsFrom, List.length_map]
  refine ⟨hcount, ⟨points, hlength, hentries, hgains⟩, fun hlimit hall => ?_⟩
  have hfiled' : g.collections.IsFiled s.collection := by
    have hkept := Host.isFiled_run (s.storeFiles project files).run hm hfiled
    rwa [show h.run (s.storeFiles project files).run = _ from hrun] at hkept
  obtain ⟨stored, hread, hsorted, hperm⟩ := run_loadFiles hlocal hfiled' hlimit hall
  exact ⟨stored, hread, hsorted, hperm.trans (storedFiles_of_gains hgains hentries)⟩

section

set_option maxRecDepth 100000

/-- A file with one function. -/
def FiledSource.small (path : String) (id : Uuid) : FiledSource where
  file := { path, language := "python", hash := "0", size := 3, modified := ⟨0, 0⟩
            functions := [{ name := "f", line := 1, endLine := 1 }] }
  ids := [id]
  length_ids := rfl

/-- A file of a project is there, and the next writing and the next reading of points fail. -/
def Host.withOneFile : Host where
  store := .memory { collections := [("points", {
    shape := ⟨"points", 0, .cosine⟩
    points := [((Uuid.ofNat 7).render, ⟨(Uuid.ofNat 7).render, [],
      .ofFile (.ofNat 9) (FiledSource.small "b.py" (.ofNat 8)).file⟩)] })] }
  faults := [⟨"upsert", .failure (.transient "timeout"), 0⟩,
    ⟨"scroll", .failure (.transient "timeout"), 0⟩]

/-- A second file is written for the project. -/
def Host.withTwoFiles : Host :=
  (Host.withOneFile.attempt
    (SymbolStore.patient.storeFiles (.ofNat 9) [.small "a.py" (.ofNat 6)])).2

theorem storeFiles_complete_second : ∃ stored,
    (Host.withTwoFiles.attempt (SymbolStore.patient.loadFiles (.ofNat 9))).1 = .ok (.ok stored) ∧
      stored.Pairwise (·.path ≤ ·.path) ∧
      stored.Perm [.ofSource (FiledSource.small "b.py" (.ofNat 8)).file,
        .ofSource (FiledSource.small "a.py" (.ofNat 6)).file] := by
  have hcount : ((Host.withOneFile.attempt (SymbolStore.patient.storeFiles (.ofNat 9)
      [.small "a.py" (.ofNat 6)])).1.toOption.bind Except.toOption) = some 2 := by
    decide +kernel
  have hfiled : Host.withOneFile.collections.IsFiled "points" := by
    intro c hc
    cases hc
    exact ⟨List.pairwise_singleton _ _, fun e he => List.mem_singleton.mp he ▸ rfl⟩
  have hreads : Host.withTwoFiles.ReadsAll (SymbolStore.patient.loadFiles (.ofNat 9)).run :=
    ⟨exists_of_toOption (by decide +kernel), by decide +kernel⟩
  have hearlier : SymbolStore.patient.storedFiles (.ofNat 9) Host.withOneFile.collections =
      [.ofSource (FiledSource.small "b.py" (.ofNat 8)).file] := by
    decide +kernel
  obtain ⟨stored, hread, hsorted, hperm⟩ := (storeFiles_complete .patient (.ofNat 9)
    [.small "a.py" (.ofNat 6)] (h := .withOneFile) (g := .withTwoFiles) ⟨_, rfl⟩ hfiled
    (by decide +kernel) (by decide +kernel) (Prod.ext (eq_of_toOption hcount) rfl)).2.2
    (by decide +kernel) hreads
  rw [hearlier] at hperm
  exact ⟨stored, hread, hsorted, hperm⟩

end

end CodeAtlas
