import CodeAtlas.Host.Run
import CodeAtlas.Proofs.Calls
import CodeAtlas.Proofs.Outputs
/-!
# Calls that are refused

A call of a tool is refused for what is wrong with it: there is no such tool, an argument is missing
or no id, a root may not be indexed, or nothing is known of a project. All of this turns out before
anything is written, also where the store has to be read first: an update looks at the root of a
project only after the project has been found. So a call that is refused leaves no trace, and every
call is told of, whatever becomes of it.

Results:
1. `Host.spares_run`: what asks for nothing harmful changes neither points nor files, and makes no
   call that might.
2. `Host.ComesToNothing.bind`, `Host.comesToNothing_bind`: an attempt comes to nothing if its first
   part does, or if the first part is harmless and the rest comes to nothing.
3. `Host.storedProject_of_loadProject`: a project that is found is one that is stored.
4. `Indexer.Rejects.cases`: whatever a call is refused for, it comes to nothing.
5. `callTool_refused`: a call that is refused leaves no trace, and every call is told of.
-/

namespace CodeAtlas

/-! ## Payloads -/

namespace ToolPayload

/-- A payload tells of an error, and which one. -/
def TellsError (payload : Json) : Prop :=
  payload.getStr? "status" = some "error" ∧ ∃ message, payload.getStr? "error" = some message

/-- A payload tells of a success. -/
def TellsSuccess (payload : Json) : Prop := payload.getStr? "status" = some "success"

theorem tellsError_failed (message : String) : TellsError (failed message) := by
  constructor
  · simp [failed, Json.ofEntries, Json.getStr?, Json.get?, Keyed.ofList, Keyed.get?_insert, Json.str?]
  · exact ⟨message, by
      simp [failed, Json.ofEntries, Json.getStr?, Json.get?, Keyed.ofList, Keyed.get?_insert,
        Json.str?]⟩

/-- The status comes last, so no other entry stands for it. -/
theorem tellsSuccess_success (entries : List (String × Json)) : TellsSuccess (success entries) := by
  simp [TellsSuccess, success, Json.ofEntries, Json.getStr?, Json.get?, Keyed.ofList,
    Keyed.get?_insert, Json.str?]

end ToolPayload

/-! ## Without a trace -/

namespace Host

/-- Points and files are the same, and no call that might change points has been made. -/
structure Spares (h h' : Host) : Prop where
  same : h.SameData h'
  idle : ∃ made, h'.calls = made ++ h.calls ∧ ∀ call ∈ made, call.isWrite = false

theorem Spares.refl (h : Host) : h.Spares h := ⟨.refl h, [], rfl, fun _ h => absurd h List.not_mem_nil⟩

theorem Spares.trans {h h' h'' : Host} (h₁ : h.Spares h') (h₂ : h'.Spares h'') : h.Spares h'' := by
  obtain ⟨made, hmade, hidle⟩ := h₁.idle
  obtain ⟨made', hmade', hidle'⟩ := h₂.idle
  refine ⟨h₁.same.trans h₂.same, made' ++ made, ?_, fun call hcall => ?_⟩
  · rw [hmade', hmade, List.append_assoc]
  · exact (List.mem_append.mp hcall).elim (hidle' call) (hidle call)

/-- A harmless request leaves no trace, and a call it makes is taken note of. -/
theorem spares_serve {r : Request} (hr : r.IsHarmless) (h : Host) : h.Spares (serve r h).2 := by
  refine ⟨sameData_serve hr h, ?_⟩
  cases r with
  | client call =>
    refine ⟨[call], (h.after_answerCall call).1, fun other hother => ?_⟩
    rw [List.mem_singleton.mp hother]
    exact Bool.not_eq_true _ ▸ hr
  | change c => exact absurd trivial hr
  | hasReached m => cases m <;> exact (Spares.refl h).idle
  | reach m => cases m <;> exact (Spares.refl h).idle
  | _ => exact (Spares.refl h).idle

variable {α β : Type} {h g : Host}

/-- What asks for nothing harmful leaves no trace. -/
theorem spares_run {p : Plan α} (hp : Program.Asks Request.IsHarmless p) (h : Host) :
    h.Spares (h.run p).2 :=
  hp.run_keeps (fun _ t hr ht => ht.trans (spares_serve hr t)) (.refl h)

theorem spares_attempt {a : Attempt α} (ha : a.Asks Request.IsHarmless)
    {result : Except Crash (Except Failure α)} (hrun : h.attempt a = (result, g)) : h.Spares g := by
  have hspares : h.Spares (h.attempt a).2 := spares_run ha h
  rwa [hrun] at hspares

/-! ## Attempts that come to nothing -/

/-- An attempt gives nothing and leaves no trace. -/
structure ComesToNothing (h : Host) (a : Attempt α) : Prop where
  gives : ∀ x, (h.attempt a).1 ≠ .ok (.ok x)
  spares : h.Spares (h.attempt a).2

theorem comesToNothing_throw (h : Host) (e : Failure) : h.ComesToNothing (throw e : Attempt α) :=
  ⟨nofun, .refl h⟩

/-- What follows an attempt goes on where the attempt has succeeded. -/
theorem attempt_bind (h : Host) (a : Attempt α) (f : α → Attempt β) : h.attempt (a >>= f) =
    match h.attempt a with
    | (.ok (.ok x), g) => g.attempt (f x)
    | (.ok (.error e), g) => (.ok (.error e), g)
    | (.error crash, g) => (.error crash, g) := by
  refine (Program.run_bind serve a.run (ExceptT.bindCont f) h).trans ?_
  unfold attempt run
  cases Program.run serve a.run h with
  | mk result g =>
    cases result with
    | error crash => rfl
    | ok result => cases result <;> rfl

theorem comesToNothing_of_attempt {a : Attempt α} {result : Except Crash (Except Failure α)}
    (hrun : h.attempt a = (result, g)) (hresult : ∀ x, result ≠ .ok (.ok x)) (hg : h.Spares g) :
    h.ComesToNothing a := by
  constructor <;> rw [hrun]
  · exact hresult
  · exact hg

/-- Nothing is lost if what follows a harmless attempt comes to nothing. -/
theorem comesToNothing_bind {a : Attempt α} {f : α → Attempt β} (ha : a.Asks Request.IsHarmless)
    (hf : ∀ x g, h.attempt a = (.ok (.ok x), g) → g.ComesToNothing (f x)) :
    h.ComesToNothing (a >>= f) := by
  have hbind := h.attempt_bind a f
  cases hrun : h.attempt a with
  | mk result g =>
    have hspares := spares_attempt ha hrun
    rw [hrun] at hbind
    match result with
    | .error crash => exact comesToNothing_of_attempt hbind nofun hspares
    | .ok (.error e) => exact comesToNothing_of_attempt hbind nofun hspares
    | .ok (.ok x) =>
      have hrest := hf x g hrun
      exact comesToNothing_of_attempt hbind hrest.gives (hspares.trans hrest.spares)

/-- An attempt is over where its first part comes to nothing. -/
theorem ComesToNothing.bind {a : Attempt α} (ha : h.ComesToNothing a) (f : α → Attempt β) :
    h.ComesToNothing (a >>= f) := by
  have hbind := h.attempt_bind a f
  have hspares := ha.spares
  cases hrun : h.attempt a with
  | mk result g =>
    rw [hrun] at hbind hspares
    match result with
    | .error crash => exact comesToNothing_of_attempt hbind nofun hspares
    | .ok (.error e) => exact comesToNothing_of_attempt hbind nofun hspares
    | .ok (.ok x) => exact absurd (congrArg Prod.fst hrun) (ha.gives x)

/-! ## Projects that are found -/

/-- The project that is stored under an id. -/
def storedProject (h : Host) (collection : String) (id : Uuid) : Option Project :=
  (Keyed.get? collection h.collections).bind fun c =>
    (Keyed.get? id.render c.points).bind Payload.toProject?

/-- What a harmless call gives, it is given where nothing has changed. -/
theorem served_of_call {s : SymbolStore} {call : ClientCall}
    (hcall : Request.IsHarmless (.client call)) {answer : call.Answer}
    (hrun : h.attempt (s.call call) = (.ok (.ok answer), g)) :
    ∃ t, h.Spares t ∧ (serve (.client call) t).1 = .ok (.ok answer) := by
  refine s.call_induction (motive := fun p => ∀ h : Host, h.run p = (.ok (.ok answer), g) →
    ∃ t, h.Spares t ∧ (serve (.client call) t).1 = .ok (.ok answer))
    (fun h hrun => ⟨h, .refl h, congrArg Prod.fst (run_ask_ok hrun)⟩)
    (fun nanos rest ih h hrun => ?_) h hrun
  rcases run_callThen hrun with hserve | ⟨e, t, hserve, hagain⟩
  · exact ⟨h, .refl h, congrArg Prod.fst hserve⟩
  · obtain ⟨u, hu, hgiven⟩ := ih t hagain
    have ht := spares_serve hcall h
    rw [hserve] at ht
    exact ⟨u, ht.trans hu, hgiven⟩

/-- Points that are read by their ids are those of the collection. -/
theorem points_of_retrieve {name : String} {ids : List String} {points : List Point}
    (hids : ids ≠ []) (hserve : (serve (.client (.retrieve name ids)) h).1 = .ok (.ok points)) :
    ∃ c, Keyed.get? name h.collections = some c ∧
      points = ids.filterMap (Keyed.get? · c.points) := by
  -- a call that gives points has reached the store, and that was a local one
  have hgo : ∀ g : Host, g.store = h.store →
      (answerCall.go g (.retrieve name ids)).1 = .ok (.ok points) →
      ∃ c, Keyed.get? name h.collections = some c ∧
        points = ids.filterMap (Keyed.get? · c.points) := by
    intro g hstore hgiven
    simp only [answerCall.go, hstore] at hgiven
    rw [collections]
    cases hh : h.store with
    | remote s =>
      rw [hh] at hgiven
      cases ids with
      | nil => exact absurd rfl hids
      | cons id rest => cases hgiven
    | memory m =>
      rw [hh] at hgiven
      have hanswer : (m.answer (.retrieve name ids)).1 = .ok points := Except.ok.inj hgiven
      rcases m.answer_cases (.retrieve name ids) with ⟨⟨message, hresult⟩, _⟩ | ⟨hresult, _⟩
      · cases hresult.symm.trans hanswer
      · have hanswer : ((m.collections.require name).map
          fun c => ids.filterMap (Keyed.get? · c.points)) = .ok points := hresult.symm.trans hanswer
        rw [Collections.require] at hanswer
        split at hanswer
        · next c hc =>
          cases hanswer
          exact ⟨c, hc, rfl⟩
        · cases hanswer
  have htakes := h.takes_call (.retrieve name ids)
  rw [serve] at hserve
  generalize h.answerCall (.retrieve name ids) = answer at htakes hserve
  cases htakes with
  | failed | crashed => cases hserve
  | absent hresult => cases hresult
  | reached => exact hgo _ rfl hserve

/-- A project that is found is the one that is stored under the id. -/
theorem storedProject_of_loadProject {s : SymbolStore} {id : Uuid} {p : Project}
    (hrun : h.attempt (s.loadProject id) = (.ok (.ok (some p)), g)) :
    h.storedProject s.collection id = some p := by
  obtain ⟨points, t, hread, hfound⟩ := run_attempt_bind_ok hrun
  have hp : points.findSome? Payload.toProject? = some p := Except.ok.inj
    (Except.ok.inj (congrArg Prod.fst hfound))
  obtain ⟨result, t', hcall, hresult⟩ := run_attempt_bind_ok hread
  have hcall := run_lift_ok hcall
  cases result with
  | error e =>
    -- a collection that is not there reads as an empty one
    cases e with
    | notFound message =>
      cases hresult
      cases hp
    | _ => cases hresult
  | ok points' =>
    cases hresult
    obtain ⟨u, hu, hserve⟩ := served_of_call (ClientCall.isHarmless_of_isRead rfl) hcall
    obtain ⟨c, hc, rfl⟩ := points_of_retrieve (List.cons_ne_nil _ _) hserve
    have hsame : u.collections = h.collections := hu.same.collections
    rw [hsame] at hc
    rw [storedProject, hc, Option.bind_some]
    cases hpoint : Keyed.get? id.render c.points with
    | none => simp [hpoint] at hp
    | some point => simpa [hpoint] using hp

end Host

/-! ## Arguments -/

namespace ToolCall

variable {args : Json} {key text : String}

theorem requiredText_of_blank
    (h : ∀ text, args.getStr? key = some text → Text.isAllBlank text = true) :
    requiredText args key = .error (.missing key) := by
  rw [requiredText]
  split
  · next text htext => rw [if_pos (h text htext)]
  · rfl

theorem requiredText_of_filled (htext : args.getStr? key = some text)
    (hfilled : Text.isAllBlank text = false) : requiredText args key = .ok text := by
  rw [requiredText, htext]
  dsimp only
  rw [if_neg (by rw [hfilled]; exact Bool.false_ne_true)]

theorem projectOf_of_parse {id : Uuid} (hid : Uuid.parse? (Text.trim text) = some id) :
    projectOf text = .ok id := by
  rw [projectOf, hid]

theorem projectOf_of_bad (hbad : Uuid.parse? (Text.trim text) = none) :
    projectOf text = .error (.badProject text) := by
  rw [projectOf, hbad]

theorem parse_name (t : Tool) (args : Json) : parse t.name args = ofArguments args t := by
  rw [parse, Tool.ofName?_name]

/-- Whatever is required is asked for first. -/
theorem parse_of_missing {t : Tool} {p : ToolParameter} (hp : p ∈ t.parameters)
    (hrequired : p.isRequired = true)
    (hblank : ∀ text, args.getStr? p.name = some text → Text.isAllBlank text = true) :
    parse t.name args = .error (.missing p.name) := by
  rw [parse_name]
  cases t with
  | list => cases hp
  | delete =>
    rw [List.mem_singleton.mp hp] at hblank ⊢
    rw [ofArguments, requiredText_of_blank hblank]
    rfl
  | index =>
    rcases List.mem_pair.mp hp with rfl | rfl
    · rw [ofArguments, requiredText_of_blank hblank]
      rfl
    · cases hrequired
  | update =>
    rcases List.mem_pair.mp hp with rfl | rfl
    · rw [ofArguments, requiredText_of_blank hblank]
      rfl
    · cases hrequired
  | search =>
    rcases List.mem_cons.mp hp with rfl | hp
    · rw [ofArguments, requiredText_of_blank hblank]
      rfl
    · rcases List.mem_pair.mp hp with rfl | rfl <;> cases hrequired

/-- An id that is none is found out, unless something else is missing. -/
theorem parse_of_badProject {t : Tool} {p : ToolParameter} (hp : p ∈ t.parameters)
    (hid : p.name = "project_id") (htext : args.getStr? p.name = some text)
    (hfilled : Text.isAllBlank text = false) (hbad : Uuid.parse? (Text.trim text) = none) :
    ∃ d, parse t.name args = .error d := by
  rw [hid] at htext
  rw [parse_name]
  cases t with
  | list => cases hp
  | index =>
    rcases List.mem_pair.mp hp with rfl | rfl <;> exact absurd hid (by decide)
  | update =>
    refine ⟨.badProject text, ?_⟩
    simp only [ofArguments, requiredText_of_filled htext hfilled, bind, Except.bind,
      projectOf_of_bad hbad]
  | delete =>
    refine ⟨.badProject text, ?_⟩
    simp only [ofArguments, requiredText_of_filled htext hfilled, bind, Except.bind,
      projectOf_of_bad hbad]
  | search =>
    have hscope : scopeOf args = .error (.badProject text) := by
      rw [scopeOf, htext]
      dsimp only
      rw [if_neg (by rw [hfilled]; exact Bool.false_ne_true), projectOf_of_bad hbad]
      rfl
    rw [ofArguments, hscope]
    cases requiredText args "query" with
    | error d => exact ⟨d, rfl⟩
    | ok query => exact ⟨_, rfl⟩

/-- A call with the id of a project, unless the text is blank. -/
theorem parse_of_project {t : Tool} (htool : t = .update ∨ t = .delete) {id : Uuid}
    (htext : args.getStr? "project_id" = some text) (hid : Uuid.parse? (Text.trim text) = some id) :
    (∃ d, parse t.name args = .error d) ∨
      (t = .update ∧ ∃ force, parse t.name args = .ok (.update id force)) ∨
      (t = .delete ∧ parse t.name args = .ok (.delete id)) := by
  rw [parse_name]
  cases hfilled : Text.isAllBlank text with
  | true =>
    have hblank : ∀ other, args.getStr? "project_id" = some other → Text.isAllBlank other = true := by
      intro other hother
      rwa [← Option.some.inj (htext.symm.trans hother)]
    refine .inl ⟨.missing "project_id", ?_⟩
    rcases htool with rfl | rfl
    all_goals
      rw [ofArguments, requiredText_of_blank hblank]
      rfl
  | false =>
    right
    rcases htool with rfl | rfl
    · refine .inl ⟨rfl, (args.getBool? "force_full").getD false, ?_⟩
      simp only [ofArguments, requiredText_of_filled htext hfilled, bind, Except.bind,
        projectOf_of_parse hid]
      rfl
    · refine .inr ⟨rfl, ?_⟩
      simp only [ofArguments, requiredText_of_filled htext hfilled, bind, Except.bind,
        projectOf_of_parse hid]
      rfl

end ToolCall

/-! ## Refusals -/

namespace Indexer

/-- What a call of a tool is refused for. -/
inductive Rejects (x : Indexer) (h : Host) (name : String) (args : Json) : Prop
  | unknownTool (hname : ∀ t : Tool, t.name ≠ name)
  /-- An argument is missing, no text or blank. -/
  | missing {t : Tool} {p : ToolParameter} (hname : t.name = name) (hp : p ∈ t.parameters)
    (hrequired : p.isRequired = true)
    (hblank : ∀ text, args.getStr? p.name = some text → Text.isAllBlank text = true)
  /-- A text that ought to be an id is none. -/
  | badProject {t : Tool} {p : ToolParameter} {text : String} (hname : t.name = name)
    (hp : p ∈ t.parameters) (hid : p.name = "project_id") (htext : args.getStr? p.name = some text)
    (hfilled : Text.isAllBlank text = false) (hbad : Uuid.parse? (Text.trim text) = none)
  /-- A path may not be indexed. -/
  | badPath {path : String} {e : Failure} (hname : Tool.index.name = name)
    (hpath : args.getStr? "path" = some path)
    (hbad : AllowedRoots.validate h.disk x.config.allowedRoots path = .error e)
  /-- Nothing is stored under an id, or it is not found for whatever reason. -/
  | unknownProject {t : Tool} {text : String} {id : Uuid} (htool : t = .update ∨ t = .delete)
    (hname : t.name = name) (htext : args.getStr? "project_id" = some text)
    (hid : Uuid.parse? (Text.trim text) = some id)
    (hunknown : h.storedProject x.store.collection id = none ∨
      ∀ p, (h.attempt (x.store.loadProject id)).1 ≠ .ok (.ok (some p)))
  /-- The root of a project that is to be updated may not be indexed any more. -/
  | lostRoot {text : String} {id : Uuid} {p : Project} {e : Failure}
    (hname : Tool.update.name = name) (htext : args.getStr? "project_id" = some text)
    (hid : Uuid.parse? (Text.trim text) = some id)
    (hstored : h.storedProject x.store.collection id = some p)
    (hlost : AllowedRoots.validate h.disk x.config.allowedRoots p.rootPath = .error e)

variable {x : Indexer} {h : Host}

/-- Nothing is indexed if the path may not be. -/
theorem comesToNothing_indexProject {path : String} {patterns : List String} {e : Failure}
    (hbad : AllowedRoots.validate h.disk x.config.allowedRoots path = .error e) :
    h.ComesToNothing (x.indexProject path patterns) := by
  refine Host.ComesToNothing.bind (Host.comesToNothing_of_attempt (x.attempt_validateRoot h path)
    (fun root hroot => ?_) (.refl h)) _
  rw [hbad] at hroot
  cases hroot

/-- Nothing is known of a project that is not found, or whose root may not be indexed any more. -/
theorem comesToNothing_knownProject {id : Uuid}
    (hunfit : ∀ p, (h.attempt (x.store.loadProject id)).1 = .ok (.ok (some p)) →
      ∃ e, AllowedRoots.validate h.disk x.config.allowedRoots p.rootPath = .error e) :
    h.ComesToNothing (x.knownProject id) := by
  refine Host.comesToNothing_bind (x.store.reading_loadProject id).harmless fun found g hload => ?_
  cases found with
  | none => exact Host.comesToNothing_throw g _
  | some p =>
    obtain ⟨e, he⟩ := hunfit p (congrArg Prod.fst hload)
    have hdisk : g.disk = h.disk :=
      (Host.spares_attempt (x.store.reading_loadProject id).harmless hload).same.disk
    refine Host.comesToNothing_bind (asks_outcome (x.asks_validateRoot (fun _ h => h) _))
      fun result g' hroot => ?_
    have hvalidated : AllowedRoots.validate g.disk x.config.allowedRoots p.rootPath = result :=
      Except.ok.inj (Except.ok.inj (congrArg Prod.fst hroot))
    rw [hdisk, he] at hvalidated
    subst hvalidated
    exact Host.comesToNothing_throw g' _

theorem comesToNothing_updateProject {id : Uuid} {force : Bool}
    (hunfit : ∀ p, (h.attempt (x.store.loadProject id)).1 = .ok (.ok (some p)) →
      ∃ e, AllowedRoots.validate h.disk x.config.allowedRoots p.rootPath = .error e) :
    h.ComesToNothing (ToolCall.run x (.update id force)) :=
  ((comesToNothing_knownProject hunfit).bind _).bind _

theorem comesToNothing_deleteProject {id : Uuid}
    (hunknown : ∀ p, (h.attempt (x.store.loadProject id)).1 ≠ .ok (.ok (some p))) :
    h.ComesToNothing (ToolCall.run x (.delete id)) := by
  rw [ToolCall.run, SymbolStore.deleteProject, bind_assoc]
  refine Host.comesToNothing_bind (x.store.reading_loadProject id).harmless fun found g hload => ?_
  cases found with
  | none => exact Host.comesToNothing_throw g _
  | some p => exact absurd (congrArg Prod.fst hload) (hunknown p)

/-- Whatever a call is refused for, there is a defect in it, or it comes to nothing. -/
theorem Rejects.cases {name : String} {args : Json} (hrejects : x.Rejects h name args) :
    (∃ d, ToolCall.parse name args = .error d) ∨
      ∃ call, ToolCall.parse name args = .ok call ∧ h.ComesToNothing (call.run x) := by
  -- what is found is stored, so nothing is found where nothing is stored
  have hstored : ∀ id p, (h.attempt (x.store.loadProject id)).1 = .ok (.ok (some p)) →
      h.storedProject x.store.collection id = some p := fun id p hload =>
    Host.storedProject_of_loadProject (Prod.ext hload rfl)
  cases hrejects with
  | unknownTool hname =>
    have hnone : Tool.ofName? name = none := by
      rw [Tool.ofName?, List.find?_eq_none]
      exact fun t _ => by simpa using hname t
    exact .inl ⟨_, by rw [ToolCall.parse, hnone]⟩
  | missing hname hp hrequired hblank =>
    exact .inl ⟨_, hname ▸ ToolCall.parse_of_missing hp hrequired hblank⟩
  | badProject hname hp hid htext hfilled hbad =>
    exact .inl (hname ▸ ToolCall.parse_of_badProject hp hid htext hfilled hbad)
  | @badPath path e hname hpath hbad =>
    rw [← hname, ToolCall.parse_name, ToolCall.ofArguments, ToolCall.requiredText, hpath]
    dsimp only
    split
    · exact .inl ⟨_, rfl⟩
    · exact .inr ⟨_, rfl, (comesToNothing_indexProject hbad).bind _⟩
  | @unknownProject t text id htool hname htext hid hunknown =>
    have hunfound : ∀ p, (h.attempt (x.store.loadProject id)).1 ≠ .ok (.ok (some p)) := by
      refine hunknown.elim (fun hnone p hload => ?_) fun hunfound => hunfound
      cases hnone.symm.trans (hstored id p hload)
    subst hname
    rcases ToolCall.parse_of_project htool htext hid with hdefect | ⟨_, force, hcall⟩ | ⟨_, hcall⟩
    · exact .inl hdefect
    · refine .inr ⟨_, hcall, comesToNothing_updateProject fun p hload => ?_⟩
      exact absurd hload (hunfound p)
    · exact .inr ⟨_, hcall, comesToNothing_deleteProject hunfound⟩
  | @lostRoot text id p e hname htext hid hp hlost =>
    subst hname
    rcases ToolCall.parse_of_project (.inl rfl) htext hid with hdefect | ⟨_, force, hcall⟩ | ⟨hne, _⟩
    · exact .inl hdefect
    · refine .inr ⟨_, hcall, comesToNothing_updateProject fun p' hload => ⟨e, ?_⟩⟩
      rwa [← Option.some.inj (hp.symm.trans (hstored id p' hload))]
    · cases hne

end Indexer

/-! ## Main result -/

/-- What a call gives tells of a success. -/
theorem ToolCall.tellsSuccess_of_run {x : Indexer} {call : ToolCall} {h g : Host} {payload : Json}
    (hrun : h.attempt (call.run x) = (.ok (.ok payload), g)) : ToolPayload.TellsSuccess payload := by
  cases call with
  | delete id =>
    obtain ⟨deleted, t, _, hrest⟩ := run_attempt_bind_ok hrun
    cases deleted with
    | false => cases hrest
    | true =>
      cases hrest
      exact ToolPayload.tellsSuccess_success _
  | _ =>
    obtain ⟨_, _, _, hrest⟩ := run_attempt_bind_ok hrun
    cases hrest
    exact ToolPayload.tellsSuccess_success _

namespace Host

variable {x : Indexer} {h : Host} {name : String} {args : Json}

theorem callTool_of_defect {d : ToolCall.Defect} (hparse : ToolCall.parse name args = .error d) :
    (callTool x name args).run h = (ToolPayload.failed d.message, h) := by
  have hplan : x.callTool name args = pure (ToolPayload.failed d.message) := by
    rw [Indexer.callTool, hparse]
  change (ToolPayload.settle (h.run (x.callTool name args)).1, (h.run (x.callTool name args)).2) = _
  rw [hplan]
  rfl

theorem callTool_of_call {call : ToolCall} (hparse : ToolCall.parse name args = .ok call) :
    (callTool x name args).run h =
      match h.attempt (call.run x) with
      | (.ok (.ok payload), g) => (payload, g)
      | (.ok (.error e), g) => (ToolPayload.failed (ToolPayload.explain e), g)
      | (.error crash, g) => (ToolPayload.failed ("Internal error: " ++ crash.message), g) := by
  have hrun : h.run (x.callTool name args) =
      match h.attempt (call.run x) with
      | (.ok (.ok payload), g) => (.ok payload, g)
      | (.ok (.error e), g) => (.ok (ToolPayload.failed (ToolPayload.explain e)), g)
      | (.error crash, g) => (.error crash, g) := by
    rw [Indexer.callTool, hparse]
    refine (Program.run_bind serve (call.run x).run _ h).trans ?_
    unfold attempt run
    cases Program.run serve (call.run x).run h with
    | mk result g =>
      cases result with
      | error crash => rfl
      | ok result => cases result <;> rfl
  change (ToolPayload.settle (h.run (x.callTool name args)).1, (h.run (x.callTool name args)).2) = _
  rw [hrun]
  cases h.attempt (call.run x) with
  | mk result g =>
    cases result with
    | error crash => rfl
    | ok result => cases result <;> rfl

end Host

/-- A call that is refused tells of an error and leaves no trace: no call that might change points
is made, and all collections and all files are as before. Whatever becomes of a call, its payload
tells of a success or of an error. -/
theorem callTool_refused (x : Indexer) (h : Host) (name : String) (args : Json) :
    (x.Rejects h name args →
      ToolPayload.TellsError ((Host.callTool x name args).run h).1 ∧
        h.Spares ((Host.callTool x name args).run h).2) ∧
    (ToolPayload.TellsSuccess ((Host.callTool x name args).run h).1 ∨
      ToolPayload.TellsError ((Host.callTool x name args).run h).1) := by
  refine ⟨fun hrejects => ?_, ?_⟩
  · rcases hrejects.cases with ⟨d, hparse⟩ | ⟨call, hparse, hnothing⟩
    · rw [Host.callTool_of_defect hparse]
      exact ⟨ToolPayload.tellsError_failed _, .refl h⟩
    · have hspares := hnothing.spares
      have hgives := hnothing.gives
      rw [Host.callTool_of_call hparse]
      split
      · next payload g hrun => exact absurd (congrArg Prod.fst hrun) (hgives payload)
      · next hrun =>
        rw [hrun] at hspares
        exact ⟨ToolPayload.tellsError_failed _, hspares⟩
      · next hrun =>
        rw [hrun] at hspares
        exact ⟨ToolPayload.tellsError_failed _, hspares⟩
  · cases hparse : ToolCall.parse name args with
    | error d =>
      rw [Host.callTool_of_defect hparse]
      exact .inr (ToolPayload.tellsError_failed _)
    | ok call =>
      rw [Host.callTool_of_call hparse]
      split
      · next hrun => exact .inl (ToolCall.tellsSuccess_of_run hrun)
      · exact .inr (ToolPayload.tellsError_failed _)
      · exact .inr (ToolPayload.tellsError_failed _)

section

set_option maxRecDepth 100000

/-- A project is stored, and its root is gone. -/
def Host.rootless : Host where
  store := .memory { collections := [("points", {
    shape := ⟨"points", 0, .cosine⟩
    points := [((Uuid.ofNat 1).render, ⟨(Uuid.ofNat 1).render, [],
      .ofProject { id := .ofNat 1, name := "r", rootPath := "/r" }⟩)] })] }

theorem callTool_refused_rootless :
    (Host.rootless.storedProject "points" (.ofNat 1)).map (·.rootPath) = some "/r" ∧
    Host.rootless.Spares ((Host.callTool .sample "update_project_index"
      (.ofEntries [("project_id", .str (Uuid.ofNat 1).render)])).run Host.rootless).2 := by
  have hstored : (Host.rootless.storedProject "points" (.ofNat 1)).map (·.rootPath) = some "/r" := by
    decide +kernel
  obtain ⟨p, hp, hroot⟩ := Option.map_eq_some_iff.mp hstored
  have hlost : AllowedRoots.validate Host.rootless.disk Indexer.sample.config.allowedRoots
      p.rootPath = .error (.validation "Path does not exist: /r") := by
    rw [hroot]
    rfl
  exact ⟨hstored, ((callTool_refused _ _ _ _).1
    (.lostRoot rfl rfl (by decide +kernel) hp hlost)).2⟩

end

end CodeAtlas
