import CodeAtlas.Collection.Memory
import CodeAtlas.Proofs.Keyed
/-!
# Calls that are answered again

What matters of a collection is whether it is there, its shape and its points; indexes only make the
work faster. A call that is answered twice in a row changes no more of this than if it is answered
once. It gets the same answer again, unless it is to make a collection, which is there by then.

Results:
1. `reading_eq_ok`, `changing_eq_ok`, `upsert_eq_ok`: what the success of a call tells.
2. `answer_congr`: answers and changes go by what matters.
3. `contents_again`: the second time nothing changes.
4. `answer_again`: the second answer is the same.
-/

namespace CodeAtlas

/-! ## Collections -/

namespace Collection

/-- What matters of a collection: its shape and its points. -/
def content (c : Collection) : CollectionShape × List (String × Point) := (c.shape, c.points)

/-- A point that will be written over need not be written before. -/
theorem foldl_insert_of_mem {ps : List Point} {key : String} (h : key ∈ ps.map Point.id)
    (p : Point) (l : List (String × Point)) :
    ps.foldl (fun acc q => Keyed.insert q.id q acc) (Keyed.insert key p l) =
      ps.foldl (fun acc q => Keyed.insert q.id q acc) l := by
  induction ps generalizing l with
  | nil => cases h
  | cons q rest ih =>
    rw [List.foldl_cons, List.foldl_cons]
    by_cases hq : q.id = key
    · rw [hq, Keyed.insert_insert]
    · have hrest : key ∈ rest.map Point.id := (List.mem_cons.mp h).resolve_left (Ne.symm hq)
      rw [Keyed.insert_comm hq, ih hrest]

/-- Points that will be written over need not be written before. -/
theorem foldl_insert_of_subset {ps qs : List Point} (h : ∀ q ∈ qs, q.id ∈ ps.map Point.id)
    (l : List (String × Point)) :
    ps.foldl (fun acc q => Keyed.insert q.id q acc)
        (qs.foldl (fun acc q => Keyed.insert q.id q acc) l) =
      ps.foldl (fun acc q => Keyed.insert q.id q acc) l := by
  induction qs generalizing l with
  | nil => rfl
  | cons q rest ih =>
    rw [List.foldl_cons, ih fun q' hq' => h q' (List.mem_cons_of_mem q hq'),
      foldl_insert_of_mem (h q List.mem_cons_self)]

@[simp] theorem upsert_upsert (c : Collection) (ps : List Point) :
    (c.upsert ps).upsert ps = c.upsert ps :=
  congrArg (fun points => { c with points })
    (foldl_insert_of_subset (fun _ hp => List.mem_map_of_mem hp) c.points)

@[simp] theorem delete_delete (c : Collection) (filter : Filter) :
    (c.delete filter).delete filter = c.delete filter := by
  refine congrArg (fun points => { c with points }) (List.filter_filter.trans ?_)
  exact List.filter_congr fun _ _ => Bool.and_self _

end Collection

/-- Whether a call gets the same answer again: any but one that makes a collection. -/
def ClientCall.isRepeatable : ClientCall → Bool
  | create _ => false
  | _ => true

namespace Collections

/-- What matters of collections, by their names. -/
def contents (cs : Collections) (name : String) :
    Option (CollectionShape × List (String × Point)) :=
  (Keyed.get? name cs).map Collection.content

variable {cs ds : Collections} {α : Type}

theorem contents_insert (name : String) (c : Collection) (cs : Collections) :
    contents (Keyed.insert name c cs) =
      fun n => if name = n then some c.content else cs.contents n := by
  funext n
  rw [contents, Keyed.get?_insert]
  split
  · rfl
  · rfl

theorem require_insert (name : String) (c : Collection) (cs : Collections) :
    require (Keyed.insert name c cs) name = .ok c := by
  rw [require, Keyed.get?_insert, if_pos rfl]

section

variable {f : Collection → Except Failure Collection} {name : String}

theorem changing_of_ok {c : Collection} (h : (cs.require name).bind f = .ok c) :
    cs.changing name f = (.ok (), Keyed.insert name c cs) := by
  rw [changing, h]

theorem changing_of_error {e : Failure} (h : (cs.require name).bind f = .error e) :
    cs.changing name f = (.error e, cs) := by
  rw [changing, h]

/-! ## What a success tells -/

/-- What is read is read from a collection that is there. -/
theorem reading_eq_ok {f : Collection → α} {a : α} (h : (cs.reading name f).1 = .ok a) :
    ∃ c, Keyed.get? name cs = some c ∧ f c = a := by
  rw [reading, require] at h
  cases hc : Keyed.get? name cs with
  | none =>
    rw [hc] at h
    cases h
  | some c =>
    rw [hc] at h
    exact ⟨c, rfl, Except.ok.inj h⟩

/-- What is changed is a collection that is there. -/
theorem changing_eq_ok (h : (cs.changing name f).1 = .ok ()) : ∃ c d,
    Keyed.get? name cs = some c ∧ f c = .ok d ∧
      (cs.changing name f).2 = Keyed.insert name d cs := by
  rw [changing, require] at h ⊢
  cases hc : Keyed.get? name cs with
  | none =>
    rw [hc] at h
    cases h
  | some c =>
    rw [hc] at h
    dsimp only [Except.bind] at h ⊢
    cases hd : f c with
    | error e =>
      rw [hd] at h
      cases h
    | ok d => exact ⟨c, d, rfl, hd, rfl⟩

/-- Points that are written have been checked. -/
theorem upsert_eq_ok {c d : Collection} {ps : List Point}
    (h : (checkSizes c ps).map (fun _ => c.upsert ps) = .ok d) :
    checkSizes c ps = .ok () ∧ d = c.upsert ps := by
  cases hsizes : checkSizes c ps with
  | error e =>
    rw [hsizes] at h
    cases h
  | ok _ =>
    rw [hsizes] at h
    exact ⟨rfl, (Except.ok.inj h).symm⟩

end

/-! ## Answers go by what matters -/

section

variable (h : cs.contents = ds.contents)

include h

/-- A collection is there or missing on both sides. -/
theorem require_cases (name : String) :
    (∃ e, cs.require name = .error e ∧ ds.require name = .error e) ∨
      ∃ c d, cs.require name = .ok c ∧ ds.require name = .ok d ∧ c.content = d.content := by
  have hname := congrFun h name
  rw [contents, contents] at hname
  rw [require, require]
  cases hc : Keyed.get? name cs with
  | none =>
    rw [hc, Option.map_none, eq_comm, Option.map_eq_none_iff] at hname
    rw [hname]
    exact .inl ⟨_, rfl, rfl⟩
  | some c =>
    rw [hc, Option.map_some, eq_comm, Option.map_eq_some_iff] at hname
    obtain ⟨d, hd, hsame⟩ := hname
    rw [hd]
    exact .inr ⟨c, d, rfl, rfl, hsame.symm⟩

theorem contains_congr (name : String) : Keyed.contains name cs = Keyed.contains name ds := by
  have hname := congrArg Option.isSome (congrFun h name)
  rwa [contents, contents, Option.isSome_map, Option.isSome_map] at hname

theorem reading_congr {f : Collection → α} (hf : ∀ c d, c.content = d.content → f c = f d)
    (name : String) : (cs.reading name f).1 = (ds.reading name f).1 := by
  rw [reading, reading]
  rcases require_cases h name with ⟨e, hc, hd⟩ | ⟨c, d, hc, hd, hsame⟩
  · rw [hc, hd]
  · rw [hc, hd]
    exact congrArg Except.ok (hf c d hsame)

theorem changing_congr {f : Collection → Except Failure Collection}
    (hf : ∀ c d, c.content = d.content → (f c).map Collection.content = (f d).map Collection.content)
    (name : String) : (cs.changing name f).1 = (ds.changing name f).1 ∧
      (cs.changing name f).2.contents = (ds.changing name f).2.contents := by
  have hsame : ((cs.require name).bind f).map Collection.content =
      ((ds.require name).bind f).map Collection.content := by
    rcases require_cases h name with ⟨e, hc, hd⟩ | ⟨c, d, hc, hd, hsame⟩
    · rw [hc, hd]
    · rw [hc, hd]
      exact hf c d hsame
  cases hc : (cs.require name).bind f with
  | error e =>
    cases hd : (ds.require name).bind f with
    | error e' =>
      rw [hc, hd] at hsame
      rw [changing_of_error hc, changing_of_error hd]
      exact ⟨congrArg Except.error (Except.error.inj hsame), h⟩
    | ok d' =>
      rw [hc, hd] at hsame
      cases hsame
  | ok c' =>
    cases hd : (ds.require name).bind f with
    | error e' =>
      rw [hc, hd] at hsame
      cases hsame
    | ok d' =>
      rw [hc, hd] at hsame
      rw [changing_of_ok hc, changing_of_ok hd]
      refine ⟨rfl, ?_⟩
      rw [contents_insert, contents_insert, h, Except.ok.inj hsame]

/-- Answers and changes go by what matters. -/
theorem answer_congr (call : ClientCall) : (cs.answer call).1 = (ds.answer call).1 ∧
    (cs.answer call).2.contents = (ds.answer call).2.contents := by
  have hpoints : ∀ {c d : Collection}, c.content = d.content → c.shape = d.shape ∧
      c.points = d.points := fun hsame => Prod.mk.inj hsame
  cases call with
  | hasCollection name => exact ⟨congrArg Except.ok (contains_congr h name), h⟩
  | create shape =>
    rw [answer, answer, contains_congr h shape.name]
    split
    · exact ⟨rfl, h⟩
    · refine ⟨rfl, ?_⟩
      rw [contents_insert, contents_insert, h]
  | createIndex name key =>
    exact changing_congr (f := fun c => .ok (c.createIndex key)) h
      (fun c d hsame => congrArg Except.ok hsame) name
  | upsert name points =>
    refine changing_congr h (fun c d hsame => ?_) name
    obtain ⟨hshape, hsame⟩ := hpoints hsame
    have hsizes : checkSizes c points = checkSizes d points := by
      rw [checkSizes, checkSizes, hshape]
    rw [hsizes]
    cases checkSizes d points with
    | error e => rfl
    | ok _ =>
      refine congrArg Except.ok ?_
      rw [Collection.content, Collection.content, Collection.upsert, Collection.upsert, hshape, hsame]
  | retrieve name ids =>
    refine ⟨reading_congr h (fun c d hsame => ?_) name, h⟩
    rw [(hpoints hsame).2]
  | scroll name filter limit start =>
    refine ⟨reading_congr h (fun c d hsame => ?_) name, h⟩
    rw [Collection.scroll, Collection.scroll, (hpoints hsame).2]
  | delete name filter =>
    rw [answer, answer]
    split
    · exact ⟨rfl, h⟩
    · refine changing_congr (f := fun c => .ok (c.delete filter)) h
        (fun c d hsame => congrArg Except.ok ?_) name
      obtain ⟨hshape, hsame⟩ := hpoints hsame
      rw [Collection.content, Collection.content, Collection.delete, Collection.delete, hshape, hsame]
  | search name vector filter limit =>
    refine ⟨reading_congr h (fun c d hsame => ?_) name, h⟩
    obtain ⟨hshape, hsame⟩ := hpoints hsame
    rw [Collection.search, Collection.search, Collection.matching, Collection.matching, hshape, hsame]

end

/-! ## Answering again -/

/-- A change that changes nothing where it has been made is made once. -/
theorem changing_again {f : Collection → Except Failure Collection}
    (hf : ∀ c c', f c = .ok c' → (f c').map Collection.content = .ok c'.content) (name : String)
    (cs : Collections) :
    ((cs.changing name f).2.changing name f).1 = (cs.changing name f).1 ∧
      ((cs.changing name f).2.changing name f).2.contents = (cs.changing name f).2.contents := by
  cases hc : (cs.require name).bind f with
  | error e =>
    rw [changing_of_error hc, changing_of_error hc]
    exact ⟨rfl, rfl⟩
  | ok c' =>
    -- the change has been made before, so it changes nothing of the content
    have hagain : (f c').map Collection.content = .ok c'.content := by
      cases hreq : cs.require name with
      | error e =>
        rw [hreq] at hc
        cases hc
      | ok c =>
        rw [hreq] at hc
        exact hf c c' hc
    rw [changing_of_ok hc]
    cases hf' : f c' with
    | error e =>
      rw [hf'] at hagain
      cases hagain
    | ok c'' =>
      have htwice : (require (Keyed.insert name c' cs) name).bind f = .ok c'' := by
        rw [require_insert]
        exact hf'
      rw [hf'] at hagain
      rw [changing_of_ok htwice]
      refine ⟨rfl, ?_⟩
      rw [contents_insert, contents_insert, Except.ok.inj hagain]
      funext n
      split
      · rfl
      · next hn => exact if_neg hn

/-- The answer to a call and what matters afterwards, if it has just been answered. -/
theorem answered_again {call : ClientCall} (hcall : call.isRepeatable = true) (cs : Collections) :
    ((cs.answer call).2.answer call).1 = (cs.answer call).1 ∧
      ((cs.answer call).2.answer call).2.contents = (cs.answer call).2.contents := by
  cases call with
  | create shape => cases hcall
  | createIndex name key =>
    refine changing_again (fun c c' h => ?_) name cs
    cases h
    rfl
  | upsert name points =>
    refine changing_again (fun c c' h => ?_) name cs
    obtain ⟨hsizes, rfl⟩ := upsert_eq_ok h
    rw [show checkSizes (c.upsert points) points = checkSizes c points from rfl, hsizes]
    exact congrArg (fun d : Collection => Except.ok d.content) (c.upsert_upsert points)
  | delete name filter =>
    cases hempty : filter.isEmpty with
    | true =>
      -- a filter without conditions is refused both times
      have honce : cs.answer (.delete name filter) = (.error .emptyFilter, cs) := by
        rw [answer, hempty, if_pos rfl]
      rw [honce, honce]
      exact ⟨rfl, rfl⟩
    | false =>
      have honce : ∀ cs : Collections, cs.answer (.delete name filter) =
          cs.changing name fun c => .ok (c.delete filter) := by
        intro cs
        rw [answer, hempty]
        exact if_neg Bool.false_ne_true
      rw [honce, honce]
      refine changing_again (fun c c' h => ?_) name cs
      cases h
      exact congrArg (fun d : Collection => Except.ok d.content) (c.delete_delete filter)
  | _ => exact ⟨rfl, rfl⟩

/-- The second answer is the same. -/
theorem answer_again {call : ClientCall} (hcall : call.isRepeatable = true) (cs : Collections) :
    ((cs.answer call).2.answer call).1 = (cs.answer call).1 :=
  (answered_again hcall cs).1

/-- The second time nothing changes, whatever the call. -/
theorem contents_again (call : ClientCall) (cs : Collections) :
    ((cs.answer call).2.answer call).2.contents = (cs.answer call).2.contents := by
  cases hcall : call.isRepeatable with
  | true => exact (answered_again hcall cs).2
  | false =>
    cases call with
    | create shape =>
      -- the collection is there by then
      have hthere : Keyed.contains shape.name (cs.answer (.create shape)).2 = true := by
        rw [answer]
        split
        · next h => exact h
        · rw [Keyed.contains, Keyed.get?_insert, if_pos rfl]
          rfl
      rw [answer, hthere]
      rfl
    | _ => cases hcall

/-- To declare an index changes nothing that matters. -/
theorem contents_createIndex (cs : Collections) (name key : String) :
    (cs.answer (.createIndex name key)).2.contents = cs.contents := by
  rw [answer, changing]
  cases hc : Keyed.get? name cs with
  | none =>
    rw [require, hc]
    rfl
  | some c =>
    rw [require, hc]
    refine (contents_insert name _ cs).trans (funext fun n => ?_)
    split
    · next hn =>
      subst hn
      rw [contents, hc]
      rfl
    · rfl

end Collections

end CodeAtlas
