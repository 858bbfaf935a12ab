import CodeAtlas.Proofs.Collection
import CodeAtlas.Proofs.Payload
import CodeAtlas.Proofs.Repeating
/-!
# What belongs to a project

Of a collection the points that tell the id of a project belong to it, and so do those under ids that
are set aside for it. A call that keeps to what belongs to a project gets an answer that rests on
nothing else, and changes nothing else: so the projects of one collection have nothing to do with each
other as long as their ids are different.

Results:
1. `agreeOn_answer`: answers and changes go by what belongs to the project.
2. `agreeOn_answer_other`: what belongs to another project stays as it is.
-/

namespace CodeAtlas

/-- A project and the ids of points that are set aside for it. -/
structure Holding where
  project : Uuid
  owns : String → Prop

namespace Holding

variable (m n : Holding)

/-- The point tells the id of the project. -/
def Tags (p : Point) : Prop := p.payload.projectId? = some m.project.render

/-- The point belongs to the project. -/
def Has (p : Point) : Prop := m.Tags p ∨ m.owns p.id

/-- All payloads that a filter accepts tell the id of the project. -/
def Confines (filter : Filter) : Prop :=
  ∀ payload, filter.accepts payload = true → payload.projectId? = some m.project.render

/-- The call keeps to what belongs to the project. -/
def Permits (collection : String) : ClientCall → Prop
  | .hasCollection name | .createIndex name _ => name = collection
  | .upsert name points => name = collection ∧ ∀ p ∈ points, m.Tags p ∧ m.owns p.id
  | .retrieve name ids => name = collection ∧ ∀ id ∈ ids, m.owns id
  | .scroll name filter _ _ | .delete name filter => name = collection ∧ m.Confines filter
  | .create _ | .search _ _ _ _ => False

/-- Different projects have different ids set aside for them. -/
structure Apart : Prop where
  project : m.project ≠ n.project
  ids : ∀ id, m.owns id → ¬ n.owns id

variable {m n}

theorem Apart.symm (h : m.Apart n) : n.Apart m := ⟨Ne.symm h.project, fun id hn hm => h.ids id hm hn⟩

theorem Apart.not_tags (h : m.Apart n) {p : Point} (hm : m.Tags p) : ¬ n.Tags p := fun hn =>
  h.project (Uuid.render_inj.mp (Option.some.inj (hm.symm.trans hn)))

end Holding

namespace Collection

variable (m n : Holding)

/-- Two collections have the same points that belong to a project. -/
structure AgreeOn (c d : Collection) : Prop where
  shape : c.shape = d.shape
  left : c.Filed
  right : d.Filed
  same : ∀ p, m.Has p → ((p.id, p) ∈ c.points ↔ (p.id, p) ∈ d.points)

/-- No point of either project is under an id that is set aside for the other. -/
structure Divides (c : Collection) : Prop where
  filed : c.Filed
  left : ∀ e ∈ c.points, m.Tags e.2 → ¬ n.owns e.1
  right : ∀ e ∈ c.points, n.Tags e.2 → ¬ m.owns e.1

variable {m n} {c d b : Collection}

theorem Divides.symm (h : c.Divides m n) : c.Divides n m := ⟨h.filed, h.right, h.left⟩

theorem Filed.agreeOn (hc : c.Filed) : c.AgreeOn m c := ⟨rfl, hc, hc, fun _ _ => Iff.rfl⟩

namespace AgreeOn

theorem symm (h : c.AgreeOn m d) : d.AgreeOn m c :=
  ⟨h.shape.symm, h.right, h.left, fun p hp => (h.same p hp).symm⟩

theorem trans (h : c.AgreeOn m d) (h' : d.AgreeOn m b) : c.AgreeOn m b :=
  ⟨h.shape.trans h'.shape, h.left, h'.right, fun p hp => (h.same p hp).trans (h'.same p hp)⟩

/-! ## Reading -/

/-- The same point is found under an id that is set aside for the project. -/
theorem get?_eq (h : c.AgreeOn m d) {id : String} (hid : m.owns id) :
    Keyed.get? id c.points = Keyed.get? id d.points := by
  refine Option.ext fun p => ?_
  rw [h.left.sorted.get?_eq_some_iff, h.right.sorted.get?_eq_some_iff]
  by_cases hp : p.id = id
  · subst hp
    exact h.same p (.inr hid)
  · exact iff_of_false (fun he => hp (h.left.own _ he).symm) fun he => hp (h.right.own _ he).symm

/-- What a filter that is confined to the project accepts is the same list. -/
theorem filter_eq (h : c.AgreeOn m d) {filter : Filter} (hfilter : m.Confines filter)
    (range : String × Point → Bool) :
    (c.points.filter range).filter (fun e => filter.accepts e.2.payload) =
      (d.points.filter range).filter (fun e => filter.accepts e.2.payload) := by
  have hsorted : ∀ {b : Collection}, b.Filed →
      Keyed.Sorted ((b.points.filter range).filter fun e => filter.accepts e.2.payload) :=
    fun hb => (hb.sorted.filter _).filter _
  have hmem : ∀ e : String × Point, filter.accepts e.2.payload = true →
      (e ∈ c.points ↔ e ∈ d.points) := by
    rintro ⟨id, p⟩ hp
    by_cases hid : id = p.id
    · subst hid
      exact h.same p (.inl (hfilter _ hp))
    · exact iff_of_false (fun he => hid (h.left.own _ he)) fun he => hid (h.right.own _ he)
  refine (hsorted h.left).eq_of_mem_iff (hsorted h.right) fun e => ?_
  simp only [List.mem_filter]
  exact and_congr_left fun hf => and_congr_left fun _ => hmem e hf

theorem scroll_eq (h : c.AgreeOn m d) {filter : Filter} (hfilter : m.Confines filter) (limit : Nat)
    (start : Option Json) : c.scroll filter limit start = d.scroll filter limit start := by
  have hfound : ((c.points.filter fun e => !(e.1 < startId start)).map (·.2)).filter
        (filter.accepts ·.payload) =
      ((d.points.filter fun e => !(e.1 < startId start)).map (·.2)).filter
        (filter.accepts ·.payload) := by
    rw [List.filter_map, List.filter_map]
    exact congrArg (List.map (·.2)) (h.filter_eq hfilter _)
  rw [scroll, scroll]
  exact congrArg (fun found : List Point => (⟨found.take (max limit 1),
    ((found.drop (max limit 1)).head?).map fun p => .str p.id⟩ : Page)) hfound

/-! ## Writing and deleting -/

theorem createIndexRight (h : c.AgreeOn m d) (key : String) : c.AgreeOn m (d.createIndex key) :=
  ⟨h.shape, h.left, ⟨h.right.sorted, h.right.own⟩, h.same⟩

theorem createIndex (h : c.AgreeOn m d) (key : String) :
    (c.createIndex key).AgreeOn m (d.createIndex key) :=
  ((h.createIndexRight key).symm.createIndexRight key).symm

theorem upsert (h : c.AgreeOn m d) (ps : List Point) : (c.upsert ps).AgreeOn m (d.upsert ps) := by
  induction ps generalizing c d with
  | nil => exact ⟨h.shape, h.left.upsert [], h.right.upsert [], h.same⟩
  | cons q ps ih =>
    refine ih (c := c.upsert [q]) (d := d.upsert [q])
      ⟨h.shape, h.left.upsert_one q, h.right.upsert_one q, fun p hp => ?_⟩
    refine (Keyed.mem_insert h.left.sorted).trans (Iff.trans ?_ (Keyed.mem_insert h.right.sorted).symm)
    exact or_congr Iff.rfl (and_congr_left fun _ => h.same p hp)

theorem delete (h : c.AgreeOn m d) (filter : Filter) :
    (c.delete filter).AgreeOn m (d.delete filter) := by
  refine ⟨h.shape, h.left.delete filter, h.right.delete filter, fun p hp => ?_⟩
  refine List.mem_filter.trans (Iff.trans ?_ List.mem_filter.symm)
  exact and_congr_left fun _ => h.same p hp

end AgreeOn

namespace Divides

/-- Points of one project leave those of the other as they are. -/
theorem upsert (hc : c.Divides m n) (apart : m.Apart n) {ps : List Point}
    (hps : ∀ p ∈ ps, n.Tags p ∧ n.owns p.id) :
    (c.upsert ps).Divides m n ∧ c.AgreeOn m (c.upsert ps) := by
  induction ps generalizing c with
  | nil =>
    have hnil : c.upsert [] = c := rfl
    exact ⟨hnil ▸ hc, hnil ▸ hc.filed.agreeOn⟩
  | cons q ps ih =>
    obtain ⟨htag, hown⟩ := hps q List.mem_cons_self
    have hmem : ∀ e, e ∈ (c.upsert [q]).points ↔ e = (q.id, q) ∨ (e ∈ c.points ∧ e.1 ≠ q.id) :=
      fun e => Keyed.mem_insert hc.filed.sorted
    have hone : (c.upsert [q]).Divides m n := by
      refine ⟨hc.filed.upsert_one q, fun e he htags => ?_, fun e he htags => ?_⟩
      · rcases (hmem e).mp he with rfl | ⟨he, _⟩
        · exact absurd htag (apart.not_tags htags)
        · exact hc.left e he htags
      · rcases (hmem e).mp he with rfl | ⟨he, _⟩
        · exact fun hm => apart.ids _ hm hown
        · exact hc.right e he htags
    have hagree : c.AgreeOn m (c.upsert [q]) := by
      refine ⟨rfl, hc.filed, hc.filed.upsert_one q, fun p hp => Iff.symm ((hmem _).trans ?_)⟩
      -- the new point does not belong to the project, nor did the one whose place it takes
      have hnew : (p.id, p) ≠ (q.id, q) := by
        intro he
        obtain rfl : p = q := congrArg Prod.snd he
        exact hp.elim (fun h => apart.not_tags h htag) fun h => apart.ids _ h hown
      refine ⟨fun h => (h.resolve_left hnew).1, fun he => .inr ⟨he, fun hid => ?_⟩⟩
      have hown' : n.owns p.id := by
        rw [show p.id = q.id from hid]
        exact hown
      exact hp.elim (fun h => hc.left _ he h hown') fun h => apart.ids _ h hown'
    obtain ⟨hdiv, hrest⟩ := ih hone fun p hp => hps p (List.mem_cons_of_mem q hp)
    exact ⟨hdiv, hagree.trans hrest⟩

/-- To delete points of one project leaves those of the other as they are. -/
theorem delete (hc : c.Divides m n) (apart : m.Apart n) {filter : Filter}
    (hfilter : n.Confines filter) :
    (c.delete filter).Divides m n ∧ c.AgreeOn m (c.delete filter) := by
  have hmem : ∀ {e}, e ∈ (c.delete filter).points → e ∈ c.points := List.mem_of_mem_filter
  refine ⟨⟨hc.filed.delete filter, fun e he => hc.left e (hmem he),
    fun e he => hc.right e (hmem he)⟩, rfl, hc.filed, hc.filed.delete filter, fun p hp => ?_⟩
  refine ⟨fun he => List.mem_filter.mpr ⟨he, ?_⟩, hmem⟩
  rw [Bool.not_eq_true', Bool.eq_false_iff]
  intro haccepts
  have htags : n.Tags p := hfilter _ haccepts
  exact hp.elim (fun h => apart.not_tags h htags) (hc.right _ he htags)

end Divides

end Collection

namespace Collections

variable {m n : Holding} {name : String} {cs ds bs : Collections}

/-- A collection is there on both sides, with the same points that belong to a project. -/
def AgreeOn (m : Holding) (name : String) (cs ds : Collections) : Prop :=
  ∃ c d, Keyed.get? name cs = some c ∧ Keyed.get? name ds = some d ∧ c.AgreeOn m d

/-- A collection is there, and no point of either project is under an id of the other. -/
def Divides (m n : Holding) (name : String) (cs : Collections) : Prop :=
  ∃ c, Keyed.get? name cs = some c ∧ c.Divides m n

theorem Divides.symm (h : cs.Divides m n name) : cs.Divides n m name := by
  obtain ⟨c, hc, hdiv⟩ := h
  exact ⟨c, hc, hdiv.symm⟩

theorem AgreeOn.symm (h : cs.AgreeOn m name ds) : ds.AgreeOn m name cs := by
  obtain ⟨c, d, hc, hd, hsame⟩ := h
  exact ⟨d, c, hd, hc, hsame.symm⟩

theorem AgreeOn.trans (h : cs.AgreeOn m name ds) (h' : ds.AgreeOn m name bs) :
    cs.AgreeOn m name bs := by
  obtain ⟨c, d, hc, hd, hsame⟩ := h
  obtain ⟨d', b, hd', hb, hsame'⟩ := h'
  obtain rfl := Option.some.inj (hd.symm.trans hd')
  exact ⟨c, b, hc, hb, hsame.trans hsame'⟩

theorem require_of_get? {c : Collection} (h : Keyed.get? name cs = some c) :
    cs.require name = .ok c := by
  rw [require, h]

theorem contains_of_get? {c : Collection} (h : Keyed.get? name cs = some c) :
    Keyed.contains name cs = true := by
  rw [Keyed.contains, h]
  rfl

/-- A change of a collection that is there. -/
theorem changing_cases {c : Collection} (h : Keyed.get? name cs = some c)
    (f : Collection → Except Failure Collection) :
    (∃ e, f c = .error e ∧ cs.changing name f = (.error e, cs)) ∨
      ∃ c', f c = .ok c' ∧ cs.changing name f = (.ok (), Keyed.insert name c' cs) := by
  cases hf : f c with
  | error e => exact .inl ⟨e, rfl, changing_of_error (by rw [require_of_get? h]; exact hf)⟩
  | ok c' => exact .inr ⟨c', rfl, changing_of_ok (by rw [require_of_get? h]; exact hf)⟩

theorem get?_insert_self (c : Collection) (cs : Collections) :
    Keyed.get? name (Keyed.insert name c cs) = some c := by
  rw [Keyed.get?_insert, if_pos rfl]

/-- Two changes go wrong together, and they leave the same points of the project if neither does. -/
theorem AgreeOn.changing (h : cs.AgreeOn m name ds)
    {f g : Collection → Except Failure Collection} (hboth : ∀ c d, c.AgreeOn m d →
      (∀ e, f c = .error e ↔ g d = .error e) ∧
        ∀ c' d', f c = .ok c' → g d = .ok d' → c'.AgreeOn m d') :
    (cs.changing name f).1 = (ds.changing name g).1 ∧
      (cs.changing name f).2.AgreeOn m name (ds.changing name g).2 := by
  have hsame := h
  obtain ⟨c, d, hc, hd, hcd⟩ := h
  obtain ⟨herr, hok⟩ := hboth c d hcd
  rcases changing_cases hc f with ⟨e, hf, hleft⟩ | ⟨c', hf, hleft⟩
  · rw [hleft, changing_of_error (by rw [require_of_get? hd]; exact (herr e).mp hf)]
    exact ⟨rfl, hsame⟩
  · rcases changing_cases hd g with ⟨e, hg, _⟩ | ⟨d', hg, hright⟩
    · cases ((herr e).mpr hg).symm.trans hf
    · rw [hleft, hright]
      exact ⟨rfl, c', d', get?_insert_self c' cs, get?_insert_self d' ds, hok c' d' hf hg⟩

/-- Changes that do not go wrong leave the same points of the project. -/
theorem AgreeOn.changing_total (h : cs.AgreeOn m name ds) {f : Collection → Collection}
    (hboth : ∀ c d, c.AgreeOn m d → (f c).AgreeOn m (f d)) :
    (cs.changing name fun c => .ok (f c)).1 = (ds.changing name fun c => .ok (f c)).1 ∧
      (cs.changing name fun c => .ok (f c)).2.AgreeOn m name
        (ds.changing name fun c => .ok (f c)).2 := by
  refine h.changing fun c d hcd => ⟨fun e => ?_, fun c' d' hf hg => ?_⟩
  · exact iff_of_false (by rintro ⟨⟩) (by rintro ⟨⟩)
  · cases hf
    cases hg
    exact hboth c d hcd

/-- Answers and changes go by what belongs to the project, if the call keeps to it. -/
theorem agreeOn_answer (h : cs.AgreeOn m name ds) {call : ClientCall} (hcall : m.Permits name call) :
    (cs.answer call).1 = (ds.answer call).1 ∧
      (cs.answer call).2.AgreeOn m name (ds.answer call).2 := by
  have hsame := h
  obtain ⟨c, d, hc, hd, hcd⟩ := h
  have hreq := require_of_get? hc
  have hreq' := require_of_get? hd
  cases call with
  | hasCollection name' =>
    cases hcall
    refine ⟨?_, hsame⟩
    rw [answer, answer, contains_of_get? hc, contains_of_get? hd]
  | create shape => cases hcall
  | search => cases hcall
  | createIndex name' key =>
    cases hcall
    exact hsame.changing_total fun c d hcd => hcd.createIndex key
  | upsert name' points =>
    obtain ⟨rfl, _⟩ := hcall
    refine hsame.changing fun c d hcd => ⟨fun e => ?_, fun c' d' hf hg => ?_⟩
    · -- whether the sizes are right is told by the shape of the collection
      have hsizes : checkSizes c points = checkSizes d points := by
        rw [checkSizes, checkSizes, hcd.shape]
      rw [hsizes]
      cases checkSizes d points with
      | error e' => exact Iff.rfl
      | ok _ => exact iff_of_false (by rintro ⟨⟩) (by rintro ⟨⟩)
    · obtain ⟨_, rfl⟩ := upsert_eq_ok hf
      obtain ⟨_, rfl⟩ := upsert_eq_ok hg
      exact hcd.upsert points
  | retrieve name' ids =>
    obtain ⟨rfl, hids⟩ := hcall
    refine ⟨?_, hsame⟩
    rw [answer, answer, reading, reading, hreq, hreq']
    exact congrArg Except.ok (List.filterMap_congr fun id hid => hcd.get?_eq (hids id hid))
  | scroll name' filter limit start =>
    obtain ⟨rfl, hfilter⟩ := hcall
    refine ⟨?_, hsame⟩
    rw [answer, answer, reading, reading, hreq, hreq']
    exact congrArg Except.ok (hcd.scroll_eq hfilter limit start)
  | delete name' filter =>
    obtain ⟨rfl, _⟩ := hcall
    rw [answer, answer]
    split
    · exact ⟨rfl, hsame⟩
    · exact hsame.changing_total fun c d hcd => hcd.delete filter

theorem Divides.agreeOn (h : cs.Divides m n name) : cs.AgreeOn m name cs := by
  obtain ⟨c, hc, hdiv⟩ := h
  exact ⟨c, c, hc, hc, hdiv.filed.agreeOn⟩

/-- A change that keeps the points of the projects apart, and those of one of them as they are. -/
theorem Divides.changing (h : cs.Divides m n name) {f : Collection → Except Failure Collection}
    (hok : ∀ c c', c.Divides m n → f c = .ok c' → c'.Divides m n ∧ c.AgreeOn m c') :
    (cs.changing name f).2.Divides m n name ∧ cs.AgreeOn m name (cs.changing name f).2 := by
  have hsame := h
  obtain ⟨c, hc, hdiv⟩ := h
  rcases changing_cases hc f with ⟨e, _, hchange⟩ | ⟨c', hf, hchange⟩
  · rw [hchange]
    exact ⟨hsame, hsame.agreeOn⟩
  · rw [hchange]
    obtain ⟨hdiv', hagree⟩ := hok c c' hdiv hf
    exact ⟨⟨c', get?_insert_self c' cs, hdiv'⟩, c, c', hc, get?_insert_self c' cs, hagree⟩

/-- A call that keeps to what belongs to one project leaves what belongs to the other as it is. -/
theorem agreeOn_answer_other (h : cs.Divides m n name) (apart : m.Apart n) {call : ClientCall}
    (hcall : n.Permits name call) :
    (cs.answer call).2.Divides m n name ∧ cs.AgreeOn m name (cs.answer call).2 := by
  cases call with
  | create shape => cases hcall
  | search => cases hcall
  | createIndex name' key =>
    cases hcall
    refine h.changing fun c c' hdiv hf => ?_
    cases hf
    exact ⟨⟨⟨hdiv.filed.sorted, hdiv.filed.own⟩, hdiv.left, hdiv.right⟩,
      hdiv.filed.agreeOn.createIndexRight key⟩
  | upsert name' points =>
    obtain ⟨rfl, hpoints⟩ := hcall
    refine h.changing fun c c' hdiv hf => ?_
    obtain ⟨_, rfl⟩ := upsert_eq_ok hf
    exact hdiv.upsert apart hpoints
  | delete name' filter =>
    obtain ⟨rfl, hfilter⟩ := hcall
    rw [answer]
    split
    · exact ⟨h, h.agreeOn⟩
    · refine h.changing fun c c' hdiv hf => ?_
      cases hf
      exact hdiv.delete apart hfilter
  | hasCollection | retrieve | scroll => exact ⟨h, h.agreeOn⟩

end Collections

end CodeAtlas
