import CodeAtlas.Collection.Memory
import CodeAtlas.Proofs.Payload
import Mathlib.Data.List.Nodup
/-!
# What a collection of points stands for

An index is what the points of a collection mean: projects, and files of which some first symbols
have been written. Only the first symbols can be there, because points are written in order and a
run may end after any batch.

Results:
1. `points_cut`, `flatMap_points_firstPoints`: a part of the points of files that was written first
   belongs to files again.
2. `contents_drop`, `contents_purge`, `contents_put`, `contents_add`: what deletions and writings of
   points mean for an index.
-/

namespace CodeAtlas

/-- Items of parts, where each part is chosen as a whole or not at all. -/
theorem filter_flatMap_of_parts {α β : Type} {part : α → List β} {keep : β → Bool} {g : α → Bool}
    {as : List α} (h : ∀ a ∈ as, ∀ b ∈ part a, keep b = g a) :
    (as.flatMap part).filter keep = (as.filter g).flatMap part := by
  induction as with
  | nil => rfl
  | cons a rest ih =>
    have hrest := ih fun a' ha' => h a' (List.mem_cons_of_mem a ha')
    have hfirst := h a List.mem_cons_self
    rw [List.flatMap_cons, List.filter_append, hrest]
    cases ha : g a with
    | true =>
      have : (part a).filter keep = part a :=
        List.filter_eq_self.mpr fun b hb => (hfirst b hb).trans ha
      rw [this, List.filter_cons_of_pos ha, List.flatMap_cons]
    | false =>
      have : (part a).filter keep = [] :=
        List.filter_eq_nil_iff.mpr fun b hb => by simp [hfirst b hb, ha]
      rw [this, List.filter_cons_of_neg (by simp [ha])]
      rfl

/-- A file in an index: the id of its point, its source with the ids for its symbols, and how many
of the symbols have been written, the first ones. -/
structure IndexedFile where
  project : Uuid
  id : Uuid
  source : FiledSource
  written : Nat
  written_le : written ≤ source.file.symbolCount

namespace IndexedFile

/-- A file all of whose symbols have been written. -/
def whole (project id : Uuid) (source : FiledSource) : IndexedFile :=
  ⟨project, id, source, source.file.symbolCount, Nat.le_refl _⟩

def file (e : IndexedFile) : SourceFile := e.source.file

def path (e : IndexedFile) : String := e.file.path

/-- The file with no more than so many of its symbols written. -/
def cut (e : IndexedFile) (n : Nat) : IndexedFile :=
  { e with written := min e.written n, written_le := Nat.le_trans (Nat.min_le_left _ _) e.written_le }

/-- All symbols have been written. -/
def IsWhole (e : IndexedFile) : Prop := e.written = e.file.symbolCount

/-- The points of a file: their ids and payloads. -/
def points (e : IndexedFile) : List (String × Payload) :=
  (e.id.render, .ofFile e.project e.file) ::
    ((e.source.ids.map Uuid.render).zip (Payload.symbols e.project e.file)).take e.written

theorem length_ids_eq (e : IndexedFile) :
    (e.source.ids.map Uuid.render).length = (Payload.symbols e.project e.file).length := by
  rw [List.length_map, e.source.length_ids, Payload.length_symbols, file]

@[simp] theorem length_points (e : IndexedFile) : e.points.length = e.written + 1 := by
  have hids := e.length_ids_eq
  have hsymbols : (Payload.symbols e.project e.file).length = e.source.file.symbolCount :=
    Payload.length_symbols e.project e.file
  have hle := e.written_le
  simp only [points, List.length_cons, List.length_take, List.length_zip]
  omega

theorem points_cut (e : IndexedFile) (n : Nat) : (e.cut n).points = e.points.take (n + 1) := by
  simp only [points, cut, file, List.take_succ_cons, List.take_take]
  rw [Nat.min_comm]

theorem cut_of_le {e : IndexedFile} {n : Nat} (h : e.written ≤ n) : e.cut n = e := by
  obtain ⟨project, id, source, written, le⟩ := e
  simp only [cut, IndexedFile.mk.injEq, true_and]
  exact Nat.min_eq_left h

/-- The payloads of the points of a file. -/
theorem payloads_points (e : IndexedFile) : e.points.map (·.2) =
    .ofFile e.project e.file :: (Payload.symbols e.project e.file).take e.written := by
  rw [points, List.map_cons, List.map_take, List.map_snd_zip (Nat.le_of_eq e.length_ids_eq.symm)]

theorem mem_points {e : IndexedFile} {c : String × Payload} (h : c ∈ e.points) :
    c = (e.id.render, .ofFile e.project e.file) ∨ c.2 ∈ Payload.symbols e.project e.file := by
  rcases List.mem_cons.mp h with rfl | h
  · exact .inl rfl
  · exact .inr (List.of_mem_zip (List.mem_of_mem_take h)).2

/-- All points of a file tell its project and its path. -/
theorem tells_of_mem_points {e : IndexedFile} {c : String × Payload} (h : c ∈ e.points) :
    c.2.projectId? = some e.project.render ∧ c.2.filePath? = some e.path := by
  rcases mem_points h with rfl | h
  · exact ⟨Payload.projectId?_ofFile _ _, Payload.filePath?_ofFile _ _⟩
  · exact ⟨(Payload.mem_symbols h).projectId, (Payload.mem_symbols h).filePath⟩

theorem isWhole_whole (project id : Uuid) (f : FiledSource) : (whole project id f).IsWhole := rfl

/-- The ids of the points of a file that is written as a whole. -/
theorem ids_points_whole (project id : Uuid) (f : FiledSource) :
    (whole project id f).points.map (·.1) = id.render :: f.ids.map Uuid.render := by
  have hlength := (whole project id f).length_ids_eq
  rw [points, List.map_cons, List.map_take, List.map_fst_zip (Nat.le_of_eq hlength)]
  refine congrArg _ (List.take_of_length_le (Nat.le_of_eq ?_))
  exact hlength.trans (Payload.length_symbols project f.file)

/-- The points of a file that is written as a whole are its drafts. -/
theorem points_whole (project id : Uuid) (f : FiledSource) :
    (whole project id f).points =
      (SymbolStore.drafts project id f).map fun d => (d.id, d.payload) := by
  have all : ((f.ids.map Uuid.render).zip (Payload.symbols project f.file)).take
      f.file.symbolCount = (f.ids.map Uuid.render).zip (Payload.symbols project f.file) := by
    refine List.take_of_length_le ?_
    rw [List.length_zip, Payload.length_symbols]
    exact Nat.min_le_right _ _
  have texts : ∀ (draft : Uuid → Payload × String → SymbolStore.Draft),
      (∀ id symbol, (draft id symbol).id = id.render ∧ (draft id symbol).payload = symbol.1) →
      ∀ (ids : List Uuid) (symbols : List (Payload × String)),
        (List.zipWith draft ids symbols).map (fun d => (d.id, d.payload)) =
          (ids.map Uuid.render).zip (symbols.map (·.1)) := by
    intro draft hdraft ids
    induction ids with
    | nil => intro symbols; rfl
    | cons id ids ih =>
      intro symbols
      cases symbols with
      | nil => rfl
      | cons symbol symbols => simp [ih symbols, hdraft]
  rw [points, SymbolStore.drafts, List.map_cons, texts]
  · simp only [List.map_append, List.map_map, Function.comp_def]
    exact congrArg _ all
  · intro id symbol
    exact ⟨rfl, rfl⟩

end IndexedFile

/-- Projects and files. -/
structure Index where
  projects : List Project := []
  files : List IndexedFile := []

/-- The first points of files, so many of them, as files. -/
def firstPoints : Nat → List IndexedFile → List IndexedFile
  | 0, _ => []
  | _ + 1, [] => []
  | n + 1, e :: rest => e.cut n :: firstPoints (n + 1 - e.points.length) rest

section

variable {n : Nat} {es : List IndexedFile}

theorem flatMap_points_firstPoints (n : Nat) (es : List IndexedFile) :
    (firstPoints n es).flatMap IndexedFile.points = (es.flatMap IndexedFile.points).take n := by
  induction es generalizing n with
  | nil => cases n <;> simp [firstPoints]
  | cons e rest ih =>
    cases n with
    | zero => simp [firstPoints]
    | succ n =>
      rw [firstPoints, List.flatMap_cons, List.flatMap_cons, ih, IndexedFile.points_cut,
        List.take_append]

theorem firstPoints_of_length_le (h : (es.flatMap IndexedFile.points).length ≤ n) :
    firstPoints n es = es := by
  induction es generalizing n with
  | nil => cases n <;> rfl
  | cons e rest ih =>
    rw [List.flatMap_cons, List.length_append, IndexedFile.length_points] at h
    obtain ⟨n, rfl⟩ : ∃ m, n = m + 1 := ⟨n - 1, by omega⟩
    rw [firstPoints, IndexedFile.cut_of_le (by omega), ih (by rw [IndexedFile.length_points]; omega)]

/-- What does not depend on how many symbols have been written is as it was. -/
theorem firstPoints_sublist {α : Type} {f : IndexedFile → α} (hf : ∀ e n, f (e.cut n) = f e)
    (n : Nat) (es : List IndexedFile) : ((firstPoints n es).map f).Sublist (es.map f) := by
  induction es generalizing n with
  | nil => cases n <;> exact .slnil
  | cons e rest ih =>
    cases n with
    | zero => exact List.nil_sublist _
    | succ n =>
      rw [firstPoints, List.map_cons, List.map_cons, hf]
      exact (ih _).cons_cons _

/-- What was written first belongs to files that were to be written. -/
theorem mem_firstPoints {e : IndexedFile} (he : e ∈ firstPoints n es) :
    ∃ e' ∈ es, e'.project = e.project ∧ e'.file = e.file := by
  have hmem : (e.project, e.file) ∈ es.map fun e => (e.project, e.file) :=
    (firstPoints_sublist (fun _ _ => rfl) n es).subset (List.mem_map_of_mem he)
  obtain ⟨e', he', heq⟩ := List.mem_map.mp hmem
  exact ⟨e', he', congrArg (·.1) heq, congrArg (·.2) heq⟩

end

namespace Index

/-- The points that an index stands for: their ids and payloads. -/
def contents (ix : Index) : List (String × Payload) :=
  ix.projects.map (fun p => (p.id.render, .ofProject p)) ++ ix.files.flatMap IndexedFile.points

/-- The ids of the points. -/
def ids (ix : Index) : List String := ix.contents.map (·.1)

/-! ## Changes -/

/-- Puts a project in the place of the one with its id. -/
def put (ix : Index) (p : Project) : Index :=
  { ix with projects := p :: ix.projects.filter (·.id != p.id) }

/-- Drops a project with its files. -/
def drop (ix : Index) (id : Uuid) : Index where
  projects := ix.projects.filter (·.id != id)
  files := ix.files.filter (·.project != id)

/-- Drops the files of a project at some paths. -/
def purge (ix : Index) (id : Uuid) (paths : List String) : Index :=
  { ix with files := ix.files.filter fun e => !(e.project == id && paths.contains e.path) }

def add (ix : Index) (es : List IndexedFile) : Index := { ix with files := ix.files ++ es }

/-- A project and its files alone. -/
def tagged (ix : Index) (id : Uuid) : Index where
  projects := ix.projects.filter (·.id == id)
  files := ix.files.filter (·.project == id)

@[simp] theorem add_nil (ix : Index) : ix.add [] = ix := by simp [add]

@[simp] theorem purge_nil (ix : Index) (id : Uuid) : ix.purge id [] = ix :=
  congrArg (Index.mk ix.projects) (List.filter_eq_self.mpr fun e _ => by simp)

/-- Points that are chosen by project and by file. -/
theorem contents_filter {ix : Index} {keep : String × Payload → Bool} {f : Project → Bool}
    {g : IndexedFile → Bool} (hf : ∀ p ∈ ix.projects, keep (p.id.render, .ofProject p) = f p)
    (hg : ∀ e ∈ ix.files, ∀ c ∈ e.points, keep c = g e) :
    ix.contents.filter keep = contents ⟨ix.projects.filter f, ix.files.filter g⟩ := by
  have projects : (ix.projects.map fun p => (p.id.render, Payload.ofProject p)).filter keep =
      (ix.projects.filter f).map fun p => (p.id.render, Payload.ofProject p) := by
    rw [List.filter_map]
    refine congrArg _ (List.filter_congr fun p hp => ?_)
    exact hf p hp
  rw [contents, List.filter_append, projects, filter_flatMap_of_parts hg]
  rfl

/-- The points of projects. -/
theorem contents_filter_projects (ix : Index) :
    (ix.contents.filter fun c => Filter.accepts ⟨[.text "type" "project"]⟩ c.2) =
      ix.projects.map fun p => (p.id.render, .ofProject p) := by
  rw [contents_filter (f := fun _ => true) (g := fun _ => false), List.filter_true,
    List.filter_false, contents]
  · exact List.append_nil _
  · exact fun p _ => Payload.accepts_projects.mpr (Payload.isProject_ofProject p)
  · intro e _ c hc
    rw [← Bool.not_eq_true, Payload.accepts_projects]
    rcases IndexedFile.mem_points hc with rfl | hc
    · exact (Payload.isFile_ofFile e.project e.file).not_isProject
    · exact (Payload.mem_symbols hc).isSymbol.not_isProject

/-- The points of the files of a project, without those of symbols. -/
theorem contents_filter_files (ix : Index) (id : Uuid) :
    (ix.contents.filter fun c =>
      Filter.accepts ⟨[.text "type" "file", .text "project_id" id.render]⟩ c.2) =
        (ix.tagged id).files.map fun e => (e.id.render, .ofFile e.project e.file) := by
  have projects : ((ix.projects.map fun p => (p.id.render, Payload.ofProject p)).filter fun c =>
      Filter.accepts ⟨[.text "type" "file", .text "project_id" id.render]⟩ c.2) = [] := by
    refine List.filter_eq_nil_iff.mpr fun c hc => ?_
    obtain ⟨p, _, rfl⟩ := List.mem_map.mp hc
    rw [Payload.accepts_files]
    exact fun h => h.1.not_isProject (Payload.isProject_ofProject p)
  have files : ∀ es : List IndexedFile, (es.flatMap IndexedFile.points).filter (fun c =>
      Filter.accepts ⟨[.text "type" "file", .text "project_id" id.render]⟩ c.2) =
        (es.filter (·.project == id)).map fun e => (e.id.render, .ofFile e.project e.file) := by
    intro es
    induction es with
    | nil => rfl
    | cons e rest ih =>
      -- of the points of a file only the first is one of a file
      have first : e.points.filter (fun c =>
          Filter.accepts ⟨[.text "type" "file", .text "project_id" id.render]⟩ c.2) =
            if e.project == id then [(e.id.render, .ofFile e.project e.file)] else [] := by
        have symbols : (((e.source.ids.map Uuid.render).zip
            (Payload.symbols e.project e.file)).take e.written).filter (fun c =>
              Filter.accepts ⟨[.text "type" "file", .text "project_id" id.render]⟩ c.2) = [] := by
          refine List.filter_eq_nil_iff.mpr fun c hc => ?_
          rw [Payload.accepts_files]
          have hsymbol := (List.of_mem_zip (List.mem_of_mem_take hc)).2
          exact fun h => (Payload.mem_symbols hsymbol).isSymbol.not_isFile h.1
        rw [IndexedFile.points, List.filter_cons, symbols]
        refine if_congr ?_ rfl rfl
        rw [Payload.accepts_files, Payload.projectId?_ofFile, Option.some_inj, Uuid.render_inj,
          beq_iff_eq]
        exact and_iff_right (Payload.isFile_ofFile _ _)
      rw [List.flatMap_cons, List.filter_append, ih, first, List.filter_cons]
      split
      · rfl
      · rfl
  rw [contents, List.filter_append, projects, files, List.nil_append, tagged]

/-- The points of other projects are left. -/
theorem contents_drop (ix : Index) (id : Uuid) :
    (ix.drop id).contents =
      ix.contents.filter fun c => !(SymbolStore.projectFilter id).accepts c.2 := by
  refine (contents_filter (fun p _ => ?_) fun e _ c hc => ?_).symm
  · rw [Payload.accepts_projectFilter_eq (Payload.projectId?_ofProject p)]
    rfl
  · rw [Payload.accepts_projectFilter_eq (IndexedFile.tells_of_mem_points hc).1]
    rfl

/-- The points of a project. -/
theorem contents_tagged (ix : Index) (id : Uuid) :
    (ix.tagged id).contents =
      ix.contents.filter fun c => (SymbolStore.projectFilter id).accepts c.2 := by
  refine (contents_filter (fun p _ => ?_) fun e _ c hc => ?_).symm
  · exact Payload.accepts_projectFilter_eq (Payload.projectId?_ofProject p)
  · exact Payload.accepts_projectFilter_eq (IndexedFile.tells_of_mem_points hc).1

/-- The points of a project at some paths are gone. -/
theorem contents_purge (ix : Index) (id : Uuid) (paths : List String) :
    (ix.purge id paths).contents = ix.contents.filter fun c => !Filter.accepts
      ⟨[.text "project_id" id.render, .oneOfTexts "file_path" paths]⟩ c.2 := by
  rw [contents_filter (f := fun _ => true)
    (g := fun e => !(e.project == id && paths.contains e.path)), List.filter_true]
  · rfl
  · intro p _
    rw [Bool.not_eq_true', ← Bool.not_eq_true, Payload.accepts_paths, Payload.filePath?_ofProject]
    rintro ⟨_, _, _, h⟩
    cases h
  · intro e _ c hc
    obtain ⟨hproject, hpath⟩ := IndexedFile.tells_of_mem_points hc
    rw [Bool.not_inj_iff, Bool.eq_iff_iff, Payload.accepts_paths, hproject, hpath]
    simp [Uuid.render_inj]

/-- A project takes the place of the point with its id, if that is no point of a file. -/
theorem contents_put {ix : Index} {p : Project}
    (h : p.id.render ∉ (ix.files.flatMap IndexedFile.points).map (·.1)) :
    (ix.put p).contents =
      (p.id.render, .ofProject p) :: ix.contents.filter fun c => c.1 != p.id.render := by
  rw [contents_filter (f := fun q => q.id != p.id) (g := fun _ => true), List.filter_true]
  · rfl
  · intro q _
    rw [Bool.eq_iff_iff, bne_iff_ne, bne_iff_ne, ne_eq, Uuid.render_inj]
  · intro e he c hc
    have hmem : c.1 ∈ (ix.files.flatMap IndexedFile.points).map (·.1) :=
      List.mem_map_of_mem (List.mem_flatMap.mpr ⟨e, he, hc⟩)
    exact bne_iff_ne.mpr fun heq => h (heq ▸ hmem)

theorem contents_add (ix : Index) (es : List IndexedFile) :
    (ix.add es).contents = ix.contents ++ es.flatMap IndexedFile.points := by
  rw [contents, contents, add, List.flatMap_append, List.append_assoc]

end Index

end CodeAtlas
