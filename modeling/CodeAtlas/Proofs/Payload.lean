import CodeAtlas.Collection.Filter
import CodeAtlas.Proofs.Keyed
import CodeAtlas.Proofs.Uuid
import CodeAtlas.SymbolStore.Files
/-!
# What payloads tell

The conditions of filters are about texts of payloads, and the payloads of projects, files and
symbols tell these texts and read back as what they were made of.

Results:
1. `accepts_projectFilter`, `accepts_fileFilter` and their kin: which payloads a filter accepts.
2. `Project.reread`, `toProject?_ofProject`: what a project reads back as.
3. `toFile?_ofFile`: what a file reads back as.
4. `symbols`, `mem_symbols`: the payloads of the symbols of a file tell where they come from.
-/

namespace CodeAtlas

/-! ## Conditions on texts -/

theorem Json.beq_str {j : Json} {s : String} : (j == .str s) = true ↔ j.str? = some s := by
  change Json.same j (.str s) = true ↔ _
  cases j <;> simp [Json.same, Json.str?]

theorem Json.str_beq {j : Json} {s : String} : (.str s == j) = true ↔ j.str? = some s := by
  change Json.same (.str s) j = true ↔ _
  cases j <;> simp [Json.same, Json.str?]
  exact eq_comm

namespace Condition

theorem holds_text {payload : Payload} {key value : String} :
    (text key value).holds payload = true ↔ payload.getStr? key = some value := by
  simp [text, holds, Payload.getStr?, Option.bind_eq_some_iff, Option.any_eq_true, Json.beq_str]

theorem holds_oneOfTexts {payload : Payload} {key : String} {values : List String} :
    (oneOfTexts key values).holds payload = true ↔
      ∃ value ∈ values, payload.getStr? key = some value := by
  simp only [oneOfTexts, holds, Option.any_eq_true, List.any_map, List.any_eq_true,
    Function.comp_apply, Json.str_beq, Payload.getStr?, Option.bind_eq_some_iff]
  constructor
  · rintro ⟨j, hj, value, hmem, hvalue⟩
    exact ⟨value, hmem, j, hj, hvalue⟩
  · rintro ⟨value, hmem, j, hj, hvalue⟩
    exact ⟨j, hj, value, hmem, hvalue⟩

end Condition

namespace Payload

/-! ## The texts of payloads -/

/-- The payloads of the symbols of a file: those of the functions come first. -/
def symbols (project : Uuid) (f : SourceFile) : List Payload :=
  f.functions.map (ofFunction project f) ++ f.classes.map (ofClass project f)

theorem length_symbols (project : Uuid) (f : SourceFile) :
    (symbols project f).length = f.symbolCount := by
  simp [symbols, SourceFile.symbolCount]

/-- The payload is one of a project. -/
def IsProject (payload : Payload) : Prop := payload.getStr? "type" = some "project"

/-- The payload is one of a file. -/
def IsFile (payload : Payload) : Prop := payload.getStr? "type" = some "file"

/-- The payload is one of a symbol. -/
def IsSymbol (payload : Payload) : Prop := payload.getStr? "type" = some "symbol"

instance : DecidablePred IsProject := fun _ => inferInstanceAs (Decidable (_ = _))

instance : DecidablePred IsFile := fun _ => inferInstanceAs (Decidable (_ = _))

instance : DecidablePred IsSymbol := fun _ => inferInstanceAs (Decidable (_ = _))

theorem IsFile.not_isProject {payload : Payload} (h : payload.IsFile) : ¬ payload.IsProject :=
  fun h' => absurd (h.symm.trans h') (by decide)

theorem IsSymbol.not_isProject {payload : Payload} (h : payload.IsSymbol) : ¬ payload.IsProject :=
  fun h' => absurd (h.symm.trans h') (by decide)

theorem IsSymbol.not_isFile {payload : Payload} (h : payload.IsSymbol) : ¬ payload.IsFile :=
  fun h' => absurd (h.symm.trans h') (by decide)

/-- The project of a payload as a text. -/
def projectId? (payload : Payload) : Option String := payload.getStr? "project_id"

def rootPath? (payload : Payload) : Option String := payload.getStr? "root_path"

def filePath? (payload : Payload) : Option String := payload.getStr? "file_path"

def contentHash? (payload : Payload) : Option String := payload.getStr? "content_hash"

section

variable (p : Project) (project : Uuid) (f : SourceFile)

theorem isProject_ofProject : (ofProject p).IsProject := by
  simp [IsProject, ofProject, ofEntries, getStr?, get?, Keyed.ofList, Keyed.get?_insert, Json.str?]

@[simp] theorem projectId?_ofProject : (ofProject p).projectId? = some p.id.render := by
  simp [projectId?, ofProject, ofEntries, getStr?, get?, Keyed.ofList, Keyed.get?_insert,
    Json.str?]

@[simp] theorem rootPath?_ofProject : (ofProject p).rootPath? = some p.rootPath := by
  simp [rootPath?, ofProject, ofEntries, getStr?, get?, Keyed.ofList, Keyed.get?_insert, Json.str?]

@[simp] theorem filePath?_ofProject : (ofProject p).filePath? = none := by
  simp [filePath?, ofProject, ofEntries, getStr?, get?, Keyed.ofList, Keyed.get?_insert]

theorem isFile_ofFile : (ofFile project f).IsFile := by
  simp [IsFile, ofFile, ofEntries, getStr?, get?, Keyed.ofList, Keyed.get?_insert, Json.str?]

@[simp] theorem projectId?_ofFile : (ofFile project f).projectId? = some project.render := by
  simp [projectId?, ofFile, ofEntries, getStr?, get?, Keyed.ofList, Keyed.get?_insert, Json.str?]

@[simp] theorem filePath?_ofFile : (ofFile project f).filePath? = some f.path := by
  simp [filePath?, ofFile, ofEntries, getStr?, get?, Keyed.ofList, Keyed.get?_insert, Json.str?]

@[simp] theorem contentHash?_ofFile : (ofFile project f).contentHash? = some f.hash := by
  simp [contentHash?, ofFile, ofEntries, getStr?, get?, Keyed.ofList, Keyed.get?_insert, Json.str?]

end

/-- The payload tells that it is about a symbol of a file. -/
structure TellsSymbol (project : Uuid) (f : SourceFile) (payload : Payload) : Prop where
  isSymbol : payload.IsSymbol
  projectId : payload.projectId? = some project.render
  filePath : payload.filePath? = some f.path
  contentHash : payload.contentHash? = some f.hash

theorem tellsSymbol_ofFunction (project : Uuid) (f : SourceFile) (r : FunctionRecord) :
    TellsSymbol project f (ofFunction project f r) := by
  constructor <;> simp [IsSymbol, projectId?, filePath?, contentHash?, ofFunction, ofEntries,
    getStr?, get?, Keyed.ofList, Keyed.get?_insert, Json.str?]

theorem tellsSymbol_ofClass (project : Uuid) (f : SourceFile) (r : ClassRecord) :
    TellsSymbol project f (ofClass project f r) := by
  constructor <;> simp [IsSymbol, projectId?, filePath?, contentHash?, ofClass, ofEntries, getStr?,
    get?, Keyed.ofList, Keyed.get?_insert, Json.str?]

theorem mem_symbols {project : Uuid} {f : SourceFile} {payload : Payload}
    (h : payload ∈ symbols project f) : TellsSymbol project f payload := by
  rcases List.mem_append.mp h with h | h
  · obtain ⟨r, _, rfl⟩ := List.mem_map.mp h
    exact tellsSymbol_ofFunction project f r
  · obtain ⟨r, _, rfl⟩ := List.mem_map.mp h
    exact tellsSymbol_ofClass project f r

/-! ## Which payloads filters accept -/

theorem accepts_projectFilter {id : Uuid} {payload : Payload} :
    (SymbolStore.projectFilter id).accepts payload = true ↔
      payload.projectId? = some id.render := by
  simp [SymbolStore.projectFilter, Filter.accepts, Condition.holds_text, projectId?]

/-- A payload that tells its project is accepted for just this project. -/
theorem accepts_projectFilter_eq {project id : Uuid} {payload : Payload}
    (h : payload.projectId? = some project.render) :
    (SymbolStore.projectFilter id).accepts payload = (project == id) := by
  rw [Bool.eq_iff_iff, accepts_projectFilter, h, Option.some_inj, Uuid.render_inj, beq_iff_eq]

theorem accepts_projects {payload : Payload} :
    Filter.accepts ⟨[.text "type" "project"]⟩ payload = true ↔ payload.IsProject := by
  simp [Filter.accepts, Condition.holds_text, IsProject]

theorem accepts_files {id : Uuid} {payload : Payload} :
    Filter.accepts ⟨[.text "type" "file", .text "project_id" id.render]⟩ payload = true ↔
      payload.IsFile ∧ payload.projectId? = some id.render := by
  simp [Filter.accepts, Condition.holds_text, IsFile, projectId?]

theorem accepts_paths {id : Uuid} {paths : List String} {payload : Payload} :
    Filter.accepts ⟨[.text "project_id" id.render, .oneOfTexts "file_path" paths]⟩ payload = true ↔
      payload.projectId? = some id.render ∧ ∃ path ∈ paths, payload.filePath? = some path := by
  simp [Filter.accepts, Condition.holds_text, Condition.holds_oneOfTexts, projectId?, filePath?]

end Payload

/-! ## What is read back -/

theorem ProjectStatus.parse_name (s : ProjectStatus) : parse s.name = .ok s := by
  have hlower : Text.lower s.name = s.name := by cases s <;> decide +kernel
  rw [parse, hlower, ofName?_name]

theorem ParseStatus.parse_name (s : ParseStatus) : parse s.name = .ok s := by
  have hlower : Text.lower s.name = s.name := by cases s <;> decide +kernel
  rw [parse, hlower, ofName?_name]

/-- A project as it reads back: the time may be written in a form that has no reading. -/
def Project.reread (p : Project) : Project :=
  { p with indexedAt := p.indexedAt.bind fun t => Timestamp.parse? t.renderOffset }

/-- A file as it reads back. -/
def StoredFile.ofSource (f : SourceFile) : StoredFile :=
  ⟨f.path, f.language, f.hash, f.size, f.status, f.symbolCount⟩

namespace Payload

theorem toProject?_ofProject (p : Project) (id : String) (vector : Embedding) :
    toProject? ⟨id, vector, ofProject p⟩ = some p.reread := by
  have hid : (ofProject p).getStr? "project_id" = some p.id.render := projectId?_ofProject p
  have htype : (ofProject p).getStr? "type" = some "project" := isProject_ofProject p
  have htime : (ofProject p).getStr? "indexed_at" = p.indexedAt.map Timestamp.renderOffset := by
    cases h : p.indexedAt <;>
      simp [h, ofProject, ofEntries, getStr?, get?, Keyed.ofList, Keyed.get?_insert, Json.str?,
        optional, Json.ofOption]
  have hstatus : (ofProject p).getStr? "status" = some p.status.name := by
    simp [ofProject, ofEntries, getStr?, get?, Keyed.ofList, Keyed.get?_insert, Json.str?]
  rw [toProject?]
  simp only [htype, hid, htime, hstatus]
  simp [ofProject, ofEntries, getStr?, getNat, get?, Keyed.ofList, Keyed.get?_insert, Json.str?,
    Json.nat?, Json.nat, Json.obj?, Uuid.parse?_render, ProjectStatus.parse_name,
    Except.toOption, Project.reread]
  cases p.indexedAt <;> rfl

/-- Only the payload of a project reads as one. -/
theorem isProject_of_toProject? {pt : Point} {p : Project} (h : toProject? pt = some p) :
    pt.payload.IsProject := by
  rw [toProject?] at h
  split at h
  · cases h
  · next htype => simpa [IsProject] using htype

theorem toFile?_ofFile (project : Uuid) (f : SourceFile) :
    toFile? (ofFile project f) = some (StoredFile.ofSource f) := by
  have hpath : (ofFile project f).getStr? "file_path" = some f.path := filePath?_ofFile project f
  have hhash : (ofFile project f).getStr? "content_hash" = some f.hash :=
    contentHash?_ofFile project f
  rw [toFile?]
  simp only [hpath, hhash]
  simp [ofFile, ofEntries, getStr?, getNat, get?, Keyed.ofList, Keyed.get?_insert, Json.str?,
    Json.nat?, Json.nat, ParseStatus.parse_name, Except.toOption, StoredFile.ofSource]

end Payload

end CodeAtlas
