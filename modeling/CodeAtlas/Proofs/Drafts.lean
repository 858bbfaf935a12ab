import CodeAtlas.Proofs.Writing
/-!
# Points before they have vectors

The points of files are drafted before they are cut into batches and get their vectors. Symbols have
texts, files have none, and the vectors of a batch are for its texts in turn. So the place of a text
among the texts of its batch tells which vector is its own.

Results:
1. `SymbolStore.entries_draftsFrom`: the drafts of files are the points of files as a whole.
2. `SymbolStore.text_eq_none_iff`: a draft has a text unless it is the one of a file.
3. `SymbolStore.texts_place`: a text is at its place among the texts of a batch.
4. `SymbolStore.vector_fill`: a point gets the vector at the place of its text.
-/

namespace CodeAtlas

/-- Files as a whole, under ids that were fresh from a number on. -/
def IndexedFile.filedFrom (project : Uuid) : Nat → List FiledSource → List IndexedFile
  | _, [] => []
  | n, f :: rest => whole project (.ofNat n) f :: filedFrom project (n + 1) rest

namespace SymbolStore

/-- The points of files, under ids that were fresh from a number on. -/
def draftsFrom (project : Uuid) : Nat → List FiledSource → List Draft
  | _, [] => []
  | n, f :: rest => drafts project (.ofNat n) f ++ draftsFrom project (n + 1) rest

theorem entries_draftsFrom (project : Uuid) (n : Nat) (files : List FiledSource) :
    (draftsFrom project n files).map Draft.entry =
      (IndexedFile.filedFrom project n files).flatMap IndexedFile.points := by
  induction files generalizing n with
  | nil => rfl
  | cons f rest ih =>
    rw [draftsFrom, List.map_append, ih, IndexedFile.filedFrom, List.flatMap_cons,
      IndexedFile.points_whole]
    rfl

/-- A draft of a file has no text, and all others are for symbols. -/
theorem draft_cases {project id : Uuid} {f : FiledSource} {d : Draft}
    (hd : d ∈ drafts project id f) :
    (d.text = none ∧ d.payload.IsFile) ∨ (d.text.isSome ∧ d.payload.IsSymbol) := by
  rcases List.mem_cons.mp hd with rfl | hd
  · exact .inl ⟨rfl, Payload.isFile_ofFile project f.file⟩
  · right
    rw [← List.map_uncurry_zip_eq_zipWith] at hd
    obtain ⟨⟨id, payload, text⟩, hmem, rfl⟩ := List.mem_map.mp hd
    refine ⟨rfl, ?_⟩
    rcases List.mem_append.mp (List.of_mem_zip hmem).2 with hsymbol | hsymbol
    · obtain ⟨r, _, heq⟩ := List.mem_map.mp hsymbol
      cases heq
      exact (Payload.tellsSymbol_ofFunction project f.file r).isSymbol
    · obtain ⟨r, _, heq⟩ := List.mem_map.mp hsymbol
      cases heq
      exact (Payload.tellsSymbol_ofClass project f.file r).isSymbol

/-- A draft has a text unless it is the one of a file. -/
theorem text_eq_none_iff {project : Uuid} {n : Nat} {files : List FiledSource} {d : Draft}
    (hd : d ∈ draftsFrom project n files) : d.text = none ↔ d.payload.IsFile := by
  induction files generalizing n with
  | nil => cases hd
  | cons f rest ih =>
    rcases List.mem_append.mp hd with hd | hd
    · rcases draft_cases hd with ⟨htext, hfile⟩ | ⟨htext, hsymbol⟩
      · exact ⟨fun _ => hfile, fun _ => htext⟩
      · refine ⟨fun hnone => ?_, fun hfile => absurd hfile hsymbol.not_isFile⟩
        rw [hnone] at htext
        cases htext
    · exact ih hd

/-! ## Texts and vectors -/

/-- The texts of a batch. -/
def texts (batch : List Draft) : List String := batch.filterMap (·.text)

/-- The place of the text of a draft among the texts of its batch. -/
def place (batch : List Draft) (i : Nat) : Nat := (texts (batch.take i)).length

theorem place_zero (batch : List Draft) : place batch 0 = 0 := rfl

theorem texts_cons (d : Draft) (batch : List Draft) :
    texts (d :: batch) = d.text.toList ++ texts batch := by
  cases hd : d.text with
  | none => exact List.filterMap_cons_none hd
  | some text => exact List.filterMap_cons_some hd

theorem place_succ (d : Draft) (batch : List Draft) (i : Nat) :
    place (d :: batch) (i + 1) = d.text.toList.length + place batch i := by
  rw [place, List.take_succ_cons, texts_cons, List.length_append]
  rfl

/-- A text is at its place among the texts of its batch. -/
theorem texts_place {batch : List Draft} {i : Nat} {d : Draft} {text : String}
    (hd : batch[i]? = some d) (htext : d.text = some text) :
    (texts batch)[place batch i]? = some text := by
  induction batch generalizing i with
  | nil => cases hd
  | cons first batch ih =>
    cases i with
    | zero =>
      cases hd
      rw [texts_cons, htext]
      rfl
    | succ i =>
      rw [texts_cons, place_succ, List.getElem?_append_right (Nat.le_add_right _ _),
        Nat.add_sub_cancel_left]
      exact ih hd

variable (s : SymbolStore)

/-- Vectors that do not fit give way to the placeholder, so all have the same size. -/
theorem length_fitting (v : Option Embedding) : (s.fitting v).length = s.vectorSize := by
  cases v with
  | none => exact List.length_replicate
  | some v =>
    rw [fitting, Option.filter]
    split
    · next h => exact eq_of_beq h
    · exact List.length_replicate

/-- A draft with a text takes the first vector. -/
theorem fill_cons (d : Draft) (batch : List Draft) (vectors : List Embedding) :
    s.fill (d :: batch) vectors =
      ⟨d.id, if d.text.isSome then s.fitting vectors.head? else s.placeholder, d.payload⟩ ::
        s.fill batch (vectors.drop d.text.toList.length) := by
  obtain ⟨id, payload, text⟩ := d
  cases text with
  | none => cases vectors <;> rfl
  | some text => cases vectors <;> rfl

/-- A point gets the vector at the place of its text, if there is one and it fits. -/
theorem vector_fill {batch : List Draft} {vectors : List Embedding} {i : Nat} {d : Draft}
    {p : Point} (hd : batch[i]? = some d) (hp : (s.fill batch vectors)[i]? = some p) :
    p.vector = if d.text.isSome then s.fitting vectors[place batch i]? else s.placeholder := by
  induction batch generalizing i vectors with
  | nil => cases hd
  | cons first batch ih =>
    rw [fill_cons] at hp
    cases i with
    | zero =>
      cases hd
      cases hp
      rw [place_zero, ← List.head?_eq_getElem?]
    | succ i =>
      rw [place_succ, ← List.getElem?_drop]
      exact ih hd hp

end SymbolStore

end CodeAtlas
