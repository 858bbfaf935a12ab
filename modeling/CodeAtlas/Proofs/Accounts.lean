import CodeAtlas.Proofs.Parsing
/-!
# What a run over files notes of each of them

A run goes through the files one after another and adds what it finds of a file to what it has
counted and noted before. Nothing that is noted of one file depends on another one: the run over two
lists, one behind the other, is the run over the first joined with the run over the second.

Results:
1. `isSome_read?`: a file is read if its language is known and its bytes can be read.
2. `add_eq_append`, `append_assoc`: a file is added to a run by joining the run over this file alone.
3. `accounts_tally`: each file is counted once, each that can be read is kept, and each that went
   wrong has one complaint.
4. `ofFiles_eq`: what is reported are the files that are kept, in their order.
5. `ofFiles_isolated`: the account of a run, and the law for two lists.
-/

namespace CodeAtlas

/-- Whether the language of a file is known and its bytes can be read. -/
def FileSystem.canRead (fs : FileSystem) (f : ScannedFile) : Bool :=
  (Language.ofName? f.language).isSome && (fs.read f.path).toOption.isSome

namespace ParseRun

/-- Two runs, one behind the other: what they counted is added up, what they noted is joined. -/
instance : Append ParseRun where
  append a b := {
    scanned := a.scanned + b.scanned
    parsed := a.parsed + b.parsed
    skipped := a.skipped + b.skipped
    failed := a.failed + b.failed
    symbols := a.symbols + b.symbols
    errors := a.errors ++ b.errors
    files := a.files ++ b.files }

/-- What is noted of a file that cannot be read or does not follow its grammar. -/
def complaint? (fs : FileSystem) (f : ScannedFile) : Option String :=
  match read? fs f with
  | none => some (f.relative ++ ": unreadable")
  | some file =>
    if file.status = .error then some (f.relative ++ ": " ++ file.message.getD "parse error")
    else none

/-- The run over files, reports left out. -/
def tally (fs : FileSystem) (found : List ScannedFile) : ParseRun :=
  found.foldl (fun run f => run.add f (read? fs f)) {}

/-- The account that a run gives of the files it went through. -/
structure Accounts (fs : FileSystem) (found : List ScannedFile) (run : ParseRun) : Prop where
  scanned : run.scanned = found.length
  /-- Every file has been parsed, skipped, found faulty, or could not be read. -/
  balanced : run.scanned =
    run.parsed + run.skipped + run.failed + found.countP (fun f => !fs.canRead f)
  parsed : run.parsed = run.files.countP (·.status = .success)
  skipped : run.skipped = run.files.countP (·.status = .skipped)
  failed : run.failed = run.files.countP (·.status = .error)
  /-- The files are the sources that could be read, -/
  files : run.files = fs.sources found
  /-- one for each file that can be read, in the order of the files. -/
  paths : run.files.map SourceFile.path = (found.filter fs.canRead).map ScannedFile.relative
  /-- The errors are the complaints about single files, in their order, -/
  errors : run.errors = found.filterMap (complaint? fs)
  /-- one for each file that is faulty or could not be read. -/
  complaints : run.errors.length = run.failed + found.countP (fun f => !fs.canRead f)
  symbols : run.symbols = SourceFile.totalSymbols run.files

/-! ## One file -/

theorem isSome_read? (fs : FileSystem) (f : ScannedFile) :
    (read? fs f).isSome = fs.canRead f := by
  rw [FileSystem.canRead]
  cases hl : Language.ofName? f.language with
  | none =>
    rw [read?, hl]
    rfl
  | some l =>
    rcases read?_cases fs hl with ⟨bytes, modified, hread, hs⟩ | ⟨⟨e, hread⟩, hs⟩
    · rw [hread, hs]
      rfl
    · rw [hread, hs]
      rfl

/-! ## Joining runs -/

theorem append_def (a b : ParseRun) : a ++ b = {
    scanned := a.scanned + b.scanned
    parsed := a.parsed + b.parsed
    skipped := a.skipped + b.skipped
    failed := a.failed + b.failed
    symbols := a.symbols + b.symbols
    errors := a.errors ++ b.errors
    files := a.files ++ b.files } := rfl

theorem append_empty (run : ParseRun) : run ++ ({} : ParseRun) = run := by
  simp [append_def]

theorem empty_append (run : ParseRun) : ({} : ParseRun) ++ run = run := by
  simp [append_def]

theorem append_assoc (a b c : ParseRun) : a ++ b ++ c = a ++ (b ++ c) := by
  simp [append_def, Nat.add_assoc]

/-- What is known of a run does not matter for what is added to it. -/
theorem add_eq_append (run : ParseRun) (f : ScannedFile) (file : Option SourceFile) :
    run.add f file = run ++ ({} : ParseRun).add f file := by
  cases file with
  | none => simp [add, append_def]
  | some file =>
    simp only [add]
    split <;> simp [append_def]

theorem foldl_add (fs : FileSystem) (found : List ScannedFile) (run : ParseRun) :
    found.foldl (fun run f => run.add f (read? fs f)) run = run ++ tally fs found := by
  induction found generalizing run with
  | nil => exact (append_empty run).symm
  | cons f rest ih =>
    rw [List.foldl_cons, ih, add_eq_append, append_assoc, ← ih]
    rfl

theorem tally_cons (fs : FileSystem) (f : ScannedFile) (rest : List ScannedFile) :
    tally fs (f :: rest) = ({} : ParseRun).add f (read? fs f) ++ tally fs rest :=
  foldl_add fs rest _

theorem tally_append (fs : FileSystem) (xs ys : List ScannedFile) :
    tally fs (xs ++ ys) = tally fs xs ++ tally fs ys := by
  induction xs with
  | nil => exact (empty_append _).symm
  | cons f xs ih => rw [List.cons_append, tally_cons, ih, tally_cons, append_assoc]

/-! ## The account of a run -/

theorem Accounts.nil (fs : FileSystem) : Accounts fs [] {} where
  scanned := rfl
  balanced := rfl
  parsed := rfl
  skipped := rfl
  failed := rfl
  files := rfl
  paths := rfl
  errors := rfl
  complaints := rfl
  symbols := rfl

/-- The accounts of two runs make up the account of both together. -/
theorem Accounts.append {fs : FileSystem} {xs ys : List ScannedFile} {a b : ParseRun}
    (ha : Accounts fs xs a) (hb : Accounts fs ys b) : Accounts fs (xs ++ ys) (a ++ b) where
  scanned := by
    rw [List.length_append, ← ha.scanned, ← hb.scanned]
    rfl
  balanced := by
    rw [List.countP_append]
    have := ha.balanced
    have := hb.balanced
    show a.scanned + b.scanned = (a.parsed + b.parsed) + (a.skipped + b.skipped) +
      (a.failed + b.failed) + _
    omega
  parsed := (congrArg₂ _ ha.parsed hb.parsed).trans List.countP_append.symm
  skipped := (congrArg₂ _ ha.skipped hb.skipped).trans List.countP_append.symm
  failed := (congrArg₂ _ ha.failed hb.failed).trans List.countP_append.symm
  files := (congrArg₂ _ ha.files hb.files).trans List.filterMap_append.symm
  paths := by
    rw [List.filter_append, List.map_append, ← ha.paths, ← hb.paths]
    exact List.map_append
  errors := (congrArg₂ _ ha.errors hb.errors).trans List.filterMap_append.symm
  complaints := by
    rw [List.countP_append]
    have := ha.complaints
    have := hb.complaints
    show (a.errors ++ b.errors).length = (a.failed + b.failed) + _
    rw [List.length_append]
    omega
  symbols := by
    show a.symbols + b.symbols = SourceFile.totalSymbols (a.files ++ b.files)
    rw [SourceFile.totalSymbols_append, ← ha.symbols, ← hb.symbols]

/-- A file that cannot be read leaves a complaint and nothing else; one that can be read is kept and
counted by how it went. -/
theorem accounts_single (fs : FileSystem) (f : ScannedFile) :
    Accounts fs [f] (({} : ParseRun).add f (read? fs f)) := by
  have hread := isSome_read? fs f
  cases hfile : read? fs f with
  | none =>
    rw [hfile] at hread
    exact {
      scanned := rfl
      balanced := by simp [add, ← hread]
      parsed := rfl
      skipped := rfl
      failed := rfl
      files := by simp [add, FileSystem.sources, hfile]
      paths := by simp [add, ← hread]
      errors := by simp [add, complaint?, hfile]
      complaints := by simp [add, ← hread]
      symbols := rfl }
  | some file =>
    rw [hfile] at hread
    have hpath := path_of_read? hfile
    -- a file that has been read counts for its status alone
    cases hstatus : file.status <;>
      exact {
        scanned := by simp [add, hstatus]
        balanced := by simp [add, hstatus, ← hread]
        parsed := by simp [add, hstatus]
        skipped := by simp [add, hstatus]
        failed := by simp [add, hstatus]
        files := by simp [add, hstatus, FileSystem.sources, hfile]
        paths := by simp [add, hstatus, ← hread, hpath]
        errors := by simp [add, hstatus, complaint?, hfile]
        complaints := by simp [add, hstatus, ← hread]
        symbols := by
          simp [add, hstatus, SourceFile.totalSymbols, FileSummary.totalSymbols, SourceFile.summary] }

theorem accounts_tally (fs : FileSystem) (found : List ScannedFile) :
    Accounts fs found (tally fs found) := by
  induction found with
  | nil => exact .nil fs
  | cons f rest ih =>
    rw [tally_cons]
    exact (accounts_single fs f).append ih

/-! ## Reports -/

section

variable {m : Type → Type} [Monad m] [LawfulMonad m]

/-- Reporting and adding go through the sources, whatever has been noted before. -/
theorem foldlM_report {fs : FileSystem} {report : SourceFile → m Unit}
    {step : ParseRun → ScannedFile → m ParseRun}
    (hstep : ∀ run f, step run f = do
      (read? fs f).toList.forM report
      return run.add f (read? fs f)) (found : List ScannedFile) (run : ParseRun) :
    found.foldlM step run = do
      (fs.sources found).forM report
      return run ++ tally fs found := by
  induction found generalizing run with
  | nil => simp [FileSystem.sources, tally, append_empty]
  | cons f rest ih =>
    simp only [List.foldlM_cons, hstep, bind_assoc, pure_bind, ih, FileSystem.sources_cons,
      List.forM_eq_forM, List.forM_append, tally_cons, add_eq_append run, append_assoc]

/-- The reports of a run are those of the files that it keeps, in their order; what is done with
them does not matter for the run. -/
theorem ofFiles_eq (fs : FileSystem) (report : SourceFile → m Unit) (found : List ScannedFile) :
    ofFiles fs report found = do
      (tally fs found).files.forM report
      return tally fs found := by
  rw [ofFiles, foldlM_report (fun run f => ?_), empty_append, (accounts_tally fs found).files]
  cases read? fs f <;> simp

/-- No file changes what a run notes of another one: a run over two lists of files, one behind the
other, makes the reports of both and joins what they noted. And each run gives account of its files,
and reports those that it keeps, in their order. -/
theorem ofFiles_isolated (fs : FileSystem) (report : SourceFile → m Unit) :
    (∀ xs ys, ofFiles fs report (xs ++ ys) = do
      let first ← ofFiles fs report xs
      let second ← ofFiles fs report ys
      return first ++ second) ∧
    ∀ found, ∃ run, Accounts fs found run ∧ ofFiles fs report found = do
      run.files.forM report
      return run := by
  refine ⟨fun xs ys => ?_, fun found => ⟨_, accounts_tally fs found, ofFiles_eq fs report found⟩⟩
  have hfiles : (tally fs xs ++ tally fs ys).files = (tally fs xs).files ++ (tally fs ys).files :=
    rfl
  simp only [ofFiles_eq, tally_append, hfiles, List.forM_eq_forM, List.forM_append, bind_assoc,
    pure_bind]

end

section

set_option maxRecDepth 100000

/-- A source that follows its grammar, one that does not, and a binary file. -/
def mixedFiles : FileSystem where
  root := .dir [("r", .dir [
    ("a.py", .file "def f(): pass\n".toUTF8 ⟨0, 0⟩),
    ("b.py", .file "def (".toUTF8 ⟨0, 0⟩),
    ("c.py", .file ⟨#[0]⟩ ⟨0, 0⟩)])]

/-- A file below the root, whether it is there or not. -/
def mixedFile (name : String) : ScannedFile := ⟨"/r/" ++ name, name, "python", 0⟩

/-- Notes the path of a file. -/
def notePath (f : SourceFile) : StateM (List String) Unit := modify (· ++ [f.path])

theorem ofFiles_isolated_mixed : LawfulMonad (StateM (List String)) ∧
    (ofFiles mixedFiles notePath
        ([mixedFile "gone.py", mixedFile "a.py"] ++ [mixedFile "b.py", mixedFile "c.py"]) = do
      let first ← ofFiles mixedFiles notePath [mixedFile "gone.py", mixedFile "a.py"]
      let second ← ofFiles mixedFiles notePath [mixedFile "b.py", mixedFile "c.py"]
      return first ++ second) ∧
    ∃ run, Accounts mixedFiles [mixedFile "b.py", mixedFile "c.py"] run ∧
      ofFiles mixedFiles notePath [mixedFile "b.py", mixedFile "c.py"] = do
        run.files.forM notePath
        return run :=
  ⟨inferInstance, (ofFiles_isolated mixedFiles notePath).1 _ _,
    (ofFiles_isolated mixedFiles notePath).2 _⟩

example : (tally mixedFiles [mixedFile "gone.py", mixedFile "b.py", mixedFile "c.py"]).errors =
    ["gone.py: unreadable", "b.py: Syntax error near line 1"] := by
  decide +kernel

end

end ParseRun

end CodeAtlas
