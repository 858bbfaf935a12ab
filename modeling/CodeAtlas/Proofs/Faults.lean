import CodeAtlas.SourceFile
/-!
# The first fault of a syntax tree

The search for the first fault passes over subtrees that hold none, and stops at the first one that it
comes to. Here it is compared with a plain enumeration of all nodes in pre-order: what it finds is the
first fault of the enumeration, and it finds nothing only where there is none.

Results:
1. `lineAt_eq`: the number of a line counts the line ends before it.
2. `eq_hasError`: there is only one test of trees that holds of faults and of what is around them.
3. `hasError_eq_any`: a tree holds a fault if one of its nodes is a fault.
4. `firstErrorLine?_eq`: the search finds the first fault in pre-order.
5. `errorLine_exact`: so the line that is told of a source is that of its first fault.
-/

namespace CodeAtlas

/-! ## Lines -/

theorem foldl_countLines (cs : List Char) (n : Nat) :
    cs.foldl (fun n c => if c == '\n' then n + 1 else n) n = n + cs.count '\n' := by
  induction cs generalizing n with
  | nil => rfl
  | cons c cs ih =>
    rw [List.foldl_cons, ih, List.count_cons]
    split <;> omega

/-- The number of a line is that of the line ends before it, from one. -/
theorem lineAt_eq (src : Source) (offset : Nat) :
    lineAt src offset = (src.toList.take offset).count '\n' + 1 := by
  rw [lineAt, Array.foldl_eq_foldl_extract, ← Array.foldl_toList, foldl_countLines, Nat.add_comm,
    Array.toList_extract]
  simp

namespace Tree

/-! ## Nodes -/

mutual
/-- The nodes of a tree in pre-order. -/
def nodes : Tree → List Tree
  | node kind role start stop children =>
    node kind role start stop children :: nodesInAll children

def nodesInAll : List Tree → List Tree
  | [] => []
  | t :: ts => t.nodes ++ nodesInAll ts
end

/-! ## Trees with faults -/

mutual
/-- A test that holds of faults and of nodes with a child of which it holds is told by the tree. -/
theorem eq_hasError {marks : Tree → Bool} (h : ∀ t, marks t = (t.isFault || t.children.any marks)) :
    (t : Tree) → marks t = t.hasError
  | node kind role start stop children => by
    rw [h, hasError, ← any_eq_anyHasError h children]
    rfl

theorem any_eq_anyHasError {marks : Tree → Bool}
    (h : ∀ t, marks t = (t.isFault || t.children.any marks)) :
    (ts : List Tree) → ts.any marks = anyHasError ts
  | [] => rfl
  | t :: ts => by rw [List.any_cons, anyHasError, eq_hasError h t, any_eq_anyHasError h ts]
end

theorem anyHasError_eq (ts : List Tree) : anyHasError ts = ts.any hasError := by
  induction ts with
  | nil => rfl
  | cons t ts ih => rw [anyHasError, List.any_cons, ih]

theorem hasError_eq (t : Tree) : t.hasError = (t.isFault || t.children.any hasError) := by
  obtain ⟨kind, role, start, stop, children⟩ := t
  rw [hasError, anyHasError_eq]
  rfl

mutual
/-- A tree holds a fault if one of its nodes is a fault. -/
theorem hasError_eq_any : (t : Tree) → t.hasError = t.nodes.any isFault
  | node kind role start stop children => by
    rw [hasError, nodes, List.any_cons, anyHasError_eq_any children]
    rfl

theorem anyHasError_eq_any : (ts : List Tree) → anyHasError ts = (nodesInAll ts).any isFault
  | [] => rfl
  | t :: ts => by
    rw [anyHasError, nodesInAll, List.any_append, hasError_eq_any t, anyHasError_eq_any ts]
end

/-! ## The search -/

/-- The first fault in pre-order. -/
def firstFault? (t : Tree) : Option Tree := t.nodes.find? isFault

theorem firstFault?_eq_none_iff {t : Tree} : t.firstFault? = none ↔ t.hasError = false := by
  rw [firstFault?, hasError_eq_any, List.find?_eq_none, List.any_eq_false]

mutual
/-- The search finds the line of the first fault in pre-order. -/
theorem firstErrorLine?_eq (src : Source) : (t : Tree) →
    t.firstErrorLine? src = t.firstFault?.map (startLine src)
  | node kind role start stop children => by
    rw [firstErrorLine?, firstFault?, nodes, List.find?_cons]
    have hfault : (node kind role start stop children).isFault =
        (kind == .error || kind == .missing) := rfl
    rw [hfault]
    cases hkind : (kind == .error || kind == .missing) with
    | true => rfl
    | false =>
      rw [if_neg Bool.false_ne_true]
      dsimp only
      split
      · next hpass =>
        -- a subtree that is passed over holds no fault
        have hnone : anyHasError children = false := by
          rw [Bool.not_eq_true', hasError, hkind, Bool.false_or] at hpass
          exact hpass
        rw [anyHasError_eq_any, List.any_eq_false] at hnone
        rw [List.find?_eq_none.mpr hnone]
        rfl
      · exact firstErrorLineIn?_eq src children

theorem firstErrorLineIn?_eq (src : Source) : (ts : List Tree) →
    firstErrorLineIn? src ts = ((nodesInAll ts).find? isFault).map (startLine src)
  | [] => rfl
  | t :: ts => by
    rw [firstErrorLineIn?, nodesInAll, List.find?_append, Option.map_or, firstErrorLine?_eq src t,
      firstErrorLineIn?_eq src ts, firstFault?]
end

/-- A tree with a fault has a first one, and there is its line. -/
theorem exists_firstFault {t : Tree} (h : t.hasError = true) (src : Source) :
    ∃ fault, t.firstFault? = some fault ∧ t.firstErrorLine? src = some (fault.startLine src) := by
  have hfault : t.firstFault? ≠ none := fun hnone => by
    rw [firstFault?_eq_none_iff, h] at hnone
    cases hnone
  obtain ⟨fault, hfault⟩ := Option.ne_none_iff_exists'.mp hfault
  exact ⟨fault, hfault, by rw [firstErrorLine?_eq, hfault, Option.map_some]⟩

end Tree

/-- What is told of a source that does not follow its grammar. -/
theorem SourceFile.ofBytes_of_hasError {language : Language} {bytes : ByteArray} {src : Source}
    (hsrc : src = (Text.decode bytes).toList.toArray) (hbinary : isBinary bytes = false)
    (herror : (language.parse src).hasError = true) (path : String) (modified : Timestamp) :
    (ofBytes language path bytes modified).status = .error ∧
      (ofBytes language path bytes modified).message = some ("Syntax error near line " ++
        toString (((language.parse src).firstErrorLine? src).getD 1)) := by
  subst hsrc
  unfold ofBytes
  rw [if_neg (Bool.eq_false_iff.mp hbinary)]
  dsimp only
  rw [if_pos herror]
  exact ⟨rfl, rfl⟩

open Tree in
/-- The line that is told of a source that does not follow its grammar is that of its first fault.
There is only one test of trees that holds of faults and of nodes with a child of which it holds. By
this test the search finds the first fault in pre-order, and nothing only if there is none; so the line
of a file is never made up. -/
theorem errorLine_exact :
    (∀ marks : Tree → Bool,
      (∀ t, marks t = (t.isFault || t.children.any marks)) ↔ marks = hasError) ∧
    (∀ (src : Source) (t : Tree),
      t.firstErrorLine? src = (t.nodes.find? isFault).map (fun fault =>
        (src.toList.take fault.start).count '\n' + 1) ∧
      (t.firstErrorLine? src = none ↔ t.hasError = false)) ∧
    ∀ (language : Language) (path : String) (bytes : ByteArray) (modified : Timestamp),
      let src : Source := (Text.decode bytes).toList.toArray
      let tree := language.parse src
      let file := SourceFile.ofBytes language path bytes modified
      SourceFile.isBinary bytes = false → tree.hasError = true →
        ∃ fault, tree.nodes.find? isFault = some fault ∧ file.status = .error ∧
          file.message = some ("Syntax error near line " ++
            toString ((src.toList.take fault.start).count '\n' + 1)) := by
  refine ⟨fun marks => ⟨fun h => funext (eq_hasError h), fun h t => h ▸ hasError_eq t⟩,
    fun src t => ⟨?_, ?_⟩, ?_⟩
  · rw [firstErrorLine?_eq, firstFault?]
    exact congrArg (Option.map · _) (funext fun fault => lineAt_eq src fault.start)
  · rw [firstErrorLine?_eq, Option.map_eq_none_iff, firstFault?_eq_none_iff]
  · intro language path bytes modified src tree file hbinary herror
    obtain ⟨fault, hfault, hline⟩ := exists_firstFault herror src
    obtain ⟨hstatus, hmessage⟩ := SourceFile.ofBytes_of_hasError rfl hbinary herror path modified
    rw [hline, Option.getD_some, startLine, lineAt_eq] at hmessage
    exact ⟨fault, hfault, hstatus, hmessage⟩

/-- A Python source whose second line goes wrong. -/
def brokenSource : ByteArray := "x = 1\ndef (:\n".toUTF8

theorem errorLine_exact_brokenSource :
    let src : Source := (Text.decode brokenSource).toList.toArray
    let tree := Language.python.parse src
    let file := SourceFile.ofBytes .python "a.py" brokenSource ⟨0, 0⟩
    SourceFile.isBinary brokenSource = false ∧ tree.hasError = true ∧
      ∃ fault, tree.nodes.find? Tree.isFault = some fault ∧ fault.startLine src = 2 ∧
        file.status = .error ∧ file.message = some "Syntax error near line 2" := by
  intro src tree file
  have hbinary : SourceFile.isBinary brokenSource = false := by decide +kernel
  have herror : tree.hasError = true := by decide +kernel
  have hsecond : (tree.nodes.find? Tree.isFault).map (·.startLine src) = some 2 := by decide +kernel
  obtain ⟨fault, hfault, hstatus, hmessage⟩ :=
    errorLine_exact.2.2 .python "a.py" brokenSource ⟨0, 0⟩ hbinary herror
  have hline : fault.startLine src = 2 := by
    rw [show tree.nodes.find? Tree.isFault = some fault from hfault] at hsecond
    exact Option.some.inj hsecond
  refine ⟨hbinary, herror, fault, hfault, hline, hstatus, hmessage.trans ?_⟩
  rw [← lineAt_eq]
  exact congrArg (fun n : Nat => some ("Syntax error near line " ++ toString n)) hline

end CodeAtlas
