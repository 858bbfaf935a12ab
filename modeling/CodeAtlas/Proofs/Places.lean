import CodeAtlas.Proofs.Keyed
import CodeAtlas.Request
/-!
# What is at a place

A file system is looked at place by place: at each place is a file, a link, a directory, or nothing. A
change concerns one place and what lies below it, and leaves all other places as they are. To make
directories, of which nothing is at the place before, leaves all files and links.

Results:
1. `holds?_put_elsewhere`, `holds?_erase_elsewhere`: other places stay as they are.
2. `leaf?_makeDirs`, `leaf?_write`, `leaf?_remove`: what changes do to files and links.
-/

namespace CodeAtlas

theorem Keyed.get?_erase {α : Type} (key k : String) (entries : List (String × α)) :
    get? key (erase k entries) = if k = key then none else get? key entries := by
  induction entries with
  | nil =>
    rw [show erase k ([] : List (String × α)) = [] from rfl, get?_nil]
    split <;> rfl
  | cons entry rest ih =>
    obtain ⟨l, v⟩ := entry
    rw [erase_cons, get?_cons]
    by_cases hlk : l = k
    · subst hlk
      rw [if_pos rfl, ih]
      split <;> rfl
    · rw [if_neg hlk, get?_cons, ih]
      by_cases hl : l = key
      · subst hl
        rw [if_pos rfl, if_pos rfl, if_neg (Ne.symm hlk)]
      · rw [if_neg hl, if_neg hl]

/-- A file with its bytes, a link, or a directory whatever is in it. -/
inductive Entry where
  | file (content : ByteArray) (modified : Timestamp)
  | link (target : String)
  | dir

namespace DiskNode

def entry : DiskNode → Entry
  | file content modified => .file content modified
  | link target => .link target
  | dir _ => .dir

variable {new : DiskNode}

/-! ## Putting and erasing nodes -/

theorem at?_append (place rest : List String) (node : DiskNode) :
    node.at? (place ++ rest) = (node.at? place).bind (at? rest) := by
  induction place generalizing node with
  | nil => rfl
  | cons name place ih =>
    rw [List.cons_append, at?, at?]
    cases Keyed.get? name node.entries with
    | none => rfl
    | some child => exact ih child

theorem put_cons (name next : String) (rest : List String) (es : List (String × DiskNode)) :
    put new (name :: next :: rest) (dir es) =
      match Keyed.get? name es with
      | some child => dir (Keyed.insert name (put new (next :: rest) child) es)
      | none => dir es := by
  cases hchild : Keyed.get? name es with
  | some child => exact put.eq_3 new name es (next :: rest) child (List.cons_ne_nil _ _) hchild
  | none => exact put.eq_4 new name es (next :: rest) (List.cons_ne_nil _ _) hchild

theorem erase_cons (name next : String) (rest : List String) (es : List (String × DiskNode)) :
    erase (name :: next :: rest) (dir es) =
      match Keyed.get? name es with
      | some child => dir (Keyed.insert name (erase (next :: rest) child) es)
      | none => dir es :=
  erase.eq_3 name (next :: rest) es (List.cons_ne_nil _ _)

/-- A node is found where it was put, if a directory was there to put it in. -/
theorem at?_put {place : List String} {node : DiskNode} {es : List (String × DiskNode)}
    (hparent : node.at? place.dropLast = some (dir es)) (rest : List String) :
    (put new place node).at? (place ++ rest) = new.at? rest := by
  induction place generalizing node with
  | nil => rfl
  | cons name place ih =>
    cases place with
    | nil =>
      cases hparent
      change (Keyed.get? name (Keyed.insert name new es)).bind (at? rest) = new.at? rest
      rw [Keyed.get?_insert, if_pos rfl]
      rfl
    | cons next place =>
      obtain ⟨child, hchild, hat⟩ := Option.bind_eq_some_iff.mp hparent
      cases node with
      | file => cases hchild
      | link => cases hchild
      | dir es' =>
        rw [put_cons, show Keyed.get? name es' = some child from hchild]
        change (Keyed.get? name (Keyed.insert name _ es')).bind (at? (next :: place ++ rest)) = _
        rw [Keyed.get?_insert, if_pos rfl]
        exact ih hat

/-- What is at a place does not change if one child of a directory becomes another one with the same
there. -/
theorem entry_insert {name : String} {child old : DiskNode} {es : List (String × DiskNode)}
    (hold : Keyed.get? name es = some old) {other : List String}
    (hchild : ∀ rest, other = name :: rest →
      (child.at? rest).map entry = (old.at? rest).map entry) :
    ((dir (Keyed.insert name child es)).at? other).map entry = ((dir es).at? other).map entry := by
  cases other with
  | nil => rfl
  | cons first rest =>
    change ((Keyed.get? first (Keyed.insert name child es)).bind (at? rest)).map entry =
      ((Keyed.get? first es).bind (at? rest)).map entry
    rw [Keyed.get?_insert]
    split
    · next hsame =>
      subst hsame
      rw [hold]
      exact hchild rest rfl
    · rfl

/-- What is at other places stays as it is. -/
theorem entry_put_elsewhere {place other : List String} (h : ¬ place <+: other)
    (node : DiskNode) :
    ((put new place node).at? other).map entry = (node.at? other).map entry := by
  induction place generalizing node other with
  | nil => exact absurd List.nil_prefix h
  | cons name place ih =>
    cases node with
    | file => cases place <;> rfl
    | link => cases place <;> rfl
    | dir es =>
      cases place with
      | nil =>
        cases other with
        | nil => rfl
        | cons other rest =>
          change ((Keyed.get? other (Keyed.insert name new es)).bind (at? rest)).map entry =
            ((Keyed.get? other es).bind (at? rest)).map entry
          have hne : name ≠ other := fun hsame => h (hsame ▸ List.prefix_append [name] rest)
          rw [Keyed.get?_insert, if_neg hne]
      | cons next place =>
        rw [put_cons]
        cases hold : Keyed.get? name es with
        | none => rfl
        | some old =>
          refine entry_insert hold fun rest hother => ih (fun hbegins => h ?_) old
          exact hother ▸ List.cons_prefix_cons.mpr ⟨rfl, hbegins⟩

/-- Nothing is left where a node was erased. -/
theorem at?_erase {place : List String} (hplace : place ≠ []) (rest : List String) (node : DiskNode) :
    (erase place node).at? (place ++ rest) = none := by
  induction place generalizing node with
  | nil => exact absurd rfl hplace
  | cons name place ih =>
    cases node with
    | file => cases place <;> rfl
    | link => cases place <;> rfl
    | dir es =>
      cases place with
      | nil =>
        change (Keyed.get? name (Keyed.erase name es)).bind (at? rest) = none
        rw [Keyed.get?_erase, if_pos rfl]
        rfl
      | cons next place =>
        rw [erase_cons]
        cases hchild : Keyed.get? name es with
        | none =>
          change (Keyed.get? name es).bind (at? (next :: place ++ rest)) = none
          rw [hchild]
          rfl
        | some child =>
          change (Keyed.get? name (Keyed.insert name _ es)).bind (at? (next :: place ++ rest)) = none
          rw [Keyed.get?_insert, if_pos rfl]
          exact ih (List.cons_ne_nil _ _) child

theorem entry_erase_elsewhere {place other : List String} (h : ¬ place <+: other)
    (node : DiskNode) :
    ((erase place node).at? other).map entry = (node.at? other).map entry := by
  induction place generalizing node other with
  | nil => exact absurd List.nil_prefix h
  | cons name place ih =>
    cases node with
    | file => cases place <;> rfl
    | link => cases place <;> rfl
    | dir es =>
      cases place with
      | nil =>
        cases other with
        | nil => rfl
        | cons other rest =>
          change ((Keyed.get? other (Keyed.erase name es)).bind (at? rest)).map entry =
            ((Keyed.get? other es).bind (at? rest)).map entry
          have hne : name ≠ other := fun hsame => h (hsame ▸ List.prefix_append [name] rest)
          rw [Keyed.get?_erase, if_neg hne]
      | cons next place =>
        rw [erase_cons]
        cases hold : Keyed.get? name es with
        | none => rfl
        | some old =>
          refine entry_insert hold fun rest hother => ih (fun hbegins => h ?_) old
          exact hother ▸ List.cons_prefix_cons.mpr ⟨rfl, hbegins⟩

end DiskNode

/-! ## Entries at places -/

namespace FileSystem

variable {fs : FileSystem} {place other : List String}

/-- What is at a place. -/
def holds? (fs : FileSystem) (place : List String) : Option Entry := (fs.at? place).map DiskNode.entry

theorem holds?_eq_dir : fs.holds? place = some .dir ↔ ∃ es, fs.at? place = some (.dir es) := by
  rw [holds?, Option.map_eq_some_iff]
  constructor
  · rintro ⟨node, hnode, hdir⟩
    cases node with
    | dir es => exact ⟨es, hnode⟩
    | _ => cases hdir
  · rintro ⟨es, hes⟩
    exact ⟨_, hes, rfl⟩

/-- Nothing is below a place where no directory is. -/
theorem holds?_below (h : fs.holds? place ≠ some .dir) {rest : List String} (hrest : rest ≠ []) :
    fs.holds? (place ++ rest) = none := by
  rw [holds?, at?, DiskNode.at?_append]
  obtain ⟨name, below, rfl⟩ := List.exists_cons_of_ne_nil hrest
  cases hnode : fs.at? place with
  | none => rw [show fs.root.at? place = none from hnode]; rfl
  | some node =>
    rw [show fs.root.at? place = some node from hnode]
    cases node with
    | dir es => exact absurd (holds?_eq_dir.mpr ⟨es, hnode⟩) h
    | _ => rfl

/-- All places on the way to something are directories. -/
theorem holds?_above (h : fs.holds? place ≠ none) (hbegins : other <+: place)
    (hne : other ≠ place) : fs.holds? other = some .dir := by
  obtain ⟨rest, rfl⟩ := hbegins
  refine Classical.byContradiction fun hdir => h (holds?_below hdir ?_)
  rintro rfl
  exact hne (List.append_nil _).symm

theorem holds?_put_elsewhere (h : ¬ place <+: other) (node : DiskNode) :
    (fs.put place node).holds? other = fs.holds? other :=
  DiskNode.entry_put_elsewhere h fs.root

theorem holds?_put (hparent : fs.holds? place.dropLast = some .dir) (node : DiskNode)
    (rest : List String) :
    (fs.put place node).holds? (place ++ rest) = (node.at? rest).map DiskNode.entry := by
  obtain ⟨es, hes⟩ := holds?_eq_dir.mp hparent
  exact congrArg _ (DiskNode.at?_put hes rest)

theorem holds?_erase_elsewhere (h : ¬ place <+: other) :
    (fs.erase place).holds? other = fs.holds? other :=
  DiskNode.entry_erase_elsewhere h fs.root

theorem holds?_erase (hplace : place ≠ []) (h : place <+: other) :
    (fs.erase place).holds? other = none := by
  obtain ⟨rest, rfl⟩ := h
  exact congrArg _ (DiskNode.at?_erase hplace rest fs.root)

/-- Without a directory to put a node in nothing changes. -/
theorem holds?_put_of_no_parent (hplace : place ≠ []) (hparent : fs.holds? place.dropLast ≠ some .dir)
    (node : DiskNode) (other : List String) : (fs.put place node).holds? other = fs.holds? other := by
  by_cases h : place <+: other
  · obtain ⟨rest, rfl⟩ := h
    have hsplit : place ++ rest = place.dropLast ++ (place.getLast hplace :: rest) := by
      rw [List.append_cons, List.dropLast_concat_getLast]
    have hshort : ¬ place <+: place.dropLast := fun hbegins => by
      have hlength := hbegins.length_le
      have := List.length_pos_iff.mpr hplace
      rw [List.length_dropLast] at hlength
      omega
    rw [hsplit, holds?_below hparent (List.cons_ne_nil _ _), holds?_below ?_ (List.cons_ne_nil _ _)]
    rw [holds?_put_elsewhere hshort]
    exact hparent
  · exact holds?_put_elsewhere h node

/-! ## Files and links -/

/-- The file or link at a place. -/
def leaf? (fs : FileSystem) (place : List String) : Option Entry :=
  match fs.holds? place with
  | some .dir | none => none
  | some leaf => some leaf

/-- What the link at a place leads to. -/
def link? (fs : FileSystem) (place : List String) : Option String :=
  match fs.holds? place with
  | some (.link target) => some target
  | _ => none

theorem leaf?_congr {fs' : FileSystem} (h : fs'.holds? place = fs.holds? place) :
    fs'.leaf? place = fs.leaf? place := by
  rw [leaf?, leaf?, h]

theorem link?_of_leaf? : fs.link? place =
    (fs.leaf? place).bind fun leaf => match leaf with
      | .link target => some target
      | _ => none := by
  rw [link?, leaf?]
  cases fs.holds? place with
  | none => rfl
  | some e => cases e <;> rfl

theorem leaf?_below (h : fs.holds? place ≠ some .dir) {rest : List String} (hrest : rest ≠ []) :
    fs.leaf? (place ++ rest) = none := by
  rw [leaf?, holds?_below h hrest]

/-- A new directory is no file and no link. -/
theorem leaf?_put_dir (hplace : place ≠ []) (hnone : fs.holds? place = none) (other : List String) :
    (fs.put place (.dir [])).leaf? other = fs.leaf? other := by
  by_cases hparent : fs.holds? place.dropLast = some .dir
  · by_cases h : place <+: other
    · obtain ⟨rest, rfl⟩ := h
      cases rest with
      | nil =>
        rw [leaf?, leaf?, holds?_put hparent, List.append_nil, hnone]
        rfl
      | cons name rest =>
        have hnot : fs.holds? place ≠ some .dir := fun hdir => by cases hnone.symm.trans hdir
        rw [leaf?, holds?_put hparent]
        exact (leaf?_below hnot (List.cons_ne_nil _ _)).symm
    · exact leaf?_congr (holds?_put_elsewhere h _)
  · exact leaf?_congr (holds?_put_of_no_parent hplace hparent _ other)

/-- A file that is written where nothing or a file was leaves all others. -/
theorem leaf?_put_file (hplace : place ≠ []) (hnot : fs.holds? place ≠ some .dir) (content : ByteArray)
    (modified : Timestamp) (hne : other ≠ place) :
    (fs.put place (.file content modified)).leaf? other = fs.leaf? other := by
  by_cases hparent : fs.holds? place.dropLast = some .dir
  · by_cases h : place <+: other
    · obtain ⟨rest, rfl⟩ := h
      obtain ⟨name, rest, rfl⟩ := List.exists_cons_of_ne_nil fun hnil : rest = [] =>
        hne (hnil ▸ List.append_nil place)
      rw [leaf?, holds?_put hparent]
      exact (leaf?_below hnot (List.cons_ne_nil _ _)).symm
    · exact leaf?_congr (holds?_put_elsewhere h _)
  · exact leaf?_congr (holds?_put_of_no_parent hplace hparent _ other)

/-! ## Changes -/

variable {fs' : FileSystem} {path : String}

theorem bind_eq_ok {ε α β : Type} {a : Except ε α} {f : α → Except ε β} {y : β}
    (h : (a >>= f) = .ok y) : ∃ x, a = .ok x ∧ f x = .ok y := by
  cases a with
  | error e => cases h
  | ok x => exact ⟨x, rfl, h⟩

/-- The place of a node that may not exist yet: where all but the last name lead, and this name. -/
theorem placeOf_eq_ok (h : fs.placeOf path = .ok place) : ∃ front name parent,
    steps path = front ++ [name] ∧ name ≠ "." ∧ name ≠ ".." ∧
      lookUpWithin fs maxLinks (fs.start path) (front ++ ["."]) = .ok parent ∧
        place = parent ++ [name] := by
  obtain ⟨_, _, h⟩ := bind_eq_ok h
  split at h
  · cases h
  · next name rest hsteps =>
    obtain ⟨parent, hparent, h⟩ := bind_eq_ok h
    have hsplit : steps path = rest.reverse ++ [name] := by
      rw [← List.reverse_reverse (steps path), hsteps, List.reverse_cons]
    split at h
    · cases h
    · next hname =>
      rw [Bool.or_eq_true, not_or, beq_iff_eq, beq_iff_eq] at hname
      split at h
      · cases h
      · cases h
        exact ⟨rest.reverse, name, parent, hsplit, hname.1, hname.2, hparent, rfl⟩

theorem placeOf_ne_nil (h : fs.placeOf path = .ok place) : place ≠ [] := by
  obtain ⟨_, name, parent, _, _, _, _, rfl⟩ := placeOf_eq_ok h
  exact List.append_ne_nil_of_right_ne_nil parent (List.cons_ne_nil name [])

theorem makeDir_eq_ok (h : fs.makeDir path = .ok fs') : ∃ place,
    fs.placeOf (Text.trimRightWhile (· == '/') path) = .ok place ∧ fs.holds? place = none ∧
      fs' = fs.put place (.dir []) := by
  obtain ⟨place, hplace, h⟩ := bind_eq_ok h
  split at h
  · cases h
  · next hnone =>
    cases h
    refine ⟨place, hplace, ?_, rfl⟩
    rw [holds?, hnone]
    rfl

/-- What new directories where nothing was leave, making directories leaves. -/
theorem makeDirs_keeps {P : FileSystem → Prop}
    (hP : ∀ fs place, P fs → place ≠ [] → fs.holds? place = none → P (fs.put place (.dir [])))
    (hfs : P fs) (h : fs.makeDirs path = .ok fs') : P fs' := by
  -- levels are made one by one, from the first one that is missing
  have hone : ∀ {fs fs' : FileSystem} {path : String}, P fs → fs.makeDir path = .ok fs' → P fs' := by
    intro fs fs' path hfs h
    obtain ⟨place, hplace, hnone, rfl⟩ := makeDir_eq_ok h
    exact hP fs place hfs (placeOf_ne_nil hplace) hnone
  have hall : ∀ levels (fs fs' : FileSystem) path, P fs →
      makeDirsWithin levels fs path = .ok fs' → P fs' := by
    intro levels
    induction levels with
    | zero => exact fun _ _ _ _ h => by cases h
    | succ levels ih =>
      intro fs fs' path hfs h
      rw [makeDirsWithin] at h
      split at h
      · cases h
        exact hfs
      · split at h
        · next hmade =>
          cases h
          exact hone hfs hmade
        · split at h
          · cases h
          · next above _ =>
            split at h
            · cases h
            · next between habove =>
              have hbetween := ih fs between above hfs habove
              split at h
              · next hmade =>
                cases h
                exact hone hbetween hmade
              · split at h
                · cases h
                  exact hbetween
                · cases h
        · split at h
          · cases h
            exact hfs
          · cases h
  exact hall _ fs fs' path hfs h

theorem leaf?_makeDirs (h : fs.makeDirs path = .ok fs') (place : List String) :
    fs'.leaf? place = fs.leaf? place :=
  makeDirs_keeps (P := fun fs' => fs'.leaf? place = fs.leaf? place)
    (fun _ _ hsame hplace hnone => (leaf?_put_dir hplace hnone place).trans hsame) rfl h

theorem writePlace_eq_ok {n : Nat} (h : fs.writePlace n path = .ok place) :
    place ≠ [] ∧ fs.holds? place ≠ some .dir ∧ fs.link? place = none := by
  induction n generalizing path with
  | zero => cases h
  | succ n ih =>
    rw [writePlace] at h
    split at h
    · cases h
    · obtain ⟨place', hplace', h⟩ := bind_eq_ok h
      split at h
      · exact ih h
      · cases h
      · next hlink hdir =>
        cases h
        refine ⟨placeOf_ne_nil hplace', fun hat => ?_, ?_⟩
        · obtain ⟨es, hes⟩ := holds?_eq_dir.mp hat
          exact hdir es hes
        · rw [link?, holds?]
          cases hnode : fs.at? place with
          | none => rfl
          | some node =>
            cases node with
            | link target => exact absurd hnode (hlink target)
            | _ => rfl

/-- A file is written at the place of its path, unless a link is there. -/
theorem placeOf_of_writePlace {n : Nat} (h : fs.writePlace n path = .ok place) : ∃ own,
    fs.placeOf path = .ok own ∧ (own = place ∨ ∃ target, fs.link? own = some target) := by
  cases n with
  | zero => cases h
  | succ n =>
    rw [writePlace] at h
    split at h
    · cases h
    · obtain ⟨own, hown, h⟩ := bind_eq_ok h
      refine ⟨own, hown, ?_⟩
      split at h
      · next target hlink => exact .inr ⟨target, by rw [link?, holds?, hlink]; rfl⟩
      · cases h
      · cases h
        exact .inl rfl

theorem write_eq_ok {content : ByteArray} (h : fs.write path content = .ok fs') :
    ∃ place, fs.writePlace maxLinks path = .ok place ∧
      fs' = fs.put place (.file content fs.clock) := by
  obtain ⟨place, hplace, h⟩ := bind_eq_ok h
  obtain ⟨_, _, h⟩ := bind_eq_ok h
  cases h
  exact ⟨place, hplace, rfl⟩

theorem removeFile_eq_ok (h : fs.removeFile path = .ok fs') : ∃ place,
    fs.placeOf path = .ok place ∧ fs.holds? place ≠ some .dir ∧ fs' = fs.erase place := by
  obtain ⟨place, hplace, h⟩ := bind_eq_ok h
  split at h
  · cases h
  · cases h
  · next hdir hthere =>
    cases h
    refine ⟨place, hplace, fun hat => ?_, rfl⟩
    obtain ⟨es, hes⟩ := holds?_eq_dir.mp hat
    exact hdir es (Option.some.inj (hthere.symm.trans hes))

theorem removeTree_eq_ok (h : fs.removeTree path = .ok fs') :
    ∃ place, fs.placeOf path = .ok place ∧ fs' = fs.erase place := by
  obtain ⟨place, hplace, h⟩ := bind_eq_ok h
  split at h
  · cases h
  · cases h
  · cases h
    exact ⟨place, hplace, rfl⟩

end FileSystem

namespace DiskChange

/-- The change writes the file at a place, or removes what is there, be it with what is above it. -/
def Reaches (fs : FileSystem) (place : List String) : DiskChange → Prop
  | makeDirs _ => False
  | write path _ => fs.writePlace FileSystem.maxLinks path = .ok place
  | removeFile path | removeTree path => ∃ above, fs.placeOf path = .ok above ∧ above <+: place

/-- A change leaves the files and links that it does not reach, and makes no others. -/
theorem leaf?_of_not_reaches {fs fs' : FileSystem} {place : List String} {c : DiskChange}
    (happly : c.apply fs = .ok fs') (h : ¬ c.Reaches fs place) : fs'.leaf? place = fs.leaf? place := by
  cases c with
  | makeDirs path => exact FileSystem.leaf?_makeDirs happly place
  | write path content =>
    obtain ⟨at', hat, rfl⟩ := FileSystem.write_eq_ok happly
    obtain ⟨hne, hdir, _⟩ := FileSystem.writePlace_eq_ok hat
    exact FileSystem.leaf?_put_file hne hdir content _ fun heq => h (heq ▸ hat)
  | removeFile path =>
    obtain ⟨at', hat, _, rfl⟩ := FileSystem.removeFile_eq_ok happly
    exact FileSystem.leaf?_congr (FileSystem.holds?_erase_elsewhere fun hbegins =>
      h ⟨at', hat, hbegins⟩)
  | removeTree path =>
    obtain ⟨at', hat, rfl⟩ := FileSystem.removeTree_eq_ok happly
    exact FileSystem.leaf?_congr (FileSystem.holds?_erase_elsewhere fun hbegins =>
      h ⟨at', hat, hbegins⟩)

end DiskChange

end CodeAtlas
