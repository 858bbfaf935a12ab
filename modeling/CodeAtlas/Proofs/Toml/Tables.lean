import CodeAtlas.Proofs.Keyed
import CodeAtlas.Proofs.Toml.Values
/-!
# Tables read back

The text of a table is a list of statements: an entry for each value, and a header with its entries for
each table in it. These statements are read one after another, and put together they have the entries
again, each under its key.

Results:
1. `Reads.entry`, `Reads.header`: a text with a statement in front of it.
2. `reads_render`: the statements of the text of a table.
3. `ofStatements?_statementsOf`: what the statements of a table describe.
4. `parse?_render`: the text of a table is read as a table with the same values.
-/

namespace CodeAtlas.Toml

variable {c : Char} {rest : List Char} {v : Toml} {key text : String}
  {entries : List (String × Toml)}

/-! ## Statements -/

/-- A key that needs no quotes. -/
def IsKey (key : String) : Prop := key ≠ "" ∧ ∀ c ∈ key.toList, isBare c = true

instance : DecidablePred IsKey := fun key =>
  decidable_of_iff (key ≠ "" ∧ key.toList.all isBare = true) (by rw [IsKey, List.all_eq_true])

/-- The keys of a table need no quotes, and each is there once. -/
structure HasKeys (entries : List (String × Toml)) : Prop where
  plain : ∀ e ∈ entries, IsKey e.1
  nodup : (Keyed.keys entries).Nodup

/-- So it is with the tables in a table. -/
def HasInnerKeys (entries : List (String × Toml)) : Prop :=
  ∀ e ∈ entries, ∀ inner, e.2 = table inner → HasKeys inner

theorem IsKey.cons (h : IsKey key) :
    ∃ c tail, key.toList = c :: tail ∧ ∀ sign, isBare sign = false → c ≠ sign := by
  obtain ⟨c, tail, hcons⟩ := List.exists_cons_of_ne_nil fun hnil => h.1 (String.toList_eq_nil_iff.mp hnil)
  refine ⟨c, tail, hcons, ?_⟩
  rintro sign hsign rfl
  rw [h.2 c (hcons ▸ List.mem_cons_self)] at hsign
  cases hsign

theorem IsKey.isBlank (h : IsKey key) (hcons : key.toList = c :: rest) : isBlank c = false := by
  obtain ⟨c', tail, hcons', hne⟩ := h.cons
  rw [hcons] at hcons'
  cases hcons'
  rw [Toml.isBlank, Bool.or_eq_false_iff, beq_eq_false_iff_ne, beq_eq_false_iff_ne]
  exact ⟨hne _ (by decide), hne _ (by decide)⟩

theorem readName_append (h : IsKey key) (hc : isBare c = false) (rest : List Char) :
    readName (key.toList ++ c :: rest) = some (key, c :: rest) := by
  obtain ⟨first, tail, hcons, hne⟩ := h.cons
  have hc' : ¬ isBare c = true := by rw [hc]; exact Bool.false_ne_true
  have htake : (key.toList ++ c :: rest).takeWhile isBare = key.toList := by
    rw [List.takeWhile_append_of_pos h.2, List.takeWhile_cons_of_neg hc', List.append_nil]
  have hdrop : (key.toList ++ c :: rest).dropWhile isBare = c :: rest := by
    rw [List.dropWhile_append_of_pos h.2, List.dropWhile_cons_of_neg hc']
  rw [readName]
  · rw [htake, hdrop, String.ofList_toList, if_neg]
    rw [hcons]
    exact Bool.false_ne_true
  · intro rest' heq
    rw [hcons] at heq
    exact hne _ (by decide) (List.cons.inj heq).1
  · intro rest' heq
    rw [hcons] at heq
    exact hne _ (by decide) (List.cons.inj heq).1

/-- A key is read up to the sign behind it. -/
theorem readKey_append (h : IsKey key) (hc : isBare c = false) {sign : Char} (hsign : sign ≠ '.')
    {rest rest' : List Char} (hrest : skipBlanks (c :: rest) = sign :: rest') (fuel : Nat) :
    readKey (fuel + 1) (key.toList ++ c :: rest) = some ([key], sign :: rest') := by
  obtain ⟨first, tail, hcons, _⟩ := h.cons
  have hskip : skipBlanks (key.toList ++ c :: rest) = key.toList ++ c :: rest := by
    rw [hcons]
    exact skipBlanks_cons (h.isBlank hcons) _
  rw [readKey, hskip, readName_append h hc]
  dsimp only [bind, Option.bind_some]
  rw [hrest]
  split
  · next heq => exact absurd (List.cons.inj heq).1 hsign
  · rfl

/-- The statements that a text has, however much fuel there is beyond its length. -/
def Reads (cs : List Char) (statements : List Statement) : Prop :=
  ∀ fuel, cs.length < fuel → readStatements fuel cs = some statements

theorem Reads.nil : Reads [] [] := by
  intro fuel hfuel
  obtain ⟨fuel, rfl⟩ := Nat.exists_eq_succ_of_ne_zero (Nat.ne_zero_of_lt hfuel)
  rfl

/-- A text that begins with a statement. -/
theorem Reads.cons {statement : Statement} {statements : List Statement} {cs : List Char}
    (h : Reads rest statements) (hblank : isBlank c = false) (hc : c ∉ ['\n', '\r', '#'])
    (hread : readStatement (c :: cs) = some (statement, rest)) (hshort : rest.length ≤ cs.length) :
    Reads (c :: cs) (statement :: statements) := by
  have hne : ∀ sign ∈ ['\n', '\r', '#'], c ≠ sign := fun sign hsign heq => hc (heq ▸ hsign)
  intro fuel hfuel
  obtain ⟨fuel, rfl⟩ := Nat.exists_eq_succ_of_ne_zero (Nat.ne_zero_of_lt hfuel)
  rw [List.length_cons] at hfuel
  rw [readStatements, skipBlanks_cons hblank]
  split
  · next heq => cases heq
  · next heq => exact absurd (List.cons.inj heq).1 (hne _ (by decide))
  · next heq => exact absurd (List.cons.inj heq).1 (hne _ (by decide))
  · next heq => exact absurd (List.cons.inj heq).1 (hne _ (by decide))
  · rw [hread]
    dsimp only [bind, Option.bind_some]
    rw [h fuel (by omega)]
    rfl

theorem readStatement_entry (hkey : IsKey key) (hv : ReadsAs text.toList v) (rest : List Char) :
    readStatement (key.toList ++ ' ' :: '=' :: ' ' :: (text.toList ++ '\n' :: rest)) =
      some (.entry [key] v, rest) := by
  obtain ⟨first, tail, hfirst, hne⟩ := hkey.cons
  obtain ⟨c, after, hc, hbegins⟩ := hv.begins
  have hblanks : skipBlanks (' ' :: (text.toList ++ '\n' :: rest)) = text.toList ++ '\n' :: rest := by
    rw [hc]
    exact skipBlanks_cons hbegins.blank _
  have hvalue := hv.reads (2 * (' ' :: (text.toList ++ '\n' :: rest)).length + 2) ('\n' :: rest)
    (by simp only [List.length_cons, List.length_append]; omega) (.line rest)
  rw [readStatement, readKey_append hkey rfl (by decide) rfl]
  · simp only [bind, Option.bind_some, hblanks, hvalue]
    rfl
  · intro rest' heq
    rw [hfirst] at heq
    exact hne _ (by decide) (List.cons.inj heq).1
  · intro rest' heq
    rw [hfirst] at heq
    exact hne _ (by decide) (List.cons.inj heq).1

/-- A text with a line for a value in front of it. -/
theorem Reads.entry {statements : List Statement} (h : Reads rest statements) (hkey : IsKey key)
    (hv : ReadsAs text.toList v) :
    Reads ((key ++ " = " ++ text ++ "\n").toList ++ rest) (.entry [key] v :: statements) := by
  obtain ⟨first, tail, hfirst, hne⟩ := hkey.cons
  have hline : (key ++ " = " ++ text ++ "\n").toList ++ rest =
      key.toList ++ ' ' :: '=' :: ' ' :: (text.toList ++ '\n' :: rest) := by
    simp [String.toList_append]
  have hread := readStatement_entry hkey hv rest
  rw [hline]
  rw [hfirst, List.cons_append] at hread ⊢
  refine h.cons (hkey.isBlank hfirst) ?_ hread ?_
  · intro hmem
    have hbare : ['\n', '\r', '#'].all (!isBare ·) = true := by decide
    exact hne first ((Bool.not_eq_true' _).mp (List.all_eq_true.mp hbare first hmem)) rfl
  · simp only [List.length_cons, List.length_append]
    omega

/-- A text with an empty line and a header in front of it. -/
theorem Reads.header {statements : List Statement} (h : Reads rest statements) (hkey : IsKey key) :
    Reads (("\n[" ++ key ++ "]\n").toList ++ rest) (.header [key] :: statements) := by
  obtain ⟨first, tail, hfirst, hne⟩ := hkey.cons
  have hline : ("\n[" ++ key ++ "]\n").toList ++ rest =
      '\n' :: '[' :: (key.toList ++ ']' :: '\n' :: rest) := by
    simp [String.toList_append]
  have hread : readStatement ('[' :: (key.toList ++ ']' :: '\n' :: rest)) =
      some (.header [key], rest) := by
    rw [readStatement, readKey_append hkey rfl (by decide) rfl]
    · rfl
    · intro rest' heq
      rw [hfirst] at heq
      exact hne _ (by decide) (List.cons.inj heq).1
  have hheader : Reads ('[' :: (key.toList ++ ']' :: '\n' :: rest)) (.header [key] :: statements) := by
    refine h.cons rfl (by decide) hread ?_
    simp only [List.length_cons, List.length_append]
    omega
  rw [hline]
  intro fuel hfuel
  obtain ⟨fuel, rfl⟩ := Nat.exists_eq_succ_of_ne_zero (Nat.ne_zero_of_lt hfuel)
  exact hheader fuel (Nat.lt_of_succ_lt_succ hfuel)

/-! ## The statements of a table -/

/-- The entries that are no tables. -/
def values (entries : List (String × Toml)) : List (String × Toml) :=
  entries.filter fun (_, v) => !v.isTable

/-- The statements of single values. -/
def entryStatements (entries : List (String × Toml)) : List Statement :=
  (values entries).map fun (key, v) => .entry [key] v

/-- The statements of the tables in a table. -/
def tableStatements (entries : List (String × Toml)) : List Statement :=
  entries.flatMap fun (key, v) =>
    match v with
    | table inner => .header [key] :: entryStatements inner
    | _ => []

theorem reads_renderEntries {statements : List Statement} (h : Reads rest statements)
    (hkeys : ∀ e ∈ entries, IsKey e.1) (hrender : renderEntries? entries = some text) :
    Reads (text.toList ++ rest) (entryStatements entries ++ statements) := by
  obtain ⟨lines, hlines, htext⟩ := Option.bind_eq_some_iff.mp hrender
  cases htext
  clear hrender
  have hvalues : ∀ e ∈ values entries, IsKey e.1 := fun e he => hkeys e (List.mem_filter.mp he).1
  rw [show (entries.filter fun (_, v) => !v.isTable) = values entries from rfl] at hlines
  rw [entryStatements]
  generalize values entries = shown at hvalues hlines ⊢
  induction shown generalizing lines with
  | nil =>
    cases hlines
    exact h
  | cons e more ih =>
    obtain ⟨key, v⟩ := e
    obtain ⟨hkey, hmore⟩ := List.forall_mem_cons.mp hvalues
    rw [List.mapM_cons] at hlines
    obtain ⟨line, hline, hlines⟩ := Option.bind_eq_some_iff.mp hlines
    obtain ⟨text, htext, hline⟩ := Option.bind_eq_some_iff.mp hline
    obtain ⟨lines, hall, hlines⟩ := Option.bind_eq_some_iff.mp hlines
    cases hline
    cases hlines
    rw [String.join_cons, String.toList_append, List.append_assoc]
    exact (ih lines hmore hall).entry hkey (readsAs_renderValue htext)

theorem reads_renderTables {statements : List Statement} (h : Reads rest statements)
    (hkeys : ∀ e ∈ entries, IsKey e.1) (hinner : HasInnerKeys entries)
    (hrender : renderTables? entries = some text) :
    Reads (text.toList ++ rest) (tableStatements entries ++ statements) := by
  obtain ⟨tables, htables, htext⟩ := Option.bind_eq_some_iff.mp hrender
  cases htext
  clear hrender
  induction entries generalizing tables with
  | nil =>
    cases htables
    exact h
  | cons e more ih =>
    obtain ⟨key, v⟩ := e
    obtain ⟨hkey, hmore⟩ := List.forall_mem_cons.mp hkeys
    obtain ⟨hfirst, hothers⟩ := List.forall_mem_cons.mp hinner
    rw [List.mapM_cons] at htables
    obtain ⟨shown, hshown, htables⟩ := Option.bind_eq_some_iff.mp htables
    obtain ⟨tables, hall, htables⟩ := Option.bind_eq_some_iff.mp htables
    cases htables
    have hrest := ih hmore hothers tables hall
    rw [String.join_cons, String.toList_append, List.append_assoc]
    cases v with
    | table inner =>
      obtain ⟨text, htext, hshown⟩ := Option.bind_eq_some_iff.mp hshown
      cases hshown
      have hstatements : tableStatements ((key, table inner) :: more) =
          .header [key] :: entryStatements inner ++ tableStatements more := rfl
      rw [String.toList_append, List.append_assoc, hstatements, List.cons_append, List.cons_append,
        List.append_assoc]
      exact (reads_renderEntries hrest (hfirst inner rfl).plain htext).header hkey
    | _ =>
      cases hshown
      exact hrest

/-- The statements of the text of a table. -/
theorem reads_render (hkeys : ∀ e ∈ entries, IsKey e.1) (hinner : HasInnerKeys entries)
    (hrender : render? entries = some text) :
    Reads text.toList (entryStatements entries ++ tableStatements entries) := by
  obtain ⟨lines, hlines, h⟩ := Option.bind_eq_some_iff.mp hrender
  obtain ⟨tables, htables, h⟩ := Option.bind_eq_some_iff.mp h
  cases h
  have htables := reads_renderTables Reads.nil hkeys hinner htables
  rw [List.append_nil, List.append_nil] at htables
  rw [String.toList_append]
  exact reads_renderEntries htables hkeys hlines

/-! ## What the statements describe -/

/-- The drafts of the values of a table. -/
def valueDrafts (entries : List (String × Toml)) : List (String × Draft) :=
  (values entries).map fun (key, v) => (key, .value v)

/-- The drafts of the tables in a table. -/
def tableDrafts (entries : List (String × Toml)) : List (String × Draft) :=
  entries.filterMap fun (key, v) =>
    match v with
    | table inner => some (key, .table false false (Keyed.ofList (valueDrafts inner)))
    | _ => none

theorem valueDrafts_cons (hv : v.isTable = false) (more : List (String × Toml)) :
    valueDrafts ((key, v) :: more) = (key, .value v) :: valueDrafts more := by
  rw [valueDrafts, values, List.filter_cons_of_pos (by simpa using hv)]
  rfl

theorem tableDrafts_cons (hv : v.isTable = false) (more : List (String × Toml)) :
    tableDrafts ((key, v) :: more) = tableDrafts more := by
  cases v <;> first | rfl | cases hv

/-- Each key has a draft of its value or of its table. -/
theorem keys_drafts_perm (entries : List (String × Toml)) :
    (Keyed.keys (valueDrafts entries ++ tableDrafts entries)).Perm (Keyed.keys entries) := by
  induction entries with
  | nil => exact .refl _
  | cons e more ih =>
    obtain ⟨key, v⟩ := e
    by_cases hv : v.isTable = true
    · cases v with
      | table inner =>
        refine (List.perm_middle.map Prod.fst).trans ?_
        exact ih.cons key
      | _ => cases hv
    · rw [Bool.not_eq_true] at hv
      rw [valueDrafts_cons hv, tableDrafts_cons hv]
      exact ih.cons key

theorem keys_valueDrafts (entries : List (String × Toml)) :
    Keyed.keys (valueDrafts entries) = Keyed.keys (values entries) := by
  rw [valueDrafts, Keyed.keys, List.map_map]
  rfl

/-- Values and tables of different keys are under different keys. -/
theorem nodup_drafts (h : (Keyed.keys entries).Nodup) : (Keyed.keys (values entries)).Nodup ∧
    (Keyed.keys (tableDrafts entries)).Nodup ∧
      ∀ key ∈ Keyed.keys (tableDrafts entries), key ∉ Keyed.keys (values entries) := by
  have hall := (keys_drafts_perm entries).nodup_iff.mpr h
  rw [Keyed.keys, List.map_append, ← Keyed.keys, ← Keyed.keys, keys_valueDrafts] at hall
  obtain ⟨hvalues, htables, hdisjoint⟩ := List.nodup_append.mp hall
  exact ⟨hvalues, htables, fun key hkey hmem => hdisjoint key hmem key hkey rfl⟩

/-- The entries of a table, one after another. -/
theorem foldlM_entryStatements {b : Build} {implicit : Bool} {acc : List (String × Draft)}
    (hcurrent : b.current = .table implicit false acc)
    (hnodup : (Keyed.keys (values entries)).Nodup)
    (hfresh : ∀ key ∈ Keyed.keys (values entries), Keyed.get? key acc = none) :
    (entryStatements entries).foldlM Build.add b =
      some { b with
        current := .table implicit false
          ((valueDrafts entries).foldl (fun acc (key, d) => Keyed.insert key d acc) acc) } := by
  rw [entryStatements, valueDrafts]
  generalize values entries = shown at hnodup hfresh ⊢
  induction shown generalizing b acc with
  | nil =>
    rw [List.map_nil, List.map_nil, List.foldl_nil, ← hcurrent]
    rfl
  | cons e more ih =>
    obtain ⟨key, v⟩ := e
    obtain ⟨hkey, hmore⟩ := List.nodup_cons.mp hnodup
    obtain ⟨hfirst, hothers⟩ := List.forall_mem_cons.mp hfresh
    have hdefine : b.current.define [key] v =
        some (.table implicit false (Keyed.insert key (.value v) acc)) := by
      rw [hcurrent]
      change Draft.addEntry false key (.value v) (.table implicit false acc) = _
      rw [Draft.addEntry, Keyed.contains, hfirst]
      rfl
    have hadd : b.add (.entry [key] v) =
        some { b with current := .table implicit false (Keyed.insert key (.value v) acc) } := by
      rw [Build.add, hdefine]
      rfl
    have hfresh' : ∀ k ∈ Keyed.keys more, Keyed.get? k (Keyed.insert key (.value v) acc) = none := by
      intro k hk
      have hne : key ≠ k := fun heq => hkey (heq ▸ hk)
      rw [Keyed.get?_insert, if_neg hne, hothers k hk]
    rw [List.map_cons, List.foldlM_cons, hadd]
    exact ih rfl hmore hfresh'

/-- A header puts away the table before and begins another one. -/
theorem add_header {b : Build} {acc : List (String × Draft)}
    (hclose : b.close = some (.table false false acc)) (hkey : Keyed.get? key acc = none) :
    b.add (.header [key]) = some { root := .table false false acc, place := [key] } := by
  have htake : Build.takeImplicit key (.table false false acc) =
      some (.empty, .table false false acc) := by
    rw [Build.takeImplicit, hkey]
  rw [Build.add, hclose]
  change Build.openTable [key] (.table false false acc) = _
  rw [Build.openTable]
  change ((Build.takeImplicit key (.table false false acc)).bind _) = _
  rw [htake]
  change (((Build.takeImplicit key (.table false false acc)).map (·.2)).bind _) = _
  rw [htake]
  rfl

/-- A table behind its header is put under its key. -/
theorem close_table {acc inner : List (String × Draft)} (hkey : Keyed.get? key acc = none)
    {b : Build} (hb : b = ⟨.table false false acc, [key], false, .table false false inner⟩) :
    b.close = some (.table false false (Keyed.insert key (.table false false inner) acc)) := by
  have hput : Build.putTable key (.table false false inner) (.table false false acc) =
      some (.table false false (Keyed.insert key (.table false false inner) acc)) := by
    rw [Build.putTable, hkey]
  rw [hb]
  exact hput

theorem foldlM_tableStatements {b : Build} {acc : List (String × Draft)}
    (hclose : b.close = some (.table false false acc))
    (hnodup : (Keyed.keys (tableDrafts entries)).Nodup)
    (hinner : HasInnerKeys entries)
    (hfresh : ∀ key ∈ Keyed.keys (tableDrafts entries), Keyed.get? key acc = none) :
    ∃ b', (tableStatements entries).foldlM Build.add b = some b' ∧
      b'.close = some (.table false false
        ((tableDrafts entries).foldl (fun acc (key, d) => Keyed.insert key d acc) acc)) := by
  induction entries generalizing b acc with
  | nil => exact ⟨b, rfl, hclose⟩
  | cons e more ih =>
    obtain ⟨key, v⟩ := e
    obtain ⟨hfirst, hothers⟩ := List.forall_mem_cons.mp hinner
    cases v with
    | table inner =>
      obtain ⟨hkey, hmore⟩ := List.nodup_cons.mp hnodup
      obtain ⟨hnone, hfresh⟩ := List.forall_mem_cons.mp hfresh
      have hshown := (nodup_drafts (hfirst inner rfl).nodup).1
      have hfree : ∀ k ∈ Keyed.keys (values inner), Keyed.get? k ([] : List (String × Draft)) = none :=
        fun _ _ => rfl
      -- the entries of a table are built up before its header is left
      have hentries := foldlM_entryStatements (b := { root := .table false false acc, place := [key] })
        rfl hshown hfree
      have hfresh' : ∀ k ∈ Keyed.keys (tableDrafts more),
          Keyed.get? k (Keyed.insert key (.table false false (Keyed.ofList (valueDrafts inner))) acc) =
            none := by
        intro k hk
        have hne : key ≠ k := fun heq => hkey (heq ▸ hk)
        rw [Keyed.get?_insert, if_neg hne, hfresh k hk]
      obtain ⟨b', hrun, hend⟩ := ih (close_table hnone rfl) hmore hothers hfresh'
      refine ⟨b', ?_, hend⟩
      change (Statement.header [key] :: entryStatements inner ++ tableStatements more).foldlM
        Build.add b = _
      rw [List.cons_append, List.foldlM_cons, add_header hclose hnone]
      change (entryStatements inner ++ tableStatements more).foldlM Build.add _ = _
      rw [List.foldlM_append, hentries]
      exact hrun
    | _ => exact ih hclose hnodup hothers hfresh

/-- The drafts that the statements of a table leave. -/
theorem ofStatements?_statements (hnodup : (Keyed.keys entries).Nodup)
    (hinner : HasInnerKeys entries) :
    ofStatements? (entryStatements entries ++ tableStatements entries) =
      some (Draft.table false false
        (Keyed.ofList (valueDrafts entries ++ tableDrafts entries))).finish := by
  obtain ⟨hvalues, htables, hdisjoint⟩ := nodup_drafts hnodup
  have hfirst : (entryStatements entries).foldlM Build.add {} =
      some { current := .table false false (Keyed.ofList (valueDrafts entries)) } :=
    foldlM_entryStatements rfl hvalues (fun _ _ => rfl)
  have hfresh : ∀ key ∈ Keyed.keys (tableDrafts entries),
      Keyed.get? key (Keyed.ofList (valueDrafts entries)) = none := by
    intro key hkey
    rw [Keyed.get?_eq_none_iff, Keyed.mem_keys_ofList, keys_valueDrafts]
    exact hdisjoint key hkey
  obtain ⟨b, hrun, hclose⟩ := foldlM_tableStatements (b := {
    current := .table false false (Keyed.ofList (valueDrafts entries)) }) rfl htables hinner hfresh
  rw [ofStatements?, List.foldlM_append, hfirst]
  change (((tableStatements entries).foldlM Build.add _).bind _) = _
  rw [hrun]
  change (b.close.bind _) = _
  rw [hclose, Keyed.ofList, Keyed.ofList, List.foldl_append]
  rfl

/-! ## Looking up -/

theorem finishEntries_eq_map (entries : List (String × Draft)) :
    Draft.finishEntries entries = entries.map fun (key, d) => (key, d.finish) := by
  induction entries with
  | nil => rfl
  | cons e more ih =>
    obtain ⟨key, d⟩ := e
    rw [Draft.finishEntries, ih]
    rfl

/-- A table as it is read: its values in the order of their keys. -/
def tidy : Toml → Toml
  | table entries => table (Keyed.ofList (values entries))
  | v => v

theorem finish_valueDrafts (entries : List (String × Toml)) :
    (Draft.table false false (Keyed.ofList (valueDrafts entries))).finish =
      tidy (table entries) := by
  rw [Draft.finish, finishEntries_eq_map, ← Keyed.ofList_map, valueDrafts, List.map_map, tidy]
  congr 2
  exact List.map_id'' (fun _ => rfl) _

/-- Each value and each table is found under its key. -/
theorem get?_drafts (hnodup : (Keyed.keys entries).Nodup) (key : String) :
    (Keyed.get? key (valueDrafts entries ++ tableDrafts entries)).map Draft.finish =
      (Keyed.get? key entries).map tidy := by
  rw [Keyed.get?_append]
  induction entries with
  | nil => rfl
  | cons e more ih =>
    obtain ⟨k, v⟩ := e
    obtain ⟨_, _, hdisjoint⟩ := nodup_drafts hnodup
    have hothers := ih (List.nodup_cons.mp hnodup).2
    rw [Keyed.get?_cons]
    -- an entry is among the drafts of values or among those of tables, and never in both
    by_cases hv : v.isTable = true
    · cases v with
      | table inner =>
        have hvalues : valueDrafts ((k, table inner) :: more) = valueDrafts more := rfl
        have htables : tableDrafts ((k, table inner) :: more) =
          (k, .table false false (Keyed.ofList (valueDrafts inner))) :: tableDrafts more := rfl
        rw [hvalues, htables, Keyed.get?_cons]
        by_cases hkey : k = key
        · have hnone : Keyed.get? key (valueDrafts more) = none := by
            rw [Keyed.get?_eq_none_iff, keys_valueDrafts, ← hkey]
            exact hdisjoint k (by rw [htables]; exact List.mem_cons_self)
          rw [if_pos hkey, if_pos hkey, hnone]
          exact congrArg some (finish_valueDrafts inner)
        · rw [if_neg hkey, if_neg hkey]
          exact hothers
      | _ => cases hv
    · rw [Bool.not_eq_true] at hv
      have htidy : tidy v = v := by cases v <;> first | rfl | cases hv
      rw [valueDrafts_cons hv, tableDrafts_cons hv, Keyed.get?_cons]
      by_cases hkey : k = key
      · rw [if_pos hkey, if_pos hkey, Option.map_some, htidy]
        rfl
      · rw [if_neg hkey, if_neg hkey]
        exact hothers

/-- A text of statements does not begin with a byte order mark. -/
theorem Reads.ne_mark {statements : List Statement} {cs : List Char} (h : Reads cs statements)
    (rest : List Char) : cs ≠ '\uFEFF' :: rest := by
  rintro rfl
  have hnone : readStatements (rest.length + 2) ('\uFEFF' :: rest) = none := rfl
  have hsome := h (rest.length + 2) (Nat.lt_succ_self _)
  rw [hnone] at hsome
  cases hsome

/-- The text of a table is read as a table that has each value, and each table, under its key. -/
theorem parse?_render (hkeys : HasKeys entries) (hinner : HasInnerKeys entries)
    (hrender : render? entries = some text) : ∃ es, parse? text = some (.table es) ∧
      ∀ key, Keyed.get? key es = (Keyed.get? key entries).map tidy := by
  have hreads := reads_render hkeys.plain hinner hrender
  have hdrafts := (keys_drafts_perm entries).nodup_iff.mpr hkeys.nodup
  refine ⟨Draft.finishEntries (Keyed.ofList (valueDrafts entries ++ tableDrafts entries)), ?_,
    fun key => ?_⟩
  · rw [parse?]
    split
    · next rest hcs => exact absurd hcs (hreads.ne_mark rest)
    · rw [hreads _ (Nat.lt_succ_self _), Option.bind_some, ofStatements?_statements hkeys.nodup hinner,
        Draft.finish]
  · rw [finishEntries_eq_map, Keyed.get?_map, Keyed.get?_ofList hdrafts, get?_drafts hkeys.nodup]

end CodeAtlas.Toml
