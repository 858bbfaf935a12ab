import CodeAtlas.Proofs.Yaml.Texts
/-!
# Values read back

What is written for a value is read back, up to what follows its last line: a list item by item, a table
entry by entry, with a key on the line of its colon or on lines of its own. What follows a value begins in a
column that does not belong to it, or it is nothing.

Results:
1. `ReadsNode`, `ReadsItems`, `ReadsEntries`, `ReadsValue`: how a value, items, entries, and a value with the
   entries below it are read.
2. `ReadsItems.readsNode`, `ReadsEntries.readsNode`: a list and a table behind a sign or a colon.
3. `readsNode_renderNode`: every value is read back from its text.
4. `parse?_render`: a table is read back from its document.
-/

namespace CodeAtlas.Yaml

open Cursor

variable {x : Char} {s : String} {text more rest : List Char} {c after : Cursor}
  {n indent column : Nat} {v key : Yaml} {items : List Yaml} {entries : List (Yaml × Yaml)}
  {position : Position}

/-! ## What follows a value -/

/-- No item of a list begins here. -/
def NoItem (rest : List Char) : Prop := ∀ c : Cursor, c.chars = rest → c.isSign '-' = false

theorem noItem_cons (h : x ≠ '-') : NoItem (x :: rest) := fun _ hchars => isSign_cons hchars h

theorem noItem_nil : NoItem [] := fun c hchars => by
  rw [isSign, hchars]

/-- A sign that stands for itself is no mark. -/
theorem isMark_sign {y : Char} (hchars : c.chars = x :: more) (hmore : endsWord more = true)
    (hy : (isBlank y || isBreak y) = false) : c.isMark y = false := by
  rw [isMark, hchars]
  refine Bool.and_eq_false_iff.mpr (.inr ?_)
  split
  · next a b d others heq =>
    cases heq
    by_cases hb : b = y
    · have hends : (isBlank b || isBreak b) = true := hmore
      rw [hb, hy] at hends
      cases hends
    · rw [beq_eq_false_iff_ne.mpr hb, Bool.and_false]
      rfl
  · rfl

theorem atEnd_sign (hchars : c.chars = x :: more) (hmore : endsWord more = true) :
    c.atEnd = false := by
  rw [Cursor.atEnd, isMark_sign hchars hmore rfl, isMark_sign hchars hmore rfl, hchars]
  rfl

/-- How a value behind a sign or a colon is read, up to what follows its last line. -/
structure ReadsNode (indent : Nat) (position : Position) (text : List Char) (v : Yaml) : Prop where
  written : IsWritten text
  ends : ∀ rest, endsWord (text ++ rest) = true
  ne_nil : text ≠ []
  reads : ∀ (handles : TagHandles) (fuel : Nat) (listBelow : Bool) ⦃n : Nat⦄ ⦃c : Cursor⦄
      ⦃rest : List Char⦄,
    c.chars = text ++ (margin n ++ rest) → n ≤ indent → indent < c.column → IsToken rest →
    (position = .behindSign → c.column = indent + 1 ∧ c.mayBegin = true) →
    (position = .behindKey → listBelow = true ∧ (n = indent → NoItem rest)) →
    4 * text.length ≤ fuel →
    ∃ after, readNode handles (indent + 1) listBelow fuel (c.skipSpace false) = some (v, after) ∧
      Settled (after.skipSpace false) n rest

/-- How the items of a list are read from the first sign on. -/
structure ReadsItems (column : Nat) (text : List Char) (items : List Yaml) : Prop where
  written : IsWritten text
  begins : ∃ more, text = '-' :: more ∧ ∀ rest, endsWord (more ++ rest) = true
  reads : ∀ (handles : TagHandles) (fuel : Nat) (isBelowKey : Bool) (acc : List Yaml) ⦃n : Nat⦄
      ⦃c : Cursor⦄ ⦃rest : List Char⦄,
    c.chars = text ++ (margin n ++ rest) → c.column = column →
    (n < column ∨ (n = column ∧ isBelowKey = true ∧ NoItem rest)) → IsToken rest →
    4 * text.length ≤ fuel →
    ∃ after, readItems handles column isBelowKey fuel acc c =
      some (.seq (acc.reverse ++ items), after) ∧ Settled after n rest

/-- What follows the entries in a column is no entry: it stands before the column, or it is
nothing. -/
def EndsTable (column n : Nat) (rest : List Char) : Prop := n < column ∨ (n = column ∧ rest = [])

theorem EndsTable.le (h : EndsTable column n rest) : n ≤ column :=
  h.elim Nat.le_of_lt fun h => Nat.le_of_eq h.1

theorem EndsTable.noItem (h : EndsTable column n rest) (hn : n = column) : NoItem rest := by
  rcases h with h | ⟨_, rfl⟩
  · omega
  · exact noItem_nil

theorem EndsTable.ends (h : EndsTable column n rest) (hsettled : Settled c n rest) :
    (c.atEnd || decide (c.column < column)) = true := by
  rcases h with h | ⟨_, rfl⟩
  · simp [hsettled.column, h]
  · simp [Cursor.atEnd, hsettled.chars]

/-- How the entries of a table are read from the first key on. -/
structure ReadsEntries (column : Nat) (text : List Char) (entries : List (Yaml × Yaml)) : Prop where
  written : IsWritten text
  token : ∀ rest, IsToken (text ++ rest)
  noItem : ∀ rest, NoItem (text ++ rest)
  noMark : ∀ ⦃c : Cursor⦄ rest, c.chars = text ++ rest →
    c.isMark '-' = false ∧ c.isMark '.' = false
  noDirective : ∀ ⦃c : Cursor⦄ rest, c.chars = text ++ rest → c.isAt '%' = false
  ne_nil : text ≠ []
  reads : ∀ (handles : TagHandles) (fuel : Nat) (acc : List (Yaml × Yaml)) ⦃n : Nat⦄ ⦃c : Cursor⦄
      ⦃rest : List Char⦄,
    c.chars = text ++ (margin n ++ rest) → c.column = column → c.mayBegin = true →
    EndsTable column n rest → IsToken rest → 4 * text.length ≤ fuel →
    ∃ after, readEntries handles column fuel acc c = some (.map (acc.reverse ++ entries), after) ∧
      Settled after n rest
  starts : ∀ (handles : TagHandles) (floor fuel : Nat) (listBelow : Bool) ⦃n : Nat⦄ ⦃c : Cursor⦄
      ⦃rest : List Char⦄,
    c.chars = text ++ (margin n ++ rest) → c.column = column → c.mayBegin = true →
    EndsTable column n rest → floor ≤ column → IsToken rest → 4 * text.length < fuel →
    ∃ after, readNode handles floor listBelow fuel c = some (.map entries, after) ∧
      Settled after n rest

/-! ## Single values -/

theorem ReadsWord.readsNode (h : ReadsWord indent text v) (position : Position) :
    ReadsNode indent position (' ' :: text) v := by
  refine ⟨.cons rfl h.written, fun _ => rfl, List.cons_ne_nil _ _, ?_⟩
  intro handles fuel listBelow n c rest hchars hn hcolumn hrest _ _ hfuel
  have htoken := h.token (margin n ++ rest)
  have hspace : c.chars = margin 1 ++ (text ++ (margin n ++ rest)) := hchars
  rw [skipSpace_margin hspace htoken]
  generalize hstart : c.behind (margin 1) (text ++ (margin n ++ rest)) = start
  have hafter : indent < start.column := by
    rw [← hstart, behind_column, columnAfter_margin]
    omega
  obtain ⟨fuel, rfl⟩ : ∃ k, fuel = k + 1 + 1 := ⟨fuel - 2, by simp at hfuel; omega⟩
  obtain ⟨hbegins, after, hread, hsettled⟩ :=
    h.reads handles fuel (c := start) (hstart ▸ rfl) hn hafter hrest
  exact ⟨after, readNode_value hbegins hafter hread, hsettled⟩

/-- A value behind a sign at the beginning of the line. -/
theorem ReadsNode.behind_sign (h : ReadsNode column .behindSign text v) (handles : TagHandles)
    {fuel : Nat} (listBelow : Bool) (hx : isBreak x = false)
    (hchars : c.chars = x :: (text ++ (margin n ++ rest))) (hcolumn : c.column = column)
    (hn : n ≤ column) (hrest : IsToken rest) (hfuel : 4 * text.length ≤ fuel) :
    ∃ after, readNode handles (column + 1) listBelow fuel
      ((c.next.setMayBegin true).skipSpace false) = some (v, after) ∧
        Settled (after.skipSpace false) n rest := by
  have hstart : (c.next.setMayBegin true).column = column + 1 := by
    rw [setMayBegin_column, next_eq hchars, behind_column,
      columnAfter_of_no_break _ (by simpa using hx), hcolumn]
    rfl
  refine h.reads handles fuel listBelow ?_ hn (by omega) hrest (fun _ => ⟨hstart, rfl⟩)
    (fun h => by cases h) hfuel
  rw [setMayBegin_chars, next_eq hchars, behind_chars]

/-- Behind a key a collection begins on the next line, and behind a sign on the same one. -/
theorem settled_lead {k : Nat} (htoken : IsToken rest) (hchars : c.chars = position.lead k ++ rest)
    (hposition : position = .behindSign → c.column + 1 = k ∧ c.mayBegin = true) :
    Settled (c.skipSpace false) k rest := by
  cases position with
  | behindKey => exact settled_line htoken hchars
  | behindSign =>
    obtain ⟨rfl, hmayBegin⟩ := hposition rfl
    have hspace : c.chars = margin 1 ++ rest := hchars
    rw [skipSpace_margin hspace htoken]
    exact ⟨rfl, columnAfter_margin _ _, hmayBegin⟩

theorem endsWord_lead (position : Position) (k : Nat) (rest : List Char) :
    endsWord (position.lead k ++ rest) = true := by
  cases position <;> rfl

theorem length_lead_pos (position : Position) (k : Nat) : 0 < (position.lead k).length := by
  cases position <;> exact Nat.succ_pos _

/-! ## Lists -/

/-- The last item of a list. -/
theorem ReadsNode.readsItems_last (h : ReadsNode column .behindSign text v) :
    ReadsItems column ('-' :: text) [v] := by
  refine ⟨.cons rfl h.written, ⟨text, rfl, h.ends⟩, ?_⟩
  intro handles fuel isBelowKey acc n c rest hchars hcolumn hn hrest hfuel
  obtain ⟨fuel, rfl⟩ : ∃ k, fuel = k + 1 := ⟨fuel - 1, by simp at hfuel; omega⟩
  have hlength : 4 * text.length ≤ fuel := by simp at hfuel; omega
  obtain ⟨after, hread, hsettled⟩ := h.behind_sign handles false rfl hchars hcolumn (by omega) hrest
    hlength
  refine ⟨after.skipSpace false, ?_, hsettled⟩
  rw [readItems]
  simp only [Option.bind_eq_bind, hread, Option.bind_some]
  generalize after.skipSpace false = next at hsettled
  rcases hn with hn | ⟨hn, hbelow, hitem⟩
  · have hless : next.column < column := by rw [hsettled.column]; exact hn
    simp [hless]
  · have hsame : next.column = column := by rw [hsettled.column]; exact hn
    simp [hsame, hitem next hsettled.chars, hbelow]

/-- An item with items below it. -/
theorem ReadsNode.readsItems_cons (h : ReadsNode column .behindSign text v)
    (hmore : ReadsItems column more items) :
    ReadsItems column ('-' :: text ++ (margin column ++ more)) (v :: items) := by
  obtain ⟨others, hothers, hends⟩ := hmore.begins
  refine ⟨(IsWritten.cons rfl h.written).append ((isWritten_margin _).append hmore.written),
    ⟨text ++ (margin column ++ more), rfl, fun rest => ?_⟩, ?_⟩
  · rw [List.append_assoc]
    exact h.ends _
  intro handles fuel isBelowKey acc n c rest hchars hcolumn hn hrest hfuel
  obtain ⟨fuel, rfl⟩ : ∃ k, fuel = k + 1 := ⟨fuel - 1, by simp at hfuel; omega⟩
  have hlength : 4 * text.length ≤ fuel ∧ 4 * more.length ≤ fuel := by
    simp only [List.length_append, List.length_cons, length_margin] at hfuel
    omega
  have hitem : c.chars = '-' :: (text ++ (margin column ++ (more ++ (margin n ++ rest)))) := by
    rw [hchars]
    simp
  have htoken : IsToken (more ++ (margin n ++ rest)) := by
    rw [hothers, List.cons_append]
    exact .cons rfl rfl (by decide)
  obtain ⟨after, hread, hsettled⟩ := h.behind_sign handles false rfl hitem hcolumn
    (Nat.le_refl column) htoken hlength.1
  rw [readItems]
  simp only [Option.bind_eq_bind, hread, Option.bind_some]
  generalize after.skipSpace false = next at hsettled
  have hfirst : next.chars = '-' :: (others ++ (margin n ++ rest)) := by
    rw [hsettled.chars, hothers, List.cons_append]
  have hsign : next.isSign '-' = true := by
    rw [isSign, hfirst]
    exact (Bool.and_eq_true _ _).mpr ⟨rfl, hends _⟩
  have hend := atEnd_sign hfirst (hends _)
  obtain ⟨after', hread', hsettled'⟩ := hmore.reads handles fuel isBelowKey (v :: acc)
    hsettled.chars hsettled.column hn hrest hlength.2
  refine ⟨after', ?_, hsettled'⟩
  simp only [hend, hsettled.column, Nat.lt_irrefl, hsign, hsettled.mayBegin, hread']
  simp

/-- A list behind a key or a sign. -/
theorem ReadsItems.readsNode (position : Position)
    (h : ReadsItems (position.listIndent indent) text items) :
    ReadsNode indent position (position.lead (position.listIndent indent) ++ text)
      (.seq items) := by
  obtain ⟨others, hothers, hends⟩ := h.begins
  refine ⟨(isWritten_lead _ _).append h.written,
    fun rest => (List.append_assoc _ text rest).symm ▸ endsWord_lead .., ?_, ?_⟩
  · rw [hothers]
    simp
  intro handles fuel listBelow n c rest hchars hn hcolumn hrest hsignal hbelow hfuel
  have hlength : 4 * text.length < fuel := by
    have := length_lead_pos position (position.listIndent indent)
    simp only [List.length_append] at hfuel
    omega
  obtain ⟨fuel, rfl⟩ : ∃ k, fuel = k + 1 := ⟨fuel - 1, by omega⟩
  have htoken : IsToken (text ++ (margin n ++ rest)) := by
    rw [hothers]
    exact .cons rfl rfl (by decide)
  have hsettled : Settled (c.skipSpace false) (position.listIndent indent)
      (text ++ (margin n ++ rest)) := by
    refine settled_lead htoken (hchars.trans (List.append_assoc ..)) ?_
    rintro rfl
    exact ⟨congrArg (· + 1) (hsignal rfl).1, (hsignal rfl).2⟩
  generalize c.skipSpace false = start at hsettled
  have hfirst : start.chars = '-' :: (others ++ (margin n ++ rest)) := by
    rw [hsettled.chars, hothers, List.cons_append]
  have hsign : start.isSign '-' = true := by
    rw [isSign, hfirst]
    exact (Bool.and_eq_true _ _).mpr ⟨rfl, hends _⟩
  rw [readNode]
  simp only [atEnd_sign hfirst (hends _), hsettled.column, hsign, hsettled.mayBegin]
  -- a list below a key may stand as far left as the key, one below a sign may not
  cases position with
  | behindKey =>
    obtain ⟨rfl, hitem⟩ := hbelow rfl
    have hbefore : n < indent ∨ (n = indent ∧ true = true ∧ NoItem rest) := by
      rcases Nat.lt_or_eq_of_le hn with hlt | heq
      · exact .inl hlt
      · exact .inr ⟨heq, rfl, hitem heq⟩
    obtain ⟨after, hread, hend⟩ := h.reads handles fuel true [] hsettled.chars hsettled.column
      hbefore hrest (Nat.le_of_lt_succ hlength)
    refine ⟨after, ?_, hend.skipSpace hrest⟩
    simpa [Position.listIndent] using hread
  | behindSign =>
    have hbefore : n < indent + 2 := Nat.lt_add_right 1 (Nat.lt_succ_of_le hn)
    obtain ⟨after, hread, hend⟩ := h.reads handles fuel false [] hsettled.chars
      hsettled.column (.inl hbefore) hrest (Nat.le_of_lt_succ hlength)
    refine ⟨after, ?_, hend.skipSpace hrest⟩
    have hinside : ¬ indent + 2 < indent + 1 := by omega
    simpa [Position.listIndent, hinside] using hread

/-! ## Tables -/

/-- How the value of an entry and the entries below it are read from the colon on. -/
structure ReadsValue (column : Nat) (position : Position) (text : List Char) (v : Yaml)
    (entries : List (Yaml × Yaml)) : Prop where
  written : IsWritten text
  ends : ∀ rest, endsWord (text ++ rest) = true
  reads : ∀ (handles : TagHandles) (fuel : Nat) (acc : List (Yaml × Yaml)) (key : Yaml) ⦃n : Nat⦄
      ⦃colon : Cursor⦄ ⦃rest : List Char⦄,
    colon.chars = ':' :: (text ++ (margin n ++ rest)) → column ≤ colon.column →
    (position = .behindSign → colon.column = column ∧ colon.mayBegin = true) →
    EndsTable column n rest → IsToken rest → 4 * text.length + 3 ≤ fuel →
    ∃ after, readEntryValue handles column fuel acc key colon =
      some (.map (acc.reverse ++ (key, v) :: entries), after) ∧ Settled after n rest

/-- A value behind its colon. -/
theorem ReadsNode.behind_colon {colon : Cursor} (h : ReadsNode column position text v)
    (handles : TagHandles) (fuel : Nat)
    (hchars : colon.chars = ':' :: (text ++ (margin n ++ rest))) (hcolumn : column ≤ colon.column)
    (hposition : position = .behindSign → colon.column = column ∧ colon.mayBegin = true)
    (hn : n ≤ column) (hitem : n = column → NoItem rest) (hrest : IsToken rest)
    (hfuel : 4 * text.length ≤ fuel) :
    ∃ after, readNode handles (column + 1) true fuel
      ((colon.next.setMayBegin (colon.column == column && colon.mayBegin)).skipSpace false) =
        some (v, after) ∧ Settled (after.skipSpace false) n rest := by
  have hstart : (colon.next.setMayBegin (colon.column == column && colon.mayBegin)).column =
      colon.column + 1 := by
    rw [setMayBegin_column, next_eq hchars, behind_column]
    rfl
  refine h.reads handles fuel true ?_ hn (by omega) hrest (fun hbehind => ?_)
    (fun _ => ⟨rfl, hitem⟩) hfuel
  · rw [setMayBegin_chars, next_eq hchars, behind_chars]
  · obtain ⟨hsame, hmayBegin⟩ := hposition hbehind
    rw [hstart, setMayBegin_mayBegin, hsame, hmayBegin]
    exact ⟨rfl, by simp⟩

/-- The value of the last entry of a table. -/
theorem ReadsNode.readsValue_last (h : ReadsNode column position text v) :
    ReadsValue column position text v [] := by
  refine ⟨h.written, h.ends, ?_⟩
  intro handles fuel acc key n colon rest hchars hcolumn hposition hn hrest hfuel
  obtain ⟨fuel, rfl⟩ : ∃ k, fuel = k + 1 + 1 := ⟨fuel - 2, by omega⟩
  obtain ⟨after, hread, hsettled⟩ := h.behind_colon handles (fuel + 1) hchars
    hcolumn hposition hn.le hn.noItem hrest (by omega)
  refine ⟨after.skipSpace false, ?_, hsettled⟩
  rw [readEntryValue]
  simp only [Option.bind_eq_bind, hread, Option.bind_some]
  rw [readMoreEntries, if_pos (hn.ends hsettled)]
  simp

/-- A value with entries below it. -/
theorem ReadsNode.readsValue_cons (h : ReadsNode column position text v)
    (hmore : ReadsEntries column more entries) :
    ReadsValue column position (text ++ (margin column ++ more)) v entries := by
  refine ⟨h.written.append ((isWritten_margin _).append hmore.written),
    fun rest => (List.append_assoc text _ rest).symm ▸ h.ends _, ?_⟩
  intro handles fuel acc key n colon rest hchars hcolumn hposition hn hrest hfuel
  obtain ⟨fuel, rfl⟩ : ∃ k, fuel = k + 1 + 1 := ⟨fuel - 2, by omega⟩
  have hlength : 4 * text.length ≤ fuel + 1 ∧ 4 * more.length ≤ fuel := by
    simp only [List.length_append, length_margin] at hfuel
    omega
  have hvalue : colon.chars = ':' :: (text ++ (margin column ++ (more ++ (margin n ++ rest)))) := by
    rw [hchars]
    simp
  obtain ⟨after, hread, hsettled⟩ := h.behind_colon handles (fuel + 1) hvalue
    hcolumn hposition (Nat.le_refl column) (fun _ => hmore.noItem _) (hmore.token _) hlength.1
  obtain ⟨after', hread', hsettled'⟩ := hmore.reads handles fuel ((key, v) :: acc)
    hsettled.chars hsettled.column hsettled.mayBegin hn hrest hlength.2
  refine ⟨after', ?_, hsettled'⟩
  have hend : (after.skipSpace false).atEnd = false := by
    obtain ⟨hminus, hpoint⟩ := hmore.noMark _ hsettled.chars
    rw [Cursor.atEnd, hminus, hpoint, hsettled.chars]
    simp [hmore.ne_nil]
  rw [readEntryValue]
  simp only [Option.bind_eq_bind, hread, Option.bind_some]
  rw [readMoreEntries]
  simp [hend, hsettled.column, hread']

/-- An entry whose key is on a line with its colon. -/
theorem ReadsValue.readsEntries_simple {keyText : List Char}
    (h : ReadsValue column .behindKey text v entries) (hkey : ReadsKey keyText key) :
    ReadsEntries column (keyText ++ ':' :: text) ((key, v) :: entries) := by
  have hassoc : ∀ rest, keyText ++ ':' :: text ++ rest = keyText ++ ':' :: (text ++ rest) := by simp
  have hbegins : ∀ {c : Cursor} rest, c.chars = keyText ++ ':' :: text ++ rest → BeginsWord c :=
    fun rest hchars => hkey.begins (hchars.trans (hassoc rest)) (h.ends rest)
  -- behind the key and its colon the value is read in either place of a table
  have hvalue : ∀ (handles : TagHandles) {fuel : Nat} (acc : List (Yaml × Yaml)) {n : Nat}
      {c : Cursor} {rest : List Char}, c.chars = keyText ++ ':' :: text ++ (margin n ++ rest) →
      c.column = column → EndsTable column n rest → IsToken rest → 4 * text.length + 3 ≤ fuel →
      ∃ after, readEntryValue handles column fuel acc key
        ((c.behind keyText (':' :: (text ++ (margin n ++ rest)))).setMayBegin false) =
          some (.map (acc.reverse ++ (key, v) :: entries), after) ∧ Settled after n rest := by
    intro handles fuel acc n c rest hchars hcolumn hn hrest hfuel
    refine h.reads handles fuel acc key rfl ?_ (fun h => by cases h) hn hrest hfuel
    rw [setMayBegin_column, behind_column, columnAfter_of_no_break _ hkey.onLine]
    omega
  have hlong : 0 < keyText.length := List.length_pos_iff.mpr hkey.ne_nil
  refine ⟨hkey.written.append (.cons rfl h.written), fun rest => hassoc rest ▸ hkey.token _,
    fun rest c hchars => (hbegins rest hchars).noSign '-' (by decide),
    fun c rest hchars => (hbegins rest hchars).noMark,
    fun c rest hchars => (hbegins rest hchars).noDirective, by simp, ?_, ?_⟩
  · intro handles fuel acc n c rest hchars hcolumn hmayBegin hn hrest hfuel
    obtain ⟨fuel, rfl⟩ : ∃ k, fuel = k + 1 := ⟨fuel - 1, by simp at hfuel; omega⟩
    have hlength : 4 * text.length + 3 ≤ fuel := by
      simp only [List.length_append, List.length_cons] at hfuel
      omega
    obtain ⟨after, hread, hsettled⟩ := hvalue handles acc hchars hcolumn hn hrest hlength
    refine ⟨after, ?_, hsettled⟩
    have hstart := hkey.reads handles (column + 1) fuel
      (hchars.trans (hassoc _)) (h.ends _) (by omega) hmayBegin
    rw [readEntries, (hbegins _ hchars).noSign '?' (by decide), hstart]
    exact hread
  · intro handles floor fuel listBelow n c rest hchars hcolumn hmayBegin hn hfloor hrest hfuel
    obtain ⟨fuel, rfl⟩ : ∃ k, fuel = k + 1 := ⟨fuel - 1, by omega⟩
    have hlength : 4 * text.length + 3 ≤ fuel := by
      simp only [List.length_append, List.length_cons] at hfuel
      omega
    obtain ⟨after, hread, hsettled⟩ := hvalue handles [] hchars hcolumn hn hrest hlength
    refine ⟨after, ?_, hsettled⟩
    have hstart := hkey.reads handles floor fuel
      (hchars.trans (hassoc _)) (h.ends _) (by omega) hmayBegin
    rw [readNode_key (hbegins _ hchars) (by omega) hstart, hcolumn]
    exact hread

/-- An entry whose key has lines of its own. -/
theorem ReadsValue.readsEntries_explicit {keyText : List Char}
    (h : ReadsValue column .behindSign text v entries)
    (hkey : ReadsNode column .behindSign keyText key) :
    ReadsEntries column ('?' :: keyText ++ (margin column ++ ':' :: text))
      ((key, v) :: entries) := by
  have hassoc : ∀ rest, '?' :: keyText ++ (margin column ++ ':' :: text) ++ rest =
      '?' :: (keyText ++ (margin column ++ ':' :: (text ++ rest))) := by simp
  -- a table that begins here is read as one that goes on
  have hreads : ∀ (handles : TagHandles) (fuel : Nat) (acc : List (Yaml × Yaml)) ⦃n : Nat⦄
      ⦃c : Cursor⦄ ⦃rest : List Char⦄,
      c.chars = '?' :: keyText ++ (margin column ++ ':' :: text) ++ (margin n ++ rest) →
      c.column = column → c.mayBegin = true → EndsTable column n rest → IsToken rest →
      4 * ('?' :: keyText ++ (margin column ++ ':' :: text)).length ≤ fuel →
      ∃ after, readEntries handles column fuel acc c =
        some (.map (acc.reverse ++ (key, v) :: entries), after) ∧ Settled after n rest := by
    intro handles fuel acc n c rest hchars hcolumn hmayBegin hn hrest hfuel
    obtain ⟨fuel, rfl⟩ : ∃ k, fuel = k + 1 := ⟨fuel - 1, by simp at hfuel; omega⟩
    have hlength : 4 * keyText.length ≤ fuel ∧ 4 * text.length + 3 ≤ fuel := by
      simp only [List.length_append, List.length_cons, length_margin] at hfuel
      omega
    rw [hassoc] at hchars
    have hcolon : IsToken (':' :: (text ++ (margin n ++ rest))) := .cons rfl rfl (by decide)
    obtain ⟨after, hread, hsettled⟩ := hkey.behind_sign handles true rfl hchars hcolumn
      (Nat.le_refl column) hcolon hlength.1
    generalize hnext : after.skipSpace false = next at hsettled
    obtain ⟨after', hread', hsettled'⟩ := h.reads handles fuel acc key hsettled.chars
      (Nat.le_of_eq hsettled.column.symm) (fun _ => ⟨hsettled.column, hsettled.mayBegin⟩) hn hrest
      hlength.2
    refine ⟨after', ?_, hsettled'⟩
    have hquestion : c.isSign '?' = true := by
      rw [isSign, hchars]
      exact (Bool.and_eq_true _ _).mpr ⟨rfl, hkey.ends _⟩
    have hsign : next.isSign ':' = true := by
      rw [isSign, hsettled.chars]
      exact (Bool.and_eq_true _ _).mpr ⟨rfl, h.ends _⟩
    have hcondition :
        (!next.atEnd && next.column == column && next.isSign ':' && next.mayBegin) = true := by
      rw [atEnd_sign hsettled.chars (h.ends _), hsettled.column, hsign, hsettled.mayBegin]
      simp
    rw [readEntries, hquestion]
    simp only [if_true, Option.bind_eq_bind, hread, Option.bind_some, hnext, hcondition, hread']
  refine ⟨(IsWritten.cons rfl hkey.written).append ((isWritten_margin _).append (.cons rfl h.written)),
    fun rest => hassoc rest ▸ .cons rfl rfl (by decide), fun rest => ?_, fun c rest hchars => ?_,
    fun c rest hchars => isAt_cons (hchars.trans (hassoc rest)) (by decide), List.cons_ne_nil _ _,
    hreads, ?_⟩
  · rw [hassoc]
    exact noItem_cons (by decide)
  · rw [hassoc] at hchars
    exact ⟨isMark_sign hchars (hkey.ends _) rfl, isMark_sign hchars (hkey.ends _) rfl⟩
  · intro handles floor fuel listBelow n c rest hchars hcolumn hmayBegin hn hfloor hrest hfuel
    obtain ⟨fuel, rfl⟩ : ∃ k, fuel = k + 1 := ⟨fuel - 1, by omega⟩
    obtain ⟨after, hread, hsettled⟩ := hreads handles fuel [] hchars hcolumn hmayBegin hn hrest
      (Nat.le_of_lt_succ hfuel)
    refine ⟨after, ?_, hsettled⟩
    rw [hassoc] at hchars
    have hquestion : c.isSign '?' = true := by
      rw [isSign, hchars]
      exact (Bool.and_eq_true _ _).mpr ⟨rfl, hkey.ends _⟩
    have hinside : ¬ column < floor := Nat.not_lt.mpr hfloor
    rw [readNode]
    simp only [atEnd_sign hchars (hkey.ends _), hcolumn, hinside,
      isAt_cons hchars (y := '%') (by decide), isSign_cons hchars (y := '-') (by decide), hquestion,
      hmayBegin]
    simpa using hread

/-- A table behind a key or a sign. -/
theorem ReadsEntries.readsNode (position : Position) (h : ReadsEntries (indent + 2) text entries) :
    ReadsNode indent position (position.lead (indent + 2) ++ text) (.map entries) := by
  refine ⟨(isWritten_lead _ _).append h.written,
    fun rest => (List.append_assoc _ text rest).symm ▸ endsWord_lead .., ?_, ?_⟩
  · simp [h.ne_nil]
  intro handles fuel listBelow n c rest hchars hn hcolumn hrest hsignal _ hfuel
  have hlength : 4 * text.length < fuel := by
    have := length_lead_pos position (indent + 2)
    simp only [List.length_append] at hfuel
    omega
  have hsettled : Settled (c.skipSpace false) (indent + 2) (text ++ (margin n ++ rest)) := by
    refine settled_lead (h.token _) (hchars.trans (List.append_assoc ..)) ?_
    rintro rfl
    exact ⟨congrArg (· + 1) (hsignal rfl).1, (hsignal rfl).2⟩
  obtain ⟨after, hread, hend⟩ := h.starts handles (indent + 1) fuel listBelow
    hsettled.chars hsettled.column hsettled.mayBegin (.inl (by omega)) (by omega) hrest hlength
  exact ⟨after, hread, hend.skipSpace hrest⟩

/-- Brackets with nothing between them. -/
theorem readsWord_noItems (indent : Nat) : ReadsWord indent "[]\n".toList (.seq []) := by
  refine readsWord_of_word ['[', ']'] rfl (by decide) (.cons rfl rfl (by decide))
    (.cons rfl (.cons rfl .nil)) ?_
  intro handles fuel c rest hchars
  have hnext : c.next = c.behind ['['] (']' :: '\n' :: rest) := next_eq hchars
  have htoken : c.next.skipSpace true = c.next := by
    refine skipSpace_token ?_
    rw [hnext]
    exact .cons rfl rfl (by decide)
  have hclosing : c.next.isAt ']' = true := by
    rw [hnext]
    rfl
  rw [readWord, next?_eq hchars]
  change readFlowItems handles (indent + 1) (fuel + 1) [] (c.next.skipSpace true) = _
  rw [htoken, readFlowItems, if_pos hclosing, hnext, next_eq behind_chars, behind_behind]
  rfl

theorem readsWord_noEntries (indent : Nat) : ReadsWord indent "\x7b\x7d\n".toList (.map []) := by
  refine readsWord_of_word ['\x7b', '\x7d'] rfl (by decide) (.cons rfl rfl (by decide))
    (.cons rfl (.cons rfl .nil)) ?_
  intro handles fuel c rest hchars
  have hnext : c.next = c.behind ['\x7b'] ('\x7d' :: '\n' :: rest) := next_eq hchars
  have htoken : c.next.skipSpace true = c.next := by
    refine skipSpace_token ?_
    rw [hnext]
    exact .cons rfl rfl (by decide)
  have hclosing : c.next.isAt '\x7d' = true := by
    rw [hnext]
    rfl
  rw [readWord, next?_eq hchars]
  change readFlowEntries handles (indent + 1) (fuel + 1) [] (c.next.skipSpace true) = _
  rw [htoken, readFlowEntries, if_pos hclosing, hnext, next_eq behind_chars, behind_behind]
  rfl

/-! ## All values -/

mutual
/-- What a value is read as. A text may come back as a plain scalar, and tags are not written. -/
def reread : Yaml → Yaml
  | plain s => plain s
  | str s => rereadText s
  | seq items => seq (rereadItems items)
  | map entries => map (rereadEntries entries)
  | tagged _ v => reread v

def rereadItems : List Yaml → List Yaml
  | [] => []
  | v :: rest => reread v :: rereadItems rest

def rereadEntries : List (Yaml × Yaml) → List (Yaml × Yaml)
  | [] => []
  | (key, v) :: rest => (reread key, reread v) :: rereadEntries rest
end

mutual
/-- The plain scalars in a value may be written as they are. -/
def IsWritable : Yaml → Prop
  | plain s => IsPlain s.toList
  | str _ => True
  | seq items => AreWritable items
  | map entries => AreWritableEntries entries
  | tagged _ v => IsWritable v

def AreWritable : List Yaml → Prop
  | [] => True
  | v :: rest => IsWritable v ∧ AreWritable rest

def AreWritableEntries : List (Yaml × Yaml) → Prop
  | [] => True
  | (key, v) :: rest => IsWritable key ∧ IsWritable v ∧ AreWritableEntries rest
end

/-- The value of an entry is read back together with the entries below it. -/
theorem readsValue_renderNode {more : List (Yaml × Yaml)}
    (hvalue : ReadsNode column position (renderNode column position v) (reread v))
    (hmore : more ≠ [] → ReadsEntries column (renderEntries column more) (rereadEntries more)) :
    ReadsValue column position
      (renderNode column position v ++
        (if more.isEmpty then [] else margin column ++ renderEntries column more))
      (reread v) (rereadEntries more) := by
  cases more with
  | nil =>
    rw [List.isEmpty_nil, if_pos rfl, List.append_nil]
    exact hvalue.readsValue_last
  | cons entry more =>
    rw [List.isEmpty_cons, if_neg Bool.false_ne_true]
    exact hvalue.readsValue_cons (hmore (List.cons_ne_nil _ _))

/-- A short key on one line is read back. -/
theorem readsKey_of_isSimpleKey (hkey : IsWritable key) (hsimple : isSimpleKey key = true)
    (column : Nat) :
    ∃ keyText, ReadsKey keyText (reread key) ∧ ∀ v more,
      renderEntries column ((key, v) :: more) = keyText ++ ':' :: (renderNode column .behindKey v ++
        (if more.isEmpty then [] else margin column ++ renderEntries column more)) := by
  have hlength : ∀ s : String, s.utf8ByteSize ≤ 128 → s.toList.length ≤ 128 := fun s =>
    Nat.le_trans (length_le_utf8ByteSize s)
  cases key with
  | plain s =>
    have hreads := IsPlain.readsKey hkey (hlength s (by simpa [isSimpleKey] using hsimple))
    rw [String.ofList_toList] at hreads
    exact ⟨s.toList, hreads, fun v more => by simp [renderEntries, hsimple]⟩
  | str s =>
    simp only [isSimpleKey, Bool.and_eq_true, Bool.not_eq_true', decide_eq_true_eq] at hsimple
    exact ⟨_, readsKey_text column (isBreak_of_any hsimple.1) (hlength s hsimple.2),
      fun v more => by simp [renderEntries, isSimpleKey, hsimple]⟩
  | seq items => cases hsimple
  | map entries => cases hsimple
  | tagged tag v => cases hsimple

/-- An entry is read back together with the entries below it. -/
theorem readsEntries_cons {more : List (Yaml × Yaml)} (hwritable : IsWritable key)
    (hkey : ReadsNode column .behindSign (renderNode column .behindSign key) (reread key))
    (hvalue : ∀ position, ReadsNode column position (renderNode column position v) (reread v))
    (hmore : more ≠ [] → ReadsEntries column (renderEntries column more) (rereadEntries more)) :
    ReadsEntries column (renderEntries column ((key, v) :: more))
      (rereadEntries ((key, v) :: more)) := by
  rw [rereadEntries]
  cases hsimple : isSimpleKey key with
  | true =>
    obtain ⟨keyText, hreads, htext⟩ := readsKey_of_isSimpleKey hwritable hsimple column
    rw [htext]
    exact (readsValue_renderNode (hvalue .behindKey) hmore).readsEntries_simple hreads
  | false =>
    have htext : renderEntries column ((key, v) :: more) =
        '?' :: renderNode column .behindSign key ++ (margin column ++ ':' ::
          (renderNode column .behindSign v ++
            (if more.isEmpty then [] else margin column ++ renderEntries column more))) := by
      simp [renderEntries, hsimple]
    rw [htext]
    exact (readsValue_renderNode (hvalue .behindSign) hmore).readsEntries_explicit hkey

mutual
/-- A value is read back from its text. -/
theorem readsNode_renderNode (indent : Nat) (position : Position) : ∀ v, IsWritable v →
    ReadsNode indent position (renderNode indent position v) (reread v)
  | plain s, h => by
    have hword := IsPlain.readsWord h indent
    rw [String.ofList_toList] at hword
    exact hword.readsNode position
  | str s, _ => (readsWord_text indent s).readsNode position
  | seq items, h => by
    have hreads := readsItems_renderItems (position.listIndent indent) items h
    cases items with
    | nil => exact (readsWord_noItems indent).readsNode position
    | cons item items => exact (hreads (List.cons_ne_nil _ _)).readsNode position
  | map entries, h => by
    have hreads := readsEntries_renderEntries (indent + 2) entries h
    cases entries with
    | nil => exact (readsWord_noEntries indent).readsNode position
    | cons entry entries => exact (hreads (List.cons_ne_nil _ _)).readsNode position
  | tagged _ v, h => readsNode_renderNode indent position v h

/-- Items are read back from their texts. -/
theorem readsItems_renderItems (column : Nat) : ∀ items, AreWritable items → items ≠ [] →
    ReadsItems column (renderItems column items) (rereadItems items)
  | [], _, hne => absurd rfl hne
  | item :: items, h, _ => by
    have hitem := readsNode_renderNode column .behindSign item h.1
    have hrest := readsItems_renderItems column items h.2
    cases items with
    | nil =>
      have hlast := hitem.readsItems_last
      rw [← List.append_nil ('-' :: _)] at hlast
      exact hlast
    | cons next items => exact hitem.readsItems_cons (hrest (List.cons_ne_nil _ _))

/-- Entries are read back from their texts. -/
theorem readsEntries_renderEntries (column : Nat) : ∀ entries, AreWritableEntries entries →
    entries ≠ [] → ReadsEntries column (renderEntries column entries) (rereadEntries entries)
  | [], _, hne => absurd rfl hne
  | (key, v) :: entries, h, _ =>
    readsEntries_cons h.1 (readsNode_renderNode column .behindSign key h.1)
      (fun position => readsNode_renderNode column position v h.2.1)
      (readsEntries_renderEntries column entries h.2.2)
end

/-! ## Documents -/

theorem isAllowed_of_isPrintable (h : isPrintable x = true) : isAllowed x = true := by
  simp only [isPrintable, isAllowed, Bool.or_eq_true, Bool.and_eq_true, beq_iff_eq,
    decide_eq_true_eq] at h ⊢
  omega

theorem normalizeBreaks_of_isWritten (h : IsWritten text) : normalizeBreaks text = text := by
  have hne : ∀ {x y : Char}, isPrintable x = true → isPrintable y = false → x ≠ y := by
    rintro x _ hx hy rfl
    rw [hx] at hy
    cases hy
  induction text with
  | nil => rfl
  | cons x cs ih =>
    obtain ⟨hx, hcs⟩ := List.forall_mem_cons.mp h
    rw [normalizeBreaks]
    · rw [ih hcs, beq_eq_false_iff_ne.mpr (hne hx rfl), beq_eq_false_iff_ne.mpr (hne hx rfl)]
      rfl
    · intro _ heq
      exact absurd heq (hne hx rfl)

theorem skipEnds_nil (h : c.chars = []) (fuel : Nat) : skipEnds fuel c = c := by
  have hmark : c.isMark '.' = false := by
    rw [isMark, h, Bool.and_false]
  cases fuel with
  | zero => rfl
  | succ fuel => rw [skipEnds, hmark, if_neg Bool.false_ne_true]

/-- A text with the entries of a table is one document, the table. -/
theorem parse?_of_readsEntries (hreads : ReadsEntries 0 text entries) :
    parse? (.ofList text) = some (.map entries) := by
  have hwritten := hreads.written
  have hbom : ∀ rest, text ≠ '\uFEFF' :: rest := by
    rintro rest rfl
    cases hwritten _ List.mem_cons_self
  have hallowed : text.all isAllowed = true :=
    List.all_eq_true.mpr fun x hx => isAllowed_of_isPrintable (hwritten x hx)
  have hwhole : text = text ++ [] := (List.append_nil _).symm
  have htoken : IsToken text := hwhole ▸ hreads.token []
  have hnotEmpty : text.isEmpty = false :=
    Bool.eq_false_iff.mpr fun h => hreads.ne_nil (List.isEmpty_iff.mp h)
  generalize hc : (⟨text, 0, 0, 0, true, []⟩ : Cursor) = c
  have hchars : c.chars = text := hc ▸ rfl
  have hstart : c.skipSpace false = c := skipSpace_token (hchars ▸ htoken)
  obtain ⟨hminus, hpoint⟩ := hreads.noMark [] (hchars.trans hwhole)
  have hdirective := hreads.noDirective [] (hchars.trans hwhole)
  obtain ⟨after, hread, hafter⟩ := hreads.starts standardHandles 0 (4 * text.length + 16) false
    (n := 0) (hchars.trans hwhole) (hc ▸ rfl) (hc ▸ rfl) (.inr ⟨rfl, rfl⟩) (Nat.le_refl 0) .nil (by omega)
  have hend := hafter.skipSpace .nil
  -- what begins with a key has no directives
  have hdirectives : ∀ fuel,
      readDirectives (fuel + 1) false standardHandles c = some (standardHandles, c) := by
    intro fuel
    rw [readDirectives, hdirective, Bool.and_false]
    rfl
  rw [parse?, String.toList_ofList]
  split
  · next rest => exact absurd rfl (hbom rest)
  · rw [hallowed, normalizeBreaks_of_isWritten hwritten, Bool.not_true, if_neg Bool.false_ne_true]
    simp only [hc, hstart, hdirectives, hchars, hnotEmpty, hminus, hpoint, hdirective,
      Option.bind_eq_bind, Option.bind_some, Bool.false_eq_true, if_false, Bool.not_false,
      Bool.or_false, Bool.and_false, hread, skipEnds_nil hend.chars, hend.chars, List.isEmpty_nil,
      if_true]

/-- A table with entries is read back from its text. -/
theorem parse?_render (hentries : AreWritableEntries entries) (hne : entries ≠ []) :
    parse? (map entries).render = some (map (rereadEntries entries)) := by
  obtain ⟨entry, rest, rfl⟩ := List.exists_cons_of_ne_nil hne
  exact parse?_of_readsEntries (readsEntries_renderEntries 0 _ hentries hne)

end CodeAtlas.Yaml
