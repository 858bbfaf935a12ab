import CodeAtlas.Proofs.Yaml.Styles
/-!
# Texts read back

A text behind a sign or a colon is read back from its lines, up to the token that follows it, in each of the
four styles. A short text without line ends is read back as a key, up to its colon. A text that was written
without quotes comes back as a plain scalar, and all others as texts.

Results:
1. `readNode_value`, `readNode_key`: what a line is that begins with a word.
2. `readsWord_of_word`, `readsWord_of_block`: quotes, brackets and blocks end where they are written to end.
3. `readsWord_text`: a text is read back from its lines.
4. `readsKey_text`: a short text without line ends is read back as a key.
-/

namespace CodeAtlas.Yaml

open Cursor

variable {x : Char} {s : String} {cs text rest : List Char} {c after : Cursor}
  {floor fuel n indent : Nat} {handles : TagHandles} {v : Yaml}

/-! ## Beginnings of lines -/

/-- No name or tag is told about what comes. -/
theorem readProperties_none (hname : c.isAt '&' = false) (htag : c.isAt '!' = false) (fuel : Nat) :
    readProperties handles false fuel {} c = some ({}, c) := by
  cases fuel with
  | zero => rw [readProperties]
  | succ fuel =>
    rw [readProperties, hname, htag]
    rfl

/-- A line begins with a word, which is a key if a colon is near. -/
theorem readLineStart_word (hname : c.isAt '&' = false) (htag : c.isAt '!' = false)
    (hword : readWord handles floor fuel c = some (v, after)) :
    readLineStart handles floor fuel c =
      if c.isAt '|' || c.isAt '>' then some (.value v after)
      else if c.isNear (after.skipWhile isBlank) && (after.skipWhile isBlank).isSign ':' then
        if c.mayBegin then some (.key v (after.skipWhile isBlank)) else none
      else some (.value v after) := by
  have hstart : (c.index != c.index) = false := by simp
  rw [readLineStart, readProperties_none hname htag]
  simp only [Option.bind_eq_bind, Option.bind_some, hstart, Bool.false_and, Bool.false_eq_true,
    if_false, hword]
  rfl

/-! ## Words -/

/-- A token is next in a column, and a key or an item may begin with it. -/
structure Settled (c : Cursor) (n : Nat) (rest : List Char) : Prop where
  chars : c.chars = rest
  column : c.column = n
  mayBegin : c.mayBegin = true

theorem Settled.skipSpace (h : Settled c n rest) (hrest : IsToken rest) :
    Settled (c.skipSpace false) n rest := by
  rw [skipSpace_token (h.chars ▸ hrest)]
  exact h

theorem settled_line (hrest : IsToken rest) (hchars : c.chars = '\n' :: (margin n ++ rest)) :
    Settled (c.skipSpace false) n rest := by
  rw [skipSpace_line hchars hrest]
  refine ⟨rfl, ?_, rfl⟩
  have hcolumn : columnAfter c.column ('\n' :: margin n) = columnAfter 0 (margin n) := rfl
  rw [setMayBegin_column, behind_column, hcolumn, columnAfter_margin, Nat.zero_add]

theorem IsPlain.readWord_eq {skipped more : List Char} (h : IsPlain cs)
    (hend : EndsPlain floor rest skipped more) (hfloor : floor ≤ c.column + 1)
    (hchars : c.chars = cs ++ rest) :
    readWord handles floor fuel c = some (.plain (.ofList cs),
      (c.behind (cs ++ skipped) more).setMayBegin (!skipped.isEmpty)) := by
  obtain ⟨x, others, hcons, hsigns, _⟩ := h.begins rest
  have hnext : c.next? = some x := by rw [next?_eq (hchars.trans hcons), List.head?_cons]
  have hnot : ∀ y, y ∈ "#,[]\x7b\x7d&*!|>'\"%@\x60".toList → c.next? ≠ some y := by
    intro y hy heq
    rw [hnext] at heq
    exact hsigns (Option.some.inj heq ▸ hy)
  rw [readWord]
  split
  case h_8 =>
    rw [if_pos (h.beginsPlain_eq hchars),
      readPlain_words hend h.words hchars hfloor (h.no_mark hend hchars)]
  all_goals
    next heq => exact absurd heq (hnot _ (by decide +kernel))

theorem readWord_single (hindent : indent ≠ 0) (hcs : IsQuotable cs)
    (hchars : c.chars = renderSingle indent cs ++ rest) (hrest : rest.head? ≠ some '\'') :
    readWord handles floor fuel c = some (.str (.ofList cs),
      (c.behind (renderSingle indent cs) rest).setMayBegin false) := by
  have hnext : c.next? = some '\'' := by rw [next?_eq hchars, renderSingle_eq, List.cons_append]; rfl
  rw [readWord, hnext]
  exact readQuoted_single hindent hcs hchars hrest

theorem readWord_double (hchars : c.chars = renderDouble cs ++ rest) :
    readWord handles floor fuel c = some (.str (.ofList cs),
      (c.behind (renderDouble cs) rest).setMayBegin false) := by
  have hnext : c.next? = some '"' := by rw [next?_eq hchars, renderDouble_eq, List.cons_append]; rfl
  rw [readWord, hnext]
  exact readQuoted_double hchars

/-- A word is next, and no sign. -/
structure BeginsWord (c : Cursor) : Prop where
  ne_nil : c.chars ≠ []
  noMark : c.isMark '-' = false ∧ c.isMark '.' = false
  noSign : ∀ y ∈ ['-', '?', ':'], c.isSign y = false
  noDirective : c.isAt '%' = false
  noName : c.isAt '&' = false
  noTag : c.isAt '!' = false

theorem BeginsWord.atEnd (h : BeginsWord c) : c.atEnd = false := by
  rw [Cursor.atEnd, h.noMark.1, h.noMark.2, Bool.or_false, Bool.or_false]
  exact Bool.eq_false_iff.mpr fun hnil => h.ne_nil (List.isEmpty_iff.mp hnil)

theorem beginsWord_of_first {x : Char} {more : List Char} (hchars : c.chars = x :: more)
    (hx : x ∉ ['-', '?', ':', '%', '&', '!', '.']) : BeginsWord c := by
  have hne : ∀ y ∈ ['-', '?', ':', '%', '&', '!', '.'], x ≠ y := fun y hy heq => hx (heq ▸ hy)
  have hmark : ∀ y, x ≠ y → c.isMark y = false := by
    intro y hy
    rw [Cursor.isMark, hchars]
    refine Bool.and_eq_false_iff.mpr (.inr ?_)
    split
    · next heq =>
      cases heq
      rw [beq_eq_false_iff_ne.mpr hy]
      rfl
    · rfl
  have hnil : c.chars ≠ [] := hchars ▸ List.cons_ne_nil _ _
  refine ⟨hnil, ⟨hmark _ (hne _ (by decide)), hmark _ (hne _ (by decide))⟩,
    fun y hy => isSign_cons hchars (hne y ?_), isAt_cons hchars (hne _ (by decide)),
    isAt_cons hchars (hne _ (by decide)), isAt_cons hchars (hne _ (by decide))⟩
  exact List.mem_append_left ['%', '&', '!', '.'] hy

theorem IsPlain.not_isAt {y : Char} (h : IsPlain cs) (hchars : c.chars = cs ++ rest)
    (hy : y ∈ "#,[]\x7b\x7d&*!|>'\"%@\x60".toList) : c.isAt y = false := by
  obtain ⟨x, others, hcons, hsigns, _⟩ := h.begins rest
  exact isAt_cons (hchars.trans hcons) fun heq => hsigns (heq ▸ hy)

theorem IsPlain.beginsWord (floor : Nat) {skipped more : List Char} (h : IsPlain cs)
    (hend : EndsPlain floor rest skipped more) (hchars : c.chars = cs ++ rest) : BeginsWord c := by
  obtain ⟨x, others, hcons, hsigns, _, _, hends⟩ := h.begins rest
  have hfirst : c.chars = x :: others := hchars.trans hcons
  refine ⟨hfirst ▸ List.cons_ne_nil _ _, h.no_mark hend hchars, fun y hy => ?_,
    h.not_isAt hchars (by decide +kernel), h.not_isAt hchars (by decide +kernel),
    h.not_isAt hchars (by decide +kernel)⟩
  by_cases hxy : x = y
  · subst hxy
    have hword := hends (by simpa [or_comm, or_left_comm] using hy)
    rw [Cursor.isSign, hfirst]
    exact Bool.and_eq_false_iff.mpr (.inr hword)
  · exact isSign_cons hfirst hxy

section

variable {listBelow : Bool} (hbegins : BeginsWord c) (hfloor : floor ≤ c.column)

include hbegins hfloor

/-- A whole value is on the line. -/
theorem readNode_value (hstart : readLineStart handles floor fuel c = some (.value v after)) :
    readNode handles floor listBelow (fuel + 1) c = some (v, after) := by
  have hcolumn : ¬ c.column < floor := Nat.not_lt.mpr hfloor
  rw [readNode]
  simp only [hbegins.atEnd, hcolumn, hbegins.noDirective, hbegins.noSign '-' (by decide),
    hbegins.noSign '?' (by decide), hbegins.noSign ':' (by decide), hstart, Bool.and_false,
    Bool.false_eq_true, if_false, Option.bind_eq_bind, Option.bind_some]

/-- The line begins with a key. -/
theorem readNode_key {colon : Cursor}
    (hstart : readLineStart handles floor fuel c = some (.key v colon)) :
    readNode handles floor listBelow (fuel + 1) c =
      readEntryValue handles c.column fuel [] v colon := by
  have hcolumn : ¬ c.column < floor := Nat.not_lt.mpr hfloor
  rw [readNode]
  simp only [hbegins.atEnd, hcolumn, hbegins.noDirective, hbegins.noSign '-' (by decide),
    hbegins.noSign '?' (by decide), hbegins.noSign ':' (by decide), hstart, Bool.and_false,
    Bool.false_eq_true, if_false, Option.bind_eq_bind, Option.bind_some]

end

/-! ## Values on their lines -/

theorem endLine_of_no_break {last : Char} (hlast : cs.getLast? = some last)
    (hbreak : isBreak last = false) : endLine cs = cs ++ ['\n'] := by
  rw [endLine, hlast, Option.any_some, hbreak, if_neg Bool.false_ne_true]

/-- How a value that does not go on in lines of its own is read, up to what follows it. -/
structure ReadsWord (indent : Nat) (text : List Char) (v : Yaml) : Prop where
  written : IsWritten text
  token : ∀ rest, IsToken (text ++ rest)
  reads : ∀ (handles : TagHandles) (fuel : Nat) ⦃n : Nat⦄ ⦃c : Cursor⦄ ⦃rest : List Char⦄,
    c.chars = text ++ (margin n ++ rest) → n ≤ indent → indent < c.column → IsToken rest →
    BeginsWord c ∧
      ∃ after, readLineStart handles (indent + 1) (fuel + 1) c = some (.value v after) ∧
        Settled (after.skipSpace false) n rest

theorem IsPlain.token (h : IsPlain cs) (rest : List Char) : IsToken (cs ++ rest) := by
  obtain ⟨x, more, hcons, hsigns, hblank, hbreak, _⟩ := h.begins rest
  rw [hcons]
  exact .cons hblank hbreak fun heq => hsigns (heq ▸ (by decide +kernel))

theorem IsPlain.readsWord (h : IsPlain cs) (indent : Nat) :
    ReadsWord indent (endLine cs) (.plain (.ofList cs)) := by
  have hended : endLine cs = cs ++ ['\n'] :=
    endLine_of_no_break (List.getLast?_eq_some_getLast h.ne_nil) (h.no_break _ (List.getLast_mem _))
  rw [hended]
  refine ⟨h.written.append (.cons rfl .nil), fun rest => List.append_assoc cs _ _ ▸ h.token _, ?_⟩
  intro handles fuel n c rest hchars hn hcolumn hrest
  rw [List.append_assoc] at hchars
  have hend : EndsPlain (indent + 1) ('\n' :: (margin n ++ rest)) ('\n' :: margin n) rest :=
    .line (Nat.lt_succ_of_le hn) hrest.endsGap
  have hbegins := h.beginsWord _ hend hchars
  generalize hafter : (c.behind (cs ++ '\n' :: margin n) rest).setMayBegin true = after
  have hword : readWord handles (indent + 1) (fuel + 1) c = some (.plain (.ofList cs), after) := by
    rw [← hafter]
    exact h.readWord_eq hend (by omega) hchars
  have hsettled : Settled after n rest := by
    subst hafter
    refine ⟨rfl, ?_, rfl⟩
    have hline : columnAfter (columnAfter c.column cs) ('\n' :: margin n) =
        columnAfter 0 (margin n) := rfl
    rw [setMayBegin_column, behind_column, columnAfter_append, hline, columnAfter_margin, Nat.zero_add]
  have hspaces : after.skipWhile isBlank = after :=
    skipWhile_none fun x hx => (hrest.endsGap x (hsettled.chars ▸ hx)).1
  -- what comes behind is on another line, so the text is no key
  have hfar : c.isNear after = false := by
    have hline : after.line = c.line + (cs ++ '\n' :: margin n).countP isBreak := by
      rw [← hafter]
      rfl
    have hsome : 0 < (cs ++ '\n' :: margin n).countP isBreak :=
      List.countP_pos_iff.mpr ⟨'\n', by simp, rfl⟩
    refine Bool.and_eq_false_iff.mpr (.inl (beq_eq_false_iff_ne.mpr ?_))
    omega
  refine ⟨hbegins, after, ?_, hsettled.skipSpace hrest⟩
  rw [readLineStart_word hbegins.noName hbegins.noTag hword, hspaces, hfar,
    h.not_isAt hchars (by decide +kernel), h.not_isAt hchars (by decide +kernel)]
  rfl

/-- Quotes and brackets end before the end of their line. -/
theorem readsWord_of_word (body : List Char) {first : Char} {more : List Char}
    (hfirst : body = first :: more) (hsigns : first ∉ ['-', '?', ':', '%', '&', '!', '.', '|', '>'])
    (htoken : IsToken [first]) (hwritten : IsWritten body)
    (hword : ∀ {handles : TagHandles} {fuel : Nat} {c : Cursor} {rest : List Char},
      c.chars = body ++ '\n' :: rest → readWord handles (indent + 1) (fuel + 1) c =
        some (v, (c.behind body ('\n' :: rest)).setMayBegin false)) :
    ReadsWord indent (body ++ ['\n']) v := by
  refine ⟨hwritten.append (.cons rfl .nil), fun rest => hfirst ▸ htoken.append, ?_⟩
  intro handles fuel n c rest hchars hn hcolumn hrest
  rw [List.append_assoc] at hchars
  have hcons : c.chars = first :: (more ++ '\n' :: (margin n ++ rest)) := by
    rw [hchars, hfirst]
    rfl
  have hbegins : BeginsWord c := by
    refine beginsWord_of_first hcons fun hmem => hsigns ?_
    exact List.mem_append_left ['|', '>'] hmem
  generalize hafter : (c.behind body ('\n' :: (margin n ++ rest))).setMayBegin false = after
  have hread : readWord handles (indent + 1) (fuel + 1) c = some (v, after) := hafter ▸ hword hchars
  have hline : after.chars = '\n' :: (margin n ++ rest) := hafter ▸ rfl
  have hspaces : after.skipWhile isBlank = after := by
    refine skipWhile_none ?_
    rw [hline]
    rintro _ ⟨⟩
    rfl
  refine ⟨hbegins, after, ?_, settled_line hrest hline⟩
  have hnot : ∀ y ∈ ['|', '>'], c.isAt y = false := fun y hy => isAt_cons hcons fun heq =>
    hsigns (heq ▸ List.mem_append_right ['-', '?', ':', '%', '&', '!', '.'] hy)
  rw [readLineStart_word hbegins.noName hbegins.noTag hread, hspaces, hnot _ (by decide),
    hnot _ (by decide), isSign_cons hline (by decide), Bool.and_false]
  rfl

/-- Blocks end with the line ends behind them. -/
theorem readsWord_of_block {body : List Char} {more : List Char} (hfirst : body = '|' :: more)
    (hended : ∃ front last, body = front ++ [last] ∧ isBreak last = true) (hwritten : IsWritten body)
    (hblock : ∀ {c : Cursor} {n : Nat} {rest : List Char},
      c.chars = body ++ (margin n ++ rest) → n ≤ indent → EndsGap rest →
        readBlock true (indent + 1) c =
          some (v, (c.behind (body ++ margin n) rest).setMayBegin true)) :
    ReadsWord indent body v := by
  refine ⟨hwritten, fun rest => hfirst ▸ .cons rfl rfl (by decide), ?_⟩
  intro handles fuel n c rest hchars hn hcolumn hrest
  have hcons : c.chars = '|' :: (more ++ (margin n ++ rest)) := by
    rw [hchars, hfirst]
    rfl
  have hbegins : BeginsWord c := beginsWord_of_first hcons (by decide)
  have hread : readWord handles (indent + 1) (fuel + 1) c =
      some (v, (c.behind (body ++ margin n) rest).setMayBegin true) := by
    rw [readWord, next?_eq hcons]
    exact hblock hchars hn hrest.endsGap
  have hat : c.isAt '|' = true := by
    rw [Cursor.isAt, next?_eq hcons]
    rfl
  have hsettled : Settled ((c.behind (body ++ margin n) rest).setMayBegin true) n rest := by
    obtain ⟨front, last, hbody, hlast⟩ := hended
    refine ⟨rfl, ?_, rfl⟩
    rw [setMayBegin_column, behind_column, columnAfter_append, hbody, columnAfter_append,
      columnAfter_breaks _ hlast (fun _ hx => by cases hx), columnAfter_margin, Nat.zero_add]
  refine ⟨hbegins, _, ?_, hsettled.skipSpace hrest⟩
  rw [readLineStart_word hbegins.noName hbegins.noTag hread, hat]
  rfl

/-! ## Texts -/

/-- What a text is read as: without quotes, as a plain scalar. -/
def rereadText (s : String) : Yaml := if styleOf s = .plain then .plain s else .str s

theorem isQuotable_of_look (hline : '\n' ∉ cs) (hlook : (lookOf cs).allowsSingle = true) :
    IsQuotable cs := by
  simp only [Look.allowsSingle, Bool.not_eq_true', Bool.or_eq_false_iff] at hlook
  exact ⟨(isWritten_of_any hlook.2).no_tab, hline, hlook.1.1, hlook.1.2⟩

theorem tab_notMem_of_literal (hlook : (lookOf cs).allowsLiteral = true) : '\t' ∉ cs := by
  simp only [Look.allowsLiteral, Bool.not_eq_true', Bool.or_eq_false_iff] at hlook
  exact (isWritten_of_any hlook.2).no_tab

theorem getLast?_renderSingle (indent : Nat) (cs : List Char) :
    (renderSingle indent cs).getLast? = some '\'' := by
  rw [renderSingle_eq, ← List.cons_append, List.getLast?_concat]

theorem getLast?_renderDouble (cs : List Char) : (renderDouble cs).getLast? = some '"' := by
  rw [renderDouble_eq, ← List.cons_append, List.getLast?_concat]

theorem exists_endLine (cs : List Char) :
    ∃ front last, endLine cs = front ++ [last] ∧ isBreak last = true := by
  rw [endLine]
  split
  · next h =>
    cases hlast : cs.getLast? with
    | none =>
      rw [hlast] at h
      cases h
    | some last =>
      obtain ⟨front, rfl⟩ := List.getLast?_eq_some_iff.mp hlast
      rw [hlast] at h
      exact ⟨front, last, rfl, h⟩
  · exact ⟨cs, '\n', rfl, rfl⟩

theorem exists_renderLiteral (indent : Nat) (cs : List Char) :
    ∃ more, endLine (renderLiteral indent cs) = '|' :: more := by
  rw [endLine]
  split
  · exact ⟨_, rfl⟩
  · exact ⟨_, rfl⟩

/-- A text is read back from its lines. -/
theorem readsWord_text (indent : Nat) (s : String) :
    ReadsWord indent (endLine (renderText (indent + 2) s)) (rereadText s) := by
  have hsuits := suits_styleOf s
  have hwritten := isWritten_renderText (indent + 2) s
  cases hstyle : styleOf s with
  | plain =>
    have hplain := (isPlain_of_styleOf hstyle).readsWord indent
    rw [String.ofList_toList] at hplain
    simpa [rereadText, renderText, hstyle] using hplain
  | single =>
    rw [hstyle] at hsuits
    rw [renderText, hstyle] at hwritten
    cases hsuits with
    | single hline hlook =>
      have hended := endLine_of_no_break (getLast?_renderSingle (indent + 2) s.toList) rfl
      have hreads : ReadsWord indent (renderSingle (indent + 2) s.toList ++ ['\n'])
          (.str (.ofList s.toList)) :=
        readsWord_of_word _ (renderSingle_eq ..) (by decide) (.cons rfl rfl (by decide)) hwritten
          fun hchars => readWord_single (by omega) (isQuotable_of_look hline hlook) hchars (by simp)
      rw [String.ofList_toList] at hreads
      simpa [rereadText, renderText, hstyle, hended] using hreads
  | double =>
    rw [renderText, hstyle] at hwritten
    have hended := endLine_of_no_break (getLast?_renderDouble s.toList) rfl
    have hreads : ReadsWord indent (renderDouble s.toList ++ ['\n']) (.str (.ofList s.toList)) :=
      readsWord_of_word _ (renderDouble_eq ..) (by decide) (.cons rfl rfl (by decide)) hwritten
        readWord_double
    rw [String.ofList_toList] at hreads
    simpa [rereadText, renderText, hstyle, hended] using hreads
  | literal =>
    rw [hstyle] at hsuits
    rw [renderText, hstyle] at hwritten
    cases hsuits with
    | literal hline hlook =>
      have hne := List.ne_nil_of_mem hline
      have htab : s.toList.head? ≠ some '\t' := fun h =>
        tab_notMem_of_literal hlook (List.mem_of_mem_head? h)
      obtain ⟨more, hfirst⟩ := exists_renderLiteral (indent + 2) s.toList
      have hreads : ReadsWord indent (endLine (renderLiteral (indent + 2) s.toList))
          (.str (.ofList s.toList)) :=
        readsWord_of_block hfirst (exists_endLine _) hwritten.endLine fun hchars hn hrest =>
          readBlock_literal hne htab (by omega) hrest hchars
      rw [String.ofList_toList] at hreads
      simpa [rereadText, renderText, hstyle] using hreads

/-! ## Keys on their lines -/

/-- How a key is read, up to its colon. -/
structure ReadsKey (text : List Char) (v : Yaml) : Prop where
  written : IsWritten text
  ne_nil : text ≠ []
  token : ∀ rest, IsToken (text ++ rest)
  onLine : ∀ x ∈ text, isBreak x = false
  begins : ∀ ⦃c : Cursor⦄ ⦃rest : List Char⦄, c.chars = text ++ ':' :: rest →
    endsWord rest = true → BeginsWord c
  reads : ∀ (handles : TagHandles) (floor fuel : Nat) ⦃c : Cursor⦄ ⦃rest : List Char⦄,
    c.chars = text ++ ':' :: rest → endsWord rest = true → floor ≤ c.column + 1 →
    c.mayBegin = true →
    readLineStart handles floor fuel c =
      some (.key v ((c.behind text (':' :: rest)).setMayBegin false))

theorem readLineStart_key (honLine : ∀ x ∈ text, isBreak x = false) (hlength : text.length ≤ 1024)
    (hbegins : BeginsWord c) (hblock : c.isAt '|' = false ∧ c.isAt '>' = false)
    (hmayBegin : c.mayBegin = true) (hrest : endsWord rest = true)
    (hread : readWord handles floor fuel c =
      some (v, (c.behind text (':' :: rest)).setMayBegin false)) :
    readLineStart handles floor fuel c =
      some (.key v ((c.behind text (':' :: rest)).setMayBegin false)) := by
  generalize hafter : (c.behind text (':' :: rest)).setMayBegin false = after at hread ⊢
  have hcolon : after.chars = ':' :: rest := hafter ▸ rfl
  have hspaces : after.skipWhile isBlank = after := by
    refine skipWhile_none ?_
    rw [hcolon]
    rintro _ ⟨⟩
    rfl
  have hline : text.countP isBreak = 0 :=
    List.countP_eq_zero.mpr fun x hx => by simp [honLine x hx]
  have hnear : c.isNear after = true := by
    rw [isNear, ← hafter]
    simpa [hline] using hlength
  have hsign : after.isSign ':' = true := by
    rw [isSign, hcolon]
    exact hrest
  rw [readLineStart_word hbegins.noName hbegins.noTag hread, hspaces, hblock.1, hblock.2, hnear,
    hsign, hmayBegin]
  rfl

/-- Every character is at least one byte. -/
theorem length_le_size_utf8Encode (cs : List Char) : cs.length ≤ cs.utf8Encode.size := by
  induction cs with
  | nil => exact Nat.zero_le _
  | cons c cs ih =>
    have := c.utf8Size_pos
    rw [List.utf8Encode_cons, ByteArray.size_append, List.utf8Encode_singleton, List.length_cons]
    simp
    omega

theorem length_le_utf8ByteSize (s : String) : s.toList.length ≤ s.utf8ByteSize := by
  have hlength := length_le_size_utf8Encode s.toList
  rwa [String.utf8Encode_toList] at hlength

theorem length_flatMap_le {f : Char → List Char} {k : Nat} (hf : ∀ c, (f c).length ≤ k)
    (cs : List Char) : (cs.flatMap f).length ≤ k * cs.length := by
  induction cs with
  | nil => exact Nat.zero_le _
  | cons c cs ih =>
    have := hf c
    rw [List.flatMap_cons, List.length_append, List.length_cons, Nat.mul_succ]
    omega

theorem IsPlain.readsKey (h : IsPlain cs) (hlength : cs.length ≤ 128) :
    ReadsKey cs (.plain (.ofList cs)) := by
  have hbegins : ∀ ⦃c : Cursor⦄ ⦃rest : List Char⦄, c.chars = cs ++ ':' :: rest →
      endsWord rest = true → BeginsWord c := fun c rest hchars hrest =>
    h.beginsWord 0 (.colon hrest) hchars
  refine ⟨h.written, h.ne_nil, h.token, h.no_break, hbegins,
    fun handles floor fuel c rest hchars hrest hfloor hmayBegin => ?_⟩
  refine readLineStart_key h.no_break (by omega) (hbegins hchars hrest)
    ⟨h.not_isAt hchars (by decide +kernel), h.not_isAt hchars (by decide +kernel)⟩ hmayBegin hrest ?_
  rw [h.readWord_eq (.colon hrest) hfloor hchars, List.append_nil]
  rfl

theorem readsKey_of_quotes {first : Char} {more : List Char} (hfirst : text = first :: more)
    (hsigns : first ∉ ['-', '?', ':', '%', '&', '!', '.', '|', '>']) (htoken : IsToken [first])
    (hwritten : IsWritten text) (honLine : ∀ x ∈ text, isBreak x = false)
    (hlength : text.length ≤ 1024)
    (hword : ∀ {handles : TagHandles} {floor fuel : Nat} {c : Cursor} {rest : List Char},
      c.chars = text ++ ':' :: rest → readWord handles floor fuel c =
        some (v, (c.behind text (':' :: rest)).setMayBegin false)) :
    ReadsKey text v := by
  have hcons : ∀ {c : Cursor} {rest : List Char}, c.chars = text ++ ':' :: rest →
      c.chars = first :: (more ++ ':' :: rest) := fun hchars => hchars.trans (hfirst ▸ rfl)
  have hbegins : ∀ ⦃c : Cursor⦄ ⦃rest : List Char⦄, c.chars = text ++ ':' :: rest →
      endsWord rest = true → BeginsWord c := fun c rest hchars _ =>
    beginsWord_of_first (hcons hchars) fun hmem => hsigns (List.mem_append_left ['|', '>'] hmem)
  refine ⟨hwritten, hfirst ▸ List.cons_ne_nil _ _, fun rest => hfirst ▸ htoken.append, honLine,
    hbegins, fun handles floor fuel c rest hchars hrest _ hmayBegin => ?_⟩
  have hnot : ∀ y ∈ ['|', '>'], c.isAt y = false := fun y hy => isAt_cons (hcons hchars) fun heq =>
    hsigns (heq ▸ List.mem_append_right ['-', '?', ':', '%', '&', '!', '.'] hy)
  exact readLineStart_key honLine hlength (hbegins hchars hrest)
    ⟨hnot _ (by decide), hnot _ (by decide)⟩ hmayBegin hrest (hword hchars)

theorem singleBody_of_no_break (indent : Nat) (h : ∀ x ∈ cs, isBreak x = false) :
    singleBody indent cs = cs.flatMap double := by
  induction cs with
  | nil => rfl
  | cons x cs ih =>
    obtain ⟨hx, hcs⟩ := List.forall_mem_cons.mp h
    rw [singleBody_cons hx, ih hcs, List.flatMap_cons]

theorem length_double_le (c : Char) : (double c).length ≤ 2 := by
  rw [double]
  split <;> simp

theorem length_escape_le (c : Char) : (escape c).length ≤ 6 := by
  rcases escape_cases c with ⟨heq, _⟩ | ⟨name, heq, hname⟩
  · rw [heq]
    simp
  · have := hname.length_le
    rw [heq, List.length_cons]
    omega

theorem isBreak_renderDouble (cs : List Char) : ∀ x ∈ renderDouble cs, isBreak x = false := by
  intro x hx
  rw [renderDouble_eq, List.mem_cons, List.mem_append, List.mem_singleton] at hx
  rcases hx with rfl | hx | rfl
  · rfl
  · exact isBreak_escape hx
  · rfl

theorem isBreak_renderSingle (h : ∀ x ∈ cs, isBreak x = false) :
    ∀ x ∈ renderSingle indent cs, isBreak x = false := by
  intro x hx
  rw [renderSingle_eq, singleBody_of_no_break indent h, List.mem_cons, List.mem_append,
    List.mem_singleton] at hx
  rcases hx with rfl | hx | rfl
  · rfl
  · obtain ⟨y, hy, hx⟩ := List.mem_flatMap.mp hx
    rw [double] at hx
    split at hx
    · have hquote : x = '\'' := by simpa using hx
      rw [hquote]
      rfl
    · rw [List.mem_singleton.mp hx]
      exact h y hy
  · rfl

/-- A short text without line ends is read back as a key. -/
theorem readsKey_text (indent : Nat) (hline : ∀ x ∈ s.toList, isBreak x = false)
    (hlength : s.toList.length ≤ 128) :
    ReadsKey (renderText (indent + 2) s) (rereadText s) := by
  have hsuits := suits_styleOf s
  have hwritten := isWritten_renderText (indent + 2) s
  cases hstyle : styleOf s with
  | plain =>
    have hplain := (isPlain_of_styleOf hstyle).readsKey hlength
    rw [String.ofList_toList] at hplain
    simpa [rereadText, renderText, hstyle] using hplain
  | single =>
    rw [hstyle] at hsuits
    rw [renderText, hstyle] at hwritten
    cases hsuits with
    | single hnone hlook =>
      have hshort : (renderSingle (indent + 2) s.toList).length ≤ 1024 := by
        have := length_flatMap_le length_double_le s.toList
        rw [renderSingle_eq, singleBody_of_no_break _ hline, List.length_cons, List.length_append,
          List.length_singleton]
        omega
      have hreads : ReadsKey (renderSingle (indent + 2) s.toList) (.str (.ofList s.toList)) :=
        readsKey_of_quotes (renderSingle_eq ..) (by decide) (.cons rfl rfl (by decide)) hwritten
          (isBreak_renderSingle hline) hshort
          fun hchars => readWord_single (by omega) (isQuotable_of_look hnone hlook) hchars (by simp)
      rw [String.ofList_toList] at hreads
      simpa [rereadText, renderText, hstyle] using hreads
  | double =>
    rw [renderText, hstyle] at hwritten
    have hshort : (renderDouble s.toList).length ≤ 1024 := by
      have := length_flatMap_le length_escape_le s.toList
      rw [renderDouble_eq, List.length_cons, List.length_append, List.length_singleton]
      omega
    have hreads : ReadsKey (renderDouble s.toList) (.str (.ofList s.toList)) :=
      readsKey_of_quotes (renderDouble_eq ..) (by decide) (.cons rfl rfl (by decide)) hwritten
        (isBreak_renderDouble _) hshort readWord_double
    rw [String.ofList_toList] at hreads
    simpa [rereadText, renderText, hstyle] using hreads
  -- a key on one line is never written as a block
  | literal =>
    rw [hstyle] at hsuits
    cases hsuits with
    | literal hbreak _ => cases hline '\n' hbreak

end CodeAtlas.Yaml
