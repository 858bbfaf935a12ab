import CodeAtlas.Proofs.Yaml.Quoted
/-!
# Blocks read back

A block holds the lines of a text, each behind the margin of the block. What it is indented by is shown by
its first line, or told behind the bar where the text begins with a space or a line end; a sign says which
of the last line ends belong to the text.

Results:
1. `exists_lines`: a text that does not begin with a line end consists of lines with line ends between them.
2. `readBlockLines_lines`: the lines of a block are read up to a line that is indented by less.
3. `Lines.chomping_eq`: the sign of a block keeps just the line ends of its text.
4. `readBlock_literal`: a block is read back.
-/

namespace CodeAtlas.Yaml

open Cursor

variable {x b : Char} {cs bs line more rest acc breaks : List Char} {c : Cursor}
  {indent n fuel widest : Nat} {kept : Chomping}

/-! ## Margins of lines -/

/-- The spaces that indent a line of a block are all read if the line belongs to the block, and if it
does not they are fewer than the block has. -/
def Indents (indent n : Nat) (rest : List Char) : Prop :=
  (n = indent ∧ ∀ x ∈ rest.head?, isBreak x = false) ∨ (n < indent ∧ EndsGap rest)

theorem Indents.le (h : Indents indent n rest) : n ≤ indent := by
  rcases h with ⟨rfl, _⟩ | ⟨hlt, _⟩
  · exact Nat.le_refl n
  · exact Nat.le_of_lt hlt

theorem Indents.no_break (h : Indents indent n rest) : ∀ x ∈ rest.head?, isBreak x = false := by
  rcases h with ⟨_, h⟩ | ⟨_, h⟩
  · exact h
  · exact fun x hx => (h x hx).2

theorem Indents.min_eq (h : Indents indent n rest) :
    min ((margin n ++ rest).takeWhile (· == ' ')).length indent = n := by
  rcases h with ⟨rfl, _⟩ | ⟨hlt, hrest⟩
  · rw [List.takeWhile_append_of_pos fun x hx => beq_iff_eq.mpr (eq_space_of_mem_margin hx),
      List.length_append, length_margin]
    omega
  · have hspace : rest.head? ≠ some ' ' := fun h => absurd (hrest ' ' h).1 (by decide)
    rw [takeWhile_margin hspace, length_margin]
    omega

theorem Indents.no_tab (h : Indents indent n rest) (hchars : c.chars = rest)
    (hcolumn : c.column = n) : ((some indent).all (c.column < ·) && c.isAt '\t') = false := by
  rcases h with ⟨rfl, _⟩ | ⟨_, hrest⟩
  · rw [hcolumn, Option.all_some, decide_eq_false (Nat.lt_irrefl n), Bool.false_and]
  · have htab : c.isAt '\t' = false :=
      isAt_eq_false fun h => absurd (hrest '\t' (hchars ▸ h)).1 (by decide)
    rw [htab, Bool.and_false]

theorem skip_margin (hchars : c.chars = margin n ++ rest) : c.skip n = c.behind (margin n) rest := by
  have hskip := skip_eq hchars
  rwa [length_margin] at hskip

/-- Empty lines are read, and then the spaces of the next line. -/
theorem readBlockBreaks_told (widest : Nat) (breaks : List Char) (hbs : ∀ x ∈ bs, isBreak x = true)
    (hrest : Indents indent n rest) (hfuel : bs.length < fuel) (hcolumn : c.column = 0)
    (hchars : c.chars = bs ++ (margin n ++ rest)) :
    ∃ widest', readBlockBreaks (some indent) fuel widest breaks c =
      some (widest', breaks ++ bs, c.behind (bs ++ margin n) rest) := by
  induction bs generalizing fuel widest breaks c with
  | nil =>
    obtain ⟨fuel, rfl⟩ := Nat.exists_eq_succ_of_ne_zero (Nat.ne_zero_of_lt hfuel)
    rw [List.nil_append] at hchars
    have hskip : c.skip n = c.behind (margin n) rest := skip_margin hchars
    have hbehind : (c.behind (margin n) rest).column = n := by
      rw [behind_column, columnAfter_margin, hcolumn, Nat.zero_add]
    refine ⟨max widest n, ?_⟩
    rw [readBlockBreaks]
    simp only [hchars, hcolumn, Nat.sub_zero, hrest.min_eq, hskip]
    rw [hrest.no_tab behind_chars hbehind, next?_eq behind_chars, hbehind, List.append_nil]
    cases rest with
    | nil => rfl
    | cons x rest => simp [hrest.no_break x rfl]
  | cons b bs ih =>
    obtain ⟨fuel, rfl⟩ := Nat.exists_eq_succ_of_ne_zero (Nat.ne_zero_of_lt hfuel)
    obtain ⟨hb, hbs⟩ := List.forall_mem_cons.mp hbs
    have hnext : c.chars = b :: (bs ++ (margin n ++ rest)) := hchars
    have hspaces : (b :: (bs ++ (margin n ++ rest))).takeWhile (· == ' ') = [] := by
      refine List.takeWhile_cons_of_neg fun h => ?_
      cases beq_iff_eq.mp h
      cases hb
    have htab : c.isAt '\t' = false := by
      refine isAt_cons hnext ?_
      rintro rfl
      cases hb
    have hcolumn' : (c.behind [b] (bs ++ (margin n ++ rest))).column = 0 := by
      rw [behind_column, columnAfter_breaks _ hb fun _ h => by cases h]
    obtain ⟨widest', hread⟩ := ih (max widest 0) (breaks ++ [b]) hbs (by simpa using hfuel)
      hcolumn' rfl
    refine ⟨widest', ?_⟩
    rw [readBlockBreaks]
    simp only [hnext, hspaces, List.length_nil, Nat.zero_min, skip, htab, Bool.and_false,
      Bool.false_eq_true, if_false, next?_eq hnext, List.head?_cons, hb, if_true, next_eq hnext,
      hcolumn]
    rw [hread, behind_behind]
    simp

/-- The first line of a block shows how far the block is indented. -/
theorem readBlockBreaks_shown (fuel widest : Nat) (breaks : List Char) (hrest : EndsGap rest)
    (hcolumn : c.column = 0) (hchars : c.chars = margin n ++ rest) :
    readBlockBreaks none (fuel + 1) widest breaks c =
      some (max widest n, breaks, c.behind (margin n) rest) := by
  have hspace : rest.head? ≠ some ' ' := fun h => absurd (hrest ' ' h).1 (by decide)
  have hskip : c.skip n = c.behind (margin n) rest := skip_margin hchars
  have hbehind : (c.behind (margin n) rest).column = n := by
    rw [behind_column, columnAfter_margin, hcolumn, Nat.zero_add]
  rw [readBlockBreaks]
  simp only [hchars, takeWhile_margin hspace, length_margin, hskip, hbehind, Option.all_none,
    Bool.true_and, next?_eq behind_chars]
  have htab : rest.head? ≠ some '\t' := fun h => absurd (hrest '\t' h).1 (by decide)
  rw [isAt_eq_false (by exact htab)]
  cases rest with
  | nil => rfl
  | cons x rest => simp [(hrest x rfl).2]

/-! ## Lines of a block -/

/-- Which line ends at the end of a block belong to it, if the text ends with these. -/
def keptBy : List Char → Chomping
  | [] => .none
  | [_] => .one
  | _ => .all

/-- The line ends at the end of a block that belong to it: one behind the last line, and those of empty
lines. -/
def keptEnds (kept : Chomping) (ended : Option Char) (breaks : List Char) : List Char :=
  match kept with
  | .none => []
  | .one => ended.toList
  | .all => ended.toList ++ breaks

/-- A text of lines that are not empty, with line ends between them. The last line ends with `bs`. -/
inductive Lines : (cs bs : List Char) → Prop
  | last {line bs : List Char} (hne : line ≠ []) (hline : ∀ x ∈ line, isBreak x = false)
    (hbs : ∀ x ∈ bs, isBreak x = true) : Lines (line ++ bs) bs
  | cons {line ends more bs : List Char} {b : Char} (hne : line ≠ [])
    (hline : ∀ x ∈ line, isBreak x = false) (hb : isBreak b = true)
    (hends : ∀ x ∈ ends, isBreak x = true) (hmore : Lines more bs) :
    Lines (line ++ b :: ends ++ more) bs

theorem Lines.ne_nil (h : Lines cs bs) : cs ≠ [] := by
  cases h with
  | last hne => simp [hne]
  | cons hne => simp [hne]

theorem Lines.no_break (h : Lines cs bs) : ∀ x ∈ cs.head?, isBreak x = false := by
  have hfirst : ∀ {line more : List Char}, line ≠ [] → (∀ x ∈ line, isBreak x = false) →
      ∀ x ∈ (line ++ more).head?, isBreak x = false := by
    intro line more hne hline x hx
    obtain ⟨y, line, rfl⟩ := List.exists_cons_of_ne_nil hne
    cases hx
    exact hline x List.mem_cons_self
  cases h with
  | last hne hline => exact hfirst hne hline
  | cons hne hline =>
    rw [List.append_assoc]
    exact hfirst hne hline

/-- A text that does not begin with a line end consists of lines. -/
theorem exists_lines (hne : cs ≠ []) (hcs : ∀ x ∈ cs.head?, isBreak x = false) :
    ∃ bs, Lines cs bs := by
  induction hlength : cs.length using Nat.strongRecOn generalizing cs with
  | ind length ih =>
    subst hlength
    obtain ⟨line, more, rfl, hline, hmore⟩ := exists_run (!isBreak ·) cs
    simp only [Bool.not_eq_true', Bool.not_eq_false'] at hline hmore
    have hlineNe : line ≠ [] := by
      rintro rfl
      obtain ⟨x, more, rfl⟩ := List.exists_cons_of_ne_nil hne
      exact absurd (hmore x rfl) (by simp [hcs x rfl])
    obtain ⟨bs, rest, rfl, hbs, hrest⟩ := exists_run isBreak more
    by_cases hnil : rest = []
    · subst hnil
      exact ⟨bs, by simpa using Lines.last hlineNe hline hbs⟩
    · cases bs with
      | nil =>
        obtain ⟨x, rest, rfl⟩ := List.exists_cons_of_ne_nil hnil
        exact absurd (hmore x rfl) (by simp [hrest x rfl])
      | cons b ends =>
        obtain ⟨hb, hends⟩ := List.forall_mem_cons.mp hbs
        obtain ⟨last, hlast⟩ := ih rest.length (by simp; omega) hnil hrest rfl
        exact ⟨last, by simpa using Lines.cons hlineNe hline hb hends hlast⟩

/-- What stands in a block below its first line, from the margin on. -/
def literalBody (indent : Nat) (cs : List Char) : List Char :=
  indented indent false cs ++ (if cs.getLast?.any isBreak then [] else ['\n'])

theorem indented_line (hline : ∀ x ∈ line, isBreak x = false) (more : List Char) :
    indented indent false (line ++ more) = line ++ indented indent false more := by
  induction line with
  | nil => rfl
  | cons x line ih =>
    obtain ⟨hx, hline⟩ := List.forall_mem_cons.mp hline
    rw [List.cons_append, indented_cons hx, ih hline]
    rfl

theorem indented_breaks (indent : Nat) (fresh : Bool) {b : Char} {bs : List Char}
    (hb : isBreak b = true) (hbs : ∀ x ∈ bs, isBreak x = true) (cs : List Char) :
    indented indent fresh (b :: bs ++ cs) = b :: bs ++ indented indent true cs := by
  induction bs generalizing b fresh with
  | nil => exact indented_break hb
  | cons d bs ih =>
    obtain ⟨hd, hbs⟩ := List.forall_mem_cons.mp hbs
    rw [List.cons_append, indented_break hb, ih true hd hbs]
    rfl

theorem indented_ends (indent : Nat) (hbs : ∀ x ∈ bs, isBreak x = true) (more : List Char) :
    indented indent true (bs ++ more) = bs ++ indented indent true more := by
  cases bs with
  | nil => rfl
  | cons b bs =>
    obtain ⟨hb, hbs⟩ := List.forall_mem_cons.mp hbs
    exact indented_breaks indent true hb hbs more

theorem indented_start (hne : cs ≠ []) (hcs : ∀ x ∈ cs.head?, isBreak x = false) :
    indented indent true cs = margin indent ++ indented indent false cs := by
  obtain ⟨x, cs, rfl⟩ := List.exists_cons_of_ne_nil hne
  exact indented_fresh (hcs x rfl)

/-- A line is read up to the next one. -/
theorem readBlockLines_line (fuel : Nat) (acc : List Char) (ended : Option Char)
    (breaks : List Char) (wasBlank : Bool) (hline : ∀ x ∈ line, isBreak x = false)
    (hb : isBreak b = true) (hbs : ∀ x ∈ bs, isBreak x = true) (hrest : Indents indent n rest)
    (hcolumn : c.column = indent) (hchars : c.chars = line ++ (b :: bs ++ (margin n ++ rest))) :
    ∃ isBlank, readBlockLines true kept indent (fuel + 1) acc ended breaks wasBlank c =
      readBlockLines true kept indent fuel (acc ++ (ended.toList ++ breaks) ++ line) (some b) bs
        isBlank (c.behind (line ++ (b :: bs ++ margin n)) rest) := by
  have hnotEnd : (c.column == indent && !c.chars.isEmpty) = true := by
    rw [hchars, hcolumn]
    simp
  have htake : c.chars.takeWhile (!isBreak ·) = line := by
    rw [hchars, List.takeWhile_append_of_pos (by simpa using hline), List.cons_append,
      List.takeWhile_cons_of_neg (by simp [hb]), List.append_nil]
  have hbehind : (c.behind line (b :: bs ++ (margin n ++ rest))).chars =
      b :: (bs ++ (margin n ++ rest)) := rfl
  have hstart : ((c.behind line (b :: bs ++ (margin n ++ rest))).behind [b]
      (bs ++ (margin n ++ rest))).column = 0 := by
    rw [behind_column, columnAfter_breaks _ hb fun _ h => by cases h]
  have hfuel : bs.length < (c.behind line (b :: bs ++ (margin n ++ rest))).chars.length + 1 := by
    rw [hbehind, List.length_cons, List.length_append]
    omega
  obtain ⟨widest', hread⟩ := readBlockBreaks_told 0 [] hbs hrest hfuel hstart rfl
  refine ⟨c.next?.any isBlank, ?_⟩
  rw [readBlockLines.eq_def]
  dsimp only
  rw [if_pos hnotEnd, htake, skip_eq hchars, next?_eq hbehind, next_eq hbehind]
  simp only [List.head?_cons, hread, Bool.not_true, Bool.false_and, Bool.false_eq_true, if_false]
  rw [behind_behind, behind_behind, List.append_assoc, List.singleton_append]
  rfl

theorem readBlockLines_end {ended : Option Char} {wasBlank : Bool} (h : c.column ≠ indent) :
    readBlockLines true kept indent (fuel + 1) acc ended breaks wasBlank c =
      some (acc ++ keptEnds kept ended breaks, c) := by
  have hend : ¬(c.column == indent && !c.chars.isEmpty) = true := by simp [h]
  rw [readBlockLines.eq_def]
  dsimp only
  rw [if_neg hend]
  cases kept <;> rfl

/-- The last line ends with a line end of the text, or with one that has been added. -/
theorem literalBody_last (indent : Nat) (hne : line ≠ []) (hline : ∀ x ∈ line, isBreak x = false)
    (hbs : ∀ x ∈ bs, isBreak x = true) :
    ∃ b more, literalBody indent (line ++ bs) = line ++ b :: more ∧
      (∀ x ∈ b :: more, isBreak x = true) ∧
      keptEnds (keptBy bs) (some b) more = bs := by
  rw [literalBody, indented_line hline]
  cases bs with
  | nil =>
    have hlast : (line ++ []).getLast?.any isBreak = false := by
      rw [List.append_nil, List.getLast?_eq_some_getLast hne]
      exact hline _ (List.getLast_mem hne)
    exact ⟨'\n', [], by rw [hlast]; simp [indented], by simp; rfl, rfl⟩
  | cons b bs =>
    have hlast : (line ++ b :: bs).getLast?.any isBreak = true := by
      rw [List.getLast?_append, List.getLast?_eq_some_getLast (List.cons_ne_nil b bs), Option.some_or]
      exact hbs _ (List.getLast_mem _)
    obtain ⟨hb, hmore⟩ := List.forall_mem_cons.mp hbs
    have hall := indented_breaks indent false hb hmore []
    rw [List.append_nil] at hall
    refine ⟨b, bs, ?_, hbs, by cases bs <;> rfl⟩
    rw [hlast, if_pos rfl, hall]
    simp [indented]

theorem literalBody_more (indent : Nat) (hline : ∀ x ∈ line, isBreak x = false)
    (hb : isBreak b = true) {ends : List Char} (hends : ∀ x ∈ ends, isBreak x = true)
    (hmore : Lines more bs) :
    literalBody indent (line ++ b :: ends ++ more) =
      line ++ (b :: ends ++ (margin indent ++ literalBody indent more)) := by
  have hlast : (line ++ b :: ends ++ more).getLast?.any isBreak = more.getLast?.any isBreak := by
    rw [List.getLast?_append, List.getLast?_eq_some_getLast hmore.ne_nil, Option.some_or]
  rw [literalBody, hlast, List.append_assoc, indented_line hline, indented_breaks indent false hb hends,
    indented_start hmore.ne_nil hmore.no_break, literalBody]
  simp

theorem Lines.literalBody_no_break (h : Lines cs bs) (indent : Nat) (rest : List Char) :
    ∀ x ∈ (literalBody indent cs ++ rest).head?, isBreak x = false := by
  obtain ⟨first, others, rfl⟩ := List.exists_cons_of_ne_nil h.ne_nil
  have hfirst := h.no_break first rfl
  rw [literalBody, indented_cons hfirst]
  rintro _ ⟨⟩
  exact hfirst

/-- The lines of a block are read, up to a line that is indented by less. -/
theorem readBlockLines_lines (h : Lines cs bs) {ended : Option Char} {wasBlank : Bool}
    (hfuel : cs.length < fuel) (hn : n < indent) (hrest : EndsGap rest) (hcolumn : c.column = indent)
    (hchars : c.chars = literalBody indent cs ++ (margin n ++ rest)) :
    readBlockLines true (keptBy bs) indent fuel acc ended breaks wasBlank c =
      some (acc ++ (ended.toList ++ breaks) ++ cs,
        c.behind (literalBody indent cs ++ margin n) rest) := by
  -- a line is read with the line ends behind it
  induction h generalizing fuel acc ended breaks wasBlank c with
  | @last line bs hne hline hbs =>
    obtain ⟨b, more, hbody, hbreaks, hkept⟩ := literalBody_last indent hne hline hbs
    obtain ⟨hb, hmore⟩ := List.forall_mem_cons.mp hbreaks
    have hlength := List.length_pos_iff.mpr hne
    obtain ⟨fuel, rfl⟩ : ∃ k, fuel = k + 1 + 1 := ⟨fuel - 2, by
      simp only [List.length_append] at hfuel
      omega⟩
    rw [hbody, List.append_assoc] at hchars
    obtain ⟨isBlank, hstep⟩ := readBlockLines_line (fuel + 1) acc ended breaks wasBlank hline hb hmore
      (.inr ⟨hn, hrest⟩) hcolumn hchars
    have hstop : (c.behind (line ++ (b :: more ++ margin n)) rest).column ≠ indent := by
      rw [behind_column, columnAfter_append, columnAfter_append, columnAfter_breaks _ hb hmore,
        columnAfter_margin]
      omega
    rw [hstep, readBlockLines_end hstop, hbody, hkept]
    simp only [List.append_assoc]
  | @cons line ends more bs b hne hline hb hends hmore ih =>
    obtain ⟨fuel, rfl⟩ := Nat.exists_eq_succ_of_ne_zero (Nat.ne_zero_of_lt hfuel)
    have hlength : more.length < fuel := by
      simp only [List.length_append, List.length_cons] at hfuel
      omega
    rw [literalBody_more indent hline hb hends hmore] at hchars ⊢
    simp only [List.append_assoc] at hchars
    have hindents : Indents indent indent (literalBody indent more ++ (margin n ++ rest)) :=
      .inl ⟨rfl, hmore.literalBody_no_break indent _⟩
    obtain ⟨isBlank, hstep⟩ := readBlockLines_line fuel acc ended breaks wasBlank hline hb hends
      hindents hcolumn (by simpa using hchars)
    have hstart : (c.behind (line ++ (b :: ends ++ margin indent))
        (literalBody indent more ++ (margin n ++ rest))).column = indent := by
      rw [behind_column, columnAfter_append, columnAfter_append, columnAfter_breaks _ hb hends,
        columnAfter_margin, Nat.zero_add]
    rw [hstep, ih hlength hstart rfl, behind_behind]
    simp

/-! ## Signs of a block -/

/-- The sign for what is kept. -/
def chompingSigns : Chomping → List Char
  | .none => ['-']
  | .one => []
  | .all => ['+']

theorem Lines.exists_last (h : Lines cs bs) : (∀ x ∈ bs, isBreak x = true) ∧
    ∃ front x, cs = front ++ x :: bs ∧ isBreak x = false := by
  induction h with
  | @last line bs hne hline hbs =>
    refine ⟨hbs, line.dropLast, line.getLast hne, ?_, hline _ (List.getLast_mem hne)⟩
    rw [List.append_cons, List.dropLast_concat_getLast]
  | @cons line ends more bs b _ _ _ _ _ ih =>
    obtain ⟨hbs, front, x, rfl, hx⟩ := ih
    exact ⟨hbs, line ++ b :: ends ++ front, x, by simp, hx⟩

/-- The sign of a text with lines says what it ends with. -/
theorem Lines.chomping_eq (h : Lines cs bs) (before : List Char) :
    chomping (before ++ cs) = chompingSigns (keptBy bs) := by
  obtain ⟨hbs, front, x, rfl, hx⟩ := h.exists_last
  have hreverse : (before ++ (front ++ x :: bs)).reverse =
      bs.reverse ++ x :: (before ++ front).reverse := by simp
  rw [chomping, hreverse]
  rcases bs with _ | ⟨b, _ | ⟨d, ds⟩⟩
  · simp [hx, keptBy, chompingSigns]
  · simp [hx, hbs, keptBy, chompingSigns]
  · -- the two last line ends, wherever they are among the others
    obtain ⟨last, others, hlast⟩ := List.exists_cons_of_ne_nil
      (List.reverse_ne_nil_iff.mpr (List.cons_ne_nil b (d :: ds)))
    have hlength : others.length = ds.length + 1 := by
      have := congrArg List.length hlast
      simp only [List.length_reverse, List.length_cons] at this
      omega
    obtain ⟨before, others, rfl⟩ := List.exists_cons_of_length_eq_add_one hlength
    have hall : ∀ y ∈ last :: before :: others, isBreak y = true := fun y hy =>
      hbs y (List.mem_reverse.mp (hlast ▸ hy))
    rw [hlast]
    simp [hall, keptBy, chompingSigns]

theorem chomping_of_breaks (hne : bs ≠ []) (hbs : ∀ x ∈ bs, isBreak x = true) :
    chomping bs = chompingSigns .all := by
  have hreverse : ∀ x ∈ bs.reverse, isBreak x = true := by simpa using hbs
  obtain ⟨last, before, hlast⟩ := List.exists_cons_of_ne_nil (List.reverse_ne_nil_iff.mpr hne)
  rw [hlast] at hreverse
  rw [chomping, hlast]
  cases before with
  | nil => simp [hreverse, chompingSigns]
  | cons b before => simp [hreverse, chompingSigns]

/-- Whether the indentation is told, and the sign of what is kept. -/
def blockSigns (told : Bool) (kept : Chomping) : List Char :=
  (if told then ['2'] else []) ++ chompingSigns kept

theorem readBlockSigns_eq (told : Bool) (kept : Chomping) (rest : List Char) :
    readBlockSigns (blockSigns told kept ++ '\n' :: rest) =
      some (if told then 2 else 0, kept, (blockSigns told kept).length) := by
  cases told <;> cases kept <;> simp [readBlockSigns, blockSigns, chompingSigns]

/-! ## Blocks -/

/-- The place behind the signs of a block and the end of their line. -/
def behindSigns (told : Bool) (kept : Chomping) (text : List Char) (c : Cursor) : Cursor :=
  c.behind ('|' :: blockSigns told kept ++ ['\n']) text

theorem column_behindSigns (told : Bool) (kept : Chomping) (text : List Char) (c : Cursor) :
    (behindSigns told kept text c).column = 0 := by
  rw [behindSigns, behind_column, columnAfter_append]
  rfl

/-- Behind its signs and the end of their line the lines of a block are read. -/
theorem readBlock_signs {told : Bool} {text ends : List Char} {base : Nat} {start d e : Cursor}
    (hchars : c.chars = '|' :: (blockSigns told kept ++ '\n' :: text))
    (hstart : behindSigns told kept text c = start)
    (hbreaks : readBlockBreaks (if told then some (base + 2) else none) (text.length + 1) 0 [] start =
      some (widest, ends, d))
    (hlines : readBlockLines true kept (if told then base + 2 else max (max widest (base + 1)) 1)
      (d.chars.length + 1) [] none ends false d = some (cs, e)) :
    readBlock true (base + 1) c = some (.str (.ofList cs), e.setMayBegin true) := by
  have hsigns : c.next.chars = blockSigns told kept ++ '\n' :: text := by
    rw [next_eq hchars, behind_chars]
  have hskip : (c.next.skip (blockSigns told kept).length).skipWhile isBlank =
      c.behind ('|' :: blockSigns told kept) ('\n' :: text) := by
    rw [skip_eq hsigns, skipWhile_none, next_eq hchars, behind_behind]
    · rfl
    · rintro _ ⟨⟩
      rfl
  have hcomment : (c.behind ('|' :: blockSigns told kept) ('\n' :: text)).isAt '#' = false :=
    isAt_cons rfl (by decide)
  have hnext : (c.behind ('|' :: blockSigns told kept) ('\n' :: text)).next = start := by
    rw [next_eq rfl, behind_behind, ← hstart, behindSigns]
  have hended :
      (c.behind ('|' :: blockSigns told kept) ('\n' :: text)).next?.any (!isBreak ·) = false := rfl
  -- the sign tells how much further in the block is than what it belongs to
  have htold : (if ((if told then 2 else 0 : Nat) == 0) = true then none
      else some (base + 1 - 1 + if told then 2 else 0)) =
        (if told then some (base + 2) else none) := by
    cases told <;> rfl
  have hindent : (if ((if told then 2 else 0 : Nat) == 0) = true then max (max widest (base + 1)) 1
      else base + 1 - 1 + if told then 2 else 0) =
        (if told then base + 2 else max (max widest (base + 1)) 1) := by
    cases told <;> rfl
  have hchars' : start.chars = text := hstart ▸ rfl
  rw [readBlock, hsigns, readBlockSigns_eq]
  simp only [Option.bind_eq_bind, Option.bind_some, hskip, hcomment, hended, Bool.false_eq_true,
    if_false, hnext, hchars', htold, hbreaks, hindent, hlines]

@[simp]
theorem getLast?_indented (indent : Nat) (fresh : Bool) (cs : List Char) :
    (indented indent fresh cs).getLast? = cs.getLast? := by
  induction cs generalizing fresh with
  | nil => rfl
  | cons x cs ih =>
    have hcons : ∀ fresh', (x :: indented indent fresh' cs).getLast? = (x :: cs).getLast? := by
      intro fresh'
      rw [List.getLast?_cons, List.getLast?_cons, ih]
    rw [indented]
    split
    · exact hcons true
    · split
      · rw [List.getLast?_append, hcons, List.getLast?_cons, Option.some_or]
      · exact hcons false

/-- What stands in a block below its signs. -/
def literalLines (indent : Nat) (cs : List Char) : List Char :=
  indented indent true cs ++ (if cs.getLast?.any isBreak then [] else ['\n'])

/-- Empty lines stand in a block as they are. -/
theorem literalLines_breaks (indent : Nat) (hne : bs ≠ []) (hbs : ∀ x ∈ bs, isBreak x = true) :
    literalLines indent bs = bs := by
  have hall := indented_ends indent hbs []
  have hlast : bs.getLast?.any isBreak = true := by
    rw [List.getLast?_eq_some_getLast hne]
    exact hbs _ (List.getLast_mem hne)
  rw [List.append_nil] at hall
  rw [literalLines, hall, hlast, if_pos rfl, indented, List.append_nil, List.append_nil]

/-- Behind empty lines the first line of a text is indented. -/
theorem literalLines_append (indent : Nat) (hbs : ∀ x ∈ bs, isBreak x = true) (hne : more ≠ [])
    (hmore : ∀ x ∈ more.head?, isBreak x = false) :
    literalLines indent (bs ++ more) = bs ++ (margin indent ++ literalBody indent more) := by
  have hlast : (bs ++ more).getLast?.any isBreak = more.getLast?.any isBreak := by
    rw [List.getLast?_append, List.getLast?_eq_some_getLast hne, Option.some_or]
  rw [literalLines, hlast, indented_ends indent hbs, indented_start hne hmore, literalBody]
  simp only [List.append_assoc]

/-- Whether the indentation is told. -/
def isTold (cs : List Char) : Bool := cs.head?.any fun c => isSpace c || isBreak c

theorem endLine_renderLiteral (hne : cs ≠ []) (hkept : chomping cs = chompingSigns kept) :
    endLine (renderLiteral indent cs) =
      '|' :: (blockSigns (isTold cs) kept ++ '\n' :: literalLines indent cs) := by
  have hshown : renderLiteral indent cs =
      '|' :: (blockSigns (isTold cs) kept ++ '\n' :: indented indent true cs) := by
    rw [renderLiteral, hkept]
    rfl
  have hlast : (renderLiteral indent cs).getLast? = cs.getLast? := by
    rw [hshown, ← List.cons_append, List.getLast?_append, List.getLast?_cons, getLast?_indented,
      List.getLast?_eq_some_getLast hne]
    rfl
  rw [endLine, hlast, literalLines, hshown]
  split
  · rw [List.append_nil]
  · simp

theorem columnAfter_ends (n : Nat) (hbs : ∀ x ∈ bs, isBreak x = true) :
    columnAfter 0 (bs ++ margin n) = n := by
  cases bs with
  | nil => rw [List.nil_append, columnAfter_margin, Nat.zero_add]
  | cons b bs =>
    obtain ⟨hb, hbs⟩ := List.forall_mem_cons.mp hbs
    rw [columnAfter_append, columnAfter_breaks 0 hb hbs, columnAfter_margin, Nat.zero_add]

theorem length_le_indented (indent : Nat) (fresh : Bool) (cs : List Char) :
    cs.length ≤ (indented indent fresh cs).length := by
  induction cs generalizing fresh with
  | nil => exact Nat.zero_le _
  | cons x cs ih =>
    rw [indented]
    have htrue := ih true
    have hfalse := ih false
    split
    · simp only [List.length_cons]
      omega
    · split <;> simp only [List.length_cons, List.length_append] <;> omega

/-- The lines of a block are read from the first one on. -/
theorem readBlockLines_first (ends : List Char) {last : List Char} (hlines : Lines cs last) (hn : n < indent)
    (hrest : EndsGap rest) (hcolumn : c.column = indent)
    (hchars : c.chars = literalBody indent cs ++ (margin n ++ rest)) :
    readBlockLines true (keptBy last) indent (c.chars.length + 1) [] none ends false c =
      some (ends ++ cs, c.behind (literalBody indent cs ++ margin n) rest) := by
  have hfuel : cs.length < c.chars.length + 1 := by
    have := length_le_indented indent false cs
    rw [hchars, literalBody]
    simp only [List.length_append]
    omega
  exact readBlockLines_lines hlines hfuel hn hrest hcolumn hchars

/-- Nothing but empty lines. -/
theorem readBlock_breaks {base : Nat} (hbs : ∀ x ∈ bs, isBreak x = true) (hn : n < base + 2)
    (hrest : EndsGap rest)
    (hchars : c.chars = '|' :: (blockSigns true .all ++ '\n' :: (bs ++ (margin n ++ rest)))) :
    readBlock true (base + 1) c = some (.str (.ofList bs), ((behindSigns true .all
      (bs ++ (margin n ++ rest)) c).behind (bs ++ margin n) rest).setMayBegin true) := by
  generalize hstart : behindSigns true .all (bs ++ (margin n ++ rest)) c = start
  have hcolumn : start.column = 0 := hstart ▸ column_behindSigns ..
  have hfuel : bs.length < (bs ++ (margin n ++ rest)).length + 1 := by
    simp only [List.length_append]
    omega
  obtain ⟨widest, hread⟩ := readBlockBreaks_told 0 [] (c := start) hbs
    (.inr ⟨hn, hrest⟩) hfuel hcolumn (by rw [← hstart]; rfl)
  have hend : (start.behind (bs ++ margin n) rest).column ≠ base + 2 := by
    rw [behind_column, hcolumn, columnAfter_ends n hbs]
    omega
  exact readBlock_signs hchars hstart hread (readBlockLines_end hend)

/-- Lines behind empty ones, with the indentation told. -/
theorem readBlock_told {base : Nat} (hbs : ∀ x ∈ bs, isBreak x = true) {last : List Char}
    (hlines : Lines more last) (hn : n < base + 2) (hrest : EndsGap rest) {text : List Char}
    (htext : text = bs ++ (margin (base + 2) ++ (literalBody (base + 2) more ++ (margin n ++ rest))))
    (hchars : c.chars = '|' :: (blockSigns true (keptBy last) ++ '\n' :: text)) :
    readBlock true (base + 1) c = some (.str (.ofList (bs ++ more)),
      ((behindSigns true (keptBy last) text c).behind (bs ++ (margin (base + 2) ++
        (literalBody (base + 2) more ++ margin n))) rest).setMayBegin true) := by
  generalize hstart : behindSigns true (keptBy last) text c = start
  have hcolumn : start.column = 0 := hstart ▸ column_behindSigns ..
  have hfuel : bs.length < text.length + 1 := by
    rw [htext, List.length_append]
    omega
  have hindents : Indents (base + 2) (base + 2) (literalBody (base + 2) more ++ (margin n ++ rest)) :=
    .inl ⟨rfl, hlines.literalBody_no_break _ _⟩
  obtain ⟨widest, hread⟩ := readBlockBreaks_told 0 [] (c := start) hbs hindents
    hfuel hcolumn (by rw [← hstart, ← htext]; rfl)
  generalize hfirst : start.behind (bs ++ margin (base + 2))
    (literalBody (base + 2) more ++ (margin n ++ rest)) = first at hread
  have hfirstColumn : first.column = base + 2 := by
    rw [← hfirst, behind_column, hcolumn, columnAfter_ends _ hbs]
  have hall := readBlockLines_first bs hlines hn hrest hfirstColumn (by rw [← hfirst]; rfl)
  rw [readBlock_signs hchars hstart hread hall, ← hfirst, behind_behind, List.append_assoc]

/-- Lines that show how far they are indented. -/
theorem readBlock_shown {base : Nat} {last : List Char} (hlines : Lines cs last) (hn : n < base + 2)
    (hblank : ∀ x ∈ cs.head?, isBlank x = false) (hrest : EndsGap rest) {text : List Char}
    (htext : text = margin (base + 2) ++ (literalBody (base + 2) cs ++ (margin n ++ rest)))
    (hchars : c.chars = '|' :: (blockSigns false (keptBy last) ++ '\n' :: text)) :
    readBlock true (base + 1) c = some (.str (.ofList cs),
      ((behindSigns false (keptBy last) text c).behind (margin (base + 2) ++
        (literalBody (base + 2) cs ++ margin n)) rest).setMayBegin true) := by
  generalize hstart : behindSigns false (keptBy last) text c = start
  have hcolumn : start.column = 0 := hstart ▸ column_behindSigns ..
  have hbegins : EndsGap (literalBody (base + 2) cs ++ (margin n ++ rest)) := by
    obtain ⟨x, others, rfl⟩ := List.exists_cons_of_ne_nil hlines.ne_nil
    rw [literalBody, indented_cons (hlines.no_break x rfl)]
    exact .cons (hblank x rfl) (hlines.no_break x rfl)
  have hread := readBlockBreaks_shown text.length 0 [] hbegins hcolumn
    (by rw [← hstart, ← htext]; rfl)
  generalize hfirst : start.behind (margin (base + 2))
    (literalBody (base + 2) cs ++ (margin n ++ rest)) = first at hread
  have hfirstColumn : first.column = base + 2 := by
    rw [← hfirst, behind_column, hcolumn, columnAfter_margin, Nat.zero_add]
  have hindent : max (max (max 0 (base + 2)) (base + 1)) 1 = base + 2 := by omega
  have hall := readBlockLines_first [] hlines hn hrest hfirstColumn (by rw [← hfirst]; rfl)
  rw [← hindent] at hall
  rw [readBlock_signs hchars hstart hread hall, ← hfirst, behind_behind, hindent]
  rfl

/-- A block is read up to what follows it. -/
theorem readBlock_literal (hne : cs ≠ []) (htab : cs.head? ≠ some '\t') (hn : n < indent + 2)
    (hrest : EndsGap rest)
    (hchars : c.chars = endLine (renderLiteral (indent + 2) cs) ++ (margin n ++ rest)) :
    readBlock true (indent + 1) c = some (.str (.ofList cs),
      (c.behind (endLine (renderLiteral (indent + 2) cs) ++ margin n) rest).setMayBegin true) := by
  obtain ⟨bs, more, hcs, hbs, hmore⟩ := exists_run isBreak cs
  -- a text of line ends alone has no line to indent
  by_cases hnil : more = []
  · subst hnil
    rw [List.append_nil] at hcs
    subst hcs
    have htold : isTold cs = true := by
      obtain ⟨x, others, rfl⟩ := List.exists_cons_of_ne_nil hne
      exact (Bool.or_eq_true _ _).mpr (.inr (hbs x List.mem_cons_self))
    rw [endLine_renderLiteral hne (chomping_of_breaks hne hbs), htold,
      literalLines_breaks _ hne hbs] at hchars ⊢
    rw [readBlock_breaks hbs hn hrest (by simpa using hchars), behindSigns, behind_behind]
    simp
  · obtain ⟨last, hlines⟩ := exists_lines hnil hmore
    have hkept : chomping cs = chompingSigns (keptBy last) := hcs ▸ hlines.chomping_eq bs
    have hbody : literalLines (indent + 2) cs =
        bs ++ (margin (indent + 2) ++ literalBody (indent + 2) more) :=
      hcs ▸ literalLines_append _ hbs hnil hmore
    rw [endLine_renderLiteral hne hkept, hbody] at hchars ⊢
    cases htold : isTold cs with
    | true =>
      rw [htold] at hchars
      rw [readBlock_told hbs hlines hn hrest rfl (by simpa using hchars), behindSigns, behind_behind, hcs]
      simp
    | false =>
      have hfirst : ∀ x ∈ cs.head?, isSpace x = false ∧ isBreak x = false := by
        intro x hx
        rw [isTold, Option.mem_def.mp hx] at htold
        exact Bool.or_eq_false_iff.mp htold
      have hnone : bs = [] := by
        cases bs with
        | nil => rfl
        | cons b bs =>
          have hb := (hfirst b (by rw [hcs]; rfl)).2
          rw [hbs b List.mem_cons_self] at hb
          cases hb
      subst hnone
      have hblank : ∀ x ∈ more.head?, isBlank x = false := by
        intro x hx
        rw [List.nil_append] at hcs
        rw [← hcs] at hx
        exact isBlank_eq_false (beq_eq_false_iff_ne.mp (hfirst x hx).1) fun h => htab (h ▸ hx)
      rw [htold] at hchars
      rw [readBlock_shown hlines hn hblank hrest rfl (by simpa using hchars), behindSigns, behind_behind,
        hcs]
      simp

end CodeAtlas.Yaml
