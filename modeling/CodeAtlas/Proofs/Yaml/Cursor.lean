import CodeAtlas.Yaml.Cursor
import CodeAtlas.Yaml.Printer
/-!
# Places in a text that is known

Where the next characters are known, the place behind them is known as well: how far it is to the right
and down, and what comes there. Spaces and gaps between words are such characters.

Results:
1. `skip_eq`, `skipWhile_eq`: the place behind a text.
2. `skipSpace_margin`, `skipSpace_line`: spaces lead to the next token, on the same line or the next one.
3. `readGap_blanks`, `readGap_breaks`: what the gap between two words is.
-/

namespace CodeAtlas.Yaml

variable {x : Char} {text rest : List Char} {n : Nat}

/-- The next character is neither a blank nor a line end. -/
def EndsGap (rest : List Char) : Prop :=
  ∀ x ∈ rest.head?, isBlank x = false ∧ isBreak x = false

/-- The next character is none that is skipped between tokens. -/
structure IsToken (rest : List Char) : Prop where
  endsGap : EndsGap rest
  noComment : rest.head? ≠ some '#'

theorem EndsGap.cons (hblank : isBlank x = false) (hbreak : isBreak x = false) :
    EndsGap (x :: rest) := by
  rintro _ ⟨⟩
  exact ⟨hblank, hbreak⟩

theorem IsToken.cons (hblank : isBlank x = false) (hbreak : isBreak x = false) (hcomment : x ≠ '#') :
    IsToken (x :: rest) :=
  ⟨.cons hblank hbreak, fun h => hcomment (Option.some.inj h)⟩

/-- Whether a token is next hangs on the next character alone. -/
theorem IsToken.append {more : List Char} (h : IsToken [x]) : IsToken (x :: rest ++ more) :=
  .cons (h.endsGap x rfl).1 (h.endsGap x rfl).2 fun heq => h.noComment (congrArg some heq)

theorem IsToken.nil : IsToken [] := ⟨fun _ h => (by cases h), fun h => (by cases h)⟩

/-! ## Margins -/

theorem margin_succ (n : Nat) : margin (n + 1) = ' ' :: margin n := rfl

@[simp]
theorem length_margin (n : Nat) : (margin n).length = n := List.length_replicate

theorem margin_add (m n : Nat) : margin (m + n) = margin m ++ margin n :=
  List.replicate_append_replicate.symm

theorem eq_space_of_mem_margin (h : x ∈ margin n) : x = ' ' := List.eq_of_mem_replicate h

/-- A text of one class of characters is taken off where another character comes behind it. -/
theorem takeWhile_append_stop {p : Char → Bool} (htext : ∀ x ∈ text, p x = true)
    (hrest : ∀ x ∈ rest.head?, p x = false) : (text ++ rest).takeWhile p = text := by
  have hnone : rest.takeWhile p = [] := by
    cases rest with
    | nil => rfl
    | cons x rest => exact List.takeWhile_cons_of_neg (by simp [hrest x rfl])
  rw [List.takeWhile_append_of_pos htext, hnone, List.append_nil]

theorem takeWhile_margin (hrest : rest.head? ≠ some ' ') :
    (margin n ++ rest).takeWhile (· == ' ') = margin n :=
  takeWhile_append_stop (fun _ hx => beq_iff_eq.mpr (eq_space_of_mem_margin hx)) fun _ hx =>
    beq_eq_false_iff_ne.mpr fun heq => hrest (heq ▸ hx)

namespace Cursor

/-! ## The place behind a text -/

/-- The column behind a text that begins in a column. -/
def columnAfter (column : Nat) : List Char → Nat
  | [] => column
  | x :: text => columnAfter (if isBreak x then 0 else column + 1) text

/-- The place behind a text that is next and behind which `rest` comes. -/
def behind (c : Cursor) (text rest : List Char) : Cursor :=
  { c with
    chars := rest
    line := c.line + text.countP isBreak
    column := columnAfter c.column text
    index := c.index + text.length }

variable {c : Cursor} {p : Char → Bool}

theorem columnAfter_append (column : Nat) (text more : List Char) :
    columnAfter column (text ++ more) = columnAfter (columnAfter column text) more := by
  induction text generalizing column with
  | nil => rfl
  | cons x text ih => exact ih _

theorem columnAfter_of_no_break (column : Nat) (h : ∀ x ∈ text, isBreak x = false) :
    columnAfter column text = column + text.length := by
  induction text generalizing column with
  | nil => rfl
  | cons x text ih =>
    obtain ⟨hx, htext⟩ := List.forall_mem_cons.mp h
    rw [columnAfter, hx, if_neg Bool.false_ne_true, ih _ htext, List.length_cons]
    omega

@[simp]
theorem columnAfter_margin (column n : Nat) : columnAfter column (margin n) = column + n := by
  rw [columnAfter_of_no_break, length_margin]
  exact fun x hx => eq_space_of_mem_margin hx ▸ rfl

/-- Behind line ends a line begins. -/
theorem columnAfter_breaks (column : Nat) (hx : isBreak x = true) (h : ∀ y ∈ text, isBreak y = true) :
    columnAfter column (x :: text) = 0 := by
  induction text generalizing column x with
  | nil => rw [columnAfter, hx, if_pos rfl, columnAfter]
  | cons y text ih =>
    obtain ⟨hy, htext⟩ := List.forall_mem_cons.mp h
    exact ih _ hy htext

@[simp] theorem behind_chars : (c.behind text rest).chars = rest := rfl

@[simp] theorem behind_line : (c.behind text rest).line = c.line + text.countP isBreak := rfl

@[simp] theorem behind_column : (c.behind text rest).column = columnAfter c.column text := rfl

@[simp] theorem behind_index : (c.behind text rest).index = c.index + text.length := rfl

@[simp] theorem behind_mayBegin : (c.behind text rest).mayBegin = c.mayBegin := rfl

theorem behind_nil (h : c.chars = rest) : c.behind [] rest = c := by
  subst h
  rfl

theorem behind_behind (c : Cursor) (text between more rest : List Char) :
    (c.behind text between).behind more rest = c.behind (text ++ more) rest := by
  simp only [behind, columnAfter_append, List.countP_append, List.length_append, Nat.add_assoc]

@[simp]
theorem setMayBegin_behind (b : Bool) (c : Cursor) (text rest : List Char) :
    (c.setMayBegin b).behind text rest = (c.behind text rest).setMayBegin b := rfl

@[simp] theorem setMayBegin_chars (b : Bool) : (c.setMayBegin b).chars = c.chars := rfl

@[simp] theorem setMayBegin_line (b : Bool) : (c.setMayBegin b).line = c.line := rfl

@[simp] theorem setMayBegin_column (b : Bool) : (c.setMayBegin b).column = c.column := rfl

@[simp] theorem setMayBegin_index (b : Bool) : (c.setMayBegin b).index = c.index := rfl

@[simp] theorem setMayBegin_mayBegin (b : Bool) : (c.setMayBegin b).mayBegin = b := rfl

@[simp]
theorem setMayBegin_setMayBegin (a b : Bool) : (c.setMayBegin a).setMayBegin b = c.setMayBegin b :=
  rfl

theorem next_eq (h : c.chars = x :: rest) : c.next = c.behind [x] rest := by
  rw [next, h]
  cases hx : isBreak x <;> simp [behind, columnAfter, hx]

theorem skip_eq (h : c.chars = text ++ rest) : c.skip text.length = c.behind text rest := by
  induction text generalizing c with
  | nil => exact (behind_nil h).symm
  | cons x text ih =>
    rw [List.cons_append] at h
    rw [List.length_cons, skip, next_eq h, ih behind_chars, behind_behind]
    rfl

theorem skipWhile_eq (h : c.chars = text ++ rest) (htext : ∀ x ∈ text, p x = true)
    (hrest : ∀ x ∈ rest.head?, p x = false) : c.skipWhile p = c.behind text rest := by
  rw [skipWhile, h, takeWhile_append_stop htext hrest, skip_eq h]

theorem skipWhile_none (h : ∀ x ∈ c.chars.head?, p x = false) : c.skipWhile p = c :=
  (skipWhile_eq (List.nil_append _).symm (fun _ hx => by cases hx) h).trans (behind_nil rfl)

theorem next?_eq (h : c.chars = rest) : c.next? = rest.head? := h ▸ rfl

theorem isAt_eq_false {x : Char} (h : c.chars.head? ≠ some x) : c.isAt x = false :=
  beq_eq_false_iff_ne.mpr h

theorem isAt_cons {y : Char} (h : c.chars = x :: rest) (hne : x ≠ y) : c.isAt y = false :=
  isAt_eq_false fun heq => hne (by simpa [h] using heq)

theorem isSign_cons {y : Char} (h : c.chars = x :: rest) (hne : x ≠ y) : c.isSign y = false := by
  rw [isSign, h]
  exact Bool.and_eq_false_iff.mpr (.inl (beq_eq_false_iff_ne.mpr hne.symm))

theorem isMark_of_column (h : c.column ≠ 0) (x : Char) : c.isMark x = false :=
  Bool.and_eq_false_iff.mpr (.inl (beq_eq_false_iff_ne.mpr h))

/-! ## Spaces -/

theorem any_isBreak_of_endsGap (hrest : EndsGap rest) : rest.head?.any isBreak = false := by
  cases rest with
  | nil => rfl
  | cons x rest => exact (hrest x rfl).2

theorem skipSpaceWithin_margin {inFlow : Bool} {fuel : Nat} (h : c.chars = margin n ++ rest)
    (hrest : IsToken rest) :
    skipSpaceWithin inFlow (fuel + 1) c = c.behind (margin n) rest := by
  have hspaces : c.skipWhile (fun x => x == ' ' || ((inFlow || !c.mayBegin) && x == '\t')) =
      c.behind (margin n) rest := by
    refine skipWhile_eq h (fun x hx => by rw [eq_space_of_mem_margin hx]; rfl) fun x hx => ?_
    have hblank := (hrest.endsGap x hx).1
    rw [isBlank, Bool.or_eq_false_iff] at hblank
    rw [hblank.1, hblank.2, Bool.and_false, Bool.or_false]
  have hcomment : (c.behind (margin n) rest).isAt '#' = false := isAt_eq_false hrest.noComment
  have hbreak : (c.behind (margin n) rest).next?.any isBreak = false :=
    any_isBreak_of_endsGap hrest.endsGap
  simp only [skipSpaceWithin, hspaces, hcomment, hbreak, Bool.false_eq_true, if_false]

/-- Spaces lead to the token behind them. -/
theorem skipSpace_margin {inFlow : Bool} (h : c.chars = margin n ++ rest) (hrest : IsToken rest) :
    c.skipSpace inFlow = c.behind (margin n) rest :=
  skipSpaceWithin_margin h hrest

/-- Where a token is next there is nothing to skip. -/
theorem skipSpace_token {inFlow : Bool} (hrest : IsToken c.chars) : c.skipSpace inFlow = c :=
  (skipSpace_margin (n := 0) rfl hrest).trans (behind_nil rfl)

/-- The end of a line leads to the token on the next one, where keys and items may begin. -/
theorem skipSpace_line (h : c.chars = '\n' :: (margin n ++ rest)) (hrest : IsToken rest) :
    c.skipSpace false = (c.behind ('\n' :: margin n) rest).setMayBegin true := by
  have hspaces : c.skipWhile (fun x => x == ' ' || ((false || !c.mayBegin) && x == '\t')) = c := by
    refine skipWhile_none ?_
    rw [h]
    rintro x ⟨⟩
    simp
  have hcomment : c.isAt '#' = false := isAt_cons h (by decide)
  have hbreak : c.next?.any isBreak = true := by
    rw [next?_eq h]
    rfl
  have hfuel : c.chars.length + 1 = (margin n ++ rest).length + 1 + 1 := by
    rw [h]
    rfl
  have hnext : (c.next.setMayBegin true).chars = margin n ++ rest := by
    rw [next_eq h]
    rfl
  rw [skipSpace, hfuel, skipSpaceWithin]
  simp only [hspaces, hcomment, hbreak, if_true, Bool.false_eq_true, if_false]
  rw [skipSpaceWithin_margin hnext hrest, next_eq h, setMayBegin_behind, behind_behind]
  rfl

end Cursor

/-! ## Gaps -/

section

open Cursor

variable {c : Cursor} {least : Nat} {gap : Gap}

theorem readGapWithin_end {fuel : Nat} (hrest : EndsGap c.chars) :
    readGapWithin least (fuel + 1) gap c = some (gap, c) := by
  rw [readGapWithin]
  split
  · rfl
  · next x hx =>
    obtain ⟨hblank, hbreak⟩ := hrest x hx
    rw [hblank, hbreak]
    rfl

/-- Spaces behind a line end do not belong to a gap. -/
theorem readGapWithin_margin (hgap : gap.hasBreak = true) (hrest : EndsGap rest) {fuel : Nat}
    (hfuel : n ≤ fuel) (h : c.chars = margin n ++ rest) :
    readGapWithin least (fuel + 1) gap c = some (gap, c.behind (margin n) rest) := by
  induction n generalizing fuel c with
  | zero =>
    rw [show c.behind (margin 0) rest = c from behind_nil h]
    exact readGapWithin_end (h ▸ hrest)
  | succ n ih =>
    have hchars : c.chars = ' ' :: (margin n ++ rest) := h
    have hadd : gap.addBlank ' ' = gap := by
      cases gap with
      | breaks first more => rfl
      | _ => cases hgap
    obtain ⟨fuel, rfl⟩ : ∃ k, fuel = k + 1 := ⟨fuel - 1, by omega⟩
    rw [readGapWithin, next?_eq hchars]
    simp only [List.head?_cons, show isBreak ' ' = false from rfl, show isBlank ' ' = true from rfl,
      show ((' ' == '\t') = false) from rfl, Bool.and_false, if_true, Bool.false_eq_true, if_false,
      hadd, next_eq hchars]
    rw [ih (Nat.le_of_succ_le_succ hfuel) behind_chars, behind_behind]
    rfl

theorem readGapWithin_spaces {cs : List Char} (hrest : EndsGap rest) {fuel : Nat} (hfuel : n ≤ fuel)
    (h : c.chars = margin n ++ rest) :
    readGapWithin least (fuel + 1) (.blanks cs) c =
      some (.blanks (cs ++ margin n), c.behind (margin n) rest) := by
  induction n generalizing fuel c cs with
  | zero =>
    rw [show c.behind (margin 0) rest = c from behind_nil h, show margin 0 = [] from rfl,
      List.append_nil]
    exact readGapWithin_end (h ▸ hrest)
  | succ n ih =>
    have hchars : c.chars = ' ' :: (margin n ++ rest) := h
    obtain ⟨fuel, rfl⟩ : ∃ k, fuel = k + 1 := ⟨fuel - 1, by omega⟩
    rw [readGapWithin, next?_eq hchars]
    simp only [List.head?_cons, show isBreak ' ' = false from rfl, show isBlank ' ' = true from rfl,
      Gap.hasBreak, Gap.addBlank, Bool.false_and, if_true, Bool.false_eq_true, if_false,
      next_eq hchars]
    rw [ih (Nat.le_of_succ_le_succ hfuel) behind_chars, behind_behind, List.append_assoc]
    rfl

theorem readGapWithin_breaks {first : Char} {more bs : List Char} (hbs : ∀ b ∈ bs, isBreak b = true)
    (hrest : EndsGap rest) {fuel : Nat} (hfuel : bs.length + n ≤ fuel)
    (h : c.chars = bs ++ (margin n ++ rest)) :
    readGapWithin least (fuel + 1) (.breaks first more) c =
      some (.breaks first (more ++ bs), c.behind (bs ++ margin n) rest) := by
  induction bs generalizing fuel c more with
  | nil =>
    rw [List.append_nil]
    exact readGapWithin_margin rfl hrest (by simpa using hfuel) h
  | cons b bs ih =>
    have hchars : c.chars = b :: (bs ++ (margin n ++ rest)) := h
    obtain ⟨hb, hbs⟩ := List.forall_mem_cons.mp hbs
    obtain ⟨fuel, rfl⟩ : ∃ k, fuel = k + 1 := ⟨fuel - 1, by simp at hfuel; omega⟩
    rw [readGapWithin, next?_eq hchars]
    simp only [List.head?_cons, hb, if_true, Gap.addBreak, next_eq hchars]
    rw [ih hbs (by simp at hfuel ⊢; omega) behind_chars, behind_behind, List.append_assoc]
    rfl

/-- Where a word goes on there is no gap. -/
theorem readGap_none (hrest : EndsGap c.chars) : readGap least c = some (.none, c) :=
  readGapWithin_end hrest

/-- Spaces between words are a gap. -/
theorem readGap_blanks (hrest : EndsGap rest) (h : c.chars = margin (n + 1) ++ rest) :
    readGap least c = some (.blanks (margin (n + 1)), c.behind (margin (n + 1)) rest) := by
  have hchars : c.chars = ' ' :: (margin n ++ rest) := h
  rw [readGap, readGapWithin, next?_eq hchars]
  simp only [List.head?_cons, show isBreak ' ' = false from rfl, show isBlank ' ' = true from rfl,
    Gap.hasBreak, Gap.addBlank, Bool.false_and, if_true, Bool.false_eq_true, if_false,
    next_eq hchars]
  obtain ⟨fuel, hlength, hfuel⟩ : ∃ k, c.chars.length = k + 1 ∧ n ≤ k :=
    ⟨(margin n ++ rest).length, congrArg List.length hchars, by simp⟩
  rw [hlength, readGapWithin_spaces hrest hfuel behind_chars, behind_behind]
  rfl

/-- Line ends between words are a gap, without the spaces behind them. -/
theorem readGap_breaks {b : Char} {bs : List Char} (hb : isBreak b = true)
    (hbs : ∀ b ∈ bs, isBreak b = true) (hrest : EndsGap rest)
    (h : c.chars = b :: bs ++ (margin n ++ rest)) :
    readGap least c = some (.breaks b bs, c.behind (b :: bs ++ margin n) rest) := by
  have hchars : c.chars = b :: (bs ++ (margin n ++ rest)) := h
  rw [readGap, readGapWithin, next?_eq hchars]
  simp only [List.head?_cons, hb, if_true, Gap.addBreak, next_eq hchars]
  obtain ⟨fuel, hlength, hfuel⟩ : ∃ k, c.chars.length = k + 1 ∧ bs.length + n ≤ k :=
    ⟨(bs ++ (margin n ++ rest)).length, congrArg List.length hchars, by simp⟩
  rw [hlength, readGapWithin_breaks hbs hrest hfuel behind_chars, behind_behind]
  rfl

end

end CodeAtlas.Yaml
