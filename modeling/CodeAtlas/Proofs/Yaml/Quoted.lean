import CodeAtlas.Proofs.Yaml.Words
import Mathlib.Algebra.Group.Nat.Defs
/-!
# Texts in quotes read back

What stands in a file between quotes is read back as the text that was written. Between single quotes a text
stands as it is, its line ends with margins behind them; between double quotes every character that could not
stand there is named by an escape.

Results:
1. `readQuotedWithin_of_parts`: a text between quotes is read part by part.
2. `IsQuotable`, `readQuoted_single`: a text between single quotes is read back.
3. `escape_cases`: how a character is written between double quotes.
4. `readQuoted_double`: every text between double quotes is read back.
-/

namespace CodeAtlas.Yaml

open Cursor

variable {x : Char} {cs rest : List Char} {c : Cursor}

/-! ## Runs of characters -/

/-- A text begins with a run of characters of a class, and what is behind it does not. -/
theorem exists_run (p : Char → Bool) (cs : List Char) : ∃ run more, cs = run ++ more ∧
    (∀ x ∈ run, p x = true) ∧ ∀ x ∈ more.head?, p x = false := by
  induction cs with
  | nil => exact ⟨[], [], rfl, fun _ h => (by cases h), fun _ h => (by cases h)⟩
  | cons x cs ih =>
    cases hx : p x with
    | false =>
      refine ⟨[], x :: cs, rfl, fun _ h => (by cases h), ?_⟩
      rintro _ ⟨⟩
      exact hx
    | true =>
      obtain ⟨run, more, rfl, hrun, hmore⟩ := ih
      exact ⟨x :: run, more, rfl, List.forall_mem_cons.mpr ⟨hx, hrun⟩, hmore⟩

section

variable {first second : Char → Bool} {run more : List Char}

theorem hasPair_tail (h : hasPair first second (x :: cs) = false) :
    hasPair first second cs = false := by
  cases cs with
  | nil => rfl
  | cons y cs => exact (Bool.or_eq_false_iff.mp h).2

theorem hasPair_behind (h : hasPair first second (run ++ more) = false) :
    hasPair first second more = false := by
  induction run with
  | nil => exact h
  | cons x run ih => exact ih (hasPair_tail h)

/-- Behind a run of one class no character of the other class comes. -/
theorem hasPair_run (h : hasPair first second (run ++ more) = false) (hne : run ≠ [])
    (hrun : ∀ x ∈ run, first x = true) : ∀ y ∈ more.head?, second y = false := by
  intro y hy
  obtain ⟨more, rfl⟩ := List.head?_eq_some_iff.mp hy
  rw [← List.dropLast_concat_getLast hne, List.append_assoc] at h
  have hlast := hasPair_behind h
  have hfirst := hrun _ (List.getLast_mem hne)
  have hpair := (Bool.or_eq_false_iff.mp hlast).1
  rwa [hfirst, Bool.true_and] at hpair

end

/-! ## Steps of reading -/

section

variable {quote : Char} {fuel : Nat} {acc : List Char}

theorem readQuotedWithin_char (hcolumn : c.column ≠ 0) (hchars : c.chars = x :: rest)
    (hquote : x ≠ quote) (hescape : x ≠ '\\' ∨ quote ≠ '"') (hblank : isBlank x = false)
    (hbreak : isBreak x = false) :
    readQuotedWithin quote (fuel + 1) acc c =
      readQuotedWithin quote fuel (x :: acc) (c.behind [x] rest) := by
  have hnoEscape : (quote == '"' && x == '\\') = false := by
    rcases hescape with h | h
    · rw [beq_eq_false_iff_ne.mpr h, Bool.and_false]
    · rw [beq_eq_false_iff_ne.mpr h, Bool.false_and]
  rw [readQuotedWithin, isMark_of_column hcolumn, isMark_of_column hcolumn]
  simp only [hchars, beq_eq_false_iff_ne.mpr hquote, hnoEscape, hblank, hbreak, Bool.or_self,
    Bool.false_eq_true, if_false, next_eq hchars]

theorem readQuotedWithin_gap (hcolumn : c.column ≠ 0) (hchars : c.chars = x :: rest)
    (hquote : x ≠ quote) (hgap : (isBlank x || isBreak x) = true) {gap : Gap} {d : Cursor}
    (hread : readGap 0 c = some (gap, d)) :
    readQuotedWithin quote (fuel + 1) acc c =
      readQuotedWithin quote fuel (gap.meaning.reverse ++ acc) d := by
  have hnoEscape : (quote == '"' && x == '\\') = false := by
    have hne : x ≠ '\\' := by
      rintro rfl
      cases hgap
    rw [beq_eq_false_iff_ne.mpr hne, Bool.and_false]
  rw [readQuotedWithin, isMark_of_column hcolumn, isMark_of_column hcolumn]
  simp only [hchars, beq_eq_false_iff_ne.mpr hquote, hnoEscape, hgap, Bool.or_self,
    Bool.false_eq_true, if_false, if_true, hread]

/-- Spaces are read at once. -/
theorem readQuotedWithin_margin {n : Nat} (hcolumn : c.column ≠ 0)
    (hchars : c.chars = margin (n + 1) ++ rest) (hquote : quote ≠ ' ') (hrest : EndsGap rest) :
    readQuotedWithin quote (fuel + 1) acc c =
      readQuotedWithin quote fuel (margin (n + 1) ++ acc) (c.behind (margin (n + 1)) rest) := by
  have hspace : c.chars = ' ' :: (margin n ++ rest) := hchars
  rw [readQuotedWithin_gap hcolumn hspace hquote.symm rfl (readGap_blanks hrest hchars), Gap.meaning,
    margin, List.reverse_replicate]

/-- A quote that is not written twice ends the text. -/
theorem readQuotedWithin_end (hcolumn : c.column ≠ 0) (hchars : c.chars = quote :: rest)
    (hrest : quote = '\'' → rest.head? ≠ some '\'') :
    readQuotedWithin quote (fuel + 1) acc c = some (acc.reverse, c.behind [quote] rest) := by
  have htwice : (quote == '\'' && rest.head? == some '\'') = false := by
    by_cases h : quote = '\''
    · rw [beq_eq_false_iff_ne.mpr (hrest h), Bool.and_false]
    · rw [beq_eq_false_iff_ne.mpr h, Bool.false_and]
  rw [readQuotedWithin, isMark_of_column hcolumn, isMark_of_column hcolumn]
  simp only [hchars, BEq.rfl, htwice, Bool.or_self, Bool.false_eq_true, if_false, if_true,
    next_eq hchars]

theorem readQuotedWithin_twice (hcolumn : c.column ≠ 0) (hchars : c.chars = '\'' :: '\'' :: rest) :
    readQuotedWithin '\'' (fuel + 1) acc c =
      readQuotedWithin '\'' fuel ('\'' :: acc) (c.behind ['\'', '\''] rest) := by
  have htwo : c.chars = ['\'', '\''] ++ rest := hchars
  have hskip : c.skip 2 = c.behind ['\'', '\''] rest := skip_eq htwo
  rw [readQuotedWithin, isMark_of_column hcolumn, isMark_of_column hcolumn]
  simp only [hchars, BEq.rfl, List.head?_cons, Bool.and_self, Bool.or_self, Bool.false_eq_true,
    if_false, if_true, hskip]

end

/-! ## Parts -/

/-- What is read at once between quotes: the front of a text, of which a part of the body tells. The
body of what is left of the text comes behind it. -/
structure ReadsPart (quote : Char) (body : List Char → List Char) (rest : List Char) (c : Cursor)
    (front part more : List Char) : Prop where
  ne_nil : front ≠ []
  body_eq : body (front ++ more) = part ++ body more
  column : columnAfter c.column part ≠ 0
  reads : ∀ (fuel : Nat) (acc : List Char), readQuotedWithin quote (fuel + 1) acc c =
    readQuotedWithin quote fuel (front.reverse ++ acc) (c.behind part (body more ++ quote :: rest))

section

variable {quote : Char} {body : List Char → List Char} {more : List Char}

theorem readsPart_margin {n : Nat} (hquote : quote ≠ ' ')
    (hbody : body (margin (n + 1) ++ more) = margin (n + 1) ++ body more)
    (hgap : EndsGap (body more ++ quote :: rest)) (hcolumn : c.column ≠ 0)
    (hchars : c.chars = body (margin (n + 1) ++ more) ++ quote :: rest) :
    ReadsPart quote body rest c (margin (n + 1)) (margin (n + 1)) more := by
  rw [hbody, List.append_assoc] at hchars
  refine ⟨List.cons_ne_nil _ _, hbody, ?_, fun fuel acc => ?_⟩
  · rw [columnAfter_margin]
    omega
  · rw [readQuotedWithin_margin hcolumn hchars hquote hgap, margin, List.reverse_replicate]

theorem readsPart_char {part : List Char} (hbody : body (x :: more) = part ++ body more)
    (hpart : ∀ y ∈ part, isBreak y = false) (hcolumn : c.column ≠ 0)
    (hreads : ∀ (fuel : Nat) (acc : List Char), readQuotedWithin quote (fuel + 1) acc c =
      readQuotedWithin quote fuel (x :: acc) (c.behind part (body more ++ quote :: rest))) :
    ReadsPart quote body rest c [x] part more := by
  refine ⟨List.cons_ne_nil _ _, hbody, ?_, hreads⟩
  rw [columnAfter_of_no_break _ hpart]
  omega

/-- A text between quotes is read part by part. -/
theorem readQuotedWithin_of_parts {P : List Char → Prop} (hnil : body [] = [])
    (hrest : quote = '\'' → rest.head? ≠ some '\'')
    (hparts : ∀ {c : Cursor} {x : Char} {cs : List Char}, P (x :: cs) → c.column ≠ 0 →
      c.chars = body (x :: cs) ++ quote :: rest → ∃ front part more, x :: cs = front ++ more ∧
        P more ∧ ReadsPart quote body rest c front part more)
    {fuel : Nat} {acc : List Char} (hcs : P cs) (hfuel : cs.length < fuel)
    (hchars : c.chars = body cs ++ quote :: rest) (hcolumn : c.column ≠ 0) :
    readQuotedWithin quote fuel acc c =
      some (acc.reverse ++ cs, c.behind (body cs ++ [quote]) rest) := by
  induction fuel generalizing acc cs c with
  | zero => cases hfuel
  | succ fuel ih =>
    cases cs with
    | nil =>
      rw [hnil, List.nil_append] at hchars
      rw [readQuotedWithin_end hcolumn hchars hrest, hnil, List.append_nil, List.nil_append]
    | cons x cs =>
      obtain ⟨front, part, more, heq, hmore, hpart⟩ := hparts hcs hcolumn hchars
      have hlength : more.length < fuel := by
        have hfront := List.length_pos_iff.mpr hpart.ne_nil
        rw [heq, List.length_append] at hfuel
        omega
      rw [hpart.reads, ih hmore hlength rfl (by rw [behind_column]; exact hpart.column),
        behind_behind, heq, hpart.body_eq]
      simp

end

/-! ## Lines -/

section

variable {indent : Nat} {fresh : Bool}

theorem indented_cons (hx : isBreak x = false) :
    indented indent false (x :: cs) = x :: indented indent false cs := by
  rw [indented, hx]
  rfl

/-- A line that has begun is indented before its first character. -/
theorem indented_fresh (hx : isBreak x = false) :
    indented indent true (x :: cs) = margin indent ++ indented indent false (x :: cs) := by
  rw [indented_cons hx, indented, hx]
  rfl

theorem indented_break (hx : isBreak x = true) :
    indented indent fresh (x :: cs) = x :: indented indent true cs := by
  rw [indented, if_pos hx]

end

/-! ## Single quotes -/

/-- A character between single quotes. -/
def double (c : Char) : List Char := if c == '\'' then ['\'', '\''] else [c]

/-- What stands between single quotes. -/
def singleBody (indent : Nat) (cs : List Char) : List Char :=
  indented indent false (cs.flatMap double) ++
    (if cs.getLast?.any isBreak then margin indent else [])

theorem renderSingle_eq (indent : Nat) (cs : List Char) :
    renderSingle indent cs = '\'' :: (singleBody indent cs ++ ['\'']) := by
  rw [renderSingle, singleBody, List.append_assoc, List.append_assoc]
  rfl

/-- Texts that single quotes keep as they are. -/
structure IsQuotable (cs : List Char) : Prop where
  noTab : '\t' ∉ cs
  noLine : '\n' ∉ cs
  breakSpace : hasPair isBreak isSpace cs = false
  spaceBreak : hasPair isSpace isBreak cs = false

theorem IsQuotable.behind (run : List Char) {more : List Char} (h : IsQuotable (run ++ more)) :
    IsQuotable more where
  noTab hmem := h.noTab (List.mem_append_right _ hmem)
  noLine hmem := h.noLine (List.mem_append_right _ hmem)
  breakSpace := hasPair_behind h.breakSpace
  spaceBreak := hasPair_behind h.spaceBreak

section

variable {indent : Nat}

theorem singleBody_cons (hx : isBreak x = false) (cs : List Char) :
    singleBody indent (x :: cs) = double x ++ singleBody indent cs := by
  have hlast : (x :: cs).getLast?.any isBreak = cs.getLast?.any isBreak := by
    cases cs with
    | nil => exact hx
    | cons y cs => rw [List.getLast?_cons_cons]
  rw [singleBody, hlast, List.flatMap_cons, double]
  split
  · next h =>
    cases beq_iff_eq.mp h
    rfl
  · rw [List.singleton_append, indented_cons hx]
    rfl

theorem singleBody_margin (n : Nat) (cs : List Char) :
    singleBody indent (margin n ++ cs) = margin n ++ singleBody indent cs := by
  induction n with
  | zero => rfl
  | succ n ih =>
    rw [margin_succ, List.cons_append, singleBody_cons rfl, ih]
    rfl

theorem double_cons (x : Char) : ∃ more, double x = x :: more := by
  rw [double]
  split
  · next h => exact ⟨['\''], beq_iff_eq.mp h ▸ rfl⟩
  · exact ⟨[], rfl⟩

theorem double_of_break (hx : isBreak x = true) : double x = [x] := by
  rw [double, if_neg]
  intro h
  cases beq_iff_eq.mp h
  cases hx

/-- A line end is followed by a margin, unless another one follows. -/
theorem singleBody_break (hx : isBreak x = true) (cs : List Char) : singleBody indent (x :: cs) =
    x :: ((if cs.head?.any isBreak then [] else margin indent) ++ singleBody indent cs) := by
  rw [singleBody, List.flatMap_cons, double_of_break hx, List.singleton_append, indented_break hx]
  cases cs with
  | nil =>
    rw [List.getLast?_singleton, Option.any_some, if_pos hx]
    simp [indented, singleBody]
  | cons y cs =>
    rw [List.getLast?_cons_cons, singleBody]
    obtain ⟨more, hmore⟩ := double_cons y
    rw [List.flatMap_cons, hmore, List.cons_append]
    cases hy : isBreak y with
    | true => simp [hy, indented_break]
    | false => simp [hy, indented_fresh]

theorem singleBody_breaks {b : Char} {bs : List Char} (hb : isBreak b = true)
    (hbs : ∀ x ∈ bs, isBreak x = true) (hcs : ∀ x ∈ cs.head?, isBreak x = false) :
    singleBody indent (b :: bs ++ cs) = b :: bs ++ (margin indent ++ singleBody indent cs) := by
  induction bs generalizing b with
  | nil =>
    have hnone : cs.head?.any isBreak = false := by
      cases cs with
      | nil => rfl
      | cons x cs => exact hcs x rfl
    rw [List.singleton_append, singleBody_break hb, hnone]
    rfl
  | cons d bs ih =>
    obtain ⟨hd, hbs⟩ := List.forall_mem_cons.mp hbs
    rw [List.cons_append, singleBody_break hb, ih hd hbs, List.cons_append, List.head?_cons,
      Option.any_some, if_pos hd]
    rfl

/-- Behind a run of spaces or line ends the body goes on with a character that is neither. -/
theorem endsGap_singleBody (hcs : ∀ x ∈ cs.head?, isBlank x = false ∧ isBreak x = false) :
    EndsGap (singleBody indent cs ++ '\'' :: rest) := by
  cases cs with
  | nil => exact .cons rfl rfl
  | cons x cs =>
    obtain ⟨hblank, hbreak⟩ := hcs x rfl
    obtain ⟨more, hmore⟩ := double_cons x
    rw [singleBody_cons hbreak, hmore, List.cons_append]
    exact .cons hblank hbreak

/-- Line ends between single quotes are read at once, with the margin behind them. -/
theorem readsPart_breaks {bs : List Char} (hcs : IsQuotable (x :: bs ++ cs))
    (hbreaks : ∀ y ∈ x :: bs, isBreak y = true) (hend : ∀ y ∈ cs.head?, isBreak y = false)
    (hindent : indent ≠ 0) (hcolumn : c.column ≠ 0)
    (hchars : c.chars = singleBody indent (x :: bs ++ cs) ++ '\'' :: rest) :
    ReadsPart '\'' (singleBody indent) rest c (x :: bs) (x :: bs ++ margin indent) cs := by
  obtain ⟨hx, hbs⟩ := List.forall_mem_cons.mp hbreaks
  have hbody : singleBody indent (x :: bs ++ cs) =
      x :: bs ++ (margin indent ++ singleBody indent cs) := singleBody_breaks hx hbs hend
  rw [hbody, List.append_assoc, List.append_assoc] at hchars
  rw [← List.append_assoc] at hbody
  have hline : x ≠ '\n' := fun h => hcs.noLine (h ▸ List.mem_cons_self)
  have hquote : x ≠ '\'' := by
    rintro rfl
    cases hx
  have hgap : EndsGap (singleBody indent cs ++ '\'' :: rest) := by
    refine endsGap_singleBody fun y hy => ⟨isBlank_eq_false ?_ fun h => ?_, hend y hy⟩
    · exact beq_eq_false_iff_ne.mp
        (hasPair_run hcs.breakSpace (List.cons_ne_nil _ _) hbreaks y hy)
    · exact (hcs.behind (x :: bs)).noTab (List.mem_of_mem_head? (h ▸ hy))
  -- a line end that is not a line feed is read as it is, and not as a space
  have hmeaning : (Gap.breaks x bs).meaning = x :: bs := by
    rw [Gap.meaning]
    · exact fun h => absurd h hline
    · exact hline
  refine ⟨List.cons_ne_nil _ _, hbody, ?_, fun fuel acc => ?_⟩
  · rw [columnAfter_append, columnAfter_breaks _ hx hbs, columnAfter_margin]
    omega
  · rw [readQuotedWithin_gap hcolumn hchars hquote (by rw [hx, Bool.or_true])
      (readGap_breaks hx hbs hgap hchars), hmeaning]

/-- A character that is neither a blank nor a line end, and a quote twice. -/
theorem readsPart_double (hspace : x ≠ ' ') (htab : x ≠ '\t') (hbreak : isBreak x = false)
    (hcolumn : c.column ≠ 0) (hchars : c.chars = singleBody indent (x :: cs) ++ '\'' :: rest) :
    ReadsPart '\'' (singleBody indent) rest c [x] (double x) cs := by
  have hbody : singleBody indent (x :: cs) = double x ++ singleBody indent cs :=
    singleBody_cons hbreak cs
  rw [hbody, List.append_assoc] at hchars
  by_cases hquote : x = '\''
  · subst hquote
    have htwice : double '\'' = ['\'', '\''] := rfl
    rw [htwice] at hbody hchars ⊢
    exact readsPart_char hbody (by simpa using hbreak) hcolumn
      fun _ _ => readQuotedWithin_twice hcolumn hchars
  · have honce : double x = [x] := if_neg fun h => hquote (beq_iff_eq.mp h)
    rw [honce] at hbody hchars ⊢
    exact readsPart_char hbody (by simpa using hbreak) hcolumn fun _ _ =>
      readQuotedWithin_char hcolumn hchars hquote (.inr (by decide)) (isBlank_eq_false hspace htab)
        hbreak

/-- What stands between single quotes is made of runs of spaces, runs of line ends, and single
characters. -/
theorem exists_readsPart_single (hindent : indent ≠ 0) (hcs : IsQuotable (x :: cs))
    (hcolumn : c.column ≠ 0) (hchars : c.chars = singleBody indent (x :: cs) ++ '\'' :: rest) :
    ∃ front part more, x :: cs = front ++ more ∧ IsQuotable more ∧
      ReadsPart '\'' (singleBody indent) rest c front part more := by
  by_cases hspace : x = ' '
  · subst hspace
    obtain ⟨n, more, rfl, hmore⟩ := exists_margin cs
    have hspaces : ∀ y ∈ margin (n + 1), isSpace y = true := fun y hy =>
      beq_iff_eq.mpr (eq_space_of_mem_margin hy)
    have hbehind : IsQuotable more := hcs.behind (margin (n + 1))
    refine ⟨margin (n + 1), _, more, rfl, hbehind, readsPart_margin (by decide)
      (singleBody_margin (n + 1) more) (endsGap_singleBody fun y hy => ⟨isBlank_eq_false
        (fun h => hmore (h ▸ hy)) fun h => hbehind.noTab (List.mem_of_mem_head? (h ▸ hy)), ?_⟩)
      hcolumn hchars⟩
    exact hasPair_run hcs.spaceBreak (List.cons_ne_nil _ _) hspaces y hy
  · cases hbreak : isBreak x with
    | true =>
      obtain ⟨bs, more, rfl, hbs, hmore⟩ := exists_run isBreak cs
      exact ⟨x :: bs, _, more, rfl, hcs.behind (x :: bs),
        readsPart_breaks hcs (List.forall_mem_cons.mpr ⟨hbreak, hbs⟩) hmore hindent hcolumn hchars⟩
    | false =>
      have htab : x ≠ '\t' := fun h => hcs.noTab (h ▸ List.mem_cons_self)
      exact ⟨[x], _, cs, rfl, hcs.behind [x], readsPart_double hspace htab hbreak hcolumn hchars⟩

theorem readQuotedWithin_single (hindent : indent ≠ 0) (hrest : rest.head? ≠ some '\'') {fuel : Nat}
    {acc : List Char} (hcs : IsQuotable cs) (hfuel : cs.length < fuel)
    (hchars : c.chars = singleBody indent cs ++ '\'' :: rest) (hcolumn : c.column ≠ 0) :
    readQuotedWithin '\'' fuel acc c =
      some (acc.reverse ++ cs, c.behind (singleBody indent cs ++ ['\'']) rest) :=
  readQuotedWithin_of_parts rfl (fun _ => hrest) (exists_readsPart_single hindent) hcs hfuel hchars
    hcolumn

end

/-! ## Numbers of characters -/

@[simp]
theorem length_hexDigits (k n : Nat) : (hexDigits k n).length = k := by
  induction k generalizing n with
  | zero => rfl
  | succ k ih => rw [hexDigits, List.length_append, ih, List.length_singleton]

theorem hexValue?_hexDigit {d : Nat} (h : d < 16) :
    Json.hexValue? (Nat.digitChar d).toUpper = some d := by
  have hall : ∀ d : Fin 16, Json.hexValue? (Nat.digitChar d.val).toUpper = some d.val := by decide
  exact hall ⟨d, h⟩

theorem foldlM_hexDigits {k n : Nat} (h : n < 16 ^ k) :
    (hexDigits k n).foldlM (fun n d => (Json.hexValue? d).map (n * 16 + ·)) 0 = some n := by
  induction k generalizing n with
  | zero =>
    cases Nat.lt_one_iff.mp h
    rfl
  | succ k ih =>
    have hfront : n / 16 < 16 ^ k := Nat.div_lt_of_lt_mul (by rwa [Nat.pow_succ'] at h)
    rw [hexDigits, List.foldlM_append, ih hfront]
    have hlast := hexValue?_hexDigit (Nat.mod_lt n (y := 16) (by decide))
    simp [hlast, Nat.div_add_mod']

theorem hexNumber?_hexDigits {k n : Nat} (h : n < 16 ^ k) (rest : List Char) :
    hexNumber? k (hexDigits k n ++ rest) = some n := by
  have htake : (hexDigits k n ++ rest).take k = hexDigits k n := by
    rw [List.take_append_of_le_length (by simp), List.take_of_length_le (by simp)]
  rw [hexNumber?, htake, length_hexDigits, if_neg (Nat.lt_irrefl k), foldlM_hexDigits h]

/-- The digits of a number can stand between quotes. -/
theorem shown_of_mem_hexDigits {k n : Nat} (h : x ∈ hexDigits k n) :
    isBreak x = false ∧ isPrintable x = true := by
  induction k generalizing n with
  | zero => cases h
  | succ k ih =>
    rcases List.mem_append.mp h with h | h
    · exact ih h
    · have hall : ∀ d : Fin 16, isBreak (Nat.digitChar d.val).toUpper = false ∧
          isPrintable (Nat.digitChar d.val).toUpper = true := by decide
      rw [List.mem_singleton.mp h]
      exact hall ⟨n % 16, Nat.mod_lt n (by decide)⟩

/-! ## Escapes -/

/-- What stands behind a backslash names the character. -/
structure Names (name : List Char) (c : Char) : Prop where
  length_le : name.length ≤ 5
  shown : ∀ x ∈ name, isBreak x = false ∧ isPrintable x = true
  reads : ∀ rest, readEscape (name ++ rest) = some (c, name.length)

theorem names_letter {letter c : Char} (hbreak : isBreak letter = false)
    (hprintable : isPrintable letter = true) (hsimple : simpleEscape? letter = some c) :
    Names [letter] c where
  length_le := by simp
  shown := List.forall_mem_singleton.mpr ⟨hbreak, hprintable⟩
  reads rest := by
    rw [List.singleton_append, readEscape, hsimple]
    rfl

theorem names_number {letter c : Char} {k : Nat} (hbreak : isBreak letter = false)
    (hprintable : isPrintable letter = true) (hsimple : simpleEscape? letter = none)
    (hdigits : escapeDigits letter = k) (hk : k ≠ 0) (hle : k ≤ 4)
    (hbound : c.toNat < 16 ^ k) : Names (letter :: hexDigits k c.toNat) c where
  length_le := by
    rw [List.length_cons, length_hexDigits]
    exact Nat.succ_le_succ hle
  shown := List.forall_mem_cons.mpr ⟨⟨hbreak, hprintable⟩, fun _ => shown_of_mem_hexDigits⟩
  reads rest := by
    have hvalid : c.toNat.isValidChar := c.valid
    rw [List.cons_append, readEscape, hsimple]
    simp [hdigits, hk, hexNumber?_hexDigits hbound, hvalid]

/-- How a character is written between double quotes: as itself, or behind a backslash. -/
theorem escape_cases (c : Char) :
    (escape c = [c] ∧ isPrintable c = true ∧ isBreak c = false ∧ c ≠ '"' ∧ c ≠ '\\') ∨
      ∃ name, escape c = '\\' :: name ∧ Names name c := by
  unfold escape
  split
  · next h =>
    simp only [Bool.and_eq_true, Bool.not_eq_true', bne_iff_ne] at h
    exact .inl ⟨rfl, h.1.1.1, h.1.1.2, h.1.2, h.2⟩
  · next h =>
    right
    split
    case h_15 =>
      have hbound : c.toNat ≤ 0xFFFF := by
        refine Nat.le_of_not_lt fun hlarge => h ?_
        have hne : ∀ d : Char, d.toNat ≤ 0xFFFF → c ≠ d := by
          rintro d hd rfl
          omega
        have hshown : isPrintable c = true := by
          rw [isPrintable, Bool.or_eq_true]
          exact .inr (decide_eq_true hlarge)
        have hbreak : isBreak c = false := by
          simp [isBreak, hne]
        simp [hshown, hbreak, hne]
      dsimp only
      split
      · next h => exact ⟨_, rfl, names_number rfl rfl rfl rfl (by decide) (by decide) (by omega)⟩
      · exact ⟨_, rfl, names_number rfl rfl rfl rfl (by decide) (by decide) (by omega)⟩
    all_goals exact ⟨_, rfl, names_letter rfl rfl rfl⟩

/-! ## Double quotes -/

theorem renderDouble_eq (cs : List Char) :
    renderDouble cs = '"' :: (cs.flatMap escape ++ ['"']) := rfl

theorem isBreak_escape (h : x ∈ cs.flatMap escape) : isBreak x = false := by
  obtain ⟨c, _, hx⟩ := List.mem_flatMap.mp h
  rcases escape_cases c with ⟨heq, _, hbreak, _⟩ | ⟨name, heq, hname⟩
  · rw [heq, List.mem_singleton] at hx
    rwa [hx]
  · rw [heq] at hx
    rcases List.mem_cons.mp hx with rfl | hx
    · rfl
    · exact (hname.shown x hx).1

theorem flatMap_escape_margin (n : Nat) : (margin n).flatMap escape = margin n := by
  induction n with
  | zero => rfl
  | succ n ih =>
    rw [margin_succ, List.flatMap_cons, ih]
    rfl

/-- Behind a run of spaces the body goes on with a character that is neither a space nor a line end. -/
theorem endsGap_flatMap_escape (hcs : cs.head? ≠ some ' ') :
    EndsGap (cs.flatMap escape ++ '"' :: rest) := by
  cases cs with
  | nil => exact .cons rfl rfl
  | cons y cs =>
    rw [List.flatMap_cons]
    rcases escape_cases y with ⟨heq, hshown, hbreak, _⟩ | ⟨name, heq, _⟩
    · rw [heq]
      refine .cons (isBlank_eq_false (fun h => hcs (congrArg some h)) ?_) hbreak
      rintro rfl
      cases hshown
    · rw [heq]
      exact .cons rfl rfl

theorem readQuotedWithin_escape {fuel : Nat} {acc : List Char} {y : Char} {name : List Char}
    (hcolumn : c.column ≠ 0) (hchars : c.chars = '\\' :: (name ++ rest)) (hname : Names name y) :
    readQuotedWithin '"' (fuel + 1) acc c =
      readQuotedWithin '"' fuel (y :: acc) (c.behind ('\\' :: name) rest) := by
  have hline : (name ++ rest).head?.any isBreak = false := by
    cases name with
    | nil => cases hname.reads []
    | cons letter name => exact (hname.shown letter List.mem_cons_self).1
  have hread : c.chars = '\\' :: name ++ rest := hchars
  have hskip : c.skip (name.length + 1) = c.behind ('\\' :: name) rest := skip_eq hread
  rw [readQuotedWithin, isMark_of_column hcolumn, isMark_of_column hcolumn]
  simp only [hchars, hline, hname.reads]
  simp [hskip]

/-- What stands between double quotes is made of runs of spaces and of characters, each as it is or
by its escape. -/
theorem exists_readsPart_double (hcolumn : c.column ≠ 0)
    (hchars : c.chars = (x :: cs).flatMap escape ++ '"' :: rest) :
    ∃ front part more, x :: cs = front ++ more ∧ True ∧
      ReadsPart '"' (List.flatMap escape) rest c front part more := by
  by_cases hspace : x = ' '
  · subst hspace
    obtain ⟨n, more, rfl, hmore⟩ := exists_margin cs
    have hbody : (margin (n + 1) ++ more).flatMap escape = margin (n + 1) ++ more.flatMap escape := by
      rw [List.flatMap_append, flatMap_escape_margin]
    exact ⟨margin (n + 1), _, more, rfl, trivial,
      readsPart_margin (by decide) hbody (endsGap_flatMap_escape hmore) hcolumn hchars⟩
  · rw [List.flatMap_cons, List.append_assoc] at hchars
    refine ⟨[x], escape x, cs, rfl, trivial, ?_⟩
    rcases escape_cases x with ⟨heq, hshown, hbreak, hquote, hescape⟩ | ⟨name, heq, hname⟩
    · have htab : x ≠ '\t' := by
        rintro rfl
        cases hshown
      refine readsPart_char List.flatMap_cons (by simpa [heq] using hbreak) hcolumn fun _ _ => ?_
      rw [heq] at hchars ⊢
      exact readQuotedWithin_char hcolumn hchars hquote (.inl hescape) (isBlank_eq_false hspace htab)
        hbreak
    · have honLine : ∀ y ∈ escape x, isBreak y = false :=
        heq ▸ List.forall_mem_cons.mpr ⟨rfl, fun y hy => (hname.shown y hy).1⟩
      refine readsPart_char List.flatMap_cons honLine hcolumn fun _ _ => ?_
      rw [heq] at hchars ⊢
      exact readQuotedWithin_escape hcolumn hchars hname

theorem readQuotedWithin_double {fuel : Nat} {acc : List Char} (hfuel : cs.length < fuel)
    (hchars : c.chars = cs.flatMap escape ++ '"' :: rest) (hcolumn : c.column ≠ 0) :
    readQuotedWithin '"' fuel acc c =
      some (acc.reverse ++ cs, c.behind (cs.flatMap escape ++ ['"']) rest) :=
  readQuotedWithin_of_parts (P := fun _ => True) rfl (fun h => by cases h)
    (fun _ => exists_readsPart_double) trivial hfuel hchars hcolumn

/-! ## Both forms -/

theorem readQuoted_of_within {quote : Char} {body : List Char} (hquote : isBreak quote = false)
    (hchars : c.chars = quote :: (body ++ quote :: rest))
    (hwithin : ∀ {d : Cursor} {fuel : Nat}, cs.length < fuel → d.chars = body ++ quote :: rest →
      d.column ≠ 0 → readQuotedWithin quote fuel [] d =
        some (cs, d.behind (body ++ [quote]) rest))
    (hle : cs.length ≤ body.length) :
    readQuoted quote c = some (.str (.ofList cs),
      (c.behind (quote :: (body ++ [quote])) rest).setMayBegin false) := by
  have hfuel : cs.length < c.chars.length + 1 := by
    rw [hchars, List.length_cons, List.length_append]
    omega
  have hcolumn : ((c.behind [quote] (body ++ quote :: rest)).setMayBegin false).column ≠ 0 := by
    rw [setMayBegin_column, behind_column, columnAfter_of_no_break _ (by simpa using hquote)]
    simp
  rw [readQuoted, next_eq hchars, hwithin hfuel rfl hcolumn, setMayBegin_behind, behind_behind]
  rfl

theorem length_le_singleBody (indent : Nat) (cs : List Char) :
    cs.length ≤ (singleBody indent cs).length := by
  induction cs with
  | nil => exact Nat.zero_le _
  | cons x cs ih =>
    cases hx : isBreak x with
    | true =>
      rw [singleBody_break hx]
      simp only [List.length_cons, List.length_append]
      omega
    | false =>
      obtain ⟨more, hmore⟩ := double_cons x
      rw [singleBody_cons hx, hmore]
      simp only [List.length_cons, List.length_append]
      omega

theorem readQuoted_single {indent : Nat} (hindent : indent ≠ 0) (hcs : IsQuotable cs)
    (hchars : c.chars = renderSingle indent cs ++ rest) (hrest : rest.head? ≠ some '\'') :
    readQuoted '\'' c = some (.str (.ofList cs),
      (c.behind (renderSingle indent cs) rest).setMayBegin false) := by
  rw [renderSingle_eq, List.cons_append, List.append_assoc] at hchars
  rw [renderSingle_eq]
  exact readQuoted_of_within rfl hchars
    (fun hfuel hd hcolumn => readQuotedWithin_single hindent hrest hcs hfuel hd hcolumn)
    (length_le_singleBody indent cs)

theorem length_le_escape (cs : List Char) : cs.length ≤ (cs.flatMap escape).length := by
  induction cs with
  | nil => exact Nat.zero_le _
  | cons x cs ih =>
    rw [List.flatMap_cons, List.length_append, List.length_cons]
    rcases escape_cases x with ⟨heq, _⟩ | ⟨name, heq, _⟩
    · rw [heq, List.length_singleton]
      omega
    · rw [heq, List.length_cons]
      omega

theorem readQuoted_double (hchars : c.chars = renderDouble cs ++ rest) :
    readQuoted '"' c = some (.str (.ofList cs),
      (c.behind (renderDouble cs) rest).setMayBegin false) := by
  rw [renderDouble_eq, List.cons_append, List.append_assoc] at hchars
  exact readQuoted_of_within rfl hchars
    (fun hfuel hd hcolumn => readQuotedWithin_double hfuel hd hcolumn) (length_le_escape cs)

end CodeAtlas.Yaml
