import CodeAtlas.Proofs.Yaml.Cursor
import CodeAtlas.Yaml.Word
/-!
# Plain scalars read back

A plain scalar is read word by word, and what is between two words may be a line end or the end of the
scalar. Words that are on one line, with nothing among them that is a sign, are read as they are, up to the
colon or the line end behind them.

Results:
1. `IsWords.behind`: the words behind some of several words.
2. `exists_plainRun`: the run of a scalar is its first word.
3. `readPlain_words`: words are read up to what ends them.
-/

namespace CodeAtlas.Yaml

open Cursor

variable {x : Char} {cs rest skipped after : List Char} {c : Cursor} {floor : Nat}

/-! ## Words -/

/-- Words with spaces between them, and without anything that would be read as a sign. -/
structure IsWords (cs : List Char) : Prop where
  ne_nil : cs ≠ []
  plain : ∀ x ∈ cs, isBreak x = false ∧ x ≠ '\t'
  begins : cs.head? ≠ some ' '
  ends : cs.getLast? ≠ some ' '
  noSign : hasSignInside ' ' cs = false

theorem isBlank_iff : isBlank x = true ↔ x = ' ' ∨ x = '\t' := by
  rw [isBlank, Bool.or_eq_true, beq_iff_eq, beq_iff_eq]

theorem isBlank_eq_false (hspace : x ≠ ' ') (htab : x ≠ '\t') : isBlank x = false :=
  Bool.eq_false_iff.mpr fun h => (isBlank_iff.mp h).elim hspace htab

theorem endsWord_append (hne : cs ≠ []) (rest : List Char) : endsWord (cs ++ rest) = endsWord cs := by
  cases cs with
  | nil => exact absurd rfl hne
  | cons x cs => rfl

/-- A text begins with spaces, or with none. -/
theorem exists_margin (cs : List Char) : ∃ n rest, cs = margin n ++ rest ∧ rest.head? ≠ some ' ' := by
  induction cs with
  | nil => exact ⟨0, [], rfl, fun h => by cases h⟩
  | cons x cs ih =>
    by_cases hx : x = ' '
    · obtain ⟨n, rest, rfl, hrest⟩ := ih
      exact ⟨n + 1, rest, hx ▸ rfl, hrest⟩
    · exact ⟨0, x :: cs, rfl, fun h => hx (Option.some.inj h)⟩

theorem hasSignInside_behind_space {before : Char} {more : List Char}
    (h : hasSignInside before (cs ++ ' ' :: more) = false) : hasSignInside ' ' more = false := by
  induction cs generalizing before with
  | nil => exact (Bool.or_eq_false_iff.mp h).2
  | cons x cs ih => exact ih (Bool.or_eq_false_iff.mp h).2

/-- The words behind some of several words. -/
theorem IsWords.behind {word more : List Char} {n : Nat}
    (h : IsWords (word ++ (margin (n + 1) ++ more))) (hmore : more.head? ≠ some ' ') :
    IsWords more := by
  have hmargin : word ++ (margin (n + 1) ++ more) = word ++ margin n ++ ' ' :: more := by
    rw [margin_add n 1, List.append_assoc, List.append_assoc]
    rfl
  rw [hmargin] at h
  have hne : more ≠ [] := by
    rintro rfl
    exact h.ends (List.getLast?_concat ..)
  refine ⟨hne, fun x hx => h.plain x (by simp [hx]), hmore, fun hlast => h.ends ?_,
    hasSignInside_behind_space h.noSign⟩
  obtain ⟨front, rfl⟩ := List.getLast?_eq_some_iff.mp hlast
  exact List.getLast?_eq_some_iff.mpr ⟨word ++ margin n ++ ' ' :: front, by simp⟩

/-! ## Reading -/

/-- The run of a plain scalar ends with its first word. -/
theorem exists_plainRun {before : Char} (hplain : ∀ x ∈ cs, isBreak x = false ∧ x ≠ '\t')
    (hsign : hasSignInside before cs = false) (hrest : plainRun false rest = some []) :
    ∃ word more, cs = word ++ more ∧ plainRun false (cs ++ rest) = some word ∧
      (more = [] ∨ more.head? = some ' ') := by
  induction cs generalizing before with
  | nil => exact ⟨[], [], rfl, hrest, .inl rfl⟩
  | cons x cs ih =>
    obtain ⟨⟨hbreak, htab⟩, hplain⟩ := List.forall_mem_cons.mp hplain
    obtain ⟨hx, hsign⟩ := Bool.or_eq_false_iff.mp hsign
    by_cases hspace : x = ' '
    · subst hspace
      exact ⟨[], ' ' :: cs, rfl, rfl, .inr rfl⟩
    · obtain ⟨word, more, rfl, hrun, hmore⟩ := ih hplain hsign
      refine ⟨x :: word, more, rfl, ?_, hmore⟩
      have hcolon : (x == ':' && endsWord (word ++ more ++ rest)) = false := by
        by_cases hnil : word ++ more = []
        · have hends := (Bool.or_eq_false_iff.mp hx).1
          rw [hnil] at hends
          have hne : (x == ':') = false := (Bool.and_true _).symm.trans hends
          rw [hne, Bool.false_and]
        · rw [endsWord_append hnil]
          exact (Bool.or_eq_false_iff.mp hx).1
      rw [List.cons_append, plainRun, isBlank_eq_false hspace htab, hbreak, hcolon, hrun]
      rfl

/-- What comes behind a plain scalar: a colon, at which it ends, or the end of its line, with which
spaces are skipped. -/
inductive EndsPlain (floor : Nat) : (rest skipped after : List Char) → Prop
  | colon {rest : List Char} (hrest : endsWord rest = true) :
    EndsPlain floor (':' :: rest) [] (':' :: rest)
  | line {n : Nat} {rest : List Char} (hn : n < floor) (hrest : EndsGap rest) :
    EndsPlain floor ('\n' :: (margin n ++ rest)) ('\n' :: margin n) rest

theorem EndsPlain.plainRun_eq (h : EndsPlain floor rest skipped after) :
    plainRun false rest = some [] := by
  cases h with
  | colon hrest =>
    rw [plainRun, hrest]
    rfl
  | line => rfl

theorem EndsPlain.exists_head (h : EndsPlain floor rest skipped after) :
    ∃ x more, rest = x :: more ∧ (x = ':' ∨ x = '\n') := by
  cases h with
  | colon => exact ⟨':', _, rfl, .inl rfl⟩
  | line => exact ⟨'\n', _, rfl, .inr rfl⟩

/-- Behind the last word reading stops. -/
theorem readGap_endsPlain (h : EndsPlain floor rest skipped after) (hchars : c.chars = rest) :
    ∃ gap, readGap floor c = some (gap, c.behind skipped after) ∧
      ((gap = .none ∧ skipped = []) ∨
        (gap.hasBreak = true ∧ skipped.isEmpty = false ∧ columnAfter c.column skipped < floor)) := by
  cases h with
  | colon hrest =>
    refine ⟨.none, ?_, .inl ⟨rfl, rfl⟩⟩
    rw [behind_nil hchars]
    exact readGap_none (hchars ▸ .cons rfl rfl)
  | @line n rest hn hrest =>
    refine ⟨.breaks '\n' [], readGap_breaks rfl (fun _ h => by cases h) hrest hchars, .inr ⟨rfl, rfl, ?_⟩⟩
    have hcolumn : columnAfter c.column ('\n' :: margin n) = columnAfter 0 (margin n) := rfl
    rw [hcolumn, columnAfter_margin]
    omega

/-- No comment begins where words do. -/
theorem IsWords.no_comment (h : IsWords cs) : (cs ++ rest).head? ≠ some '#' := by
  obtain ⟨first, others, rfl⟩ := List.exists_cons_of_ne_nil h.ne_nil
  rintro ⟨⟩
  have hsign := h.noSign
  rw [hasSignInside, isSignInside] at hsign
  cases hsign

/-- Words are read behind those that have been read, from a gap on. -/
theorem readPlainWithin_words (hend : EndsPlain floor rest skipped after) {fuel : Nat} (gap : Gap)
    (acc : List Char) (hcs : IsWords cs) (hfuel : cs.length ≤ fuel) (hchars : c.chars = cs ++ rest)
    (hfloor : floor ≤ c.column + 1) (hmark : c.isMark '-' = false ∧ c.isMark '.' = false) :
    readPlainWithin false floor fuel gap acc c = some (acc ++ gap.meaning ++ cs,
      (c.behind (cs ++ skipped) after).setMayBegin (c.mayBegin || !skipped.isEmpty)) := by
  -- each round reads a word with the gap behind it
  induction fuel generalizing gap acc cs c with
  | zero => exact absurd (List.eq_nil_of_length_eq_zero (Nat.le_zero.mp hfuel)) hcs.ne_nil
  | succ fuel ih =>
    have hcomment : c.isAt '#' = false := isAt_eq_false (hchars ▸ hcs.no_comment)
    obtain ⟨word, more, rfl, hrun, hmore⟩ := exists_plainRun hcs.plain hcs.noSign hend.plainRun_eq
    have hword : word ≠ [] := by
      rintro rfl
      rcases hmore with rfl | hmore
      · exact hcs.ne_nil rfl
      · exact hcs.begins hmore
    obtain ⟨first, others, rfl⟩ := List.exists_cons_of_ne_nil hword
    rw [readPlainWithin, hmark.1, hmark.2, hcomment, hchars, hrun]
    simp only [Bool.or_self, Bool.false_eq_true, if_false]
    rw [List.append_assoc] at hchars
    rw [skip_eq hchars]
    generalize hfirst : first :: others = word at *
    rcases hmore with rfl | hmore
    · -- the last word
      obtain ⟨gap', hgap, hcase⟩ := readGap_endsPlain hend (c := c.behind word ([] ++ rest)) rfl
      rw [hgap, behind_behind, List.append_nil]
      rcases hcase with ⟨rfl, rfl⟩ | ⟨hbreak, hskipped, hcolumn⟩
      · simp only [List.isEmpty_nil, Bool.not_true, Bool.or_false]
        rfl
      · have hstops : columnAfter c.column (word ++ skipped) < floor := by
          rw [columnAfter_append]
          exact hcolumn
        cases gap' with
        | breaks => simp [hstops, hskipped, Gap.hasBreak]
        | _ => cases hbreak
    · obtain ⟨n, next, rfl, hnext⟩ := exists_margin more
      cases n with
      | zero => exact absurd hmore hnext
      | succ n =>
        have hothers := hcs.behind hnext
        have hgapEnds : EndsGap (next ++ rest) := by
          obtain ⟨x, next, rfl⟩ := List.exists_cons_of_ne_nil hothers.ne_nil
          obtain ⟨hbreak, htab⟩ := hothers.plain x List.mem_cons_self
          exact .cons (isBlank_eq_false (fun h => hnext (congrArg some h)) htab) hbreak
        have hcolumn : (c.behind (word ++ margin (n + 1)) (next ++ rest)).column =
            c.column + word.length + (n + 1) := by
          rw [behind_column, columnAfter_append, columnAfter_margin, columnAfter_of_no_break]
          exact fun x hx => (hcs.plain x (List.mem_append_left _ hx)).1
        have hlength : next.length ≤ fuel := by
          simp only [List.length_append, length_margin] at hfuel
          omega
        have hreached : ¬ (c.behind (word ++ margin (n + 1)) (next ++ rest)).column < floor := by
          omega
        rw [List.append_assoc, readGap_blanks hgapEnds rfl, behind_behind]
        simp only [hreached, Bool.not_false, Bool.true_and, decide_false, Bool.false_eq_true, if_false]
        rw [ih _ _ hothers hlength rfl (by omega) ⟨isMark_of_column (by omega) _,
          isMark_of_column (by omega) _⟩, behind_behind]
        simp [Gap.meaning, List.append_assoc]

/-- Words are read up to what ends them. -/
theorem readPlain_words (hend : EndsPlain floor rest skipped after) (hcs : IsWords cs)
    (hchars : c.chars = cs ++ rest) (hfloor : floor ≤ c.column + 1)
    (hmark : c.isMark '-' = false ∧ c.isMark '.' = false) :
    readPlain false floor c = some (.plain (.ofList cs),
      (c.behind (cs ++ skipped) after).setMayBegin (!skipped.isEmpty)) := by
  have hfuel : cs.length ≤ c.chars.length + 1 := by
    rw [hchars, List.length_append]
    omega
  have hread := readPlainWithin_words hend (c := c.setMayBegin false) .none [] hcs
    hfuel hchars hfloor hmark
  rw [readPlain, hread]
  rfl

end CodeAtlas.Yaml
