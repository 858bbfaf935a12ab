import CodeAtlas.Toml.Quoted
import Mathlib.Data.List.Basic
/-!
# Quoted texts read back

A text is written in one of four forms of quotes, chosen by what is in it. Whatever it is, the form
that is chosen reads back as the text, up to the closing quotes and no further, unless another quote
follows.

Results:
1. `readBasic_escapeChar`, `readLongBasic_escapeChar`: a character between double quotes is read as
   itself.
2. `readLiteral_append`, `readLongLiteral_append`: so is a text between single ones, if it has no run
   of quotes that would end it.
3. `readQuoted_quote`: each text is read as it was written.
-/

namespace CodeAtlas.Toml

variable {c : Char} {cs rest : List Char}

/-- What follows a quoted text is not another quote. -/
def FollowsQuote (rest : List Char) : Prop := rest.head? ≠ some '"' ∧ rest.head? ≠ some '\''

theorem Scanned.cons_some (c : Char) (text rest : List Char) :
    Scanned.cons c (some (text, rest)) = some (c :: text, rest) := rfl

/-! ## Between double quotes -/

/-- The characters that are written by a number. -/
def isHidden (c : Char) : Bool := c.toNat < 0x20 || c == '\x7f'

/-- The digits behind `\u` name the character. -/
theorem hexChar?_hidden (h : isHidden c = true) :
    hexChar? ['0', '0', (Nat.digitChar (c.toNat / 16)).toUpper,
      (Nat.digitChar (c.toNat % 16)).toUpper] = some c := by
  have hall : ∀ n : Fin 128, hexChar? ['0', '0', (Nat.digitChar (n.val / 16)).toUpper,
      (Nat.digitChar (n.val % 16)).toUpper] = some (Char.ofNat n.val) := by decide
  have hbound : c.toNat < 128 := by
    rcases Bool.or_eq_true_iff.mp h with h | h
    · have := of_decide_eq_true h
      omega
    · rw [beq_iff_eq.mp h]
      decide
  rw [hall ⟨c.toNat, hbound⟩, Char.ofNat_toNat]

/-- How a character is written between double quotes: as itself, behind a backslash, or by its
number. -/
theorem escapeChar_cases (long : Bool) (c : Char) :
    (escapeChar long c = [c] ∧ c ≠ '"' ∧ c ≠ '\\' ∧ c ≠ '\r' ∧
        (isPlain c = true ∨ long = true ∧ c = '\n')) ∨
      (∃ letter, escapeChar long c = ['\\', letter] ∧ escaped? letter = some c ∧
        letter ≠ 'u' ∧ letter ≠ 'U' ∧ ∀ rest, endsLine (letter :: rest) = false) ∨
      escapeChar long c = ['\\', 'u', '0', '0', (Nat.digitChar (c.toNat / 16)).toUpper,
        (Nat.digitChar (c.toNat % 16)).toUpper] ∧ isHidden c = true := by
  unfold escapeChar
  split
  case h_3 =>
    cases long with
    | true => exact .inl ⟨rfl, by decide, by decide, by decide, .inr ⟨rfl, rfl⟩⟩
    | false => exact .inr (.inl ⟨'n', rfl, rfl, by decide, by decide, fun _ => rfl⟩)
  case h_8 _ _ _ _ hreturn hquote hbackslash =>
    split
    · next h => exact .inr (.inr ⟨rfl, h⟩)
    · next hvisible =>
      refine .inl ⟨rfl, hquote, hbackslash, hreturn, .inl ?_⟩
      rw [Bool.or_eq_true_iff, not_or] at hvisible
      obtain ⟨hlarge, hdelete⟩ := hvisible
      have hlarge : 0x20 ≤ c.toNat := by simpa using hlarge
      have hdelete : c ≠ '\x7f' := by simpa using hdelete
      simp [isPlain, hlarge, hdelete]
  all_goals exact .inr (.inl ⟨_, rfl, rfl, by decide, by decide, fun _ => rfl⟩)

theorem readBasic_plain (hquote : c ≠ '"') (hbackslash : c ≠ '\\') (hplain : isPlain c = true) :
    readBasic (c :: rest) = Scanned.cons c (readBasic rest) := by
  rw [readBasic, if_pos hplain] <;> simp_all

theorem readBasic_escapeChar (c : Char) (rest : List Char) :
    readBasic (escapeChar false c ++ rest) = Scanned.cons c (readBasic rest) := by
  rcases escapeChar_cases false c with ⟨heq, hquote, hbackslash, _, hplain | ⟨hlong, _⟩⟩ |
    ⟨letter, heq, hescaped, hu, hU, _⟩ | ⟨heq, hhidden⟩
  · rw [heq]
    exact readBasic_plain hquote hbackslash hplain
  · cases hlong
  · rw [heq, List.cons_append, List.singleton_append, readBasic, hescaped]
    · rfl
    · exact fun _ _ _ _ _ h => absurd h hu
    · exact fun _ _ _ _ _ _ _ _ _ h => absurd h hU
  · rw [heq]
    simp only [List.cons_append, List.nil_append]
    rw [readBasic, hexChar?_hidden hhidden]
    rfl

theorem readLongBasic_escapeChar (c : Char) (rest : List Char) :
    readLongBasic false (escapeChar true c ++ rest) = Scanned.cons c (readLongBasic false rest) := by
  rcases escapeChar_cases true c with ⟨heq, hquote, hbackslash, hreturn, hplain⟩ |
    ⟨letter, heq, hescaped, hu, hU, hinside⟩ | ⟨heq, hhidden⟩
  · have hshown : (isPlain c || c == '\n') = true := by
      rcases hplain with h | ⟨_, rfl⟩
      · rw [h, Bool.true_or]
      · rfl
    rw [heq, List.singleton_append, readLongBasic, if_neg (by simp), if_pos hshown] <;> simp_all
  · rw [heq, List.cons_append, List.singleton_append, readLongBasic, hinside, hescaped]
    · rfl
    · exact fun _ _ _ _ _ h => absurd h hu
    · exact fun _ _ _ _ _ _ _ _ _ h => absurd h hU
  · rw [heq]
    simp only [List.cons_append, List.nil_append]
    rw [readLongBasic, hexChar?_hidden hhidden]
    rfl

theorem readBasic_body (cs rest : List Char) :
    readBasic (cs.flatMap (escapeChar false) ++ '"' :: rest) = some (cs, rest) := by
  induction cs with
  | nil => rw [List.flatMap_nil, List.nil_append, readBasic]
  | cons c cs ih =>
    rw [List.flatMap_cons, List.append_assoc, readBasic_escapeChar, ih, Scanned.cons_some]

theorem readLongBasic_body (cs : List Char) (hrest : FollowsQuote rest) :
    readLongBasic false (cs.flatMap (escapeChar true) ++ '"' :: '"' :: '"' :: rest) =
      some (cs, rest) := by
  induction cs with
  | nil =>
    rw [List.flatMap_nil, List.nil_append, readLongBasic]
    · rintro rest' rfl
      exact hrest.1 rfl
    · rintro rest' rfl
      exact hrest.1 rfl
  | cons c cs ih =>
    rw [List.flatMap_cons, List.append_assoc, readLongBasic_escapeChar, ih, Scanned.cons_some]

/-! ## Between single quotes -/

theorem readLiteral_append (h : ∀ c ∈ cs, isPlain c = true ∧ c ≠ '\'') (rest : List Char) :
    readLiteral (cs ++ '\'' :: rest) = some (cs, rest) := by
  induction cs with
  | nil => rw [List.nil_append, readLiteral]
  | cons c cs ih =>
    obtain ⟨⟨hplain, hquote⟩, hcs⟩ := List.forall_mem_cons.mp h
    rw [List.cons_append, readLiteral, if_pos hplain, ih hcs, Scanned.cons_some]
    exact hquote

theorem le_longestRun (run : Nat) (cs : List Char) : run ≤ longestRun run cs := by
  induction cs generalizing run with
  | nil => exact Nat.le_refl run
  | cons c cs ih =>
    rw [longestRun]
    split
    · exact Nat.le_trans (Nat.le_succ run) (ih (run + 1))
    · exact Nat.le_max_left _ _

theorem longestRun_mono {run run' : Nat} (h : run ≤ run') (cs : List Char) :
    longestRun run cs ≤ longestRun run' cs := by
  induction cs generalizing run run' with
  | nil => exact h
  | cons c cs ih =>
    rw [longestRun, longestRun]
    split
    · exact ih (Nat.succ_le_succ h)
    · omega

theorem longestRun_tail (c : Char) (cs : List Char) :
    longestRun 0 cs ≤ longestRun 0 (c :: cs) := by
  rw [longestRun]
  split
  · exact longestRun_mono (Nat.zero_le 1) cs
  · exact Nat.le_max_right _ _

/-- A text without a run of three quotes that does not end with one does not begin with three quotes,
nor do its quotes run on into the closing ones. -/
theorem not_three_quotes (hrun : longestRun 0 cs < 3) (hlast : cs.getLast? ≠ some '\'')
    (hne : cs ≠ []) (rest rest' : List Char) : cs ++ rest ≠ '\'' :: '\'' :: '\'' :: rest' := by
  intro h
  match cs, hne with
  | [a], _ =>
    cases h
    exact hlast rfl
  | [a, b], _ =>
    cases h
    exact hlast rfl
  | a :: b :: d :: cs, _ =>
    cases h
    have hthree := le_longestRun 3 cs
    exact absurd hrun (Nat.not_lt_of_le hthree)

theorem readLongLiteral_append (hplain : ∀ c ∈ cs, (isPlain c || c == '\n') = true)
    (hrun : longestRun 0 cs < 3) (hlast : cs.getLast? ≠ some '\'') (hrest : FollowsQuote rest) :
    readLongLiteral (cs ++ '\'' :: '\'' :: '\'' :: rest) = some (cs, rest) := by
  induction cs with
  | nil =>
    rw [List.nil_append, readLongLiteral]
    · rintro rest' rfl
      exact hrest.2 rfl
    · rintro rest' rfl
      exact hrest.2 rfl
  | cons c cs ih =>
    obtain ⟨hc, hcs⟩ := List.forall_mem_cons.mp hplain
    have hthree := not_three_quotes hrun hlast (List.cons_ne_nil c cs)
    have hlast' : cs.getLast? ≠ some '\'' := by
      cases cs with
      | nil => nofun
      | cons d cs => rwa [List.getLast?_cons_cons] at hlast
    have hinner := ih hcs (Nat.lt_of_le_of_lt (longestRun_tail c cs) hrun) hlast'
    rw [List.cons_append, readLongLiteral, if_pos hc, hinner, Scanned.cons_some]
    · rintro rest' rfl heq
      exact hthree _ _ (congrArg (List.cons '\'') heq)
    · rintro rest' rfl heq
      exact hthree _ _ (congrArg (List.cons '\'') heq)
    · rintro rest' rfl heq
      exact hthree _ _ (congrArg (List.cons '\'') heq)
    · rintro rest' rfl heq
      rw [show (isPlain '\r' || '\r' == '\n') = false from rfl] at hc
      cases hc

/-! ## All forms -/

theorem readQuoted_of_basic (cs : List Char) (hrest : FollowsQuote rest) :
    readQuoted ('"' :: (cs.flatMap (escapeChar false) ++ '"' :: rest)) = some (cs, rest) := by
  rw [readQuoted, readBasic_body]
  rintro rest' heq
  cases cs with
  | nil =>
    cases heq
    exact hrest.1 rfl
  | cons c cs =>
    -- what begins with a quote would not have been escaped
    rw [List.flatMap_cons, List.append_assoc] at heq
    rcases escapeChar_cases false c with ⟨h, hquote, _⟩ | ⟨letter, h, _⟩ | ⟨h, _⟩
    · rw [h] at heq
      exact hquote (List.cons.inj heq).1
    · rw [h] at heq
      cases heq
    · rw [h] at heq
      cases heq

theorem skipLineEnd_of_shown {cs : List Char} (hne : cs ≠ [])
    (h : ∀ c ∈ cs, c ≠ '\n' ∧ c ≠ '\r') (rest : List Char) : skipLineEnd (cs ++ rest) = cs ++ rest := by
  cases cs with
  | nil => exact absurd rfl hne
  | cons c cs =>
    obtain ⟨hline, hreturn⟩ := h c List.mem_cons_self
    rw [List.cons_append, skipLineEnd]
    · exact fun _ heq => hline (List.cons.inj heq).1
    · exact fun _ heq => hreturn (List.cons.inj heq).1

theorem readQuoted_of_literal {cs : List Char} (hne : cs ≠ [])
    (h : ∀ c ∈ cs, isPlain c = true ∧ c ≠ '\'') (rest : List Char) :
    readQuoted ('\'' :: (cs ++ '\'' :: rest)) = some (cs, rest) := by
  rw [readQuoted, readLiteral_append h]
  intro rest' heq
  cases cs with
  | nil => exact hne rfl
  | cons c cs => exact (h c List.mem_cons_self).2 (List.cons.inj heq).1

/-- What can stand between single quotes reads back, in each of the forms. -/
theorem readQuoted_quote_of_fitsLiteral {s : String} (hliteral : fitsLiteral s.toList = true)
    (hrest : FollowsQuote rest) : readQuoted ((quote s).toList ++ rest) = some (s.toList, rest) := by
  unfold quote
  dsimp only
  rw [if_pos hliteral]
  rw [fitsLiteral, Bool.and_eq_true, Bool.and_eq_true, Bool.and_eq_true, List.any_eq_true,
    List.all_eq_true, decide_eq_true_iff, bne_iff_ne] at hliteral
  obtain ⟨⟨⟨⟨d, hd, _⟩, hplain⟩, hrun⟩, hlast⟩ := hliteral
  have hne : s.toList ≠ [] := List.ne_nil_of_mem hd
  have hlong := readLongLiteral_append hplain hrun hlast hrest
  by_cases hlines : s.toList.contains '\n' = true
  · -- the line end behind the opening quotes does not belong to the text
    rw [if_pos hlines]
    simpa [readQuoted, skipLineEnd] using hlong
  · have hshown : ∀ c ∈ s.toList, c ≠ '\n' ∧ c ≠ '\r' := by
      intro c hc
      refine ⟨?_, ?_⟩
      · rintro rfl
        exact hlines (List.contains_iff_mem.mpr hc)
      · rintro rfl
        exact absurd (hplain _ hc) (by decide)
    rw [if_neg hlines]
    by_cases hquotes : s.toList.contains '\'' = true
    · rw [if_pos hquotes]
      have hskip := skipLineEnd_of_shown hne hshown ('\'' :: '\'' :: '\'' :: rest)
      simpa [readQuoted, hskip] using hlong
    · rw [if_neg hquotes]
      have hnone : ∀ c ∈ s.toList, isPlain c = true ∧ c ≠ '\'' := by
        intro c hc
        refine ⟨?_, ?_⟩
        · simpa [(hshown c hc).1] using hplain c hc
        · rintro rfl
          exact hquotes (List.contains_iff_mem.mpr hc)
      have htext : ("'" ++ s ++ "'").toList ++ rest = '\'' :: (s.toList ++ '\'' :: rest) := by
        simp
      rw [htext]
      exact readQuoted_of_literal hne hnone rest

/-- A text reads back as it was written. -/
theorem readQuoted_quote (s : String) (hrest : FollowsQuote rest) :
    readQuoted ((quote s).toList ++ rest) = some (s.toList, rest) := by
  by_cases hliteral : fitsLiteral s.toList = true
  · exact readQuoted_quote_of_fitsLiteral hliteral hrest
  · unfold quote
    dsimp only
    rw [if_neg hliteral]
    by_cases hlines : s.toList.contains '\n' = true
    · rw [if_pos hlines, hlines]
      have hread := readLongBasic_body s.toList hrest
      simpa [readQuoted, skipLineEnd] using hread
    · rw [if_neg hlines, Bool.eq_false_iff.mpr hlines]
      have hread := readQuoted_of_basic s.toList hrest
      simpa using hread

/-- Quotes at the end of a text in lines do not run on into the closing ones. -/
example : readQuoted (quote "a\n''").toList = some ("a\n''".toList, []) := by
  decide +kernel

end CodeAtlas.Toml
