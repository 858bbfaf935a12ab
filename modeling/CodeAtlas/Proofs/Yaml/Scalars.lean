import CodeAtlas.Document.Value
import CodeAtlas.Proofs.Decimals
import CodeAtlas.Proofs.Digits
import CodeAtlas.Proofs.Yaml.Styles
import Mathlib.Data.List.TakeWhile
/-!
# Numbers read back

A number is written without quotes, and as a plain scalar its text means the number again: whole numbers by
their digits, doubles by the parts of a decimal number. Such a text holds no sign and is no keyword, so that
nothing else is taken from it.

Results:
1. `IsNumeral.isPlain`, `IsNumeral.meaning_int`, `IsNumeral.meaning_decimal`: what the text of a number is
   read as.
2. `meaning_toString`, `nat?_nat`: whole numbers are read back.
3. `decimalParts?_eq`, `decimal?_eq`: the parts of a decimal number and the number that they make.
4. `showsDecimal_render`: the text of a double shows the digits that are written.
5. `meaning_render`: finite doubles are read back.
-/

namespace CodeAtlas.Yaml

variable {s : String} {cs whole fraction : List Char} {c : Char} {negative : Bool} {n d : Nat}
  {x : Binary64}

/-! ## Digits -/

section

variable {f : Nat → Char → Option Nat}

theorem foldlM_eq_some {g : Nat → Char → Nat} (h : ∀ c ∈ cs, ∀ n, f n c = some (g n c)) (n : Nat) :
    cs.foldlM f n = some (cs.foldl g n) := by
  induction cs generalizing n with
  | nil => rfl
  | cons c cs ih =>
    obtain ⟨hc, hcs⟩ := List.forall_mem_cons.mp h
    rw [List.foldlM_cons, hc]
    exact ih hcs _

theorem foldlM_eq_none (hmem : c ∈ cs) (hc : ∀ n, f n c = none) (n : Nat) :
    cs.foldlM f n = none := by
  induction cs generalizing n with
  | nil => cases hmem
  | cons y cs ih =>
    rw [List.foldlM_cons]
    rcases List.mem_cons.mp hmem with rfl | hmem
    · rw [hc]
      rfl
    · cases f n y with
      | none => rfl
      | some m => exact ih hmem m

end

/-- The value of decimal digits. -/
theorem natOf?_digits (hne : cs ≠ []) (hcs : ∀ c ∈ cs, c.isDigit = true) :
    natOf? 10 cs = some (Nat.ofDigitChars 10 cs 0) := by
  rw [natOf?, if_neg fun h => hne (List.isEmpty_iff.mp h)]
  refine foldlM_eq_some (fun c hc n => ?_) 0
  rw [Json.hexValue?_of_isDigit (hcs c hc)]
  simp only [toNat_sub_of_isDigit (hcs c hc), if_true, Nat.mul_comm n]
  rfl

theorem isDigit_of_hexValue? (h : Json.hexValue? c = some d) (hd : d < 10) : c.isDigit = true := by
  simp only [Json.hexValue?, Bool.and_eq_true, decide_eq_true_eq] at h
  split at h
  · next hc =>
    rw [Char.isDigit, Bool.and_eq_true, decide_eq_true_iff, decide_eq_true_iff]
    exact hc
  · split at h
    · next hc =>
      have hle : 97 ≤ c.toNat := hc.1
      cases h
      omega
    · split at h
      · next hc =>
        have hle : 65 ≤ c.toNat := hc.1
        cases h
        omega
      · cases h

/-- What is not all digits has no value in base ten. -/
theorem natOf?_eq_none (hmem : c ∈ cs) (hc : c.isDigit = false) : natOf? 10 cs = none := by
  rw [natOf?]
  split
  · rfl
  · refine foldlM_eq_none hmem (fun n => ?_) 0
    split
    · next d hd =>
      split
      · next hlt =>
        rw [isDigit_of_hexValue? hd hlt] at hc
        cases hc
      · rfl
    · rfl

theorem natOf?_toDigits (n : Nat) : natOf? 10 (Nat.toDigits 10 n) = some n := by
  rw [natOf?_digits Nat.toDigits_ne_nil fun _ => isDigit_of_mem_digits, Nat.ofDigitChars_ten_toDigits]

/-! ## Numerals -/

/-- The decimal digits. -/
def digitChars : List Char := ['0', '1', '2', '3', '4', '5', '6', '7', '8', '9']

/-- The characters of numbers. -/
def numeralChars : List Char := digitChars ++ ['.', 'e', '-']

/-- The texts of numbers without a sign. -/
structure IsNumeral (cs : List Char) : Prop where
  first : ∃ d more, cs = d :: more ∧ d.isDigit = true
  chars : ∀ c ∈ cs, c.isDigit = true ∨ c = '.' ∨ c = 'e' ∨ c = '-'

/-- A text with a sign in front, for a negative number. -/
def signed (negative : Bool) (cs : List Char) : List Char := if negative then '-' :: cs else cs

theorem isNumeral_digits (hne : cs ≠ []) (hcs : ∀ c ∈ cs, c.isDigit = true) : IsNumeral cs where
  first := by
    obtain ⟨d, more, rfl⟩ := List.exists_cons_of_ne_nil hne
    exact ⟨d, more, rfl, hcs d List.mem_cons_self⟩
  chars c hc := .inl (hcs c hc)

theorem isNumeral_toDigits (n : Nat) : IsNumeral (Nat.toDigits 10 n) :=
  isNumeral_digits Nat.toDigits_ne_nil fun _ => isDigit_of_mem_digits

theorem mem_digitChars (hc : c.isDigit = true) : c ∈ digitChars := by
  rw [Char.isDigit, Bool.and_eq_true, decide_eq_true_iff, decide_eq_true_iff] at hc
  have hlow : 48 ≤ c.toNat := hc.1
  have hhigh : c.toNat ≤ 57 := hc.2
  have hall : ∀ d : Fin 10, Char.ofNat (48 + d) ∈ digitChars := by decide
  have hmem := hall ⟨c.toNat - 48, by omega⟩
  have hsum : 48 + (c.toNat - 48) = c.toNat := by omega
  rwa [hsum, Char.ofNat_toNat] at hmem

/-- What holds of the ten digits holds of every digit. -/
theorem digit_of_all {p : Char → Bool} (hall : digitChars.all p = true) (hc : c.isDigit = true) :
    p c = true :=
  List.all_eq_true.mp hall c (mem_digitChars hc)

namespace IsNumeral

variable (h : IsNumeral cs)

include h

theorem ne_nil : cs ≠ [] := by
  obtain ⟨d, more, rfl, _⟩ := h.first
  exact List.cons_ne_nil _ _

theorem mem (negative : Bool) (hc : c ∈ signed negative cs) : c ∈ numeralChars := by
  have hchar : c ∈ cs ∨ c = '-' := by
    rw [signed] at hc
    split at hc
    · exact (List.mem_cons.mp hc).symm
    · exact .inl hc
  rcases hchar with hc | rfl
  · rcases h.chars c hc with hc | rfl | rfl | rfl
    · exact List.mem_append_left ['.', 'e', '-'] (mem_digitChars hc)
    all_goals decide
  · decide

/-- What holds of the characters of numbers holds of every character of a numeral. -/
theorem forall_of_all (negative : Bool) {p : Char → Bool} (hall : numeralChars.all p = true) :
    ∀ c ∈ signed negative cs, p c = true := fun c hc =>
  List.all_eq_true.mp hall c (h.mem negative hc)

omit h in
theorem hasSignInside_eq_false (hcs : ∀ x ∈ cs, (x != ':' && x != '#') = true) (before : Char) :
    hasSignInside before cs = false := by
  induction cs generalizing before with
  | nil => rfl
  | cons x cs ih =>
    obtain ⟨hx, hcs⟩ := List.forall_mem_cons.mp hcs
    rw [Bool.and_eq_true, bne_iff_ne, bne_iff_ne] at hx
    rw [hasSignInside, ih hcs, isSignInside, beq_eq_false_iff_ne.mpr hx.1,
      beq_eq_false_iff_ne.mpr hx.2]
    rfl

/-- No sign can be seen in a numeral. -/
theorem hasSign_eq (negative : Bool) : hasSign (signed negative cs) = false := by
  obtain ⟨d, more, hcs, hd⟩ := h.first
  have hdigit := digit_of_all (p := fun d => !"#,[]\x7b\x7d&*!|>'\"%@\x60".toList.contains d &&
    d != '?' && d != ':' && d != '-' && d != '.') (by decide +kernel) hd
  simp only [Bool.and_eq_true, Bool.not_eq_true', bne_iff_ne] at hdigit
  obtain ⟨⟨⟨⟨hsigns, hquestion⟩, hcolon⟩, hminus⟩, hpoint⟩ := hdigit
  have hinside := hasSignInside_eq_false (h.forall_of_all negative (by decide)) ' '
  cases negative with
  | false =>
    rw [signed, if_neg Bool.false_ne_true, hcs] at hinside ⊢
    rw [hasSign, (Bool.or_eq_false_iff.mp hinside).2, isSignAtStart, hsigns,
      beq_eq_false_iff_ne.mpr hquestion, beq_eq_false_iff_ne.mpr hcolon,
      beq_eq_false_iff_ne.mpr hminus]
    · rfl
    · exact fun _ heq => absurd heq hminus
    · exact fun _ heq => absurd heq hpoint
  | true =>
    rw [signed, if_pos rfl, hcs] at hinside ⊢
    have hends : endsWord (d :: more) = false :=
      (Bool.not_eq_true' _).mp (digit_of_all (p := fun d => !(isBlank d || isBreak d)) (by decide) hd)
    rw [hasSign, (Bool.or_eq_false_iff.mp hinside).2, isSignAtStart, hends, Bool.and_false]
    · rfl
    · rintro _ _ heq
      cases heq
      exact hminus rfl
    · rintro _ heq
      cases heq

/-- A numeral may be written plain. -/
theorem isPlain (negative : Bool) : IsPlain (signed negative cs) := by
  have hne : signed negative cs ≠ [] := by
    rw [signed]
    split
    · exact List.cons_ne_nil _ _
    · exact h.ne_nil
  have hchar := h.forall_of_all negative (p := fun x => isPrintable x && !isBreak x && !isSpace x)
    (by decide)
  refine isPlain_of_solid hne (fun x hx => ?_) (h.hasSign_eq negative)
  simpa [and_assoc] using hchar x hx

/-- A numeral is no word. -/
theorem ne_word (hs : s.toList = signed negative cs) {word : String}
    (hword : (word.toList.all numeralChars.contains && !word.toList.isEmpty) = false) : s ≠ word := by
  rintro rfl
  have hall : s.toList.all numeralChars.contains = true :=
    List.all_eq_true.mpr fun c hc => List.contains_iff_mem.mpr (h.mem negative (hs ▸ hc))
  have hempty : s.toList.isEmpty = false := by
    obtain ⟨d, more, hcs, _⟩ := h.first
    rw [hs, signed, hcs]
    split <;> rfl
  rw [hall, hempty] at hword
  cases hword

theorem notMem_words (hs : s.toList = signed negative cs) {words : List String}
    (hwords : (words.all fun word =>
      !(word.toList.all numeralChars.contains && !word.toList.isEmpty)) = true) : s ∉ words := fun hmem => by
  have hword := List.all_eq_true.mp hwords s hmem
  rw [Bool.not_eq_true'] at hword
  exact h.ne_word hs hword rfl

/-- A numeral stands for no null and no truth value. -/
theorem not_keyword (hs : s.toList = signed negative cs) : (s == "" || isNull s) = false ∧
    s ∉ ["true", "True", "TRUE"] ∧ s ∉ ["false", "False", "FALSE"] := by
  refine ⟨?_, h.notMem_words hs (by decide +kernel), h.notMem_words hs (by decide +kernel)⟩
  rw [isNull, beq_eq_false_iff_ne.mpr (h.ne_word hs (by decide +kernel)),
    decide_eq_false (h.notMem_words hs (by decide +kernel))]
  rfl

/-- A numeral that is a whole number means the number. -/
theorem meaning_int (hs : s.toList = signed negative cs) {n : ℤ} (hint : int? s.toList = some n)
    (hwide : isWide n = true) : meaning s = .int n := by
  obtain ⟨hnull, htrue, hfalse⟩ := h.not_keyword hs
  rw [meaning, hnull, if_neg Bool.false_ne_true, if_neg htrue, if_neg hfalse, hint]
  exact if_pos hwide

theorem meaning_float (hs : s.toList = signed negative cs) (hint : int? s.toList = none)
    (hzero : hasLeadingZero s.toList = false) (hfloat : float? s = some x) :
    meaning s = .float x := by
  obtain ⟨hnull, htrue, hfalse⟩ := h.not_keyword hs
  rw [meaning, hnull, if_neg Bool.false_ne_true, if_neg htrue, if_neg hfalse, hint]
  dsimp only
  rw [meaning.floating, hzero, hfloat]
  rfl

/-- A numeral does not begin with a sign. -/
theorem ne_sign (sign : Char) (hsign : sign.isDigit = false) (rest : List Char) :
    cs ≠ sign :: rest := by
  obtain ⟨d, more, rfl, hd⟩ := h.first
  rintro ⟨⟩
  rw [hsign] at hd
  cases hd

theorem int?_signed : int? (signed negative cs) =
    (magnitude? cs).map fun n : Nat => if negative then -(n : ℤ) else n := by
  have hplus := h.ne_sign '+' rfl
  have hminus := h.ne_sign '-' rfl
  cases negative with
  | false =>
    rw [signed, if_neg Bool.false_ne_true, int?]
    · rfl
    · exact fun _ => hplus _
    · exact fun _ => hplus _
    · exact fun _ => hminus _
  | true =>
    rw [signed, if_pos rfl, int?]
    cases magnitude? cs <;> rfl

theorem hasLeadingZero_signed : hasLeadingZero (signed negative cs) = hasLeadingZero cs := by
  have hplus := h.ne_sign '+' rfl
  have hminus := h.ne_sign '-' rfl
  cases negative with
  | false => rfl
  | true =>
    rw [signed, if_pos rfl, hasLeadingZero.eq_def cs]
    split
    · next rest => exact absurd rfl (hminus rest)
    · next rest => exact absurd rfl (hplus rest)
    · rfl

/-- A numeral has superfluous zeros only if it is all digits and begins with one. -/
theorem hasLeadingZero_eq_false (hcs : cs.head? ≠ some '0' ∨ ∃ c ∈ cs, c.isDigit = false) :
    hasLeadingZero cs = false := by
  have hplus := h.ne_sign '+' rfl
  have hminus := h.ne_sign '-' rfl
  rw [hasLeadingZero.eq_def]
  dsimp only
  split
  · next c rest hzero =>
    have hwhole : cs = '0' :: c :: rest := by
      split at hzero
      · next rest => exact absurd rfl (hminus rest)
      · next rest => exact absurd rfl (hplus rest)
      · exact hzero
    rw [hwhole] at hcs
    rcases hcs with hhead | ⟨c', hmem, hc⟩
    · exact absurd rfl hhead
    · refine List.all_eq_false.mpr ⟨c', (List.mem_cons.mp hmem).resolve_left ?_, ?_⟩
      · rintro rfl
        cases hc
      · rw [hc]
        exact Bool.false_ne_true
  · rfl

theorem float?_signed (hs : s.toList = signed negative cs) : float? s = decimal? negative cs := by
  have hplus := h.ne_sign '+' rfl
  have hminus := h.ne_sign '-' rfl
  rw [float?, if_neg (h.notMem_words hs (by decide +kernel)),
    if_neg (h.notMem_words hs (by decide +kernel)), if_neg (h.notMem_words hs (by decide +kernel)), hs]
  cases negative with
  | false =>
    rw [signed, if_neg Bool.false_ne_true]
    split
    · next rest => exact absurd rfl (hplus _)
    · next rest => exact absurd rfl (hplus _)
    · next rest => exact absurd rfl (hplus _)
    · next rest => exact absurd rfl (hminus _)
    · rfl
  | true => rfl

end IsNumeral

/-! ## Whole numbers -/

theorem magnitude?_toDigits (n : Nat) : magnitude? (Nat.toDigits 10 n) = some n := by
  have hvalue := natOf?_toDigits n
  rcases toDigits_cases n with ⟨rfl, _⟩ | ⟨d, ds, hdigits, hd, hzero, hds⟩
  · rfl
  · rw [hdigits] at hvalue ⊢
    have hnumeral := isNumeral_digits (List.cons_ne_nil _ _) (List.forall_mem_cons.mpr ⟨hd, hds⟩)
    have hleading : hasLeadingZero (d :: ds) = false :=
      hnumeral.hasLeadingZero_eq_false (.inl fun heq => hzero (Option.some.inj heq))
    rw [magnitude?, hleading, hvalue]
    · rfl
    all_goals exact fun _ heq => absurd (List.cons.inj heq).1 hzero

/-- The text of a whole number. -/
theorem toList_toString (n : ℤ) :
    (toString n).toList = signed (decide (n < 0)) (Nat.toDigits 10 n.natAbs) := by
  cases n with
  | ofNat n =>
    have htext : (toString (Int.ofNat n)).toList = Nat.toDigits 10 n := Nat.toList_repr
    exact htext
  | negSucc n =>
    rw [Int.toString_eq_repr, Int.repr, String.toList_append, Nat.toList_repr,
      decide_eq_true (Int.negSucc_lt_zero n)]
    rfl

theorem int?_toString (n : ℤ) : int? (toString n).toList = some n := by
  rw [toList_toString, (isNumeral_toDigits _).int?_signed, magnitude?_toDigits, Option.map_some]
  congr 1
  split <;> next h => simp at h; omega

theorem isPlain_int (n : ℤ) : IsPlain (toString n).toList :=
  toList_toString n ▸ (isNumeral_toDigits _).isPlain _

theorem meaning_toString {n : ℤ} (hwide : isWide n = true) : meaning (toString n) = .int n :=
  (isNumeral_toDigits _).meaning_int (toList_toString n) (int?_toString n) hwide

theorem isPlain_nat (n : Nat) : IsPlain (toString n).toList := isPlain_int n

/-- A natural number of 64 bits is read back. -/
theorem nat?_nat (hn : n < Nat.pow 2 64) : (nat n).nat? = some n := by
  have htext : (toString n).toList = Nat.toDigits 10 n := Nat.toList_repr
  have hplus := (isNumeral_toDigits n).ne_sign '+' rfl
  rw [nat, nat?, untagged]
  · simp only [htext, magnitude?_toDigits, Option.bind_some]
    exact if_pos hn
  · exact fun _ _ heq => by cases heq

/-! ## Doubles -/

/-- What stands behind the digits of a decimal number, with the exponent that it tells. -/
inductive EndsDecimal : List Char → ℤ → Prop
  | nothing : EndsDecimal [] 0
  | exponent (n : ℤ) : EndsDecimal ('e' :: (toString n).toList) n

/-- What stands between the digits in front of the point and the end of the digits. -/
inductive PointsTo : List Char → List Char → Prop
  | point (fraction : List Char) : PointsTo ('.' :: fraction) fraction
  | nothing : PointsTo [] []

theorem takeWhile_digits {rest : List Char} (hcs : ∀ c ∈ cs, c.isDigit = true)
    (hrest : ∀ c ∈ rest.head?, c.isDigit = false) :
    (cs ++ rest).takeWhile Char.isDigit = cs ∧ (cs ++ rest).dropWhile Char.isDigit = rest := by
  refine ⟨takeWhile_append_stop hcs hrest, ?_⟩
  rw [List.dropWhile_append_of_pos hcs]
  cases rest with
  | nil => rfl
  | cons c rest => exact List.dropWhile_cons_of_neg (by simp [hrest c rfl])

/-- The text of a whole number is its digits, behind a sign if it is negative. -/
theorem int_cases (n : ℤ) : ∃ digits, IsNumeral digits ∧ (∀ c ∈ digits, c.isDigit = true) ∧
    natOf? 10 digits = some n.natAbs ∧ (((toString n).toList = digits ∧ (n.natAbs : ℤ) = n) ∨
      ((toString n).toList = '-' :: digits ∧ -(n.natAbs : ℤ) = n)) := by
  refine ⟨_, isNumeral_toDigits n.natAbs, fun _ => isDigit_of_mem_digits, natOf?_toDigits _, ?_⟩
  rw [toList_toString, signed]
  split
  · next hneg =>
    rw [decide_eq_true_eq] at hneg
    exact .inr ⟨rfl, by omega⟩
  · next hneg =>
    rw [decide_eq_true_eq] at hneg
    exact .inl ⟨rfl, by omega⟩

/-- The parts of a decimal number. -/
theorem decimalParts?_eq {point ending : List Char} {exponent : ℤ} (hne : whole ≠ [])
    (hwhole : ∀ c ∈ whole, c.isDigit = true) (hfraction : ∀ c ∈ fraction, c.isDigit = true)
    (hpoint : PointsTo point fraction) (hending : EndsDecimal ending exponent) :
    decimalParts? (whole ++ (point ++ ending)) = some (whole, fraction, exponent) := by
  have hend : ∀ c ∈ ending.head?, c.isDigit = false := by
    cases hending with
    | nothing => exact fun _ h => by cases h
    | exponent n => rintro _ ⟨⟩; rfl
  have hrest : ∀ c ∈ (point ++ ending).head?, c.isDigit = false := by
    cases hpoint with
    | point => rintro _ ⟨⟩; rfl
    | nothing => exact hend
  obtain ⟨htake, hdrop⟩ := takeWhile_digits hwhole hrest
  have hempty : whole.isEmpty = false := Bool.eq_false_iff.mpr fun h => hne (List.isEmpty_iff.mp h)
  rw [decimalParts?, htake, hdrop]
  dsimp only
  rw [hempty, Bool.false_and, if_neg Bool.false_ne_true]
  -- the point is looked for before the exponent, so each form of the one meets each of the other
  cases hending with
  | nothing =>
    cases hpoint with
    | point =>
      obtain ⟨htake, hdrop⟩ := takeWhile_digits hfraction hend
      simp only [List.cons_append, htake, hdrop]
    | nothing => rfl
  | exponent n =>
    cases hpoint
    case' point =>
      obtain ⟨htake, hdrop⟩ := takeWhile_digits hfraction hend
      simp only [List.cons_append, htake, hdrop]
    case' nothing =>
      simp only [List.nil_append, List.cons.injEq, Char.reduceEq, false_and, imp_self, implies_true]
    all_goals
      simp only [beq_self_eq_true, Bool.true_or, if_true]
      obtain ⟨digits, hnumeral, hall, hvalue, ⟨htext, hsign⟩ | ⟨htext, hsign⟩⟩ := int_cases exponent
      · rw [htext]
        split
        · next rest => exact absurd rfl (hnumeral.ne_sign '+' rfl rest)
        · next rest => exact absurd rfl (hnumeral.ne_sign '-' rfl rest)
        · simp only [hvalue, List.all_eq_true.mpr hall, Option.bind_some, hsign, if_true,
            Bool.false_eq_true, if_false]
      · simp only [htext, hvalue, List.all_eq_true.mpr hall, Option.bind_some, hsign, if_true]

/-- A decimal number that is neither very large nor very small is read by its digits. -/
theorem decimal?_eq {exponent e : ℤ} (hparts : decimalParts? cs = some (whole, fraction, exponent))
    (hne : whole ≠ []) (hall : ∀ c ∈ whole ++ fraction, c.isDigit = true)
    (hdigits : Nat.ofDigitChars 10 (whole ++ fraction) 0 = d) (hd : 0 < d)
    (hexponent : exponent - fraction.length = e) (hmin : -400 ≤ e) (hmax : e ≤ 400)
    (hfinite : (Binary64.ofDecimal negative d e).isFinite = true) :
    decimal? negative cs = some (Binary64.ofDecimal negative d e) := by
  have hne' : whole ++ fraction ≠ [] := List.append_ne_nil_of_left_ne_nil hne _
  have hvalue : natOf? 10 (whole ++ fraction) = some d := by
    rw [natOf?_digits hne' hall, hdigits]
  have hempty : (whole ++ fraction).isEmpty = false :=
    Bool.eq_false_iff.mpr fun h => hne' (List.isEmpty_iff.mp h)
  have hlarge : ¬ e > 400 := Int.not_lt.mpr hmax
  have hsmall : ¬ e < -(400 + (whole ++ fraction).length : ℤ) := by omega
  rw [decimal?, hparts]
  simp only [Option.bind_eq_bind, Option.bind_some, hempty, hvalue, hexponent, hlarge, hsmall,
    hfinite, beq_eq_false_iff_ne.mpr hd.ne', Bool.false_eq_true, if_false, if_true]

/-- A text that shows the decimal number of some digits and an exponent. -/
inductive ShowsDecimal (d : Nat) (e : ℤ) : List Char → Prop
  | intro (whole fraction : List Char) {point ending : List Char} {exponent : ℤ}
      (ne_nil : whole ≠ []) (digits : ∀ c ∈ whole ++ fraction, c.isDigit = true)
      (hpoint : PointsTo point fraction) (hending : EndsDecimal ending exponent)
      (behind : point ++ ending ≠ [])
      (value : (Nat.ofDigitChars 10 (whole ++ fraction) 0 : ℚ) *
        10 ^ (exponent - fraction.length : ℤ) = d * 10 ^ e)
      (low : -400 ≤ exponent - fraction.length) (high : exponent - fraction.length ≤ 400) :
      ShowsDecimal d e (whole ++ (point ++ ending))

/-- The digits of a number, with any zeros in front. -/
structure AreDigits (d : Nat) (digits : List Char) : Prop where
  ne_nil : digits ≠ []
  digit : ∀ c ∈ digits, c.isDigit = true
  value : Nat.ofDigitChars 10 digits 0 = d

theorem areDigits_toDigits (d : Nat) : AreDigits d (Nat.toDigits 10 d) :=
  ⟨Nat.toDigits_ne_nil, fun _ => isDigit_of_mem_digits, Nat.ofDigitChars_ten_toDigits⟩

theorem isDigit_of_mem_zeros (hc : c ∈ List.replicate n '0') : c.isDigit = true := by
  rw [List.eq_of_mem_replicate hc]
  rfl

/-- The digits of a number, wherever the point stands among them. -/
theorem AreDigits.shows {point ending : List Char} {e exponent : ℤ}
    (h : AreDigits d (whole ++ fraction)) (hne : whole ≠ []) (hpoint : PointsTo point fraction)
    (hending : EndsDecimal ending exponent) (hbehind : point ++ ending ≠ [])
    (hplace : exponent - fraction.length = e) (hmin : -400 ≤ e) (hmax : e ≤ 400) :
    ShowsDecimal d e (whole ++ (point ++ ending)) := by
  obtain ⟨_, hdigit, rfl⟩ := h
  subst hplace
  exact .intro whole fraction hne hdigit hpoint hending hbehind rfl hmin hmax

section

variable {digits : List Char} {e : ℤ} (h : AreDigits d digits)

include h

/-- All digits in front of the point, with the zeros that are missing. -/
theorem AreDigits.shows_front (he : 0 ≤ e) :
    ShowsDecimal d e (digits ++ List.replicate e.toNat '0' ++ (['.', '0'] ++ [])) := by
  have hvalue : Nat.ofDigitChars 10 (digits ++ List.replicate e.toNat '0' ++ ['0']) 0 =
      d * 10 ^ e.toNat * 10 := by
    rw [Nat.ofDigitChars_append, Nat.ofDigitChars_append, Nat.ofDigitChars_replicate_zero, h.value,
      Nat.ofDigitChars_cons, Nat.ofDigitChars_nil, Nat.mul_comm d]
    exact Nat.mul_comm _ _
  have hdigit : ∀ c ∈ digits ++ List.replicate e.toNat '0' ++ ['0'], c.isDigit = true :=
    List.forall_mem_append.mpr ⟨List.forall_mem_append.mpr ⟨h.digit, fun _ => isDigit_of_mem_zeros⟩,
      List.forall_mem_singleton.mpr rfl⟩
  refine .intro _ ['0'] (List.append_ne_nil_of_left_ne_nil h.ne_nil _) hdigit (.point ['0']) .nothing
    (List.cons_ne_nil _ _) ?_ (by simp) (by simp)
  have hpower : (10 : ℚ) ^ e = 10 ^ e.toNat := by
    rw [← zpow_natCast, Int.toNat_of_nonneg he]
  rw [hvalue, hpower]
  push_cast
  rw [List.length_singleton, Nat.cast_one, zero_sub, zpow_neg, zpow_one]
  ring

variable (hmin : -400 ≤ e) (hmax : e ≤ 400)

include hmin hmax

/-- Some digits in front of the point. -/
theorem AreDigits.shows_amid (hfront : 0 < digits.length + e) (he : e ≤ 0) :
    ShowsDecimal d e (digits.take (digits.length + e).toNat ++
      ('.' :: digits.drop (digits.length + e).toNat ++ [])) := by
  have hwhole : AreDigits d (digits.take (digits.length + e).toNat ++
      digits.drop (digits.length + e).toNat) := (List.take_append_drop _ digits).symm ▸ h
  have htake : digits.take (digits.length + e).toNat ≠ [] := by
    refine List.length_pos_iff.mp ?_
    rw [List.length_take]
    omega
  refine hwhole.shows htake (.point _) .nothing (List.cons_ne_nil _ _) ?_ hmin hmax
  rw [List.length_drop]
  omega

/-- No digits in front of the point, and the zeros that are missing behind it. -/
theorem AreDigits.shows_behind (hbehind : digits.length + e ≤ 0) :
    ShowsDecimal d e (['0'] ++ ('.' :: (List.replicate (-(digits.length + e)).toNat '0' ++ digits) ++
      [])) := by
  have hwhole : AreDigits d (['0'] ++ (List.replicate (-(digits.length + e)).toNat '0' ++ digits)) := by
    refine ⟨List.cons_ne_nil _ _, List.forall_mem_append.mpr ⟨List.forall_mem_singleton.mpr rfl,
      List.forall_mem_append.mpr ⟨fun _ => isDigit_of_mem_zeros, h.digit⟩⟩, ?_⟩
    rw [Nat.ofDigitChars_append, Nat.ofDigitChars_append, Nat.ofDigitChars_replicate_zero]
    exact h.value
  refine hwhole.shows (List.cons_ne_nil _ _) (.point _) .nothing (List.cons_ne_nil _ _) ?_ hmin hmax
  rw [List.length_append, List.length_replicate]
  omega

/-- One digit in front of the point, and an exponent. -/
theorem AreDigits.shows_exponent :
    ShowsDecimal d e (digits.take 1 ++ ('.' :: digits.drop 1 ++
      'e' :: (toString (digits.length + e - 1)).toList)) := by
  have hwhole : AreDigits d (digits.take 1 ++ digits.drop 1) := (List.take_append_drop 1 digits).symm ▸ h
  have hlength := List.length_pos_iff.mpr h.ne_nil
  have htake : digits.take 1 ≠ [] := by
    refine List.length_pos_iff.mp ?_
    rw [List.length_take]
    omega
  refine hwhole.shows htake (.point _) (.exponent _) (List.cons_ne_nil _ _) ?_ hmin hmax
  rw [List.length_drop]
  omega

/-- A single digit with an exponent. -/
theorem AreDigits.shows_single (hone : digits.length = 1) :
    ShowsDecimal d e (digits ++ ([] ++ 'e' :: (toString (digits.length + e - 1)).toList)) := by
  have hwhole : AreDigits d (digits ++ []) := (List.append_nil digits).symm ▸ h
  refine hwhole.shows h.ne_nil .nothing (.exponent _) (List.cons_ne_nil _ _) ?_ hmin hmax
  rw [List.length_nil]
  omega

end

/-- The text of a double shows the digits that are written. -/
theorem showsDecimal_render (hzero : x.isZero = false) {e : ℤ}
    (hwritten : Binary64.stripZeros 20 x.shortest.1 x.shortest.2 = (d, e)) (hmin : -400 ≤ e)
    (hmax : e ≤ 400) :
    ∃ cs, ShowsDecimal d e cs ∧ x.render.toList = signed x.isNegative cs := by
  have hsigned : ∀ cs : List Char,
      ((if x.isNegative = true then "-" else "") ++ String.ofList cs).toList =
        signed x.isNegative cs := by
    intro cs
    rw [String.toList_append, String.toList_ofList, signed]
    split <;> rfl
  have hdigits := areDigits_toDigits d
  rw [Binary64.render, hzero, if_neg Bool.false_ne_true]
  simp only [hwritten, hsigned]
  generalize Nat.toDigits 10 d = digits at hdigits ⊢
  refine ⟨_, ?_, rfl⟩
  split
  · next hfront =>
    simp only [Bool.and_eq_true, decide_eq_true_eq] at hfront
    exact hdigits.shows_front hfront.1
  · next hnot =>
    simp only [Bool.and_eq_true, decide_eq_true_eq] at hnot
    split
    · next hamid =>
      simp only [Bool.and_eq_true, decide_eq_true_eq] at hamid
      simpa using hdigits.shows_amid hmin hmax hamid.1 (by omega)
    · split
      · next hbehind =>
        simp only [Bool.and_eq_true, decide_eq_true_eq] at hbehind
        simpa using hdigits.shows_behind hmin hmax hbehind.2
      · split
        · next hone => exact hdigits.shows_single hmin hmax (beq_iff_eq.mp hone)
        · simpa using hdigits.shows_exponent hmin hmax

/-- Behind the digits nothing stands but characters of numbers. -/
theorem EndsDecimal.chars {ending : List Char} {exponent : ℤ} (h : EndsDecimal ending exponent) :
    ∀ c ∈ ending, c.isDigit = true ∨ c = '.' ∨ c = 'e' ∨ c = '-' := by
  cases h with
  | nothing => exact fun _ h => by cases h
  | exponent n =>
    intro c hc
    rcases List.mem_cons.mp hc with rfl | hc
    · exact .inr (.inr (.inl rfl))
    · rw [toList_toString, signed] at hc
      split at hc
      · rcases List.mem_cons.mp hc with rfl | hc
        · exact .inr (.inr (.inr rfl))
        · exact .inl (isDigit_of_mem_digits hc)
      · exact .inl (isDigit_of_mem_digits hc)

theorem ShowsDecimal.isNumeral {e : ℤ} (h : ShowsDecimal d e cs) :
    IsNumeral cs ∧ ∃ c ∈ cs, c.isDigit = false := by
  cases h with
  | @intro whole fraction point ending _ ne_nil digits hpoint hending behind =>
    obtain ⟨hwhole, hfraction⟩ := List.forall_mem_append.mp digits
    obtain ⟨first, more, rfl⟩ := List.exists_cons_of_ne_nil ne_nil
    refine ⟨⟨⟨first, more ++ (point ++ ending), rfl, hwhole first List.mem_cons_self⟩, ?_⟩, ?_⟩
    · refine List.forall_mem_append.mpr
        ⟨fun c hc => .inl (hwhole c hc), List.forall_mem_append.mpr ⟨?_, hending.chars⟩⟩
      cases hpoint with
      | point => exact List.forall_mem_cons.mpr ⟨.inr (.inl rfl), fun c hc => .inl (hfraction c hc)⟩
      | nothing => exact fun _ h => by cases h
    · cases hpoint with
      | point => exact ⟨'.', List.mem_append_right _ List.mem_cons_self, rfl⟩
      | nothing =>
        cases hending with
        | nothing => exact absurd rfl behind
        | exponent n => exact ⟨'e', List.mem_append_right _ List.mem_cons_self, rfl⟩

theorem IsNumeral.magnitude?_eq_none (h : IsNumeral cs) (hcs : ∃ c ∈ cs, c.isDigit = false) :
    magnitude? cs = none := by
  have hmark : ∀ {mark : Char} {rest : List Char}, mark ∉ numeralChars →
      cs ≠ '0' :: mark :: rest := by
    rintro mark rest hmark rfl
    exact hmark (h.mem false (List.mem_cons_of_mem _ List.mem_cons_self))
  have hzero := h.hasLeadingZero_eq_false (.inr hcs)
  obtain ⟨c, hmem, hc⟩ := hcs
  rw [magnitude?, hzero, if_neg Bool.false_ne_true]
  · exact natOf?_eq_none hmem hc
  · exact fun _ => hmark (by decide)
  · exact fun _ => hmark (by decide)
  · exact fun _ => hmark (by decide)

/-- A numeral that is no whole number means the double that it is read as. -/
theorem IsNumeral.meaning_decimal (h : IsNumeral cs) (hcs : ∃ c ∈ cs, c.isDigit = false)
    (hs : s.toList = signed negative cs) (hread : decimal? negative cs = some x) :
    meaning s = .float x ∧ IsPlain s.toList := by
  refine ⟨h.meaning_float hs ?_ ?_ ((h.float?_signed hs).trans hread), hs ▸ h.isPlain negative⟩
  · rw [hs, h.int?_signed, h.magnitude?_eq_none hcs, Option.map_none]
  · rw [hs, h.hasLeadingZero_signed, h.hasLeadingZero_eq_false (.inr hcs)]

/-- The text of a double means the double, and it may be written plain. -/
theorem meaning_render (hfinite : x.isFinite = true) :
    meaning x.render = .float x ∧ IsPlain x.render.toList := by
  -- zero has no digits that could be the shortest, and is written by itself
  cases hzero : x.isZero with
  | true =>
    have hparts : x.parts.1 = 0 := beq_iff_eq.mp hzero
    have hmagnitude : x.magnitude = 0 := by
      have hnormal := (Binary64.parts_bounds hfinite).2.1
      rw [Binary64.magnitude]
      omega
    have hmade := x.ofMagnitude_magnitude
    rw [hmagnitude] at hmade
    have hread : ∀ negative, decimal? negative ['0', '.', '0'] = some (.ofMagnitude negative 0) := by
      decide
    have hx := (hread x.isNegative).trans (congrArg some hmade)
    have htext : x.render.toList = signed x.isNegative ['0', '.', '0'] := by
      rw [Binary64.render, hzero, if_pos rfl, String.toList_append, signed]
      split <;> rfl
    refine IsNumeral.meaning_decimal ⟨⟨'0', _, rfl, rfl⟩, ?_⟩ ⟨'.', ?_, rfl⟩ htext hx
    · simp
    · simp
  | false =>
    generalize hwritten : Binary64.stripZeros 20 x.shortest.1 x.shortest.2 = written
    obtain ⟨d, e⟩ := written
    obtain ⟨hd, hrounds, hmin, hmax⟩ := Binary64.rounds_written hfinite hzero hwritten
    obtain ⟨cs, hshows, htext⟩ := showsDecimal_render hzero hwritten hmin hmax
    obtain ⟨hnumeral, hnot⟩ := hshows.isNumeral
    refine hnumeral.meaning_decimal hnot htext ?_
    cases hshows with
    | @intro whole fraction _ _ _ ne_nil digits hpoint hending _ value low high =>
      rw [← value] at hrounds
      obtain ⟨hwhole, hfraction⟩ := List.forall_mem_append.mp digits
      have hx := Binary64.ofDecimal_of_rounds hfinite hzero hrounds
      have hpos : 0 < Nat.ofDigitChars 10 (whole ++ fraction) 0 := by
        refine Nat.pos_of_ne_zero fun hnone => ?_
        have hpositive := hrounds.pos (Nat.pos_of_ne_zero (beq_eq_false_iff_ne.mp hzero))
        rw [hnone, Nat.cast_zero, zero_mul, zero_mul] at hpositive
        exact lt_irrefl 0 hpositive
      rw [decimal?_eq (decimalParts?_eq ne_nil hwhole hfraction hpoint hending) ne_nil digits rfl hpos
        rfl low high (by rw [hx]; exact hfinite), hx]

end CodeAtlas.Yaml
