import CodeAtlas.Proofs.Digits
import CodeAtlas.Proofs.Toml.Quoted
import CodeAtlas.Toml.Printer
import CodeAtlas.Toml.Reader
/-!
# Values read back

The text of a value is read as the value, up to the sign that ends it: the end of the line, a comma
or a bracket. An array is read item by item, on one line or on many.

Results:
1. `readNumber_toString`: whole numbers read back, and are not taken for dates.
2. `readValue_renderScalar`: so do single values.
3. `readValue_renderValue`: so do arrays of single values.
-/

namespace CodeAtlas.Toml

variable {c : Char} {ds rest : List Char} {v : Toml} {text : String}

/-- What may follow a value: the end of its line, a comma or a bracket. -/
inductive EndsValue : List Char → Prop
  | line (rest : List Char) : EndsValue ('\n' :: rest)
  | comma (rest : List Char) : EndsValue (',' :: rest)
  | bracket (rest : List Char) : EndsValue (']' :: rest)

/-! ## Numbers -/

theorem valueOf_ten (hds : ∀ d ∈ ds, d.isDigit = true) : valueOf 10 ds = Nat.ofDigitChars 10 ds 0 := by
  have hfold : ∀ n, ds.foldl (fun n d => n * 10 + (Json.hexValue? d).getD 0) n =
      Nat.ofDigitChars 10 ds n := by
    induction ds with
    | nil => exact fun n => Nat.ofDigitChars_nil.symm
    | cons d ds ih =>
      obtain ⟨hd, hds⟩ := List.forall_mem_cons.mp hds
      intro n
      rw [List.foldl_cons, ih hds, Nat.ofDigitChars_cons, Json.hexValue?_of_isDigit hd, Nat.mul_comm]
      rfl
  exact hfold 0

theorem readDigits_append (hds : ∀ d ∈ ds, d.isDigit = true) (after : Bool)
    (hrest : EndsValue rest) : readDigits Char.isDigit after (ds ++ rest) = (ds, rest) := by
  induction ds generalizing after with
  | nil => cases hrest <;> cases after <;> rfl
  | cons d ds ih =>
    obtain ⟨hd, hds⟩ := List.forall_mem_cons.mp hds
    rw [List.cons_append, readDigits, if_pos hd, ih hds]
    rintro c' rest' _ rfl _
    exact absurd hd (by decide)

/-- Digits that are counted off are followed by what stands behind them. -/
theorem readDigits_eq_some {k n m : Nat} {cs rest : List Char}
    (h : Timestamp.readDigits k cs n = some (m, rest)) :
    ∃ ds, cs = ds ++ rest ∧ ∀ d ∈ ds, d.isDigit = true := by
  induction k generalizing cs n with
  | zero =>
    cases h
    exact ⟨[], rfl, fun _ h => by cases h⟩
  | succ k ih =>
    cases cs with
    | nil => cases h
    | cons d cs =>
      rw [Timestamp.readDigits] at h
      split at h
      · next hd =>
        obtain ⟨ds, rfl, hds⟩ := ih h
        exact ⟨d :: ds, rfl, List.forall_mem_cons.mpr ⟨hd, hds⟩⟩
      · cases h

/-- The digits of a number with nothing behind them are no year and no hour. -/
theorem readDigits_ne (hds : ∀ d ∈ ds, d.isDigit = true) (hrest : EndsValue rest) {sign : Char}
    (hsign : sign = '-' ∨ sign = ':') {k m : Nat} {rest' : List Char} :
    Timestamp.readDigits k (ds ++ rest) 0 ≠ some (m, sign :: rest') := by
  intro h
  obtain ⟨ds', heq, hds'⟩ := readDigits_eq_some h
  have hdigit : ¬ sign.isDigit = true := by
    rcases hsign with rfl | rfl <;> decide
  -- both are cut at the first character that is no digit
  have hcut := congrArg (List.dropWhile Char.isDigit) heq
  rw [List.dropWhile_append_of_pos hds, List.dropWhile_append_of_pos hds',
    List.dropWhile_cons_of_neg hdigit] at hcut
  have hrest' : rest.dropWhile Char.isDigit = rest := by cases hrest <;> rfl
  rw [hrest'] at hcut
  rcases hsign with rfl | rfl <;> cases hrest <;> cases hcut

theorem looksLikeDate_digits (hds : ∀ d ∈ ds, d.isDigit = true) (hrest : EndsValue rest) :
    looksLikeDate (ds ++ rest) = false := by
  rw [looksLikeDate]
  split
  · next h => exact absurd h (readDigits_ne hds hrest (.inl rfl))
  · next h _ => exact absurd h (readDigits_ne hds hrest (.inr rfl))
  · rfl

/-- What stands behind the whole digits of a number if there is neither a fraction nor an
exponent. -/
theorem readDecimal_whole (negative : Bool) {d : Char} (hd : d.isDigit = true)
    (hds : ∀ d ∈ ds, d.isDigit = true) (hzero : d = '0' → ds = []) (hrest : EndsValue rest) :
    readDecimal negative (d :: (ds ++ rest)) =
      (int64? (if negative then -(valueOf 10 (d :: ds) : Int) else valueOf 10 (d :: ds))).map
        fun i => (.int i, rest) := by
  have hwhole : (if d == '0' then ([d], ds ++ rest)
      else (d :: (readDigits Char.isDigit true (ds ++ rest)).1,
        (readDigits Char.isDigit true (ds ++ rest)).2)) = (d :: ds, rest) := by
    rw [readDigits_append hds true hrest]
    by_cases h : d = '0'
    · rw [if_pos (beq_iff_eq.mpr h), hzero h]
      rfl
    · rw [if_neg (by simpa using h)]
  rw [readDecimal]
  · rw [hd]
    simp only [hwhole]
    cases hrest <;> rfl
  · rintro rest' rfl _
    exact absurd hd (by decide)
  · rintro rest' rfl _
    exact absurd hd (by decide)

/-- The digits of a number behind its sign. -/
theorem readDecimal_digits (negative : Bool) (n : Nat) (hrest : EndsValue rest) :
    readDecimal negative (Nat.toDigits 10 n ++ rest) =
      (int64? (if negative then -(n : Int) else n)).map fun i => (.int i, rest) := by
  have hvalue : valueOf 10 (Nat.toDigits 10 n) = n := by
    rw [valueOf_ten fun d hd => isDigit_of_mem_digits hd, Nat.ofDigitChars_ten_toDigits]
  rcases toDigits_cases n with ⟨rfl, hdigits⟩ | ⟨d, ds, hdigits, hd, hzero, hds⟩
  · rw [hdigits] at hvalue ⊢
    have hnone : ∀ d ∈ ([] : List Char), d.isDigit = true := fun _ h => by cases h
    have hread := readDecimal_whole negative (d := '0') rfl hnone (fun _ => rfl) hrest
    rwa [hvalue] at hread
  · rw [hdigits] at hvalue ⊢
    have hread := readDecimal_whole negative hd hds (fun h => absurd h hzero) hrest
    rwa [hvalue] at hread

/-- Digits have neither a sign nor the mark of another base in front of them. -/
theorem readNumber_digits (n : Nat) (hrest : EndsValue rest) :
    readNumber (Nat.toDigits 10 n ++ rest) = readDecimal false (Nat.toDigits 10 n ++ rest) := by
  have hmark : ∀ (mark : Char) (rest' : List Char), mark ∈ ['x', 'o', 'b'] →
      Nat.toDigits 10 n ++ rest ≠ '0' :: mark :: rest' := by
    intro mark rest' hmark heq
    rcases toDigits_cases n with ⟨_, hdigits⟩ | ⟨d, ds, hdigits, _, hzero, _⟩
    · rw [hdigits] at heq
      cases hrest <;> cases heq <;> exact absurd hmark (by decide)
    · rw [hdigits] at heq
      exact hzero (List.cons.inj heq).1
  have hsign : ∀ (sign : Char) (rest' : List Char), sign.isDigit = false →
      Nat.toDigits 10 n ++ rest ≠ sign :: rest' := by
    intro sign rest' hsign heq
    obtain ⟨d, ds, hdigits⟩ := List.exists_cons_of_ne_nil (Nat.toDigits_ne_nil (b := 10) (n := n))
    have hd := isDigit_of_mem_digits (hdigits ▸ List.mem_cons_self)
    rw [hdigits] at heq
    rw [(List.cons.inj heq).1, hsign] at hd
    cases hd
  rw [readNumber, looksLikeDate_digits (fun d hd => isDigit_of_mem_digits hd) hrest,
    if_neg Bool.false_ne_true]
  · exact fun rest' => hmark _ rest' (by decide)
  · exact fun rest' => hmark _ rest' (by decide)
  · exact fun rest' => hmark _ rest' (by decide)
  · exact fun rest' => hsign _ rest' rfl
  · exact fun rest' => hsign _ rest' rfl

/-- A number is read as it was written. -/
theorem readNumber_toString {n : Int} (hn : -Int.pow 2 63 ≤ n ∧ n < Int.pow 2 63)
    (hrest : EndsValue rest) : readNumber ((toString n).toList ++ rest) = some (.int n, rest) := by
  have hfits : int64? n = some n := by
    rw [int64?, if_pos]
    simpa using hn
  cases n with
  | ofNat n =>
    have htext : (toString (Int.ofNat n)).toList = Nat.toDigits 10 n := Nat.toList_repr
    rw [htext, readNumber_digits n hrest, readDecimal_digits false n hrest, if_neg Bool.false_ne_true]
    exact congrArg _ hfits
  | negSucc n =>
    have htext : (toString (Int.negSucc n)).toList = '-' :: Nat.toDigits 10 (n + 1) := by
      rw [Int.toString_eq_repr, Int.repr, String.toList_append, Nat.toList_repr]
      rfl
    have hdate : looksLikeDate ('-' :: (Nat.toDigits 10 (n + 1) ++ rest)) = false := rfl
    rw [htext, List.cons_append, readNumber, hdate, if_neg Bool.false_ne_true,
      readDecimal_digits true (n + 1) hrest, if_pos rfl]
    exact congrArg _ hfits

/-! ## Single values -/

/-- What the text of a value begins with. -/
structure BeginsValue (c : Char) : Prop where
  blank : isBlank c = false
  signs : c ∉ ['\n', '\r', '#', ']']

theorem skipBlanks_cons (h : isBlank c = false) (rest : List Char) :
    skipBlanks (c :: rest) = c :: rest := by
  rw [skipBlanks, List.dropWhile_cons_of_neg (by rw [h]; exact Bool.false_ne_true)]

theorem BeginsValue.skipSpace (h : BeginsValue c) (fuel : Nat) (rest : List Char) :
    skipSpace (fuel + 1) (c :: rest) = some (c :: rest) := by
  have hne : ∀ sign ∈ ['\n', '\r', '#', ']'], c ≠ sign := fun sign hsign heq =>
    h.signs (heq ▸ hsign)
  rw [Toml.skipSpace, skipBlanks_cons h.blank]
  split
  · next heq => exact absurd (List.cons.inj heq).1 (hne _ (by decide))
  · next heq => exact absurd (List.cons.inj heq).1 (hne _ (by decide))
  · next heq => exact absurd (List.cons.inj heq).1 (hne _ (by decide))
  · rfl

/-- The text is that of the value: it is read as the value wherever a value may end. -/
structure ReadsAs (text : List Char) (v : Toml) : Prop where
  begins : ∃ c tail, text = c :: tail ∧ BeginsValue c
  reads : ∀ fuel rest, text.length < fuel → EndsValue rest →
    readValue fuel (text ++ rest) = some (v, rest)

theorem quote_cons (s : String) :
    ∃ mark tail, (quote s).toList = mark :: tail ∧ (mark = '"' ∨ mark = '\'') := by
  rw [quote]
  dsimp only
  split
  · split
    · exact ⟨_, _, by simp only [String.toList_append]; rfl, .inr rfl⟩
    · split
      · exact ⟨_, _, by simp only [String.toList_append]; rfl, .inr rfl⟩
      · exact ⟨_, _, by simp only [String.toList_append]; rfl, .inr rfl⟩
  · split
    · exact ⟨_, _, by simp only [String.toList_append]; rfl, .inl rfl⟩
    · exact ⟨_, _, by simp only [String.toList_append]; rfl, .inl rfl⟩

theorem readsAs_str (s : String) : ReadsAs (quote s).toList (.str s) := by
  obtain ⟨mark, tail, hcons, hmark⟩ := quote_cons s
  refine ⟨⟨mark, tail, hcons, ?_⟩, fun fuel rest hfuel hrest => ?_⟩
  · rcases hmark with rfl | rfl <;> exact ⟨rfl, by decide⟩
  · have hfollows : FollowsQuote rest := by cases hrest <;> exact ⟨nofun, nofun⟩
    have hread := readQuoted_quote s hfollows
    obtain ⟨fuel, rfl⟩ := Nat.exists_eq_succ_of_ne_zero (Nat.ne_zero_of_lt hfuel)
    rw [hcons] at hread ⊢
    rcases hmark with rfl | rfl
    · rw [List.cons_append] at hread ⊢
      rw [readValue, hread]
      simp
    · rw [List.cons_append] at hread ⊢
      rw [readValue, hread]
      simp

theorem readsAs_int {n : Int} (hn : -Int.pow 2 63 ≤ n ∧ n < Int.pow 2 63) :
    ReadsAs (toString n).toList (.int n) := by
  -- a number begins with a digit or a minus, and so with no sign of another value
  have hbegins : ∃ c tail, (toString n).toList = c :: tail ∧ (c.isDigit = true ∨ c = '-') := by
    cases n with
    | ofNat n =>
      obtain ⟨d, ds, hds⟩ := List.exists_cons_of_ne_nil (Nat.toDigits_ne_nil (b := 10) (n := n))
      exact ⟨d, ds, Nat.toList_repr.trans hds,
        .inl (isDigit_of_mem_digits (hds ▸ List.mem_cons_self))⟩
    | negSucc n =>
      refine ⟨'-', Nat.toDigits 10 (n + 1), ?_, .inr rfl⟩
      rw [Int.toString_eq_repr, Int.repr, String.toList_append, Nat.toList_repr]
      rfl
  obtain ⟨c, tail, hcons, hc⟩ := hbegins
  have hne : ∀ sign : Char, sign.isDigit = false → sign ≠ '-' → c ≠ sign := by
    rintro sign hsign hminus rfl
    rcases hc with h | h
    · rw [h] at hsign
      cases hsign
    · exact hminus h
  refine ⟨⟨c, tail, hcons, ?_, ?_⟩, fun fuel rest hfuel hrest => ?_⟩
  · rw [isBlank, Bool.or_eq_false_iff, beq_eq_false_iff_ne, beq_eq_false_iff_ne]
    exact ⟨hne _ rfl (by decide), hne _ rfl (by decide)⟩
  · intro hmem
    have hsigns : ['\n', '\r', '#', ']'].all (fun sign => !sign.isDigit && sign != '-') = true := by
      decide
    obtain ⟨hdigit, hminus⟩ := (Bool.and_eq_true _ _).mp (List.all_eq_true.mp hsigns c hmem)
    exact hne c ((Bool.not_eq_true' _).mp hdigit) (bne_iff_ne.mp hminus) rfl
  · obtain ⟨fuel, rfl⟩ := Nat.exists_eq_succ_of_ne_zero (Nat.ne_zero_of_lt hfuel)
    rw [← readNumber_toString hn hrest, hcons, List.cons_append, readValue]
    all_goals rintro rest' heq
    all_goals exact absurd (List.cons.inj heq).1 (hne _ rfl (by decide))

theorem readsAs_bool (b : Bool) :
    ReadsAs (if b then "true" else "false").toList (.bool b) := by
  cases b with
  | true =>
    refine ⟨⟨'t', _, rfl, by decide, by decide⟩, fun fuel rest hfuel _ => ?_⟩
    obtain ⟨fuel, rfl⟩ := Nat.exists_eq_succ_of_ne_zero (Nat.ne_zero_of_lt hfuel)
    rfl
  | false =>
    refine ⟨⟨'f', _, rfl, by decide, by decide⟩, fun fuel rest hfuel _ => ?_⟩
    obtain ⟨fuel, rfl⟩ := Nat.exists_eq_succ_of_ne_zero (Nat.ne_zero_of_lt hfuel)
    rfl

theorem readsAs_renderScalar (h : renderScalar? v = some text) : ReadsAs text.toList v := by
  cases v with
  | str s =>
    cases h
    exact readsAs_str s
  | int n =>
    rw [renderScalar?] at h
    split at h
    · next hn =>
      cases h
      exact readsAs_int (by simpa using hn)
    · cases h
  | bool b =>
    cases h
    exact readsAs_bool b
  | _ => cases h

/-! ## Arrays -/

/-- The lines of the items of an array, from the end of the line before on. -/
def itemLines (texts : List String) : List Char :=
  texts.flatMap fun text => '\n' :: ' ' :: ' ' :: ' ' :: ' ' :: (text.toList ++ [','])

theorem skipSpace_line {cs : List Char} (h : BeginsValue c) (rest : List Char)
    (hcs : cs = '\n' :: ' ' :: ' ' :: ' ' :: ' ' :: c :: rest) :
    skipSpace (cs.length + 1) cs = some (c :: rest) := by
  have hblanks : skipBlanks (' ' :: ' ' :: ' ' :: ' ' :: c :: rest) = skipBlanks (c :: rest) := rfl
  have hline : skipSpace (cs.length + 1) cs =
      skipSpace (rest.length + 6) (' ' :: ' ' :: ' ' :: ' ' :: c :: rest) := by
    rw [hcs]
    rfl
  have hvalue := h.skipSpace (rest.length + 5) rest
  rw [skipSpace] at hvalue
  rw [hline, skipSpace, hblanks, hvalue]

/-- The item that is next, and what its end says about further ones. -/
theorem readItems_item {cs tail : List Char} {fuel : Nat} (hbegins : BeginsValue c)
    (hskip : skipSpace (cs.length + 1) cs = some (c :: tail))
    (hread : readValue fuel (c :: tail) = some (v, rest)) (acc : List Toml) :
    readItems (fuel + 1) cs acc =
      (skipSpace (rest.length + 1) rest).bind fun
        | ',' :: rest => readItems fuel rest (v :: acc)
        | ']' :: rest => some (.arr (v :: acc).reverse, rest)
        | _ => none := by
  have hc : c ≠ ']' := by
    rintro rfl
    exact hbegins.signs (by decide)
  rw [readItems, hskip]
  dsimp only [bind, Option.bind_some]
  split
  · next heq => exact absurd (List.cons.inj heq).1 hc
  · rw [hread]
    rfl

/-- Items on lines of their own, up to the bracket on the last line. -/
theorem readItems_lines {items : List Toml} {texts : List String}
    (h : List.Forall₂ (fun v (t : String) => ReadsAs t.toList v) items texts) (acc : List Toml)
    (rest : List Char) (fuel : Nat) (hfuel : (itemLines texts).length + 2 ≤ fuel) :
    readItems fuel (itemLines texts ++ '\n' :: ']' :: rest) acc =
      some (.arr (acc.reverse ++ items), rest) := by
  induction h generalizing acc fuel with
  | nil =>
    obtain ⟨fuel, rfl⟩ := Nat.exists_eq_succ_of_ne_zero (Nat.ne_zero_of_lt hfuel)
    rw [List.append_nil]
    rfl
  | @cons v t items texts ht _ ih =>
    obtain ⟨fuel, rfl⟩ := Nat.exists_eq_succ_of_ne_zero (Nat.ne_zero_of_lt hfuel)
    have hlength : (itemLines (t :: texts)).length =
        t.toList.length + 6 + (itemLines texts).length := by
      simp only [itemLines, List.flatMap_cons, List.length_append, List.length_cons, List.length_nil]
    obtain ⟨c, tail, hcons, hbegins⟩ := ht.begins
    have hread := ht.reads fuel (',' :: (itemLines texts ++ '\n' :: ']' :: rest)) (by omega)
      (.comma _)
    have hline : itemLines (t :: texts) ++ '\n' :: ']' :: rest = '\n' :: ' ' :: ' ' :: ' ' :: ' ' ::
        (t.toList ++ ',' :: (itemLines texts ++ '\n' :: ']' :: rest)) := by
      simp [itemLines, List.append_assoc]
    rw [hcons, List.cons_append] at hread hline
    have hrest := ih (v :: acc) fuel (by omega)
    rw [List.reverse_cons, List.append_assoc] at hrest
    rw [readItems_item hbegins (skipSpace_line hbegins _ hline) hread]
    exact hrest

/-- The lines of an array as they are written end where those that are read begin. -/
theorem toList_lines (texts : List String) :
    '\n' :: (String.join (texts.map fun t => "    " ++ t ++ ",\n")).toList =
      itemLines texts ++ ['\n'] := by
  induction texts with
  | nil => rfl
  | cons t texts ih =>
    rw [List.map_cons, String.join_cons, String.toList_append, itemLines, List.flatMap_cons,
      List.append_assoc]
    rw [itemLines] at ih
    rw [← ih]
    simp [String.toList_append]

theorem forall₂_of_mapM {items : List Toml} {texts : List String}
    (h : items.mapM renderScalar? = some texts) :
    List.Forall₂ (fun v (t : String) => ReadsAs t.toList v) items texts := by
  induction items generalizing texts with
  | nil =>
    cases h
    exact .nil
  | cons v items ih =>
    rw [List.mapM_cons] at h
    obtain ⟨t, ht, h⟩ := Option.bind_eq_some_iff.mp h
    obtain ⟨texts, htexts, h⟩ := Option.bind_eq_some_iff.mp h
    cases h
    exact .cons (readsAs_renderScalar ht) (ih htexts)

theorem beginsValue_bracket : BeginsValue '[' := ⟨rfl, by decide⟩

/-- An array without items. -/
theorem readsAs_empty : ReadsAs ['[', ']'] (.arr []) := by
  refine ⟨⟨'[', [']'], rfl, beginsValue_bracket⟩, fun fuel rest hfuel _ => ?_⟩
  have hshort : 2 < fuel := hfuel
  obtain ⟨fuel, rfl⟩ := Nat.exists_eq_add_of_le hshort
  rw [Nat.add_comm]
  rfl

/-- An array with one item is on one line. -/
theorem readsAs_single {t : List Char} (ht : ReadsAs t v) :
    ReadsAs ('[' :: (t ++ [']'])) (.arr [v]) := by
  refine ⟨⟨'[', _, rfl, beginsValue_bracket⟩, fun fuel rest hfuel _ => ?_⟩
  rw [List.length_cons, List.length_append, List.length_singleton] at hfuel
  obtain ⟨fuel, rfl⟩ := Nat.exists_eq_add_of_le' hfuel
  obtain ⟨c, tail, hcons, hitem⟩ := ht.begins
  have hread := ht.reads (t.length + 1 + fuel) (']' :: rest) (by omega) (.bracket rest)
  have hfuel : fuel + (t.length + 1 + 1).succ = t.length + 1 + fuel + 1 + 1 := by omega
  rw [hfuel, List.cons_append, List.append_assoc, List.singleton_append, readValue]
  rw [hcons, List.cons_append] at hread ⊢
  rw [readItems_item hitem (hitem.skipSpace _ _) hread]
  rfl

/-- An array with more items has each of them on a line. -/
theorem readsAs_lines {items : List Toml} {texts : List String}
    (hitems : List.Forall₂ (fun v (t : String) => ReadsAs t.toList v) items texts) :
    ReadsAs ('[' :: (itemLines texts ++ ['\n', ']'])) (.arr items) := by
  refine ⟨⟨'[', _, rfl, beginsValue_bracket⟩, fun fuel rest hfuel _ => ?_⟩
  rw [List.length_cons, List.length_append] at hfuel
  obtain ⟨fuel, rfl⟩ := Nat.exists_eq_add_of_le' hfuel
  rw [List.cons_append, List.append_assoc, Nat.add_succ, readValue]
  exact readItems_lines hitems [] rest (fuel + ((itemLines texts).length + 2 + 1)) (by omega)

theorem readsAs_renderValue (h : renderValue? v = some text) : ReadsAs text.toList v := by
  cases v with
  | arr items =>
    obtain ⟨texts, htexts, h⟩ := Option.bind_eq_some_iff.mp h
    have hitems := forall₂_of_mapM htexts
    split at h
    · cases h
      cases hitems
      exact readsAs_empty
    · next t =>
      cases h
      cases hitems with
      | @cons v _ items _ ht hnil =>
      cases hnil
      have htext : ("[" ++ t ++ "]").toList = '[' :: (t.toList ++ [']']) := by
        simp [String.toList_append]
      rw [htext]
      exact readsAs_single ht
    · cases h
      have htext : ("[\n" ++ String.join (texts.map fun t => "    " ++ t ++ ",\n") ++ "]").toList =
          '[' :: (itemLines texts ++ ['\n', ']']) := by
        have hlines := toList_lines texts
        rw [String.toList_append, String.toList_append]
        change '[' :: ('\n' :: (String.join _).toList ++ [']']) = _
        rw [hlines, List.append_assoc]
        rfl
      rw [htext]
      exact readsAs_lines hitems
  | str s => exact readsAs_renderScalar h
  | int n => exact readsAs_renderScalar h
  | bool b => exact readsAs_renderScalar h
  | _ => cases h

end CodeAtlas.Toml
