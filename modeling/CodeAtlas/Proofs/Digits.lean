import CodeAtlas.Json.Reader
import Mathlib.Data.List.Basic
/-!
# Digits of numbers

The digits of a number are decimal ones, the first of them is no zero unless the number is zero, and
their value is the number.

Results:
1. `Json.hexValue?_of_isDigit`: a decimal digit counts in every base from ten on.
2. `Nat.head?_toDigits`: only the digits of zero begin with a zero.
-/

namespace CodeAtlas

theorem Json.hexValue?_of_isDigit {c : Char} (h : c.isDigit = true) :
    hexValue? c = some (c.toNat - 48) := by
  rw [Char.isDigit, Bool.and_eq_true, decide_eq_true_iff, decide_eq_true_iff] at h
  rw [hexValue?, if_pos]
  rw [Bool.and_eq_true, decide_eq_true_iff, decide_eq_true_iff]
  exact h

/-- A digit is worth less than ten. -/
theorem toNat_sub_of_isDigit {c : Char} (h : c.isDigit = true) : c.toNat - 48 < 10 := by
  rw [Char.isDigit, Bool.and_eq_true, decide_eq_true_iff, decide_eq_true_iff] at h
  have hle : c.toNat ≤ 57 := h.2
  omega

theorem isDigit_of_mem_digits {n : Nat} {c : Char} (h : c ∈ Nat.toDigits 10 n) : c.isDigit = true :=
  Nat.isDigit_of_mem_toDigits (by decide) (by decide) h

/-- Only the digits of zero begin with a zero. -/
theorem head?_toDigits (n : Nat) : (Nat.toDigits 10 n).head? = some '0' ↔ n = 0 := by
  induction n using Nat.strongRecOn with
  | _ n ih =>
    by_cases hn : n < 10
    · rw [Nat.toDigits_of_lt_base hn, List.head?_cons, Option.some.injEq, Nat.digitChar_eq_zero]
    · have hle : 10 ≤ n := Nat.le_of_not_lt hn
      rw [Nat.toDigits_of_base_le (by decide) hle, List.head?_append_of_ne_nil _ Nat.toDigits_ne_nil,
        ih (n / 10) (by omega)]
      omega

/-- The digits of a number are a zero alone, or begin with another digit. -/
theorem toDigits_cases (n : Nat) : n = 0 ∧ Nat.toDigits 10 n = ['0'] ∨
    ∃ d ds, Nat.toDigits 10 n = d :: ds ∧ d.isDigit = true ∧ d ≠ '0' ∧
      ∀ c ∈ ds, c.isDigit = true := by
  by_cases hn : n = 0
  · exact .inl ⟨hn, hn ▸ rfl⟩
  · obtain ⟨d, ds, hds⟩ := List.exists_cons_of_ne_nil (Nat.toDigits_ne_nil (b := 10) (n := n))
    have hdigit : ∀ c ∈ d :: ds, c.isDigit = true := fun c hc => isDigit_of_mem_digits (hds ▸ hc)
    refine .inr ⟨d, ds, hds, hdigit d List.mem_cons_self, ?_,
      fun c hc => hdigit c (List.mem_cons_of_mem d hc)⟩
    rintro rfl
    exact hn ((head?_toDigits n).mp (hds ▸ rfl))

end CodeAtlas
