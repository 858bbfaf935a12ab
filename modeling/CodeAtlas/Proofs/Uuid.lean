import CodeAtlas.Uuid
/-!
# Identifiers are told by their texts

Results:
1. `parse?_render`: the text of an identifier reads back as the identifier.
2. `render_inj`: different identifiers have different texts.
3. `ofNat_inj`: numbers below `2 ^ 128` make different identifiers.
-/

namespace CodeAtlas.Uuid

/-- The number of identifiers there are. -/
def supply : Nat := Nat.pow 2 128

/-! ## Digits -/

theorem hexValue?_digitChar {d : Nat} (h : d < 16) : Json.hexValue? (Nat.digitChar d) = some d := by
  have all : ∀ d : Fin 16, Json.hexValue? (Nat.digitChar d) = some d.val := by decide
  exact all ⟨d, h⟩

/-- What cannot be the first character of the digits of an identifier. -/
theorem digitChar_ne {d : Nat} (h : d < 16) :
    Nat.digitChar d ≠ 'u' ∧ Nat.digitChar d ≠ '\x7b' := by
  have all : ∀ d : Fin 16, Nat.digitChar d ≠ 'u' ∧ Nat.digitChar d ≠ '\x7b' := by decide
  exact all ⟨d, h⟩

@[simp] theorem length_hexDigits (k n : Nat) : (hexDigits k n).length = k := by
  induction k generalizing n with
  | zero => rfl
  | succ k ih => simp [hexDigits, ih]

theorem mem_hexDigits {c : Char} {k n : Nat} (h : c ∈ hexDigits k n) :
    ∃ d < 16, c = Nat.digitChar d := by
  induction k generalizing n with
  | zero => cases h
  | succ k ih =>
    rcases List.mem_append.mp h with h | h
    · exact ih h
    · exact ⟨n % 16, Nat.mod_lt _ (by decide), by simpa using h⟩

/-- Reading digits gives the number back, as far as there are digits. -/
theorem hexDigits_values (k n : Nat) : ∃ values, (hexDigits k n).mapM Json.hexValue? = some values ∧
    ∀ acc, values.foldl (fun n d => n * 16 + d) acc = acc * Nat.pow 16 k + n % Nat.pow 16 k := by
  induction k generalizing n with
  | zero => exact ⟨[], rfl, fun acc => by simp [Nat.mod_one]⟩
  | succ k ih =>
    obtain ⟨values, hvalues, hfold⟩ := ih (n / 16)
    refine ⟨values ++ [n % 16], ?_, fun acc => ?_⟩
    · have hlast := hexValue?_digitChar (Nat.mod_lt n (by decide : 0 < 16))
      rw [hexDigits, List.mapM_append, hvalues]
      simp [hlast]
    · have hpow : Nat.pow 16 (k + 1) = 16 * Nat.pow 16 k := Nat.mul_comm _ _
      rw [List.foldl_append, hfold, List.foldl_cons, List.foldl_nil, hpow, Nat.mod_mul,
        Nat.add_mul, Nat.mul_assoc, Nat.mul_comm (Nat.pow 16 k) 16]
      generalize Nat.pow 16 k = places
      omega

theorem ofDigits?_digits (u : Uuid) : ofDigits? u.digits = some u := by
  obtain ⟨values, hvalues, hfold⟩ := hexDigits_values 32 u.number.toNat
  have hlength : (u.digits.length != 32) = false := by simp [digits]
  rw [ofDigits?, hlength, digits, hvalues]
  have hnumber : values.foldl (fun n d => n * 16 + d) 0 = u.number.toNat := by
    rw [hfold 0, Nat.zero_mul, Nat.zero_add]
    exact Nat.mod_eq_of_lt u.number.isLt
  simp [hnumber, ofNat]

/-! ## Groups -/

/-- Taking the groups out of a text and joining them undoes the grouping. -/
theorem ofGroups?_of_length {ds : List Char} (h : ds.length = 32) :
    ofGroups? (ds.take 8 ++ '-' :: (ds.drop 8).take 4 ++ '-' :: (ds.drop 12).take 4 ++
      '-' :: (ds.drop 16).take 4 ++ '-' :: ds.drop 20) = ofDigits? ds := by
  match ds, h with
  | [a0, a1, a2, a3, a4, a5, a6, a7, b0, b1, b2, b3, c0, c1, c2, c3, d0, d1, d2, d3,
      e0, e1, e2, e3, e4, e5, e6, e7, e8, e9, e10, e11], _ => simp [ofGroups?]

theorem toList_render (u : Uuid) : u.render.toList =
    u.digits.take 8 ++ '-' :: (u.digits.drop 8).take 4 ++ '-' :: (u.digits.drop 12).take 4 ++
      '-' :: (u.digits.drop 16).take 4 ++ '-' :: u.digits.drop 20 := by
  rw [render, String.toList_ofList]

/-- The text of an identifier reads back as the identifier. -/
theorem parse?_render (u : Uuid) : parse? u.render = some u := by
  have hlength : u.digits.length = 32 := length_hexDigits 32 _
  obtain ⟨c, rest, hdigits⟩ : ∃ c rest, u.digits = c :: rest := by
    cases hd : u.digits with
    | nil => rw [hd] at hlength; cases hlength
    | cons c rest => exact ⟨c, rest, rfl⟩
  obtain ⟨d, hd, hc⟩ : ∃ d < 16, c = Nat.digitChar d :=
    mem_hexDigits (k := 32) (n := u.number.toNat) (by
      show c ∈ u.digits
      exact hdigits ▸ List.mem_cons_self)
  obtain ⟨hu, hbrace⟩ := digitChar_ne hd
  have hlist : ∃ tail, u.render.toList = c :: tail := by
    rw [toList_render, hdigits]
    exact ⟨_, rfl⟩
  obtain ⟨tail, htail⟩ := hlist
  -- of the forms of an id only that with hyphens fits
  have hlong : (u.render.toList.length == 32) = false := by
    rw [toList_render]
    simp [hlength]
  have hurn : Text.afterStart? "urn:uuid:" u.render = none := by
    rw [Text.afterStart?, htail]
    have : ('u' == c) = false := by simp [hc, Ne.symm hu]
    simp [List.isPrefixOf, this]
  have hgroups : ofGroups? u.render.toList = some u := by
    rw [toList_render, ofGroups?_of_length hlength, ofDigits?_digits]
  rw [parse?]
  simp only [hlong, hurn, Bool.false_eq_true, if_false]
  rw [htail] at hgroups ⊢
  split
  · next heq =>
    cases heq
    exact absurd hc.symm hbrace
  · exact hgroups

/-- Different identifiers have different texts. -/
theorem render_inj {u v : Uuid} : u.render = v.render ↔ u = v := by
  refine ⟨fun h => ?_, fun h => h ▸ rfl⟩
  have : some u = some v := by rw [← parse?_render u, h, parse?_render v]
  exact Option.some.inj this

/-- Numbers below the supply make different identifiers. -/
theorem ofNat_inj {m n : Nat} (hm : m < supply) (hn : n < supply) :
    ofNat m = ofNat n ↔ m = n := by
  refine ⟨fun h => ?_, fun h => h ▸ rfl⟩
  have hnumber := congrArg (fun u : Uuid => u.number.toNat) h
  simp only [ofNat, BitVec.toNat_ofNat] at hnumber
  exact (Nat.mod_eq_of_lt hm).symm.trans (hnumber.trans (Nat.mod_eq_of_lt hn))

end CodeAtlas.Uuid
