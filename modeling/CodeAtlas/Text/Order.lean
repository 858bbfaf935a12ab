/-!
The order of texts. UTF-8 keeps it, so it can be told from the bytes of the texts, which are at hand,
without their characters.
-/

namespace CodeAtlas.Text

/-- The bytes of a text in UTF-8. -/
def bytes (s : String) : List UInt8 := s.toByteArray.data.toList

/-- Whether bytes come before others: the first byte in which they differ decides. -/
def comesBefore : List UInt8 → List UInt8 → Bool
  | _, [] => false
  | [], _ :: _ => true
  | a :: as, b :: bs =>
    match a.toNat.blt b.toNat, a.toNat.beq b.toNat with
    | true, _ => true
    | false, true => comesBefore as bs
    | false, false => false

theorem bytes_eq (s : String) : bytes s = s.toList.flatMap String.utf8EncodeChar := by
  rw [bytes, ← String.utf8Encode_toList, List.utf8Encode, List.toList_data_toByteArray]

theorem comesBefore_cons {a b : UInt8} {as bs : List UInt8} :
    comesBefore (a :: as) (b :: bs) = true ↔
      a.toNat < b.toNat ∨ a.toNat = b.toNat ∧ comesBefore as bs = true := by
  rw [comesBefore]
  cases hlt : a.toNat.blt b.toNat
  · have hle : ¬ a.toNat < b.toNat := by
      rw [← Nat.blt_eq, hlt]
      exact Bool.false_ne_true
    cases heq : a.toNat.beq b.toNat
    · have hne : a.toNat ≠ b.toNat := Nat.ne_of_beq_eq_false heq
      simp [hle, hne]
    · have heq' : a.toNat = b.toNat := Nat.eq_of_beq_eq_true heq
      simp [heq']
  · have hlt' : a.toNat < b.toNat := by rwa [← Nat.blt_eq]
    simp [hlt']

theorem comesBefore_append (ps as bs : List UInt8) :
    comesBefore (ps ++ as) (ps ++ bs) = comesBefore as bs := by
  induction ps with
  | nil => rfl
  | cons p ps ih =>
    rw [Bool.eq_iff_iff, List.cons_append, List.cons_append, comesBefore_cons, ih]
    simp

theorem not_comesBefore {as bs : List UInt8} (h : comesBefore as bs = true) :
    comesBefore bs as = false := by
  induction as generalizing bs with
  | nil => cases bs <;> rfl
  | cons a as ih =>
    cases bs with
    | nil => cases h
    | cons b bs =>
      rw [← Bool.not_eq_true, comesBefore_cons]
      rcases comesBefore_cons.mp h with hlt | ⟨heq, h⟩
      · omega
      · rw [ih h]
        simp [heq]

/-- Of characters with four bytes the smaller one comes first. -/
theorem comesBefore_encode_of_long {c d : Char} (h : c < d) (hlong : 0xffff < c.val.toNat)
    (as bs : List UInt8) :
    comesBefore (String.utf8EncodeChar c ++ as) (String.utf8EncodeChar d ++ bs) = true := by
  have hlt : c.val.toNat < d.val.toNat := h
  have hd : d.val.toNat < 0x110000 := by
    have := d.valid
    simp only [UInt32.isValidChar, Nat.isValidChar] at this
    omega
  have hdigits : ∀ n : Nat, n / 64 / 64 = n / 4096 ∧ n / 4096 / 64 = n / 262144 := fun n =>
    ⟨Nat.div_div_eq_div_mul n 64 64, Nat.div_div_eq_div_mul n 4096 64⟩
  obtain ⟨hc₁, hc₂⟩ := hdigits c.val.toNat
  obtain ⟨hd₁, hd₂⟩ := hdigits d.val.toNat
  unfold String.utf8EncodeChar
  dsimp only
  rw [if_neg (by omega), if_neg (by omega), if_neg (by omega), if_neg (by omega),
    if_neg (by omega), if_neg (by omega)]
  simp only [List.cons_append, List.nil_append, comesBefore_cons, UInt8.toNat_ofNat']
  by_cases hfirst : c.val.toNat / 262144 = d.val.toNat / 262144
  · refine .inr ⟨by rw [hfirst], ?_⟩
    by_cases hsecond : c.val.toNat / 4096 = d.val.toNat / 4096
    · refine .inr ⟨by rw [hsecond], ?_⟩
      by_cases hthird : c.val.toNat / 64 = d.val.toNat / 64
      · exact .inr ⟨by rw [hthird], .inl (by omega)⟩
      · exact .inl (by omega)
    · exact .inl (by omega)
  · exact .inl (by omega)

/-- The encoding of a smaller character comes before that of a larger one, whatever follows. -/
theorem comesBefore_encode {c d : Char} (h : c < d) (as bs : List UInt8) :
    comesBefore (String.utf8EncodeChar c ++ as) (String.utf8EncodeChar d ++ bs) = true := by
  by_cases hlong : 0xffff < c.val.toNat
  · exact comesBefore_encode_of_long h hlong as bs
  · have hlt : c.val.toNat < d.val.toNat := h
    have hd : d.val.toNat < 0x110000 := by
      have := d.valid
      simp only [UInt32.isValidChar, Nat.isValidChar] at this
      omega
    unfold String.utf8EncodeChar
    dsimp only
    repeat' split
    all_goals
      simp only [List.cons_append, List.nil_append, comesBefore_cons, UInt8.toNat_ofNat']
      omega

/-- UTF-8 keeps the order of texts. -/
theorem comesBefore_bytes_iff (s t : String) :
    comesBefore (bytes s) (bytes t) = true ↔ s < t := by
  have go : ∀ cs ds : List Char, comesBefore (cs.flatMap String.utf8EncodeChar)
      (ds.flatMap String.utf8EncodeChar) = true ↔ cs < ds := by
    intro cs
    induction cs with
    | nil =>
      intro ds
      cases ds with
      | nil => simp [comesBefore]
      | cons d ds =>
        rw [List.flatMap_cons]
        obtain ⟨a, as, hd⟩ := List.exists_cons_of_ne_nil (String.utf8EncodeChar_ne_nil (c := d))
        rw [hd]
        simp [comesBefore]
    | cons c cs ih =>
      intro ds
      cases ds with
      | nil => exact iff_of_false (by simp [comesBefore]) (List.not_lt_nil _)
      | cons d ds =>
        rw [List.flatMap_cons, List.flatMap_cons, List.cons_lt_cons_iff]
        -- the first bytes of different characters are ordered as the characters are
        rcases Nat.lt_trichotomy c.val.toNat d.val.toNat with hlt | heq | hgt
        · exact iff_of_true (comesBefore_encode hlt _ _) (.inl hlt)
        · obtain rfl : c = d := Char.ext (UInt32.toNat_inj.mp heq)
          rw [comesBefore_append, ih]
          simp
        · have hnot := not_comesBefore (comesBefore_encode hgt (ds.flatMap String.utf8EncodeChar)
            (cs.flatMap String.utf8EncodeChar))
          refine iff_of_false (by simp [hnot]) ?_
          rintro (hlt | ⟨rfl, _⟩)
          · exact Nat.lt_asymm hgt hlt
          · exact Nat.lt_irrefl _ hgt
  rw [bytes_eq, bytes_eq]
  exact go s.toList t.toList

/-- The order of texts, told from their bytes. -/
scoped instance (priority := high) decidableLt (s t : String) : Decidable (s < t) :=
  decidable_of_iff _ (comesBefore_bytes_iff s t)

end CodeAtlas.Text
