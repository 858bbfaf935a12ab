import CodeAtlas.Proofs.Lines
import CodeAtlas.Proofs.Orderly
/-!
# Sources that are not UTF-8

Bytes that are not UTF-8 are read as Latin-1, one character a byte. What is found in them is what is
found in the same text in UTF-8, although the bytes differ, and a zero among the first of them can
only come from one that was at least as near to the beginning.

Results:
1. `zero_mem_take_of_encodeChars`: in UTF-8 no zero comes nearer to the beginning than its character.
2. `isBinary_encode`: a text is binary in UTF-8 only if a zero is among its first characters.
3. `ofBytes_of_decode`: what is told of bytes depends on their text, but for hash and size.
4. `ofBytes_ofLatin1`: so bytes in Latin-1 and the same text in UTF-8 tell the same.
-/

namespace CodeAtlas

/-! ## Zeros -/

namespace Text

theorem encodeChar_ne_nil (c : Char) : String.utf8EncodeChar c ≠ [] := by
  rw [String.utf8EncodeChar]
  split
  · exact List.cons_ne_nil _ _
  · split
    · exact List.cons_ne_nil _ _
    · split <;> exact List.cons_ne_nil _ _

/-- A zero among the first bytes of a text stands for a character that is as near to its
beginning. -/
theorem zero_mem_take_of_encodeChars {cs : List Char} {n : Nat}
    (h : (0 : UInt8) ∈ (encodeChars cs).take n) : '\x00' ∈ cs.take n := by
  induction cs generalizing n with
  | nil => simp [encodeChars] at h
  | cons c rest ih =>
    cases n with
    | zero => simp at h
    | succ n =>
      have hsplit : encodeChars (c :: rest) = String.utf8EncodeChar c ++ encodeChars rest :=
        List.flatMap_cons
      rw [hsplit, List.take_append, List.mem_append] at h
      rw [List.take_succ_cons, List.mem_cons]
      rcases h with hhere | hthere
      · obtain ⟨_, hcode⟩ := encodeChar_of_mem (List.mem_of_mem_take hhere) (by decide)
        exact .inl (Char.toNat_inj.mp hcode).symm
      · have hpositive := List.length_pos_of_ne_nil (encodeChar_ne_nil c)
        exact .inr (ih (List.take_subset_take_left _ (by omega) hthere))

theorem toList_ofLatin1 (bytes : ByteArray) :
    (ofLatin1 bytes).toList = bytes.toList.map fun b => Char.ofNat b.toNat := String.toList_ofList

theorem toNat_ofLatin1 (b : UInt8) : (Char.ofNat b.toNat).toNat = b.toNat := by
  have hbound := b.toNat_lt
  have hvalid : b.toNat.isValidChar := .inl (by omega)
  rw [Char.ofNat, dif_pos hvalid]
  rfl

theorem ofUtf8?_encode (s : String) : ofUtf8? (encode s) = some s := by
  have h := ofUtf8?_encodeChars s.toList
  rwa [byteArray_encodeChars, String.ofList_toList] at h

theorem decode_encode (s : String) : decode (encode s) = s := by
  rw [decode, ofUtf8?_encode, Option.getD_some]

theorem decode_of_not_utf8 {bytes : ByteArray} (h : ofUtf8? bytes = none) :
    decode bytes = ofLatin1 bytes := by
  rw [decode, h, Option.getD_none]

end Text

namespace SourceFile

theorem isBinary_iff (bytes : ByteArray) :
    isBinary bytes = true ↔ (0 : UInt8) ∈ bytes.toList.take 8192 := by
  have hfirst : (bytes.extract 0 8192).toList = bytes.toList.take 8192 := by
    rw [Text.byteArray_toList, Text.byteArray_toList]
    simp
  rw [isBinary, hfirst, List.any_eq_true]
  constructor
  · rintro ⟨b, hb, hzero⟩
    exact beq_iff_eq.mp hzero ▸ hb
  · exact fun h => ⟨0, h, rfl⟩

/-- A text in UTF-8 is binary only if a zero is among its first characters. -/
theorem isBinary_encode {s : String} (h : isBinary (Text.encode s) = true) :
    '\x00' ∈ s.toList.take 8192 := by
  rw [isBinary_iff, Text.encode, Text.toList_toUTF8] at h
  exact Text.zero_mem_take_of_encodeChars h

/-- What is put into another encoding does not become binary. -/
theorem isBinary_encode_ofLatin1 {bytes : ByteArray} (h : isBinary bytes = false) :
    isBinary (Text.encode (Text.ofLatin1 bytes)) = false := by
  refine Bool.eq_false_iff.mpr fun hbinary => ?_
  have hzero := isBinary_encode hbinary
  rw [Text.toList_ofLatin1, ← List.map_take] at hzero
  obtain ⟨b, hb, hcode⟩ := List.mem_map.mp hzero
  have hb0 : b = 0 := by
    have h := congrArg Char.toNat hcode
    rw [Text.toNat_ofLatin1] at h
    exact UInt8.toNat_inj.mp h
  exact absurd ((isBinary_iff bytes).mpr (hb0 ▸ hb)) (by rw [h]; decide)

/-! ## What is told of bytes -/

@[simp] theorem size_ofBytes (language : Language) (path : String) (bytes : ByteArray)
    (modified : Timestamp) : (ofBytes language path bytes modified).size = bytes.size := by
  unfold ofBytes
  split
  · rfl
  · dsimp only
    split <;> rfl

/-- Of bytes that are not binary only the hash and the size are told besides what their text
tells. -/
theorem ofBytes_of_decode {a b : ByteArray} (ha : isBinary a = false) (hb : isBinary b = false)
    (htext : Text.decode a = Text.decode b) (language : Language) (path : String)
    (modified : Timestamp) : ofBytes language path b modified =
      { ofBytes language path a modified with hash := Sha256.digest b, size := b.size } := by
  unfold ofBytes
  rw [if_neg (Bool.eq_false_iff.mp hb), if_neg (Bool.eq_false_iff.mp ha), htext]
  dsimp only
  split <;> rfl

/-- Bytes that are neither UTF-8 nor binary tell the same as their text does in UTF-8, which is
not binary either: only the hash and the size are those of the bytes themselves. -/
theorem ofBytes_ofLatin1 (language : Language) (path : String) (modified : Timestamp)
    {bytes : ByteArray} (hbytes : Text.ofUtf8? bytes = none) (hbinary : isBinary bytes = false) :
    let utf8 := Text.encode (Text.ofLatin1 bytes)
    let file := ofBytes language path bytes modified
    Text.ofUtf8? utf8 = some (Text.ofLatin1 bytes) ∧ isBinary utf8 = false ∧
      file.hash = Sha256.digest bytes ∧ file.size = bytes.size ∧
      ofBytes language path utf8 modified =
        { file with hash := Sha256.digest utf8, size := utf8.size } := by
  intro utf8 file
  have hnot : isBinary utf8 = false := isBinary_encode_ofLatin1 hbinary
  have htext : Text.decode bytes = Text.decode utf8 := by
    rw [Text.decode_of_not_utf8 hbytes, Text.decode_encode]
  exact ⟨Text.ofUtf8?_encode _, hnot, hash_ofBytes _ _ _ _, size_ofBytes _ _ _ _,
    ofBytes_of_decode hbinary hnot htext language path modified⟩

/-- A function whose name ends with a letter that is one byte in Latin-1 and two in UTF-8. -/
def accentedName : ByteArray :=
  ⟨#[0x64, 0x65, 0x66, 0x20, 0x63, 0x61, 0x66, 0xe9, 0x28, 0x29, 0x3a, 0x20, 0x30, 0x0a]⟩

theorem ofBytes_ofLatin1_accentedName :
    let utf8 := Text.encode (Text.ofLatin1 accentedName)
    let file := ofBytes .python "a.py" accentedName ⟨0, 0⟩
    Text.ofUtf8? accentedName = none ∧ isBinary accentedName = false ∧
      Text.ofUtf8? utf8 = some (Text.ofLatin1 accentedName) ∧ isBinary utf8 = false ∧
      file.hash = Sha256.digest accentedName ∧ file.size = accentedName.size ∧
      ofBytes .python "a.py" utf8 ⟨0, 0⟩ =
        { file with hash := Sha256.digest utf8, size := utf8.size } := by
  intro utf8 file
  have hbytes : Text.ofUtf8? accentedName = none := by decide +kernel
  have hbinary : isBinary accentedName = false := by decide +kernel
  exact ⟨hbytes, hbinary, ofBytes_ofLatin1 .python "a.py" ⟨0, 0⟩ hbytes hbinary⟩

end SourceFile

end CodeAtlas
