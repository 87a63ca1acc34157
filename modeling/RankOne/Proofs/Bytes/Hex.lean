import Mathlib.Tactic.IntervalCases
import RankOne.Bytes.Hex

/-!
# Hexadecimal text is read back

The digits of a byte are ASCII characters, each of which is one byte of the
text, so the text has two bytes for each byte that is written. A pair of digits
reads as the byte that it was written for.
-/

namespace RankOne.Hex

/-! ## The bytes of a text -/

/-- The bytes of an array are collected from front to back, behind those
collected before. -/
private theorem toList_loop (bytes : ByteArray) (position : Nat)
    (collected : List UInt8) :
    ByteArray.toList.loop bytes position collected =
      collected.reverse ++ bytes.data.toList.drop position := by
  induction position, collected using ByteArray.toList.loop.induct bytes with
  | case1 position collected hInside ih =>
      have hNext : bytes.data.toList.drop position =
          bytes.get! position :: bytes.data.toList.drop (position + 1) := by
        rw [List.drop_eq_getElem_cons (by simpa using hInside)]
        simp [ByteArray.get!, hInside]
      rw [ByteArray.toList.loop, if_pos hInside, ih, hNext]
      simp
  | case2 position collected hOutside =>
      have hNone : bytes.data.toList.drop position = [] :=
        List.drop_of_length_le (by simpa using hOutside)
      rw [ByteArray.toList.loop, if_neg hOutside, hNone, List.append_nil]

private theorem toList_toByteArray (bytes : List UInt8) :
    bytes.toByteArray.toList = bytes := by
  rw [ByteArray.toList, toList_loop, List.toList_data_toByteArray]
  rfl

/-- A text is stored as the bytes of its characters. -/
private theorem bytes_ofList (characters : List Char) :
    (String.ofList characters).toUTF8.toList =
      characters.flatMap String.utf8EncodeChar :=
  toList_toByteArray _

/-! ## Digits -/

/-- A digit is one byte of the text, which has the value that the digit was
written for. -/
private theorem digitValue_digit {value : Nat} (h : value < 16) :
    ∃ byte, String.utf8EncodeChar (digit value) = [byte] ∧
      digitValue? byte = some value.toUInt8 := by
  interval_cases value <;> exact ⟨_, rfl, by decide⟩

/-- The two halves of a byte make it up. -/
private theorem upper_lower (byte : UInt8) :
    (byte.toNat / 16).toUInt8 * 16 + (byte.toNat % 16).toUInt8 = byte := by
  apply UInt8.toNat_inj.mp
  have hByte := byte.toNat_lt
  simp only [UInt8.toNat_add, UInt8.toNat_mul, Nat.toUInt8_eq,
    UInt8.toNat_ofNat', UInt8.reduceToNat]
  omega

/-- The characters of a byte are two bytes of the text, with the values of its
two halves. -/
private theorem exists_digits (byte : UInt8) :
    ∃ high low, (encodeByte byte).flatMap String.utf8EncodeChar = [high, low] ∧
      digitValue? high = some (byte.toNat / 16).toUInt8 ∧
      digitValue? low = some (byte.toNat % 16).toUInt8 := by
  have hByte := byte.toNat_lt
  obtain ⟨high, hHigh, hUpper⟩ :=
    digitValue_digit (show byte.toNat / 16 < 16 by omega)
  obtain ⟨low, hLow, hLower⟩ :=
    digitValue_digit (show byte.toNat % 16 < 16 by omega)
  refine ⟨high, low, ?_, hUpper, hLower⟩
  simp [encodeByte, hHigh, hLow]

/-! ## Texts -/

private theorem length_encode (bytes : List UInt8) :
    ((bytes.flatMap encodeByte).flatMap String.utf8EncodeChar).length =
      2 * bytes.length := by
  induction bytes with
  | nil => rfl
  | cons byte rest ih =>
      obtain ⟨high, low, hPair, -, -⟩ := exists_digits byte
      rw [List.flatMap_cons, List.flatMap_append, hPair, List.length_append, ih,
        List.length_cons]
      simp only [List.length_cons, List.length_nil]
      omega

private theorem decodePairs_encode (bytes : List UInt8) (position : Nat) :
    decodePairs position
      ((bytes.flatMap encodeByte).flatMap String.utf8EncodeChar) =
      .ok bytes := by
  induction bytes generalizing position with
  | nil => rfl
  | cons byte rest ih =>
      obtain ⟨high, low, hPair, hUpper, hLower⟩ := exists_digits byte
      rw [List.flatMap_cons, List.flatMap_append, hPair, List.cons_append,
        List.cons_append, List.nil_append, decodePairs]
      simp only [hUpper, hLower, ih, upper_lower]

/-- Bytes are read back from their text. -/
theorem decode_encode (bytes : List UInt8) :
    decode (encode bytes) = .ok bytes := by
  have hEven :
      ¬ ((bytes.flatMap encodeByte).flatMap String.utf8EncodeChar).length % 2 =
        1 := by
    rw [length_encode]
    omega
  rw [decode, encode, bytes_ofList, decodeBytes, if_neg hEven,
    decodePairs_encode]

end RankOne.Hex
