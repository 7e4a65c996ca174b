import FleetControl.Proofs.Text.Hex
import FleetControl.Text.Percent
import Mathlib.Tactic.SplitIfs

/-!
# Percent-encoded texts are read back

What is written for a text is read as the bytes of its UTF-8 form (`Text.Percent.bytes_encode`), and
these are the text again (`Text.Percent.decode_encode`). Nothing that is written ends a segment or
the path of an address (`Text.Percent.isPlain_of_mem_encode`).
-/

namespace FleetControl.Text.Percent

theorem bytes_encodeByte (b : UInt8) (rest : List Char) :
    bytes (encodeByte b ++ rest) = b :: bytes rest := by
  have hnumber : hexNumber? [upperHexDigit (b.toNat / 16), upperHexDigit (b.toNat % 16)] =
      some b.toNat := hexNumber?_twoDigits b.toNat_lt
  simp only [encodeByte, List.cons_append, List.nil_append, bytes, hnumber, Nat.toUInt8_eq,
    UInt8.ofNat_toNat]

theorem bytes_flatMap_encodeByte (bs : List UInt8) (rest : List Char) :
    bytes (bs.flatMap encodeByte ++ rest) = bs ++ bytes rest := by
  induction bs with
  | nil => rfl
  | cons b bs ih =>
    rw [List.flatMap_cons, List.append_assoc, bytes_encodeByte, ih, List.cons_append]

theorem bytes_cons {c : Char} (h : c ≠ '%') (rest : List Char) :
    bytes (c :: rest) = String.utf8EncodeChar c ++ bytes rest := by
  rw [bytes.eq_def]
  split
  · next heq => exact absurd (List.cons.inj heq).1 h
  · next heq =>
    obtain ⟨rfl, rfl⟩ := List.cons.inj heq
    rfl
  · next heq => cases heq

theorem bytes_encodeChar (c : Char) (rest : List Char) :
    bytes (encodeChar c ++ rest) = String.utf8EncodeChar c ++ bytes rest := by
  unfold encodeChar
  split_ifs with h
  · refine bytes_cons ?_ rest
    rintro rfl
    exact absurd h (by decide)
  · exact bytes_flatMap_encodeByte _ rest

theorem bytes_encode (s : String) : bytes (encode s) = s.toList.flatMap String.utf8EncodeChar := by
  unfold encode
  induction s.toList with
  | nil => rfl
  | cons c cs ih => rw [List.flatMap_cons, bytes_encodeChar, ih, List.flatMap_cons]

/-- A text is read back from its percent-encoding. -/
theorem decode_encode (s : String) : decode (encode s) = some s := by
  have hdecode : (s.toList.flatMap String.utf8EncodeChar).toByteArray.utf8Decode? =
      some s.toList.toArray := List.utf8Decode?_utf8Encode
  rw [decode, bytes_encode, hdecode, Option.map_some, List.toList_toArray, String.ofList_toList]

/-- A character that ends neither a segment nor the path of an address. -/
def isPlain (c : Char) : Bool := c != '/' && c != '?' && c != '#'

theorem isPlain_upperHexDigit : ∀ n < 16, isPlain (upperHexDigit n) := by decide

theorem isPlain_of_mem_encode {s : String} {c : Char} (h : c ∈ encode s) : isPlain c := by
  obtain ⟨d, -, hc⟩ := List.mem_flatMap.1 h
  unfold encodeChar at hc
  split_ifs at hc with hd
  · rw [List.mem_singleton.1 hc, isPlain, Bool.and_eq_true, Bool.and_eq_true, bne_iff_ne,
      bne_iff_ne, bne_iff_ne]
    refine ⟨⟨?_, ?_⟩, ?_⟩ <;> rintro rfl <;> exact absurd hd (by decide)
  · obtain ⟨b, -, hc⟩ := List.mem_flatMap.1 hc
    have hhigh : b.toNat / 16 < 16 := Nat.div_lt_of_lt_mul b.toNat_lt
    have hlow : b.toNat % 16 < 16 := Nat.mod_lt _ (by decide)
    simp only [encodeByte, List.mem_cons, List.not_mem_nil, or_false] at hc
    rcases hc with rfl | rfl | rfl
    · rfl
    · exact isPlain_upperHexDigit _ hhigh
    · exact isPlain_upperHexDigit _ hlow

theorem encode_ne_nil {s : String} (h : s ≠ "") : encode s ≠ [] := by
  intro hnil
  -- nothing is read back as the empty text
  have hread := decode_encode s
  rw [hnil, show ([] : List Char) = encode "" from rfl, decode_encode] at hread
  exact h (Option.some.inj hread).symm

end FleetControl.Text.Percent
