import Mathlib.Data.List.Basic

/-!
# Percent-encoding

Bytes in the characters of a URL. A byte that need not be escaped stands for itself; every other one
becomes a percent sign with two hexadecimal digits. Decoding is the inverse, and leaves a percent
sign alone that no two digits follow.
-/
namespace DewDB.PercentCoding

def hexDigit (n : ℕ) : Char := Char.ofNat (if n < 10 then 0x30 + n else 0x37 + n)

def hexValue (c : Char) : Option ℕ :=
  let n := c.toNat
  if 0x30 ≤ n ∧ n ≤ 0x39 then some (n - 0x30)
  else if 0x41 ≤ n ∧ n ≤ 0x46 then some (n - 0x37)
  else if 0x61 ≤ n ∧ n ≤ 0x66 then some (n - 0x57)
  else none

def escapeByte (keep : UInt8 → Bool) (b : UInt8) : List Char :=
  if keep b then [Char.ofNat b.toNat] else ['%', hexDigit (b.toNat / 16), hexDigit (b.toNat % 16)]

def escape (keep : UInt8 → Bool) (bytes : List UInt8) : List Char := bytes.flatMap (escapeByte keep)

def unescape : List Char → List UInt8
  | '%' :: a :: b :: rest =>
    match hexValue a, hexValue b with
    | some x, some y => UInt8.ofNat (16 * x + y) :: unescape rest
    | _, _ => 0x25 :: unescape (a :: b :: rest)
  | c :: rest => String.utf8EncodeChar c ++ unescape rest
  | [] => []

theorem utf8_inj {a b : String} : a.toUTF8.data.toList = b.toUTF8.data.toList ↔ a = b := by
  rw [Array.toList_inj, ← ByteArray.ext_iff]
  exact String.toByteArray_inj

theorem hexValue_hexDigit : ∀ n < 16, hexValue (hexDigit n) = some n := by decide

variable {keep : UInt8 → Bool}

/-- The kept bytes are ASCII, and the percent sign is none of them. -/
def Plain (keep : UInt8 → Bool) : Prop := ∀ b, keep b = true → b.toNat < 128 ∧ b ≠ 0x25

theorem unescape_cons {c : Char} (hc : c ≠ '%') (rest : List Char) :
    unescape (c :: rest) = String.utf8EncodeChar c ++ unescape rest := by
  rw [unescape]
  intro a b rest' heq
  exact absurd heq hc

theorem toNat_ofNat_byte {b : UInt8} (hb : b.toNat < 128) :
    (Char.ofNat b.toNat).toNat = b.toNat := by
  have hvalid : b.toNat.isValidChar := .inl (by omega)
  rw [Char.ofNat, dif_pos hvalid]
  rfl

theorem utf8EncodeChar_byte {b : UInt8} (hb : b.toNat < 128) : String.utf8EncodeChar
    (Char.ofNat b.toNat) = [b] := by
  have hval : (Char.ofNat b.toNat).val.toNat = b.toNat := toNat_ofNat_byte hb
  have hle : b.toNat ≤ 127 := by omega
  simp only [String.utf8EncodeChar, hval, if_pos hle, UInt8.ofNat_toNat]

theorem unescape_escapeByte (hplain : Plain keep) (b : UInt8) (rest : List Char) :
    unescape (escapeByte keep b ++ rest) = b :: unescape rest := by
  unfold escapeByte
  split_ifs with hkeep
  · obtain ⟨hb, hne⟩ := hplain b hkeep
    have hc : Char.ofNat b.toNat ≠ '%' := by
      intro heq
      have hnat := congrArg Char.toNat heq
      rw [toNat_ofNat_byte hb] at hnat
      exact hne (UInt8.toNat_inj.mp hnat)
    rw [List.singleton_append, unescape_cons hc, utf8EncodeChar_byte hb]
    rfl
  · have hb := b.toNat_lt
    have hhigh := hexValue_hexDigit (b.toNat / 16) (by omega)
    have hlow := hexValue_hexDigit (b.toNat % 16) (by omega)
    have hsum : 16 * (b.toNat / 16) + b.toNat % 16 = b.toNat := by omega
    simp only [List.cons_append, List.nil_append, unescape, hhigh, hlow, hsum, UInt8.ofNat_toNat]

theorem unescape_escape (hplain : Plain keep) (bytes : List UInt8) : unescape
    (escape keep bytes) = bytes := by
  induction bytes with
  | nil => rfl
  | cons b bytes ih =>
    rw [escape, List.flatMap_cons, unescape_escapeByte hplain]
    exact congrArg (b :: ·) ih

theorem escape_injective (hplain : Plain keep) : Function.Injective (escape keep) :=
  Function.LeftInverse.injective (unescape_escape hplain)

theorem mem_escape {bytes : List UInt8} {c : Char} (hc : c ∈ escape keep bytes) :
    (∃ b, keep b = true ∧ c = Char.ofNat b.toNat) ∨ c = '%' ∨ ∃ n < 16, c = hexDigit n := by
  obtain ⟨b, -, hb⟩ := List.mem_flatMap.mp hc
  have hlt := b.toNat_lt
  unfold escapeByte at hb
  split_ifs at hb with hkeep
  · exact .inl ⟨b, hkeep, List.mem_singleton.mp hb⟩
  · simp only [List.mem_cons, List.not_mem_nil, or_false] at hb
    rcases hb with rfl | rfl | rfl
    · exact .inr (.inl rfl)
    · exact .inr (.inr ⟨_, by omega, rfl⟩)
    · exact .inr (.inr ⟨_, by omega, rfl⟩)

end DewDB.PercentCoding
