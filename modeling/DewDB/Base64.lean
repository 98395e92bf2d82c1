import DewDB.Utf8Order
import Mathlib.Algebra.Order.Floor.Div
import Mathlib.Algebra.Module.Basic
import Mathlib.Algebra.Ring.Nat
import Mathlib.Data.List.Basic
import Mathlib.GroupTheory.GroupAction.Ring
import Mathlib.Tactic.Ring

/-!
# Base64

Frames travel between the nodes and cursors to the clients as base64, each in an alphabet of its
own. The encoder takes three bytes at a time and pads the last group. The decoder takes either
alphabet and runs an accumulator of 32 bits: it holds fewer than eight bits that are still to be
output, and they are the low ones.
-/
namespace DewDB.Base64

open Utf8Order (asciiChars toList_eq_asciiChars)

structure Alphabet where
  chars : List Char
  size : chars.length = 64

def Alphabet.charAt (a : Alphabet) (n : ℕ) : Char :=
  a.chars.get ⟨n &&& 0x3F, by rw [a.size]; exact Nat.and_lt_two_pow n (by decide : 0x3F < 2 ^ 6)⟩

def standard : Alphabet :=
  ⟨"ABCDEFGHIJKLMNOPQRSTUVWXYZabcdefghijklmnopqrstuvwxyz0123456789+/".toList, by decide⟩

def urlSafe : Alphabet :=
  ⟨"ABCDEFGHIJKLMNOPQRSTUVWXYZabcdefghijklmnopqrstuvwxyz0123456789-_".toList, by decide⟩

/-- `input.chunks(3)`. -/
def chunks : List UInt8 → List (List UInt8)
  | b0 :: b1 :: b2 :: rest => [b0, b1, b2] :: chunks rest
  | [] => []
  | rest => [rest]

def encodeChunk (a : Alphabet) (chunk : List UInt8) : List Char :=
  let b0 := (chunk.getD 0 0).toNat
  let b1 := (chunk.getD 1 0).toNat
  let b2 := (chunk.getD 2 0).toNat
  let combined := b0 <<< 16 ||| b1 <<< 8 ||| b2
  [a.charAt (combined >>> 18), a.charAt (combined >>> 12),
    if 1 < chunk.length then a.charAt (combined >>> 6) else '=',
    if 2 < chunk.length then a.charAt combined else '=']

def encodeWith (a : Alphabet) (input : List UInt8) : List Char :=
  (chunks input).flatMap (encodeChunk a)

def base64Encode (input : List UInt8) : List Char := encodeWith standard input

def base64EncodeUrl (input : List UInt8) : List Char := encodeWith urlSafe input

def base64Len (bytes : ℕ) : ℕ := (bytes + 2) / 3 * 4

def charValue (c : Char) : Option ℕ :=
  if 'A' ≤ c ∧ c ≤ 'Z' then some (c.toNat - 'A'.toNat)
  else if 'a' ≤ c ∧ c ≤ 'z' then some (c.toNat - 'a'.toNat + 26)
  else if '0' ≤ c ∧ c ≤ '9' then some (c.toNat - '0'.toNat + 52)
  else if c = '+' ∨ c = '-' then some 62
  else if c = '/' ∨ c = '_' then some 63
  else none

/-- The accumulator, which is a `u32`, how many of its bits are still to be output, and the output.
-/
structure Decoder where
  buf : ℕ
  bits : ℕ
  result : List UInt8

def Decoder.push (d : Decoder) (val : ℕ) : Decoder :=
  let buf := d.buf <<< 6 % 2 ^ 32 ||| val
  let bits := d.bits + 6
  if 8 ≤ bits then
    let bits := bits - 8
    ⟨buf &&& (1 <<< bits - 1), bits, d.result ++ [UInt8.ofNat (buf >>> bits)]⟩
  else ⟨buf, bits, d.result⟩

def Decoder.start : Decoder := ⟨0, 0, []⟩

def decodeChars (d : Decoder) : List Char → Except String Decoder
  | [] => .ok d
  | c :: cs =>
    match charValue c with
    | none => .error s!"Invalid base64 char: {c}"
    | some val => decodeChars (d.push val) cs

/-- `trim_end_matches('=')`. -/
def trimEnd (input : List Char) : List Char := (input.reverse.dropWhile (· = '=')).reverse

def base64Decode (input : List Char) : Except String (List UInt8) :=
  (decodeChars .start (trimEnd input)).map Decoder.result

section Accumulator

/-- The number that digits stand for, the first one being the highest. -/
def bigEndian (base : ℕ) (digits : List ℕ) : ℕ := digits.foldl (fun n d => n * base + d) 0

theorem bigEndian_concat (base : ℕ) (digits : List ℕ) (d : ℕ) :
    bigEndian base (digits ++ [d]) = bigEndian base digits * base + d := by
  rw [bigEndian, List.foldl_append]
  rfl

/-- The bits that have been taken in are those that are output and then those that are still to be.
-/
structure Holds (d : Decoder) (vals : List ℕ) : Prop where
  bits : d.bits < 8
  buf : d.buf < 2 ^ d.bits
  length : 8 * d.result.length + d.bits = 6 * vals.length
  value : bigEndian 256 (d.result.map UInt8.toNat) * 2 ^ d.bits + d.buf = bigEndian 64 vals

theorem Holds.start : Holds .start [] := ⟨by decide, by decide, rfl, rfl⟩

variable {d : Decoder} {vals : List ℕ} {val : ℕ}

theorem Holds.shift (h : Holds d vals) (hval : val < 64) :
    d.buf <<< 6 % 2 ^ 32 ||| val = d.buf * 64 + val ∧ d.buf * 64 + val < 2 ^ (d.bits + 6) := by
  have hbuf : d.buf < 2 ^ 8 :=
    Nat.lt_of_lt_of_le h.buf (Nat.pow_le_pow_right (by decide) (by have := h.bits; omega))
  have hlt : d.buf * 64 + val < 2 ^ (d.bits + 6) := by
    have := h.buf
    rw [Nat.pow_add]
    omega
  refine ⟨?_, hlt⟩
  have hfits : d.buf <<< 6 < 2 ^ 32 := by
    rw [Nat.shiftLeft_eq]
    omega
  rw [Nat.mod_eq_of_lt hfits, ← Nat.shiftLeft_add_eq_or_of_lt hval, Nat.shiftLeft_eq]

theorem Holds.push (h : Holds d vals) (hval : val < 64) : Holds (d.push val) (vals ++ [val]) := by
  obtain ⟨hshift, hlt⟩ := h.shift hval
  have hbits := h.bits
  have hlength := h.length
  have hvalue := h.value
  unfold Decoder.push
  rw [hshift]
  dsimp only
  split_ifs with hfull
  · obtain ⟨k, hk⟩ : ∃ k, d.bits + 6 = k + 8 := ⟨d.bits - 2, by omega⟩
    rw [hk] at hlt ⊢
    have hpow : d.bits = k + 2 := by omega
    have hbyte : (d.buf * 64 + val) / 2 ^ k < 256 := by
      apply Nat.div_lt_of_lt_mul
      rw [Nat.pow_add] at hlt
      omega
    have hmask : d.buf * 64 + val &&& (1 <<< (k + 8 - 8) - 1) = (d.buf * 64 + val) % 2 ^ k := by
      rw [Nat.shiftLeft_eq, Nat.one_mul, Nat.add_sub_cancel, Nat.and_two_pow_sub_one_eq_mod]
    rw [hmask, Nat.add_sub_cancel, Nat.shiftRight_eq_div_pow]
    constructor
    · dsimp only
      omega
    · exact Nat.mod_lt _ (Nat.two_pow_pos k)
    · simp only [List.length_append, List.length_singleton]
      omega
    · rw [List.map_append, List.map_singleton, bigEndian_concat, bigEndian_concat,
        UInt8.toNat_ofNat', Nat.mod_eq_of_lt hbyte, ← hvalue, hpow, Nat.pow_add]
      have hdiv := Nat.div_add_mod (d.buf * 64 + val) (2 ^ k)
      calc (bigEndian 256 (d.result.map UInt8.toNat) * 256 + (d.buf * 64 + val) / 2 ^ k) * 2 ^ k +
            (d.buf * 64 + val) % 2 ^ k
          = bigEndian 256 (d.result.map UInt8.toNat) * 256 * 2 ^ k +
              (2 ^ k * ((d.buf * 64 + val) / 2 ^ k) + (d.buf * 64 + val) % 2 ^ k) := by ring
        _ = (bigEndian 256 (d.result.map UInt8.toNat) * (2 ^ k * 2 ^ 2) + d.buf) * 64 + val := by
            rw [hdiv]
            ring
  · constructor
    · dsimp only
      omega
    · exact hlt
    · simp only [List.length_append, List.length_singleton]
      omega
    · rw [bigEndian_concat, ← hvalue, Nat.pow_add]
      ring

theorem bigEndian_append (base : ℕ) (xs ys : List ℕ) :
    bigEndian base (xs ++ ys) = bigEndian base xs * base ^ ys.length + bigEndian base ys := by
  induction ys using List.reverseRecOn with
  | nil => simp [bigEndian]
  | append_singleton ys y ih =>
    rw [← List.append_assoc, bigEndian_concat, ih, bigEndian_concat, List.length_append,
      List.length_singleton, Nat.pow_succ]
    ring

theorem bytes_of_bigEndian {xs ys : List UInt8} (hlength : xs.length = ys.length)
    (h : bigEndian 256 (xs.map UInt8.toNat) = bigEndian 256 (ys.map UInt8.toNat)) : xs = ys := by
  induction xs using List.reverseRecOn generalizing ys with
  | nil => exact (List.eq_nil_of_length_eq_zero hlength.symm).symm
  | append_singleton xs x ih =>
    rcases List.eq_nil_or_concat ys with rfl | ⟨ys, y, rfl⟩
    · simp at hlength
    · rw [List.concat_eq_append] at h hlength ⊢
      rw [List.map_append, List.map_append, List.map_singleton, List.map_singleton,
        bigEndian_concat, bigEndian_concat] at h
      have hx := x.toNat_lt
      have hy := y.toNat_lt
      rw [ih (by simpa using hlength) (by omega), UInt8.toNat_inj.mp (by omega : x.toNat = y.toNat)]

end Accumulator

section Characters

def Values (cs : List Char) (vals : List ℕ) : Prop :=
  List.Forall₂ (fun c val => charValue c = some val) cs vals

theorem charValue_bounds {c : Char} {val : ℕ} (h : charValue c = some val) :
    val < 64 ∧ c.toNat < 128 := by
  have hA : 'A'.toNat = 65 := rfl
  have ha : 'a'.toNat = 97 := rfl
  have h0 : '0'.toNat = 48 := rfl
  unfold charValue at h
  split_ifs at h with hupper hlower hdigit hplus hslash
  · have hle : c.toNat ≤ 90 := hupper.2
    have hval := Option.some.inj h
    omega
  · have hle : c.toNat ≤ 122 := hlower.2
    have hval := Option.some.inj h
    omega
  · have hle : c.toNat ≤ 57 := hdigit.2
    have hval := Option.some.inj h
    omega
  · have hval := Option.some.inj h
    rcases hplus with rfl | rfl
    · exact ⟨by omega, by decide⟩
    · exact ⟨by omega, by decide⟩
  · have hval := Option.some.inj h
    rcases hslash with rfl | rfl
    · exact ⟨by omega, by decide⟩
    · exact ⟨by omega, by decide⟩

/-- Decoding succeeds on characters that have values, and the accumulator holds them. -/
theorem decodeChars_of_values {d : Decoder} {vals : List ℕ} (h : Holds d vals) {cs : List Char}
    {more : List ℕ}
    (hmore : Values cs more) : ∃ d', decodeChars d cs = .ok d' ∧ Holds d' (vals ++ more) := by
  induction hmore generalizing d vals with
  | nil => exact ⟨d, rfl, by rwa [List.append_nil]⟩
  | @cons c val cs more hc _ ih =>
    obtain ⟨d', hd', hholds⟩ := ih (h.push (charValue_bounds hc).1)
    refine ⟨d', ?_, by rwa [List.append_assoc, List.singleton_append] at hholds⟩
    rw [decodeChars, hc]
    exact hd'

theorem values_of_decodeChars {d d' : Decoder} {cs : List Char} (h : decodeChars d cs = .ok d') :
    ∃ vals, Values cs vals := by
  induction cs generalizing d with
  | nil => exact ⟨[], .nil⟩
  | cons c cs ih =>
    rw [decodeChars] at h
    cases hc : charValue c with
    | none =>
      rw [hc] at h
      cases h
    | some val =>
      rw [hc] at h
      obtain ⟨vals, hvals⟩ := ih h
      exact ⟨val :: vals, .cons hc hvals⟩

theorem exists_values {cs : List Char} :
    (∃ vals, Values cs vals) ↔ ∀ c ∈ cs, (charValue c).isSome = true := by
  induction cs with
  | nil => exact ⟨fun _ _ hc => (nomatch hc), fun _ => ⟨[], .nil⟩⟩
  | cons c cs ih =>
    rw [List.forall_mem_cons, ← ih]
    constructor
    · rintro ⟨vals, hvals⟩
      cases hvals with
      | cons hc hrest => exact ⟨Option.isSome_iff_exists.mpr ⟨_, hc⟩, _, hrest⟩
    · rintro ⟨hc, vals, hvals⟩
      obtain ⟨val, hval⟩ := Option.isSome_iff_exists.mp hc
      exact ⟨val :: vals, .cons hval hvals⟩

theorem standard_chars : standard.chars =
    asciiChars "ABCDEFGHIJKLMNOPQRSTUVWXYZabcdefghijklmnopqrstuvwxyz0123456789+/" :=
  toList_eq_asciiChars _

theorem urlSafe_chars : urlSafe.chars =
    asciiChars "ABCDEFGHIJKLMNOPQRSTUVWXYZabcdefghijklmnopqrstuvwxyz0123456789-_" :=
  toList_eq_asciiChars _

theorem isSome_charValue (c : Char) :
    (charValue c).isSome = true ↔ c ∈ standard.chars ∨ c ∈ urlSafe.chars := by
  by_cases hascii : c.toNat < 128
  · have hcodes : ∀ n < 128, (charValue (Char.ofNat n)).isSome = true ↔
        n ∈ standard.chars.map Char.toNat ∨ n ∈ urlSafe.chars.map Char.toNat := by
      rw [standard_chars, urlSafe_chars]
      decide +kernel
    have hc := hcodes c.toNat hascii
    have hinj : Function.Injective Char.toNat := fun _ _ => Char.toNat_inj.mp
    rwa [Char.ofNat_toNat, List.mem_map_of_injective hinj, List.mem_map_of_injective hinj] at hc
  · have hchars : ∀ x, x ∈ standard.chars ∨ x ∈ urlSafe.chars → x.toNat < 128 := by
      have hstandard : (standard.chars.all fun x => decide (x.toNat < 128)) = true := by
        rw [standard_chars]
        decide
      have hurl : (urlSafe.chars.all fun x => decide (x.toNat < 128)) = true := by
        rw [urlSafe_chars]
        decide
      rw [List.all_eq_true] at hstandard hurl
      exact fun x hx => hx.elim (fun h => of_decide_eq_true (hstandard x h)) fun h =>
        of_decide_eq_true (hurl x h)
    refine ⟨fun hsome => ?_, fun hmem => absurd (hchars c hmem) hascii⟩
    obtain ⟨val, hval⟩ := Option.isSome_iff_exists.mp hsome
    exact absurd (charValue_bounds hval).2 hascii

def Alphabet.Decoded (a : Alphabet) : Prop := ∀ n, charValue (a.charAt n) = some (n % 64)

theorem Alphabet.getElem?_chars (a : Alphabet) (n : ℕ) : a.chars[n % 64]? = some (a.charAt n) := by
  have hmask : n &&& 0x3F = n % 64 := Nat.and_two_pow_sub_one_eq_mod n 6
  unfold Alphabet.charAt
  simp only [hmask, List.get_eq_getElem]
  apply List.getElem?_eq_getElem

theorem decoded_of_digits {a : Alphabet}
    (h : a.chars.map charValue = (List.range 64).map some) : a.Decoded := by
  intro n
  have hdigit : (a.chars.map charValue)[n % 64]? = some (charValue (a.charAt n)) := by
    rw [List.getElem?_map, a.getElem?_chars]
    rfl
  rw [h, List.getElem?_map, List.getElem?_range (Nat.mod_lt n (by decide))] at hdigit
  exact (Option.some.inj hdigit).symm

theorem decoded_standard : standard.Decoded := by
  apply decoded_of_digits
  rw [standard_chars]
  decide

theorem decoded_urlSafe : urlSafe.Decoded := by
  apply decoded_of_digits
  rw [urlSafe_chars]
  decide

/-- What is left when padding is cut off, which the decoder does not need. -/
theorem trimEnd_append (t : List Char) (n : ℕ) : trimEnd
    (t ++ List.replicate n '=') = trimEnd t := by
  unfold trimEnd
  rw [List.reverse_append, List.reverse_replicate]
  induction n with
  | zero => rfl
  | succ n ih => rw [List.replicate_succ, List.cons_append,
      List.dropWhile_cons_of_pos (by decide), ih]

theorem trimEnd_of_values {cs : List Char} {vals : List ℕ} (h : Values cs vals) :
    trimEnd cs = cs := by
  have hnone : '=' ∉ cs := by
    intro hmem
    have hsome := exists_values.mp ⟨vals, h⟩ '=' hmem
    revert hsome
    decide
  unfold trimEnd
  cases hrev : cs.reverse with
  | nil => rw [List.dropWhile_nil, ← hrev, List.reverse_reverse]
  | cons c rest =>
    have hc : c ≠ '=' := by
      rintro rfl
      exact hnone (List.mem_reverse.mp (hrev ▸ List.mem_cons_self))
    rw [List.dropWhile_cons_of_neg (by simpa using hc), ← hrev, List.reverse_reverse]

end Characters

section RoundTrip

theorem combined_eq (b0 b1 b2 : ℕ) (h1 : b1 < 256) (h2 : b2 < 256) :
    b0 <<< 16 ||| b1 <<< 8 ||| b2 = b0 * 65536 + b1 * 256 + b2 := by
  have hlow : b1 <<< 8 ||| b2 = b1 * 256 + b2 := by
    rw [← Nat.shiftLeft_add_eq_or_of_lt h2, Nat.shiftLeft_eq]
  have hlt : b1 * 256 + b2 < 2 ^ 16 := by omega
  rw [Nat.or_assoc, hlow, ← Nat.shiftLeft_add_eq_or_of_lt hlt, Nat.shiftLeft_eq]
  omega

def sextets (n : ℕ) : List ℕ := [n / 262144 % 64, n / 4096 % 64, n / 64 % 64, n % 64]

theorem bigEndian_sextets {n : ℕ} (h : n < 2 ^ 24) : bigEndian 64 (sextets n) = n := by
  simp only [bigEndian, sextets, List.foldl_cons, List.foldl_nil]
  omega

theorem values_shift {a : Alphabet} (ha : a.Decoded) (n : ℕ) :
    charValue (a.charAt (n >>> 18)) = some (n / 262144 % 64) ∧
      charValue (a.charAt (n >>> 12)) = some (n / 4096 % 64) ∧
      charValue (a.charAt (n >>> 6)) = some (n / 64 % 64) := by
  rw [ha, ha, ha, Nat.shiftRight_eq_div_pow, Nat.shiftRight_eq_div_pow, Nat.shiftRight_eq_div_pow]
  exact ⟨rfl, rfl, rfl⟩

theorem encodeWith_short (a : Alphabet) {input : List UInt8}
    (h : input.length = 1 ∨ input.length = 2) : encodeWith a input = encodeChunk a input := by
  have hchunks : chunks input = [input] := by
    match input, h with
    | [b0], _ => simp [chunks]
    | [b0, b1], _ => simp [chunks]
  rw [encodeWith, hchunks, List.flatMap_singleton]

/-- An encoding is characters with values and then padding. The values are the bits of the bytes,
and fewer than eight zeros after them. -/
theorem encode_values {a : Alphabet} (ha : a.Decoded) (input : List UInt8) : ∃ cs vals k pad,
    encodeWith a input = cs ++ List.replicate pad '=' ∧ Values cs vals ∧ k < 8 ∧
      6 * vals.length = 8 * input.length + k ∧
      bigEndian 64 vals = bigEndian 256 (input.map UInt8.toNat) * 2 ^ k := by
  fun_induction chunks input with
  | case1 b0 b1 b2 rest ih =>
    obtain ⟨cs, vals, k, pad, hencode, hvals, hk, hlength, hvalue⟩ := ih
    have h0 := b0.toNat_lt
    have h1 := b1.toNat_lt
    have h2 := b2.toNat_lt
    obtain ⟨n, hn⟩ : ∃ n, n = b0.toNat * 65536 + b1.toNat * 256 + b2.toNat := ⟨_, rfl⟩
    have hchunk : encodeChunk a [b0, b1, b2] =
        [a.charAt (n >>> 18), a.charAt (n >>> 12), a.charAt (n >>> 6), a.charAt n] := by
      rw [hn, ← combined_eq _ _ _ h1 h2]
      rfl
    have hgroup : Values [a.charAt (n >>> 18), a.charAt (n >>> 12), a.charAt (n >>> 6), a.charAt n]
      (sextets n) := by
      obtain ⟨hv0, hv1, hv2⟩ := values_shift ha n
      exact .cons hv0 (.cons hv1 (.cons hv2 (.cons (ha n) .nil)))
    have hbytes : bigEndian 256 ([b0, b1, b2].map UInt8.toNat) = n := by
      simp only [bigEndian, List.map_cons, List.map_nil, List.foldl_cons, List.foldl_nil]
      omega
    refine ⟨_ ++ cs, sextets n ++ vals, k, pad, ?_, List.rel_append hgroup hvals, hk, ?_, ?_⟩
    · calc encodeWith a (b0 :: b1 :: b2 :: rest)
          = encodeChunk a [b0, b1, b2] ++ encodeWith a rest := rfl
        _ = _ := by rw [hchunk, hencode, List.append_assoc]
    · simp only [sextets, List.length_append, List.length_cons, List.length_nil]
      omega
    · have hpow : 64 ^ vals.length = 256 ^ rest.length * 2 ^ k := by
        calc 64 ^ vals.length
            = 2 ^ (6 * vals.length) := by rw [Nat.pow_mul]
          _ = 256 ^ rest.length * 2 ^ k := by rw [hlength, Nat.pow_add, Nat.pow_mul]
      calc bigEndian 64 (sextets n ++ vals)
          = n * (256 ^ rest.length * 2 ^ k) + bigEndian 256 (rest.map UInt8.toNat) * 2 ^ k := by
            rw [bigEndian_append, bigEndian_sextets (by omega), hpow, hvalue]
        _ = bigEndian 256 ([b0, b1, b2].map UInt8.toNat ++ rest.map UInt8.toNat) * 2 ^ k := by
            rw [bigEndian_append, hbytes, List.length_map]
            ring
  | case2 => exact ⟨[], [], 0, 0, rfl, .nil, by decide, rfl, rfl⟩
  | case3 rest hmore hnone =>
    match rest, hmore, hnone with
    | [], _, hnone => exact absurd rfl hnone
    | [b0], _, _ =>
      have h0 := b0.toNat_lt
      have hchunk : encodeWith a [b0] =
          [a.charAt ((b0.toNat * 65536) >>> 18), a.charAt ((b0.toNat * 65536) >>> 12)] ++
            List.replicate 2 '=' := by
        have hcombined := combined_eq b0.toNat 0 0 (by decide) (by decide)
        simp only [Nat.zero_mul, Nat.add_zero] at hcombined
        rw [encodeWith_short a (by simp), ← hcombined]
        rfl
      obtain ⟨hv0, hv1, -⟩ := values_shift ha (b0.toNat * 65536)
      refine ⟨_, _, 4, 2, hchunk, .cons hv0 (.cons hv1 .nil), by decide, rfl, ?_⟩
      simp only [bigEndian, List.map_cons, List.map_nil, List.foldl_cons, List.foldl_nil]
      omega
    | [b0, b1], _, _ =>
      have h0 := b0.toNat_lt
      have h1 := b1.toNat_lt
      obtain ⟨n, hn⟩ : ∃ n, n = b0.toNat * 65536 + b1.toNat * 256 := ⟨_, rfl⟩
      have hchunk : encodeWith a [b0, b1] =
          [a.charAt (n >>> 18), a.charAt (n >>> 12), a.charAt (n >>> 6)] ++
            List.replicate 1 '=' := by
        have hcombined := combined_eq b0.toNat b1.toNat 0 h1 (by decide)
        rw [Nat.add_zero, ← hn] at hcombined
        rw [encodeWith_short a (by simp), ← hcombined]
        rfl
      obtain ⟨hv0, hv1, hv2⟩ := values_shift ha n
      refine ⟨_, _, 2, 1, hchunk, .cons hv0 (.cons hv1 (.cons hv2 .nil)), by decide, rfl, ?_⟩
      simp only [bigEndian, List.map_cons, List.map_nil, List.foldl_cons, List.foldl_nil]
      omega
    | b0 :: b1 :: b2 :: rest, hmore, _ => exact absurd rfl (hmore b0 b1 b2 rest)

theorem length_encodeWith (a : Alphabet) (input : List UInt8) :
    (encodeWith a input).length = base64Len input.length := by
  fun_induction chunks input with
  | case1 b0 b1 b2 rest ih =>
    calc (encodeWith a (b0 :: b1 :: b2 :: rest)).length
        = (encodeChunk a [b0, b1, b2] ++ encodeWith a rest).length := rfl
      _ = base64Len (rest.length + 3) := by
          rw [List.length_append, ih]
          simp only [encodeChunk, List.length_cons, List.length_nil, base64Len]
          omega
  | case2 => rfl
  | case3 rest hmore hnone =>
    match rest, hmore, hnone with
    | [], _, hnone => exact absurd rfl hnone
    | [b0], _, _ => rw [encodeWith_short a (by simp)]; simp [encodeChunk, base64Len]
    | [b0, b1], _, _ => rw [encodeWith_short a (by simp)]; simp [encodeChunk, base64Len]
    | b0 :: b1 :: b2 :: rest, hmore, _ => exact absurd rfl (hmore b0 b1 b2 rest)

theorem decode_encode {a : Alphabet} (ha : a.Decoded) {input : List UInt8} {t : List Char} {n : ℕ}
    (h : encodeWith a input = t ++ List.replicate n '=') : base64Decode t = .ok input := by
  obtain ⟨cs, vals, k, pad, hencode, hvals, hk, hlength, hvalue⟩ := encode_values ha input
  have htrim : trimEnd t = cs := by
    calc trimEnd t
        = trimEnd (t ++ List.replicate n '=') := (trimEnd_append t n).symm
      _ = trimEnd (cs ++ List.replicate pad '=') := by rw [← h, hencode]
      _ = cs := by rw [trimEnd_append, trimEnd_of_values hvals]
  obtain ⟨d, hd, hholds⟩ := decodeChars_of_values .start hvals
  rw [List.nil_append] at hholds
  have hbits := hholds.bits
  have hresult := hholds.length
  have hk' : d.bits = k := by omega
  have hnumber := hholds.value
  have hbuf := hholds.buf
  rw [hvalue, hk'] at hnumber
  rw [hk'] at hbuf
  have hsame : bigEndian 256 (d.result.map UInt8.toNat) = bigEndian 256
    (input.map UInt8.toNat) := by
    calc bigEndian 256 (d.result.map UInt8.toNat)
        = (bigEndian 256 (d.result.map UInt8.toNat) * 2 ^ k + d.buf) / 2 ^ k := by
          rw [Nat.mul_comm, Nat.mul_add_div (Nat.two_pow_pos k),
            Nat.div_eq_of_lt hbuf, Nat.add_zero]
      _ = bigEndian 256 (input.map UInt8.toNat) := by
          rw [hnumber, Nat.mul_div_cancel _ (Nat.two_pow_pos k)]
  rw [base64Decode, htrim, hd]
  exact congrArg Except.ok (bytes_of_bigEndian (by omega) hsame)

/-- Every byte string is decoded from its encoding in either alphabet, and from what is left when
padding is cut off it. Its encoding is as long as the frame sizes take it to be. Decoding fails on a
character of neither alphabet only. Along any text, the accumulator holds all the bits that are
still to be output, with room for six more in its thirty-two. -/
theorem base64_round_trip :
    (∀ a ∈ [standard, urlSafe], ∀ (input : List UInt8) (t : List Char) (n : ℕ),
      encodeWith a input = t ++ List.replicate n '=' → base64Decode t = .ok input) ∧
    (∀ (a : Alphabet) (input : List UInt8), (encodeWith a input).length = base64Len input.length ∧
      base64Len input.length = 4 * (input.length ⌈/⌉ 3)) ∧
    (∀ s : List Char, (∃ bytes, base64Decode s = .ok bytes) ↔
      ∀ c ∈ trimEnd s, c ∈ standard.chars ∨ c ∈ urlSafe.chars) ∧
    ∀ (cs : List Char) (d : Decoder), decodeChars .start cs = .ok d →
      ∃ vals, Values cs vals ∧ Holds d vals ∧ d.buf <<< 6 < 2 ^ 32 := by
  refine ⟨fun a ha input t n h => ?_, fun a input => ⟨length_encodeWith a input, ?_⟩, fun s =>
    ?_, fun cs d hd => ?_⟩
  · have hdecoded : a.Decoded := by
      rcases List.mem_pair.mp ha with rfl | rfl
      · exact decoded_standard
      · exact decoded_urlSafe
    exact decode_encode hdecoded h
  · rw [Nat.ceilDiv_eq_add_pred_div, base64Len, Nat.mul_comm]
    rfl
  · have hchars : (∀ c ∈ trimEnd s, c ∈ standard.chars ∨ c ∈ urlSafe.chars) ↔
        ∀ c ∈ trimEnd s, (charValue c).isSome = true :=
          forall₂_congr fun c _ => (isSome_charValue c).symm
    rw [hchars, ← exists_values]
    constructor
    · rintro ⟨bytes, hbytes⟩
      cases hd : decodeChars .start (trimEnd s) with
      | ok d => exact values_of_decodeChars hd
      | error e =>
        rw [base64Decode, hd] at hbytes
        cases hbytes
    · rintro ⟨vals, hvals⟩
      obtain ⟨d, hd, -⟩ := decodeChars_of_values .start hvals
      exact ⟨d.result, by rw [base64Decode, hd]; rfl⟩
  · obtain ⟨vals, hvals⟩ := values_of_decodeChars hd
    obtain ⟨d', hd', hholds⟩ := decodeChars_of_values .start hvals
    obtain rfl : d = d' := Except.ok.inj (hd.symm.trans hd')
    refine ⟨vals, hvals, hholds, ?_⟩
    have hbuf : d.buf < 2 ^ 8 :=
      Nat.lt_of_lt_of_le hholds.buf (Nat.pow_le_pow_right (by decide)
        (by have := hholds.bits; omega))
    rw [Nat.shiftLeft_eq]
    omega

end RoundTrip

end DewDB.Base64
