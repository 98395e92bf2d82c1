import Mathlib.Data.List.Basic
import Mathlib.Order.Defs.LinearOrder

/-!
# The order of UTF-8 bytes

Strings that compare byte by byte compare as their characters do, and folding ASCII case byte by
byte is folding it character by character. A closed text is evaluated by its bytes.
-/
namespace DewDB.Utf8Order

def utf8 (cs : List Char) : List UInt8 := cs.flatMap String.utf8EncodeChar

def cmpBytes : List UInt8 → List UInt8 → Ordering
  | x :: xs, y :: ys =>
    match compare x.toNat y.toNat with
    | .eq => cmpBytes xs ys
    | unequal => unequal
  | xs, ys => compare xs.length ys.length

/-- `u8::to_ascii_lowercase`. -/
def lowerByte (b : UInt8) : UInt8 := if 65 ≤ b.toNat ∧ b.toNat ≤ 90 then b + 32 else b

theorem cmpBytes_cons (x y : UInt8) (xs ys : List UInt8) :
    cmpBytes (x :: xs) (y :: ys) = (compare x.toNat y.toNat).then (cmpBytes xs ys) := by
  rw [cmpBytes]
  cases compare x.toNat y.toNat <;> rfl

theorem cmpBytes_cons_lt {x y : UInt8} {xs ys : List UInt8} : cmpBytes (x :: xs) (y :: ys) = .lt ↔
    x.toNat < y.toNat ∨ x.toNat = y.toNat ∧ cmpBytes xs ys = .lt := by
  rw [cmpBytes_cons, Ordering.then_eq_lt, Nat.compare_eq_lt, Nat.compare_eq_eq]

theorem cmpBytes_append_left (p xs ys : List UInt8) : cmpBytes (p ++ xs)
    (p ++ ys) = cmpBytes xs ys := by
  induction p with
  | nil => rfl
  | cons b p ih => simp [cmpBytes_cons, ih]

theorem cmpBytes_swap (xs ys : List UInt8) : (cmpBytes xs ys).swap = cmpBytes ys xs := by
  induction xs generalizing ys with
  | nil => cases ys <;> simp [cmpBytes, Nat.compare_swap]
  | cons x xs ih =>
    cases ys with
    | nil => simp [cmpBytes, Nat.compare_swap]
    | cons y ys => rw [cmpBytes_cons, cmpBytes_cons, Ordering.swap_then, Nat.compare_swap, ih]

theorem cmpBytes_encode_lt {c d : Char} (h : c.toNat < d.toNat) (xs ys : List UInt8) :
    cmpBytes (String.utf8EncodeChar c ++ xs) (String.utf8EncodeChar d ++ ys) = .lt := by
  have hc : c.val.toNat < d.val.toNat := h
  have hd : d.val.toNat < 1114112 := by
    have hvalid := d.valid
    simp only [UInt32.isValidChar, Nat.isValidChar] at hvalid
    omega
  unfold String.utf8EncodeChar
  dsimp only
  generalize c.val.toNat = m at *
  generalize d.val.toNat = n at *
  have hdigits : ∀ k : ℕ, k / 4096 = k / 64 / 64 ∧ k / 262144 = k / 64 / 64 / 64 :=
    fun k => by omega
  rw [(hdigits m).1, (hdigits m).2, (hdigits n).1, (hdigits n).2]
  split_ifs <;> simp only [List.cons_append, List.nil_append, cmpBytes_cons_lt,
    UInt8.toNat_ofNat'] <;> omega

theorem cmpBytes_encode (c d : Char) (xs ys : List UInt8) :
    cmpBytes (String.utf8EncodeChar c ++ xs) (String.utf8EncodeChar d ++ ys) =
      (compare c.toNat d.toNat).then (cmpBytes xs ys) := by
  rcases Nat.lt_trichotomy c.toNat d.toNat with hlt | heq | hgt
  · rw [cmpBytes_encode_lt hlt, Nat.compare_eq_lt.mpr hlt]
    rfl
  · rw [Char.toNat_inj.mp heq, cmpBytes_append_left, Nat.compare_eq_eq.mpr rfl]
    rfl
  · rw [← cmpBytes_swap, cmpBytes_encode_lt hgt, Nat.compare_eq_gt.mpr hgt]
    rfl

theorem utf8_cons (c : Char) (cs : List Char) : utf8
    (c :: cs) = String.utf8EncodeChar c ++ utf8 cs :=
  List.flatMap_cons

theorem length_encode_pos (c : Char) : 0 < (String.utf8EncodeChar c).length :=
  List.length_pos_of_ne_nil String.utf8EncodeChar_ne_nil

theorem encode_ascii {c : Char} (h : c.val.toNat ≤ 127) :
    String.utf8EncodeChar c = [UInt8.ofNat c.val.toNat] := by
  unfold String.utf8EncodeChar
  exact if_pos h

theorem mem_encode_ge {c : Char} (h : 127 < c.val.toNat) {b : UInt8}
    (hb : b ∈ String.utf8EncodeChar c) : 128 ≤ b.toNat := by
  unfold String.utf8EncodeChar at hb
  dsimp only at hb
  split_ifs at hb
  · omega
  all_goals
    simp only [List.mem_cons, List.not_mem_nil, or_false] at hb
    rcases hb with rfl | rfl | rfl | rfl <;> rw [UInt8.toNat_ofNat'] <;> omega

theorem lowerByte_eq_self {b : UInt8} (h : ¬(65 ≤ b.toNat ∧ b.toNat ≤ 90)) :
    lowerByte b = b := if_neg h

theorem encode_toLower (c : Char) :
    String.utf8EncodeChar c.toLower = (String.utf8EncodeChar c).map lowerByte := by
  by_cases hupper : c.val ≥ 'A'.val ∧ c.val ≤ 'Z'.val
  · have hrange : 65 ≤ c.val.toNat ∧ c.val.toNat ≤ 90 := hupper
    have hlower : c.toLower.val.toNat = c.val.toNat + 32 := by
      have hval : c.toLower.val = c.val + 32 := congrArg Char.val (dif_pos hupper)
      rw [hval, UInt32.toNat_add]
      have h32 : (32 : UInt32).toNat = 32 := rfl
      omega
    have hbyte : (UInt8.ofNat c.val.toNat).toNat = c.val.toNat := by
      rw [UInt8.toNat_ofNat']
      omega
    have hfold : lowerByte (UInt8.ofNat c.val.toNat) = UInt8.ofNat (c.val.toNat + 32) := by
      rw [lowerByte, hbyte, if_pos hrange, UInt8.ofNat_add]
      rfl
    rw [encode_ascii (c := c) (by omega), encode_ascii (by omega), hlower,
      List.map_singleton, hfold]
  · have hsame : c.toLower = c := dif_neg hupper
    rw [hsame]
    have hkept : ∀ b ∈ String.utf8EncodeChar c, lowerByte b = id b := by
      intro b hb
      apply lowerByte_eq_self
      rintro ⟨hlow, hhigh⟩
      by_cases hascii : c.val.toNat ≤ 127
      · rw [encode_ascii hascii, List.mem_singleton] at hb
        rw [hb, UInt8.toNat_ofNat'] at hlow hhigh
        have hrange : 65 ≤ c.val.toNat ∧ c.val.toNat ≤ 90 := by omega
        exact hupper hrange
      · have hge := mem_encode_ge (Nat.lt_of_not_le hascii) hb
        omega
    exact ((List.map_congr_left hkept).trans (List.map_id _)).symm

theorem utf8_toLower (cs : List Char) : utf8 (cs.map Char.toLower) = (utf8 cs).map lowerByte := by
  induction cs with
  | nil => rfl
  | cons c cs ih => rw [List.map_cons, utf8_cons, utf8_cons, List.map_append, encode_toLower, ih]

theorem cmpBytes_utf8_eq {as bs : List Char} : cmpBytes (utf8 as) (utf8 bs) = .eq ↔ as = bs := by
  induction as generalizing bs with
  | nil =>
    cases bs with
    | nil => exact ⟨fun _ => rfl, fun _ => rfl⟩
    | cons b bs =>
      have hpos := length_encode_pos b
      have hlt : cmpBytes (utf8 []) (utf8 (b :: bs)) = compare 0 (utf8 (b :: bs)).length := by
        cases utf8 (b :: bs) <;> rfl
      rw [hlt, Nat.compare_eq_eq, utf8_cons, List.length_append]
      exact ⟨fun h => by omega, fun h => nomatch h⟩
  | cons a as ih =>
    cases bs with
    | nil =>
      have hpos := length_encode_pos a
      have hgt : cmpBytes (utf8 (a :: as)) (utf8 []) = compare (utf8 (a :: as)).length 0 := by
        cases utf8 (a :: as) <;> rfl
      rw [hgt, Nat.compare_eq_eq, utf8_cons, List.length_append]
      exact ⟨fun h => by omega, fun h => nomatch h⟩
    | cons b bs =>
      rw [utf8_cons, utf8_cons, cmpBytes_encode, Ordering.then_eq_eq, Nat.compare_eq_eq,
        Char.toNat_inj, ih, List.cons.injEq]

theorem utf8_inj {as bs : List Char} : utf8 as = utf8 bs ↔ as = bs := by
  refine ⟨fun h => ?_, congrArg utf8⟩
  rw [← cmpBytes_utf8_eq, h, cmpBytes_utf8_eq]

/-- The characters of a text, read byte by byte where all of them are ASCII. Unlike the decoder this
is a recursion on the bytes, so a closed text is cheap to evaluate. -/
def asciiChars (s : String) : List Char :=
  let bytes := s.toUTF8.data.toList
  if bytes.all fun b => b.toNat < 128 then bytes.map fun b => Char.ofNat b.toNat else s.toList

theorem utf8_toList (s : String) : utf8 s.toList = s.toUTF8.data.toList := by
  have hbytes : s.toList.utf8Encode = s.toUTF8 := String.utf8Encode_toList
  rw [← hbytes, List.utf8Encode, List.toList_data_toByteArray, utf8]

theorem utf8_ascii {bytes : List UInt8} (h : ∀ b ∈ bytes, b.toNat < 128) :
    utf8 (bytes.map fun b => Char.ofNat b.toNat) = bytes := by
  induction bytes with
  | nil => rfl
  | cons b bytes ih =>
    obtain ⟨hb, hrest⟩ := List.forall_mem_cons.mp h
    have hvalid : b.toNat.isValidChar := .inl (by omega)
    have hval : (Char.ofNat b.toNat).val.toNat = b.toNat := by
      rw [Char.ofNat, dif_pos hvalid]
      rfl
    rw [List.map_cons, utf8_cons, encode_ascii (by omega), hval, UInt8.ofNat_toNat, ih hrest]
    rfl

theorem toList_eq_asciiChars (s : String) : s.toList = asciiChars s := by
  unfold asciiChars
  dsimp only
  split
  next h =>
    rw [List.all_eq_true] at h
    rw [← utf8_inj, utf8_toList, utf8_ascii fun b hb => of_decide_eq_true (h b hb)]
  next => rfl

end DewDB.Utf8Order
