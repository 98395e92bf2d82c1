import Mathlib.Data.Nat.Log
import Mathlib.Data.Int.Order.Basic
import Mathlib.Tactic.Ring
import Mathlib.Tactic.Linarith

/-!
# Rounding to a significand

An integer is rounded to the nearest one whose magnitude is a significand of `p` bits times a power
of two. Halfway cases go to the even significand. The rounding is monotone and leaves what fits as
it is.
-/
namespace DewDB.NearestEven

def dropped (p n : ℕ) : ℕ := n.log2 + 1 - p

def roundNat (p n : ℕ) : ℕ :=
  let unit := 2 ^ dropped p n
  let q := n / unit
  let r := n % unit
  if 2 * r < unit ∨ 2 * r = unit ∧ q % 2 = 0 then q * unit else (q + 1) * unit

def roundInt (p : ℕ) (z : ℤ) : ℤ := z.sign * roundNat p z.natAbs

/-- The magnitudes that a significand of `p` bits gives. -/
def Fits (p k : ℕ) : Prop := ∃ q e, q < 2 ^ p ∧ k = q * 2 ^ e

variable {p m n k : ℕ}

theorem le_roundNat (p n : ℕ) : n / 2 ^ dropped p n * 2 ^ dropped p n ≤ roundNat p n := by
  rw [roundNat]
  split
  · exact Nat.le_refl _
  · exact Nat.mul_le_mul_right _ (Nat.le_succ _)

theorem roundNat_le (p n : ℕ) : roundNat p n ≤ (n / 2 ^ dropped p n + 1) * 2 ^ dropped p n := by
  rw [roundNat]
  split
  · exact Nat.mul_le_mul_right _ (Nat.le_succ _)
  · exact Nat.le_refl _

theorem significand_lt (p n : ℕ) : n / 2 ^ dropped p n < 2 ^ p := by
  rw [Nat.div_lt_iff_lt_mul (Nat.two_pow_pos _), ← Nat.pow_add]
  have hle : n.log2 + 1 ≤ p + dropped p n := by
    unfold dropped
    omega
  exact Nat.lt_of_lt_of_le Nat.lt_log2_self (Nat.pow_le_pow_right Nat.two_pos hle)

theorem le_significand (hp : 0 < p) (h : 0 < dropped p n) : 2 ^ (p - 1) ≤ n / 2 ^ dropped p n := by
  have hn : n ≠ 0 := by
    rintro rfl
    simp only [dropped, Nat.log2_zero] at h
    omega
  rw [Nat.le_div_iff_mul_le (Nat.two_pow_pos _), ← Nat.pow_add]
  have heq : p - 1 + dropped p n = n.log2 := by
    unfold dropped at h ⊢
    omega
  rw [heq]
  exact Nat.log2_self_le hn

theorem log2_mono (h : m ≤ n) : m.log2 ≤ n.log2 := by
  by_cases hm : m = 0
  · rw [hm, Nat.log2_zero]
    exact Nat.zero_le _
  · have hn : n ≠ 0 := by omega
    exact (Nat.le_log2 hn).mpr (Nat.le_trans (Nat.log2_self_le hm) h)

theorem roundNat_mono_of_dropped_eq (h : m ≤ n) (hd : dropped p m = dropped p n) :
    roundNat p m ≤ roundNat p n := by
  have hq : m / 2 ^ dropped p n ≤ n / 2 ^ dropped p n := Nat.div_le_div_right h
  rcases Nat.lt_or_eq_of_le hq with hlt | heq
  · calc roundNat p m ≤ (m / 2 ^ dropped p n + 1) * 2 ^ dropped p n := hd ▸ roundNat_le p m
      _ ≤ n / 2 ^ dropped p n * 2 ^ dropped p n := Nat.mul_le_mul_right _ hlt
      _ ≤ roundNat p n := le_roundNat p n
  · have hr : m % 2 ^ dropped p n ≤ n % 2 ^ dropped p n := by
      have hm := Nat.div_add_mod m (2 ^ dropped p n)
      have hn := Nat.div_add_mod n (2 ^ dropped p n)
      rw [heq] at hm
      omega
    rw [roundNat, roundNat, hd, heq]
    split_ifs with hm hn hn
    · exact Nat.le_refl _
    · exact Nat.mul_le_mul_right _ (Nat.le_succ _)
    · exfalso
      omega
    · exact Nat.le_refl _

/-- A number with more dropped bits rounds to a power of two above the other or further. -/
theorem roundNat_mono_of_dropped_lt (hp : 0 < p) (hd : dropped p m < dropped p n) :
    roundNat p m ≤ roundNat p n := by
  have hsig : m / 2 ^ dropped p m + 1 ≤ 2 ^ p := significand_lt p m
  have htop := le_significand hp (Nat.zero_lt_of_lt hd)
  calc roundNat p m ≤ (m / 2 ^ dropped p m + 1) * 2 ^ dropped p m := roundNat_le p m
    _ ≤ 2 ^ p * 2 ^ dropped p m := Nat.mul_le_mul_right _ hsig
    _ = 2 ^ (p + dropped p m) := (Nat.pow_add _ _ _).symm
    _ ≤ 2 ^ (p - 1 + dropped p n) := Nat.pow_le_pow_right Nat.two_pos (by omega)
    _ = 2 ^ (p - 1) * 2 ^ dropped p n := Nat.pow_add _ _ _
    _ ≤ n / 2 ^ dropped p n * 2 ^ dropped p n := Nat.mul_le_mul_right _ htop
    _ ≤ roundNat p n := le_roundNat p n

theorem roundNat_mono (hp : 0 < p) (h : m ≤ n) : roundNat p m ≤ roundNat p n := by
  have hd : dropped p m ≤ dropped p n := by
    have := log2_mono h
    unfold dropped
    omega
  rcases Nat.lt_or_eq_of_le hd with hlt | heq
  · exact roundNat_mono_of_dropped_lt hp hlt
  · exact roundNat_mono_of_dropped_eq h heq

theorem roundInt_mono (hp : 0 < p) {x y : ℤ} (h : x ≤ y) : roundInt p x ≤ roundInt p y := by
  unfold roundInt
  rcases lt_trichotomy x 0 with hx | rfl | hx
  · rw [Int.sign_eq_neg_one_of_neg hx]
    rcases lt_trichotomy y 0 with hy | rfl | hy
    · rw [Int.sign_eq_neg_one_of_neg hy]
      have := roundNat_mono hp (show y.natAbs ≤ x.natAbs by omega)
      omega
    · simp
    · rw [Int.sign_eq_one_of_pos hy]
      omega
  · rcases Int.lt_or_eq_of_le h with hy | rfl
    · rw [Int.sign_zero, Int.zero_mul, Int.sign_eq_one_of_pos hy]
      omega
    · exact Int.le_refl _
  · have hy : 0 < y := by omega
    rw [Int.sign_eq_one_of_pos hx, Int.sign_eq_one_of_pos hy]
    have := roundNat_mono hp (show x.natAbs ≤ y.natAbs by omega)
    omega

theorem not_fits_between (hp : 0 < p) (hlt : n / 2 ^ dropped p n * 2 ^ dropped p n < k)
    (hgt : k < (n / 2 ^ dropped p n + 1) * 2 ^ dropped p n) : ¬Fits p k := by
  rintro ⟨q, e, hq, rfl⟩
  by_cases he : dropped p n ≤ e
  · have hmul : q * 2 ^ e = q * 2 ^ (e - dropped p n) * 2 ^ dropped p n := by
      rw [Nat.mul_assoc, ← Nat.pow_add, Nat.sub_add_cancel he]
    rw [hmul] at hlt hgt
    have hlow := Nat.lt_of_mul_lt_mul_right hlt
    have hhigh := Nat.lt_of_mul_lt_mul_right hgt
    omega
  · have hle : q * 2 ^ e ≤ 2 ^ (p - 1) * 2 ^ dropped p n :=
      calc q * 2 ^ e ≤ 2 ^ p * 2 ^ e := Nat.mul_le_mul_right _ (Nat.le_of_lt hq)
        _ = 2 ^ (p + e) := (Nat.pow_add _ _ _).symm
        _ ≤ 2 ^ (p - 1 + dropped p n) := Nat.pow_le_pow_right Nat.two_pos (by omega)
        _ = 2 ^ (p - 1) * 2 ^ dropped p n := Nat.pow_add _ _ _
    have htop := Nat.mul_le_mul_right (2 ^ dropped p n) (le_significand (n := n) hp (by omega))
    omega

theorem roundNat_nearest (hp : 0 < p) (hk : Fits p k) :
    |(n : ℤ) - roundNat p n| ≤ |(n : ℤ) - k| := by
  have hdiv := Nat.div_add_mod n (2 ^ dropped p n)
  have hmod := Nat.mod_lt n (Nat.two_pow_pos (dropped p n))
  rw [Nat.mul_comm] at hdiv
  have hsucc : (n / 2 ^ dropped p n + 1) * 2 ^ dropped p n =
      n / 2 ^ dropped p n * 2 ^ dropped p n + 2 ^ dropped p n := Nat.succ_mul _ _
  have hside : k ≤ n / 2 ^ dropped p n * 2 ^ dropped p n ∨
      (n / 2 ^ dropped p n + 1) * 2 ^ dropped p n ≤ k := by
    by_contra hbetween
    rw [not_or, Nat.not_le, Nat.not_le] at hbetween
    exact not_fits_between hp hbetween.1 hbetween.2 hk
  have hround : roundNat p n = n / 2 ^ dropped p n * 2 ^ dropped p n ∧
    2 * (n % 2 ^ dropped p n) ≤ 2 ^ dropped p n ∨
      roundNat p n = (n / 2 ^ dropped p n + 1) * 2 ^ dropped p n ∧
        2 ^ dropped p n ≤ 2 * (n % 2 ^ dropped p n) := by
    rw [roundNat]
    split_ifs
    · exact .inl ⟨rfl, by omega⟩
    · exact .inr ⟨rfl, by omega⟩
  rw [hsucc] at hside hround
  generalize n / 2 ^ dropped p n * 2 ^ dropped p n = low at hdiv hside hround
  generalize n % 2 ^ dropped p n = r at hdiv hmod hround
  generalize 2 ^ dropped p n = unit at hmod hside hround
  rcases abs_cases ((n : ℤ) - roundNat p n) with hround' | hround'
  · rcases abs_cases ((n : ℤ) - k) with hk' | hk' <;> omega
  · rcases abs_cases ((n : ℤ) - k) with hk' | hk' <;> omega

theorem roundNat_of_fits (hp : 0 < p) (h : Fits p n) : roundNat p n = n := by
  have hnear := roundNat_nearest (n := n) hp h
  rw [sub_self, abs_zero, abs_nonpos_iff] at hnear
  omega

theorem roundInt_of_le (hp : 0 < p) {z : ℤ} (h : z.natAbs ≤ 2 ^ p) : roundInt p z = z := by
  have hfits : Fits p z.natAbs := by
    rcases Nat.lt_or_eq_of_le h with hlt | heq
    · exact ⟨z.natAbs, 0, hlt, by rw [Nat.pow_zero, Nat.mul_one]⟩
    · refine ⟨1, p, Nat.one_lt_two_pow (by omega), by rw [heq, Nat.one_mul]⟩
  rw [roundInt, roundNat_of_fits hp hfits, Int.sign_mul_natAbs]

end DewDB.NearestEven
