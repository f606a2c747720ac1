import Mathlib

/-! Two's-complement machine integers as unbounded ones. An operation of a C program is
written as the exact integer followed by its reduction to the type, so that freedom from
overflow is a statement about the exact value alone. -/
namespace LibPosix.MachineInt

/-- The values of a signed type of `w` bits. -/
def Fits (w : ℕ) (x : ℤ) : Prop := -2 ^ (w - 1) ≤ x ∧ x < 2 ^ (w - 1)

instance (w : ℕ) (x : ℤ) : Decidable (Fits w x) := inferInstanceAs (Decidable (_ ∧ _))

/-- Reduction to a signed type of `w` bits. -/
def signed (w : ℕ) (x : ℤ) : ℤ := x.bmod (2 ^ w)

/-- Reduction to an unsigned type of `w` bits. -/
def unsigned (w : ℕ) (x : ℤ) : ℕ := (x % 2 ^ w).toNat

theorem half_pow {w : ℕ} (hw : 0 < w) : ((2 ^ w : ℕ) : ℤ) = 2 * 2 ^ (w - 1) := by
  obtain ⟨v, rfl⟩ := Nat.exists_eq_succ_of_ne_zero hw.ne'
  simp [pow_succ, mul_comm]

/-- An operation whose exact value is representable does not wrap. -/
theorem signed_of_fits {w : ℕ} {x : ℤ} (hw : 0 < w) (h : Fits w x) : signed w x = x := by
  have hp := half_pow hw
  obtain ⟨hl, hu⟩ := h
  apply Int.bmod_eq_of_le
  · rw [hp]
    omega
  · rw [hp]
    omega

theorem Fits.mono {v w : ℕ} {x : ℤ} (hvw : v ≤ w) (h : Fits v x) : Fits w x := by
  have hp : (2 : ℤ) ^ (v - 1) ≤ 2 ^ (w - 1) :=
    pow_le_pow_right₀ (by norm_num) (Nat.sub_le_sub_right hvw 1)
  obtain ⟨hl, hu⟩ := h
  exact ⟨by linarith, by linarith⟩

theorem unsigned_lt (w : ℕ) (x : ℤ) : unsigned w x < 2 ^ w := by
  have h : x % 2 ^ w < 2 ^ w := Int.emod_lt_of_pos x (by positivity)
  have h0 : 0 ≤ x % 2 ^ w := Int.emod_nonneg x (by positivity)
  unfold unsigned
  zify
  rwa [Int.toNat_of_nonneg h0]

theorem unsigned_of_nonneg {w : ℕ} {x : ℤ} (h0 : 0 ≤ x) (h : x < 2 ^ w) :
    unsigned w x = x.toNat := by
  rw [unsigned, Int.emod_eq_of_lt h0 h]

theorem unsigned_natCast {w n : ℕ} (h : n < 2 ^ w) : unsigned w n = n := by
  have hlt : (n : ℤ) < 2 ^ w := by exact_mod_cast h
  rw [unsigned_of_nonneg (Int.natCast_nonneg n) hlt, Int.toNat_natCast]

theorem emod_le {m x : ℤ} (hm : 0 < m) (h : 0 ≤ x) : x % m ≤ x := by
  have hq : 0 ≤ m * (x / m) := mul_nonneg hm.le (Int.ediv_nonneg h hm.le)
  have heq := Int.emod_add_mul_ediv x m
  omega

theorem unsigned_le {w : ℕ} {x : ℤ} (h : 0 ≤ x) : (unsigned w x : ℤ) ≤ x := by
  have hmod : 0 ≤ x % 2 ^ w := Int.emod_nonneg x (by positivity)
  rw [unsigned, Int.toNat_of_nonneg hmod]
  exact emod_le (by positivity) h

theorem signed_le {w : ℕ} {x : ℤ} (h : 0 ≤ x) : signed w x ≤ x := by
  have hpos : (0 : ℤ) < (2 ^ w : ℕ) := by positivity
  have hle := emod_le hpos h
  unfold signed
  rw [Int.bmod_def]
  split_ifs
  · exact hle
  · omega

theorem signed_add_left (w : ℕ) (x y : ℤ) : signed w (signed w x + y) = signed w (x + y) :=
  Int.bmod_add_bmod

/-- A reduced value is the residue itself unless its top bit is set. -/
theorem signed_cases {w : ℕ} (hw : 0 < w) (x : ℤ) :
    0 ≤ signed w x ∧ signed w x = x % 2 ^ w ∧ x % 2 ^ w < 2 ^ (w - 1) ∨
      signed w x < 0 ∧ 2 ^ (w - 1) ≤ x % 2 ^ w := by
  have hp := half_pow hw
  have hmod0 : 0 ≤ x % 2 ^ w := Int.emod_nonneg x (by positivity)
  have hmod : x % 2 ^ w < 2 ^ w := Int.emod_lt_of_pos x (by positivity)
  unfold signed
  rw [Int.bmod_def]
  push_cast at hp ⊢
  split_ifs with h
  · left
    omega
  · right
    omega

theorem signed_fits {w : ℕ} (hw : 0 < w) (x : ℤ) : Fits w (signed w x) := by
  have hp := half_pow hw
  have hmod : x % 2 ^ w < 2 ^ w := Int.emod_lt_of_pos x (by positivity)
  rcases signed_cases hw x with ⟨h0, heq, hlt⟩ | ⟨h0, hge⟩
  · exact ⟨by omega, by omega⟩
  · have hlow : -((2 ^ w : ℕ) / 2 : ℤ) ≤ signed w x := Int.le_bmod (by positivity)
    exact ⟨by omega, by omega⟩

theorem unsigned_congr {v w : ℕ} (h : v ≤ w) {x y : ℤ} (hxy : x % 2 ^ w = y % 2 ^ w) :
    unsigned v x = unsigned v y := by
  have hdvd : (2 ^ v : ℤ) ∣ 2 ^ w := pow_dvd_pow 2 h
  unfold unsigned
  rw [← Int.emod_emod_of_dvd x hdvd, hxy, Int.emod_emod_of_dvd y hdvd]

/-- A narrower unsigned type does not see an earlier reduction. -/
theorem unsigned_signed {v w : ℕ} (h : v ≤ w) (x : ℤ) :
    unsigned v (signed w x) = unsigned v x := by
  have hdvd : ((2 ^ v : ℕ) : ℤ) ∣ ((2 ^ w : ℕ) : ℤ) := by exact_mod_cast pow_dvd_pow 2 h
  have hmod : signed w x % ((2 ^ w : ℕ) : ℤ) = x % ((2 ^ w : ℕ) : ℤ) := Int.bmod_emod
  have hres := Int.emod_emod_of_dvd (signed w x) hdvd
  rw [hmod, Int.emod_emod_of_dvd x hdvd] at hres
  push_cast at hres
  unfold unsigned
  rw [hres]

theorem shiftRight_two (x : ℤ) : x >>> (2 : ℤ) = x / 4 := by
  have h : x >>> ((2 : ℕ) : ℤ) = x >>> (2 : ℕ) := Int.shiftRight_natCast_right x 2
  rw [Nat.cast_ofNat] at h
  rw [h, Int.shiftRight_eq_div_pow]
  rfl

end LibPosix.MachineInt
