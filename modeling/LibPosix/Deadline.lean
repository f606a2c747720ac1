import LibPosix.TimeUtils

/-! Exactness of the deadline conversion. Times are compared with their value in
nanoseconds; the conversion is the round-up division of the distance by the length of a
tick, and none of its steps leaves its C type. -/
namespace LibPosix.Deadline
open MachineInt TimeUtils

def nanos (d : Timespec) : ℤ := d.tvSec * 1000000000 + d.tvNsec

/-- Exact values of the signed operations of `nano2timespec`, each with the width of its
C type. -/
def nano2timespecOps (P : Platform) (llSource : ℤ) : List (ℕ × ℤ) :=
  let sec := llSource.tdiv nanosecondsPerSecond
  let nsec := llSource.tmod nanosecondsPerSecond
  let carry := nsec.tdiv nanosecondsPerSecond + 1
  [(64, sec), (P.longBits, nsec)] ++
    if nsec < 0 then
      [(P.longBits, carry), (64, sec - carry), (P.longBits, carry * nanosecondsPerSecond),
        (P.longBits, nsec + carry * nanosecondsPerSecond)]
    else []

def clockGettimeOps (P : Platform) (tmrTicks : ℕ) : List (ℕ × ℤ) :=
  (64, tmrTicks * nanosecondsPerTick P) ::
    nano2timespecOps P (tmrTicks * nanosecondsPerTick P)

def timespecSubOps (P : Platform) (x y : Timespec) : List (ℕ × ℤ) :=
  if timespecCmp x y = 1 then
    [(64, x.tvSec - y.tvSec), (P.longBits, x.tvNsec - y.tvNsec)] ++
      if x.tvNsec - y.tvNsec < 0 then
        [(64, x.tvSec - y.tvSec - 1),
          (P.longBits, x.tvNsec - y.tvNsec + nanosecondsPerSecond)]
      else []
  else []

def ticksOfNsec (P : Platform) (nsec : ℤ) : ℤ :=
  nsec.tdiv (nanosecondsPerTick P) + if nsec.tmod (nanosecondsPerTick P) ≠ 0 then 1 else 0

def timespec2ticksOps (P : Platform) (d : Timespec) : List (ℕ × ℤ) :=
  if validateTimespec d then
    [(64, P.tmrHz * d.tvSec), (P.longBits, d.tvNsec.tdiv (nanosecondsPerTick P)),
      (P.longBits, ticksOfNsec P d.tvNsec),
      (64, P.tmrHz * d.tvSec + ticksOfNsec P d.tvNsec)]
  else []

def absTimespec2ticksOps (P : Platform) (absTime curTime : Timespec) : List (ℕ × ℤ) :=
  let sub := timespecSub P absTime curTime ⟨0, 0⟩
  timespecSubOps P absTime curTime ++ if sub.1 = 0 then timespec2ticksOps P sub.2 else []

section
variable (P : Platform)

theorem validateTimespec_iff {d : Timespec} :
    validateTimespec d = true ↔ 0 ≤ d.tvNsec ∧ d.tvNsec < 1000000000 := by
  simp only [validateTimespec, Bool.and_eq_true, decide_eq_true_eq]
  rfl

theorem tick_pos : 1 ≤ nanosecondsPerTick P := by
  have hp := P.tmrHz_pos
  have hl := P.tmrHz_le
  unfold nanosecondsPerTick nanosecondsPerSecond
  apply (Int.le_ediv_iff_mul_le (by exact_mod_cast hp)).mpr
  exact_mod_cast (by omega : 1 * P.tmrHz ≤ 1000000000)

theorem tick_le : nanosecondsPerTick P ≤ 1000000000 := by
  have hp := P.tmrHz_pos
  unfold nanosecondsPerTick nanosecondsPerSecond
  exact Int.ediv_le_self _ (by norm_num)

theorem tick_mul_hz (hdvd : P.tmrHz ∣ 1000000000) :
    (P.tmrHz : ℤ) * nanosecondsPerTick P = 1000000000 := by
  have h : (P.tmrHz : ℤ) ∣ 1000000000 := by exact_mod_cast hdvd
  exact Int.mul_ediv_cancel' h

theorem fits_long {x : ℤ} (hl : -2147483648 ≤ x) (hu : x < 2147483648) : Fits P.longBits x :=
  Fits.mono P.longBits_ge ⟨by norm_num; exact hl, by norm_num; exact hu⟩

theorem fits_time {x : ℤ} (hl : -9223372036854775808 ≤ x) (hu : x < 9223372036854775808) :
    Fits 64 x := ⟨by norm_num; exact hl, by norm_num; exact hu⟩

theorem signed_long {x : ℤ} (hl : -2147483648 ≤ x) (hu : x < 2147483648) :
    signed P.longBits x = x :=
  signed_of_fits (by have := P.longBits_ge; omega) (fits_long P hl hu)

theorem signed_time {x : ℤ} (hl : -9223372036854775808 ≤ x) (hu : x < 9223372036854775808) :
    signed 64 x = x := signed_of_fits (by norm_num) (fits_time hl hu)

/-- The division of C by a second, in terms of the one that rounds down. A negative remainder is
less than a second, so that its own quotient is 0. -/
theorem tdiv_second (n : ℤ) :
    0 ≤ n.tmod nanosecondsPerSecond ∧ n.tdiv nanosecondsPerSecond = n / 1000000000 ∧
        n.tmod nanosecondsPerSecond = n % 1000000000 ∨
      n.tmod nanosecondsPerSecond < 0 ∧ n.tdiv nanosecondsPerSecond = n / 1000000000 + 1 ∧
        n.tmod nanosecondsPerSecond = n % 1000000000 - 1000000000 ∧
        (n.tmod nanosecondsPerSecond).tdiv nanosecondsPerSecond = 0 := by
  have heq : nanosecondsPerSecond * n.tdiv nanosecondsPerSecond + n.tmod nanosecondsPerSecond = n :=
    Int.mul_tdiv_add_tmod n nanosecondsPerSecond
  have hlt : n.tmod nanosecondsPerSecond < nanosecondsPerSecond := Int.tmod_lt_of_pos n (by decide)
  have hgt : -nanosecondsPerSecond < n.tmod nanosecondsPerSecond := Int.lt_tmod_of_pos n (by decide)
  rcases lt_or_ge (n.tmod nanosecondsPerSecond) 0 with hneg | hpos
  · right
    have hzero : (n.tmod nanosecondsPerSecond).tdiv nanosecondsPerSecond = 0 := by
      have hflip : (-n.tmod nanosecondsPerSecond).tdiv nanosecondsPerSecond = 0 :=
        Int.tdiv_eq_zero_of_lt (by omega) (by omega)
      rw [Int.neg_tdiv] at hflip
      omega
    unfold nanosecondsPerSecond at *
    exact ⟨hneg, by omega, by omega, hzero⟩
  · left
    unfold nanosecondsPerSecond at *
    exact ⟨hpos, by omega, by omega⟩

theorem nano2timespecOps_fit {n : ℤ} (hn : Fits 64 n) :
    ∀ op ∈ nano2timespecOps P n, Fits op.1 op.2 := by
  obtain ⟨hmin, hmax⟩ := hn
  norm_num only at hmin hmax
  intro op hop
  rcases tdiv_second n with ⟨hpos, hsec, hnsec⟩ | ⟨hneg, hsec, hnsec, hcarry⟩
  · rw [nano2timespecOps, if_neg (by omega), List.append_nil] at hop
    simp only [List.mem_cons, List.not_mem_nil, or_false, hsec, hnsec] at hop
    rcases hop with rfl | rfl
    · exact fits_time (by omega) (by omega)
    · exact fits_long P (by omega) (by omega)
  · rw [nano2timespecOps, if_pos hneg] at hop
    rw [hcarry, hsec, hnsec] at hop
    simp only [List.cons_append, List.nil_append, List.mem_cons, List.not_mem_nil, or_false,
      nanosecondsPerSecond] at hop
    rcases hop with rfl | rfl | rfl | rfl | rfl | rfl
    · exact fits_time (by omega) (by omega)
    · exact fits_long P (by omega) (by omega)
    · exact fits_long P (by omega) (by omega)
    · exact fits_time (by omega) (by omega)
    · exact fits_long P (by omega) (by omega)
    · exact fits_long P (by omega) (by omega)

/-- The carry makes up for the division that rounds towards zero. -/
theorem nano2timespec_eq {n : ℤ} (hn : Fits 64 n) :
    nano2timespec P n = ⟨n / 1000000000, n % 1000000000⟩ := by
  obtain ⟨hmin, hmax⟩ := hn
  norm_num only at hmin hmax
  rcases tdiv_second n with ⟨hpos, hsec, hnsec⟩ | ⟨hneg, hsec, hnsec, hcarry⟩
  · have hs : signed 64 (n.tdiv nanosecondsPerSecond) = n / 1000000000 := by
      rw [hsec]
      exact signed_time (by omega) (by omega)
    have hr : signed P.longBits (n.tmod nanosecondsPerSecond) = n % 1000000000 := by
      rw [hnsec]
      exact signed_long P (by omega) (by omega)
    simp only [nano2timespec, hs, hr]
    rw [if_neg (by omega)]
  · have hs : signed 64 (n.tdiv nanosecondsPerSecond) = n / 1000000000 + 1 := by
      rw [hsec]
      exact signed_time (by omega) (by omega)
    have hr : signed P.longBits (n.tmod nanosecondsPerSecond) =
        n.tmod nanosecondsPerSecond := signed_long P (by omega) (by omega)
    have hone : signed P.longBits 1 = 1 := signed_long P (by norm_num) (by norm_num)
    have hsecond : signed P.longBits 1000000000 = 1000000000 :=
      signed_long P (by norm_num) (by norm_num)
    have hback : signed 64 (n / 1000000000) = n / 1000000000 := signed_time (by omega) (by omega)
    have hrest : signed P.longBits (n % 1000000000) = n % 1000000000 :=
      signed_long P (by omega) (by omega)
    simp only [nano2timespec, hs, hr, hcarry]
    rw [if_pos hneg, hnsec]
    simp only [nanosecondsPerSecond, zero_add, one_mul, hone, hsecond, add_sub_cancel_right,
      sub_add_cancel, hback, hrest]

/-- The nanoseconds are normalised and the time is `n`, computed without overflow. -/
structure Normalises (n : ℤ) : Prop where
  valid : 0 ≤ (nano2timespec P n).tvNsec ∧ (nano2timespec P n).tvNsec < 1000000000
  exact : (nano2timespec P n).tvSec * 1000000000 + (nano2timespec P n).tvNsec = n
  fits : ∀ op ∈ nano2timespecOps P n, Fits op.1 op.2

theorem nano2timespec_normalises {n : ℤ} (hn : Fits 64 n) : Normalises P n := by
  have heq := nano2timespec_eq P hn
  constructor
  · rw [heq]
    exact ⟨Int.emod_nonneg _ (by norm_num), Int.emod_lt_of_pos _ (by norm_num)⟩
  · rw [heq]
    exact Int.ediv_mul_add_emod _ _
  · exact nano2timespecOps_fit P hn

theorem nano2timespec_normalises_min : Normalises platform1000 (-9223372036854775808) :=
  nano2timespec_normalises platform1000 (by decide)

theorem nano2timespec_of_nonneg {n : ℤ} (h0 : 0 ≤ n) (h : n < 9223372036854775808) :
    nano2timespec P n = ⟨n / 1000000000, n % 1000000000⟩ :=
  nano2timespec_eq P (fits_time (by omega) h)

theorem tick_count_bounds {t : ℕ} (ht : t < 2 ^ 32) :
    0 ≤ (t : ℤ) * nanosecondsPerTick P ∧
      (t : ℤ) * nanosecondsPerTick P ≤ 4294967295 * 1000000000 := by
  have h1 := tick_pos P
  have h2 := tick_le P
  have h3 : (t : ℤ) ≤ 4294967295 := by omega
  constructor
  · positivity
  · exact mul_le_mul h3 h2 (by omega) (by norm_num)

theorem clockGettime_eq {t : ℕ} (ht : t < 2 ^ 32) :
    clockGettime P t = ⟨t * nanosecondsPerTick P / 1000000000,
      t * nanosecondsPerTick P % 1000000000⟩ := by
  obtain ⟨h0, h1⟩ := tick_count_bounds P ht
  rw [clockGettime, signed_time (by omega) (by omega)]
  exact nano2timespec_of_nonneg P h0 (by omega)

theorem clockGettime_valid {t : ℕ} (ht : t < 2 ^ 32) :
    validateTimespec (clockGettime P t) = true := by
  rw [clockGettime_eq P ht, validateTimespec_iff]
  exact ⟨Int.emod_nonneg _ (by norm_num), Int.emod_lt_of_pos _ (by norm_num)⟩

theorem clockGettime_wrapped (t : ℕ) : validateTimespec (clockGettime P t) = true := by
  rw [clockGettime, nano2timespec_eq P (signed_fits (by norm_num) _), validateTimespec_iff]
  exact ⟨Int.emod_nonneg _ (by norm_num), Int.emod_lt_of_pos _ (by norm_num)⟩

theorem clockGettime_nanos {t : ℕ} (ht : t < 2 ^ 32) :
    nanos (clockGettime P t) = t * nanosecondsPerTick P := by
  rw [clockGettime_eq P ht, nanos]
  exact Int.ediv_mul_add_emod _ _

theorem clockGettime_sec {t : ℕ} (ht : t < 2 ^ 32) :
    0 ≤ (clockGettime P t).tvSec ∧ (clockGettime P t).tvSec ≤ 4294967295 := by
  obtain ⟨h0, h1⟩ := tick_count_bounds P ht
  rw [clockGettime_eq P ht]
  constructor
  · exact Int.ediv_nonneg h0 (by norm_num)
  · show (t : ℤ) * nanosecondsPerTick P / 1000000000 ≤ 4294967295
    omega

end

/-- On valid times the lexicographic comparison is the comparison of the nanoseconds. -/
theorem timespecCmp_cases {x y : Timespec} (hx : validateTimespec x = true)
    (hy : validateTimespec y = true) :
    timespecCmp x y = 1 ∧ nanos y < nanos x ∨ timespecCmp x y = -1 ∧ nanos x < nanos y ∨
      timespecCmp x y = 0 ∧ nanos x = nanos y := by
  rw [validateTimespec_iff] at hx hy
  unfold timespecCmp nanos
  split_ifs <;> omega

theorem timespecSub_of_lt {P : Platform} {x y r : Timespec} (hx : validateTimespec x = true)
    (hy : validateTimespec y = true) (h : nanos x < nanos y) : timespecSub P x y r = (1, r) := by
  rcases timespecCmp_cases hx hy with ⟨_, hn⟩ | ⟨hc, _⟩ | ⟨_, hn⟩
  · omega
  · simp [timespecSub, hc]
  · omega

/-- The difference of two valid times is exact and valid, and its steps do not overflow.
The subtrahend is a clock reading, so the seconds of the minuend bound the seconds of the
difference. -/
theorem timespecSub_of_le {P : Platform} {x y r : Timespec} (hx : validateTimespec x = true)
    (hy : validateTimespec y = true) (hy0 : 0 ≤ y.tvSec) (hmax : x.tvSec < 2 ^ 63)
    (h : nanos y ≤ nanos x) :
    ∃ d, timespecSub P x y r = (0, d) ∧ validateTimespec d = true ∧
      nanos d = nanos x - nanos y ∧ 0 ≤ d.tvSec ∧ d.tvSec ≤ x.tvSec ∧
      ∀ op ∈ timespecSubOps P x y, Fits op.1 op.2 := by
  have hvx := validateTimespec_iff.mp hx
  have hvy := validateTimespec_iff.mp hy
  have hsec : y.tvSec ≤ x.tvSec := by
    unfold nanos at h
    omega
  rcases timespecCmp_cases hx hy with ⟨hc, hn⟩ | ⟨_, hn⟩ | ⟨hc, hn⟩
  · have h1 : signed 64 (x.tvSec - y.tvSec) = x.tvSec - y.tvSec :=
      signed_time (by omega) (by omega)
    have h2 : signed P.longBits (x.tvNsec - y.tvNsec) = x.tvNsec - y.tvNsec :=
      signed_long P (by omega) (by omega)
    have h3 : signed 64 (x.tvSec - y.tvSec - 1) = x.tvSec - y.tvSec - 1 :=
      signed_time (by omega) (by omega)
    have hops : ∀ op ∈ timespecSubOps P x y, Fits op.1 op.2 := by
      intro op hop
      simp only [timespecSubOps, hc, if_true, nanosecondsPerSecond, List.mem_append,
        List.mem_cons, List.not_mem_nil, or_false] at hop
      rcases hop with (rfl | rfl) | hop
      · exact fits_time (by omega) (by omega)
      · exact fits_long P (by omega) (by omega)
      · split_ifs at hop
        · simp only [List.mem_cons, List.not_mem_nil, or_false] at hop
          rcases hop with rfl | rfl
          · exact fits_time (by omega) (by omega)
          · exact fits_long P (by omega) (by omega)
        · simp at hop
    by_cases hb : x.tvNsec - y.tvNsec < 0
    · -- the borrow: the seconds differ, since the nanoseconds alone would be negative
      have h4 : signed P.longBits (x.tvNsec - y.tvNsec + nanosecondsPerSecond) =
          x.tvNsec - y.tvNsec + 1000000000 := by
        unfold nanosecondsPerSecond
        exact signed_long P (by omega) (by omega)
      refine ⟨⟨x.tvSec - y.tvSec - 1, x.tvNsec - y.tvNsec + 1000000000⟩, ?_, ?_, ?_, ?_, ?_, hops⟩
      · simp only [timespecSub, hc, h1, h2, h3, h4, hb, if_true]
        rw [if_neg (by norm_num), if_neg (by norm_num), if_neg (by omega)]
      · rw [validateTimespec_iff]
        constructor <;> simp only <;> omega
      · simp only [nanos]
        ring
      · unfold nanos at hn
        simp only
        omega
      · simp only
        omega
    · refine ⟨⟨x.tvSec - y.tvSec, x.tvNsec - y.tvNsec⟩, ?_, ?_, ?_, ?_, ?_, hops⟩
      · simp only [timespecSub, hc, h1, h2, hb, if_false]
        rw [if_neg (by norm_num), if_neg (by norm_num)]
      · rw [validateTimespec_iff]
        constructor <;> simp only <;> omega
      · simp only [nanos]
        ring
      · simp only
        omega
      · simp only
        omega
  · omega
  · refine ⟨⟨0, 0⟩, by simp [timespecSub, hc], rfl, by simp [nanos] at hn ⊢; omega, le_rfl, ?_, ?_⟩
    · show 0 ≤ x.tvSec
      omega
    · simp [timespecSubOps, hc]

theorem ticksOfNsec_bounds (P : Platform) (hdvd : P.tmrHz ∣ 1000000000) {nsec : ℤ}
    (h0 : 0 ≤ nsec) (h1 : nsec < 1000000000) :
    nsec ≤ ticksOfNsec P nsec * nanosecondsPerTick P ∧
      (ticksOfNsec P nsec - 1) * nanosecondsPerTick P < nsec ∧
      0 ≤ ticksOfNsec P nsec ∧ ticksOfNsec P nsec ≤ P.tmrHz := by
  have hp := tick_pos P
  have hz := tick_mul_hz P hdvd
  have hround : nsec ≤ ticksOfNsec P nsec * nanosecondsPerTick P ∧
      (ticksOfNsec P nsec - 1) * nanosecondsPerTick P < nsec ∧ 0 ≤ ticksOfNsec P nsec := by
    unfold ticksOfNsec
    rw [Int.tdiv_eq_ediv_of_nonneg h0, Int.tmod_eq_emod_of_nonneg h0]
    have he := Int.mul_ediv_add_emod nsec (nanosecondsPerTick P)
    have hr0 := Int.emod_nonneg nsec (show nanosecondsPerTick P ≠ 0 by omega)
    have hr1 := Int.emod_lt_of_pos nsec (show 0 < nanosecondsPerTick P by omega)
    have hq := Int.ediv_nonneg h0 (show 0 ≤ nanosecondsPerTick P by omega)
    split_ifs with h
    · rw [add_sub_cancel_right, add_mul, mul_comm (nsec / _)]
      omega
    · rw [add_zero, sub_mul, mul_comm (nsec / _)]
      omega
  obtain ⟨hlo, hhi, hk⟩ := hround
  refine ⟨hlo, hhi, hk, ?_⟩
  by_contra hn
  have hle : (P.tmrHz : ℤ) ≤ ticksOfNsec P nsec - 1 := by omega
  have := mul_le_mul_of_nonneg_right hle (show 0 ≤ nanosecondsPerTick P by omega)
  omega

theorem timespec2ticks_of_fits (P : Platform) (hdvd : P.tmrHz ∣ 1000000000) {d : Timespec}
    {r : ℕ} (hd : validateTimespec d = true) (h0 : 0 ≤ d.tvSec)
    (hfit : P.tmrHz * (d.tvSec + 1) < 9223372036854775808) :
    let total := P.tmrHz * d.tvSec + ticksOfNsec P d.tvNsec
    timespec2ticks P d r =
        (if total > UINT_MAX then .EINVAL else .ok, unsigned 32 total) ∧
      0 ≤ total ∧ nanos d ≤ total * nanosecondsPerTick P ∧
      (total - 1) * nanosecondsPerTick P < nanos d ∧
      ∀ op ∈ timespec2ticksOps P d, Fits op.1 op.2 := by
  intro total
  have hv := validateTimespec_iff.mp hd
  obtain ⟨hlo, hhi, hk0, hk1⟩ := ticksOfNsec_bounds P hdvd hv.1 hv.2
  have hz := tick_mul_hz P hdvd
  have hprod : 0 ≤ (P.tmrHz : ℤ) * d.tvSec := mul_nonneg (by omega) h0
  rw [mul_add, mul_one] at hfit
  have hhz := P.tmrHz_le
  have ht0 : 0 ≤ total := by omega
  have h1 : signed 64 (P.tmrHz * d.tvSec) = P.tmrHz * d.tvSec :=
    signed_time (by omega) (by omega)
  have h2 : signed P.longBits (d.tvNsec.tdiv (nanosecondsPerTick P) +
      if d.tvNsec.tmod (nanosecondsPerTick P) ≠ 0 then 1 else 0) = ticksOfNsec P d.tvNsec :=
    signed_long P (x := ticksOfNsec P d.tvNsec) (by omega) (by omega)
  have h3 : signed 64 (P.tmrHz * d.tvSec + ticksOfNsec P d.tvNsec) = total :=
    signed_time (by omega) (by omega)
  refine ⟨?_, ht0, ?_, ?_, ?_⟩
  · simp only [timespec2ticks, hd, h1, h2, h3]
    rw [if_neg (by simp), if_neg (by omega)]
  · have : total * nanosecondsPerTick P =
        d.tvSec * 1000000000 + ticksOfNsec P d.tvNsec * nanosecondsPerTick P := by
      rw [← hz]
      ring
    unfold nanos
    omega
  · have : (total - 1) * nanosecondsPerTick P =
        d.tvSec * 1000000000 + (ticksOfNsec P d.tvNsec - 1) * nanosecondsPerTick P := by
      rw [← hz]
      ring
    unfold nanos
    omega
  · have hdiv : d.tvNsec.tdiv (nanosecondsPerTick P) ≤ d.tvNsec := by
      rw [Int.tdiv_eq_ediv_of_nonneg hv.1]
      exact Int.ediv_le_self _ hv.1
    have hdiv0 : 0 ≤ d.tvNsec.tdiv (nanosecondsPerTick P) :=
      Int.tdiv_nonneg hv.1 (by have := tick_pos P; omega)
    intro op hop
    simp only [timespec2ticksOps, hd, if_true, List.mem_cons, List.not_mem_nil, or_false] at hop
    rcases hop with rfl | rfl | rfl | rfl
    · exact fits_time (by omega) (by omega)
    · exact fits_long P (by omega) (by omega)
    · exact fits_long P (by omega) (by omega)
    · exact fits_time (by omega) (by omega)

theorem isLeast_ticks (P : Platform) {t : ℕ} {D d : Timespec} {total : ℤ} (h0 : 0 ≤ total)
    (hd : nanos d = nanos D - t * nanosecondsPerTick P)
    (hlo : nanos d ≤ total * nanosecondsPerTick P)
    (hhi : (total - 1) * nanosecondsPerTick P < nanos d) :
    IsLeast {n : ℕ | nanos D ≤ (t + n) * nanosecondsPerTick P} total.toNat := by
  have hp := tick_pos P
  have hT : (total.toNat : ℤ) = total := Int.toNat_of_nonneg h0
  constructor
  · show nanos D ≤ (t + total.toNat) * nanosecondsPerTick P
    rw [hT, add_mul]
    omega
  · intro n hn
    have hn' : nanos D ≤ (t + n) * nanosecondsPerTick P := hn
    rw [add_mul] at hn'
    by_contra hlt
    have hle : (n : ℤ) ≤ total - 1 := by omega
    have := mul_le_mul_of_nonneg_right hle (show 0 ≤ nanosecondsPerTick P by omega)
    omega

theorem exists_least_ticks (P : Platform) (t : ℕ) (D : Timespec) :
    ∃ n, IsLeast {n : ℕ | nanos D ≤ (t + n) * nanosecondsPerTick P} n := by
  have hp := tick_pos P
  have hne : {n : ℕ | nanos D ≤ (t + n) * nanosecondsPerTick P}.Nonempty := by
    refine ⟨(nanos D).toNat, ?_⟩
    show nanos D ≤ (t + (nanos D).toNat) * nanosecondsPerTick P
    have h1 := mul_le_mul_of_nonneg_left hp (show 0 ≤ (t : ℤ) + (nanos D).toNat by omega)
    omega
  exact ⟨_, Nat.sInf_mem hne, fun n hn => Nat.sInf_le hn⟩

theorem clockGettimeOps_fit (P : Platform) {t : ℕ} (ht : t < 2 ^ 32) :
    ∀ op ∈ clockGettimeOps P t, Fits op.1 op.2 := by
  obtain ⟨h0, h1⟩ := tick_count_bounds P ht
  have hq : ((t : ℤ) * nanosecondsPerTick P).tdiv nanosecondsPerSecond =
      t * nanosecondsPerTick P / 1000000000 := Int.tdiv_eq_ediv_of_nonneg h0
  have hr : ((t : ℤ) * nanosecondsPerTick P).tmod nanosecondsPerSecond =
      t * nanosecondsPerTick P % 1000000000 := Int.tmod_eq_emod_of_nonneg h0
  intro op hop
  simp only [clockGettimeOps, nano2timespecOps, hq, hr, List.mem_cons, List.mem_append,
    List.not_mem_nil, or_false] at hop
  rcases hop with rfl | (rfl | rfl) | hop
  · exact fits_time (by omega) (by omega)
  · exact fits_time (by omega) (by omega)
  · exact fits_long P (by omega) (by omega)
  · rw [if_neg (by omega)] at hop
    simp at hop

/-- A deadline that is not in the past converts to the least sufficient number of ticks,
or is refused when that number needs more than 32 bits. -/
theorem absTimespec2ticks_future (P : Platform) (hdvd : P.tmrHz ∣ 1000000000) {t : ℕ}
    (ht : t < 2 ^ 32) {D : Timespec} (hD : validateTimespec D = true)
    (hmax : D.tvSec < 2 ^ 63) (hfit : P.tmrHz * (D.tvSec + 1) < 9223372036854775808)
    (r : ℕ) (h : nanos (clockGettime P t) ≤ nanos D) {n : ℕ}
    (hn : IsLeast {n : ℕ | nanos D ≤ (t + n) * nanosecondsPerTick P} n) :
    absTimespec2ticks P D (clockGettime P t) r =
        (if 4294967295 < n then .EINVAL else .ok, n % 2 ^ 32) ∧
      ∀ op ∈ absTimespec2ticksOps P D (clockGettime P t), Fits op.1 op.2 := by
  obtain ⟨hc0, -⟩ := clockGettime_sec P ht
  obtain ⟨d, hsub, hd, hnd, hd0, hd1, hops⟩ :=
    timespecSub_of_le (P := P) (r := ⟨0, 0⟩) hD (clockGettime_valid P ht) hc0 hmax h
  rw [clockGettime_nanos P ht] at hnd
  have hfit' : P.tmrHz * (d.tvSec + 1) < 9223372036854775808 := by
    have := mul_le_mul_of_nonneg_left (show d.tvSec + 1 ≤ D.tvSec + 1 by omega)
      (Int.natCast_nonneg P.tmrHz)
    omega
  obtain ⟨hticks, ht0, hlo, hhi, hops'⟩ := timespec2ticks_of_fits P hdvd (r := r) hd hd0 hfit'
  have hleast := isLeast_ticks P ht0 hnd hlo hhi
  have hN := hn.unique hleast
  refine ⟨?_, ?_⟩
  · simp only [absTimespec2ticks, hsub]
    rw [if_neg (by norm_num), if_neg (by norm_num), hticks]
    unfold UINT_MAX unsigned
    refine Prod.ext ?_ ?_
    · simp only
      split_ifs <;> first | rfl | omega
    · simp only
      omega
  · intro op hop
    simp only [absTimespec2ticksOps, hsub, if_true, List.mem_append] at hop
    rcases hop with hop | hop
    · exact hops op hop
    · exact hops' op hop

theorem absTimespec2ticks_past (P : Platform) {t : ℕ} (ht : t < 2 ^ 32) {D : Timespec}
    (hD : validateTimespec D = true) (r : ℕ) (h : nanos D < nanos (clockGettime P t)) :
    absTimespec2ticks P D (clockGettime P t) r = (.ETIMEDOUT, r) ∧
      ∀ op ∈ absTimespec2ticksOps P D (clockGettime P t), Fits op.1 op.2 := by
  have hsub := timespecSub_of_lt (P := P) (r := ⟨0, 0⟩) hD (clockGettime_valid P ht) h
  refine ⟨by simp [absTimespec2ticks, hsub], fun op hop => ?_⟩
  rcases timespecCmp_cases hD (clockGettime_valid P ht) with ⟨_, hn⟩ | ⟨hc, _⟩ | ⟨_, hn⟩
  · omega
  · simp [absTimespec2ticksOps, timespecSubOps, hsub, hc] at hop
  · omega

theorem absTimespec2ticks_near {P : Platform} (hdvd : P.tmrHz ∣ 1000000000) {t n : ℕ}
    (ht : t < 2 ^ 32) {D : Timespec} (hD : validateTimespec D = true)
    (hlater : nanos (clockGettime P t) ≤ nanos D)
    (hn : IsLeast {n : ℕ | nanos D ≤ (t + n) * nanosecondsPerTick P} n) (hlt : n < 2 ^ 32)
    (r : ℕ) : absTimespec2ticks P D (clockGettime P t) r = (.ok, n) := by
  have htick := tick_le P
  have hz : (P.tmrHz : ℤ) ≤ 1000000000 := by exact_mod_cast P.tmrHz_le
  obtain ⟨h0, -⟩ := validateTimespec_iff.mp hD
  have hreach : nanos D ≤ (t + n) * nanosecondsPerTick P := hn.1
  have hspan : ((t : ℤ) + n) * nanosecondsPerTick P ≤ 8589934592 * 1000000000 :=
    mul_le_mul (by omega) htick (by have := tick_pos P; omega) (by norm_num)
  have hsec : D.tvSec ≤ 8589934592 := by
    unfold nanos at hreach
    omega
  have hprod : (P.tmrHz : ℤ) * (D.tvSec + 1) ≤ 1000000000 * 8589934593 :=
    (mul_le_mul_of_nonneg_left (by omega) (Int.natCast_nonneg _)).trans
      (mul_le_mul_of_nonneg_right hz (by norm_num))
  have h := (absTimespec2ticks_future P hdvd ht hD (by omega) (by omega) r hlater hn).1
  rw [h, if_neg (by omega), Nat.mod_eq_of_lt (by omega)]

theorem tick_deadline_isLeast (P : Platform) {t t2 : ℕ} (h : t ≤ t2) (ht2 : t2 < 2 ^ 32) :
    IsLeast {n : ℕ | nanos (clockGettime P t2) ≤ (t + n) * nanosecondsPerTick P} (t2 - t) := by
  have hp := tick_pos P
  rw [clockGettime_nanos P ht2]
  constructor
  · show (t2 : ℤ) * nanosecondsPerTick P ≤ (t + (t2 - t : ℕ)) * nanosecondsPerTick P
    rw [Nat.cast_sub h]
    apply le_of_eq
    ring
  · intro n hn
    have hle := le_of_mul_le_mul_right
      (show (t2 : ℤ) * nanosecondsPerTick P ≤ (t + n) * nanosecondsPerTick P from hn) (by omega)
    omega

/-- The conversion of an absolute deadline at tick `t`: `ETIMEDOUT` exactly when it is
earlier than the clock, otherwise the least number of ticks that reaches it, or `EINVAL`
when that number does not fit; nothing on the way overflows. -/
theorem absTimespec2ticks_exact (P : Platform) (hdvd : P.tmrHz ∣ 1000000000) {t : ℕ}
    (ht : t < 2 ^ 32) {D : Timespec} (hD : validateTimespec D = true)
    (hfit : Fits 64 (P.tmrHz * (D.tvSec + 1))) (result : ℕ) :
    let cur := clockGettime P t
    let conv := absTimespec2ticks P D cur result
    (conv.1 = .ETIMEDOUT ↔ nanos D < nanos cur) ∧
      (¬ nanos D < nanos cur →
        ∀ n, IsLeast {n : ℕ | nanos D ≤ (t + n) * nanosecondsPerTick P} n →
          (n ≤ 2 ^ 32 - 1 → conv = (.ok, n)) ∧ (2 ^ 32 - 1 < n → conv.1 = .EINVAL)) ∧
      (∀ op ∈ clockGettimeOps P t ++ absTimespec2ticksOps P D cur, Fits op.1 op.2) ∧
      ∀ t2, t ≤ t2 → t2 < 2 ^ 32 →
        absTimespec2ticks P (clockGettime P t2) cur result = (.ok, t2 - t) := by
  intro cur conv
  have hz : (1 : ℤ) ≤ P.tmrHz := by exact_mod_cast P.tmrHz_pos
  have hhz : (P.tmrHz : ℤ) ≤ 1000000000 := by exact_mod_cast P.tmrHz_le
  obtain ⟨-, hfit⟩ := hfit
  norm_num only at hfit
  have hmax : D.tvSec < 2 ^ 63 := by
    by_contra hn
    have := mul_le_mul_of_nonneg_right hz (show 0 ≤ D.tvSec + 1 by omega)
    omega
  have hclock := clockGettimeOps_fit P ht
  refine ⟨?_, ?_, ?_, ?_⟩
  · constructor
    · intro hc
      by_contra hn
      obtain ⟨d, hsub, hd, hnd, hd0, -, -⟩ := timespecSub_of_le (P := P) (r := ⟨0, 0⟩) hD
        (clockGettime_valid P ht) (clockGettime_sec P ht).1 hmax (not_lt.mp hn)
      simp only [conv, cur, absTimespec2ticks, hsub, timespec2ticks, hd] at hc
      rw [if_neg (by norm_num), if_neg (by norm_num)] at hc
      split_ifs at hc
    · intro hlt
      simp only [conv, cur, (absTimespec2ticks_past P ht hD result hlt).1]
  · intro hn n hleast
    have h := (absTimespec2ticks_future P hdvd ht hD hmax hfit result (not_lt.mp hn) hleast).1
    constructor
    · intro hle
      rw [show conv = _ from h, if_neg (by omega), Nat.mod_eq_of_lt (by omega)]
    · intro hlt
      rw [show conv = _ from h, if_pos (by omega)]
  · intro op hop
    rcases List.mem_append.mp hop with hop | hop
    · exact hclock op hop
    · by_cases hlt : nanos D < nanos cur
      · exact (absTimespec2ticks_past P ht hD result hlt).2 op hop
      · obtain ⟨d, -, -, -, hd0, -, -⟩ := timespecSub_of_le (P := P) (r := ⟨0, 0⟩) hD
          (clockGettime_valid P ht) (clockGettime_sec P ht).1 hmax (not_lt.mp hlt)
        obtain ⟨n, hn⟩ := exists_least_ticks P t D
        exact (absTimespec2ticks_future P hdvd ht hD hmax hfit result (not_lt.mp hlt) hn).2 op hop
  · intro t2 hle ht2
    have hle' : nanos cur ≤ nanos (clockGettime P t2) := by
      rw [clockGettime_nanos P ht, clockGettime_nanos P ht2]
      have := tick_pos P
      exact mul_le_mul_of_nonneg_right (by exact_mod_cast hle) (by omega)
    have hsec := clockGettime_sec P ht2
    have hprod := mul_le_mul hhz (show (clockGettime P t2).tvSec + 1 ≤ 4294967296 by omega)
      (by omega) (by norm_num)
    rw [(absTimespec2ticks_future P hdvd ht (clockGettime_valid P ht2) (by omega) (by omega)
      result hle' (tick_deadline_isLeast P hle ht2)).1, if_neg (by omega),
      Nat.mod_eq_of_lt (by omega)]

/-- A deadline with a fraction of a tick and a borrow in the subtraction: 1.2500001 s seen
from tick 900 is 351 ticks away. -/
theorem absTimespec2ticks_exact_borrow :
    absTimespec2ticks platform1000 ⟨1, 250000100⟩ (clockGettime platform1000 900) 0 =
      (.ok, 351) := by
  have hn : ¬ nanos ⟨1, 250000100⟩ < nanos (clockGettime platform1000 900) := by decide
  refine ((absTimespec2ticks_exact platform1000 (by decide) (t := 900) (by norm_num)
    (D := ⟨1, 250000100⟩) (by decide) (by decide) 0).2.1 hn 351 ⟨?_, ?_⟩).1 (by norm_num)
  · show nanos ⟨1, 250000100⟩ ≤ ((900 : ℕ) + (351 : ℕ)) * nanosecondsPerTick platform1000
    decide
  · intro n h
    have h' : (1250000100 : ℤ) ≤ ((900 : ℕ) + (n : ℤ)) * 1000000 := h
    omega

/-- The number of ticks that cover a time, rounded up. -/
def exactTicks (P : Platform) (d : Timespec) : ℤ := -(-nanos d / nanosecondsPerTick P)

theorem exactTicks_le_iff (P : Platform) (d : Timespec) (n : ℤ) :
    exactTicks P d ≤ n ↔ nanos d ≤ n * nanosecondsPerTick P := by
  have hp : 0 < nanosecondsPerTick P := tick_pos P
  rw [exactTicks, neg_le, Int.le_ediv_iff_mul_le hp, neg_mul, neg_le_neg_iff]

theorem exactTicks_eq (P : Platform) (hdvd : P.tmrHz ∣ 1000000000) {d : Timespec}
    (hd : validateTimespec d = true) :
    exactTicks P d = P.tmrHz * d.tvSec + ticksOfNsec P d.tvNsec := by
  obtain ⟨h0, h1⟩ := validateTimespec_iff.mp hd
  obtain ⟨hlo, hhi, -, -⟩ := ticksOfNsec_bounds P hdvd h0 h1
  have hz := tick_mul_hz P hdvd
  have hsec : P.tmrHz * d.tvSec * nanosecondsPerTick P = d.tvSec * 1000000000 := by
    rw [← hz]
    ring
  apply le_antisymm
  · rw [exactTicks_le_iff, add_mul, hsec, nanos]
    omega
  · by_contra hlt
    have hle := (exactTicks_le_iff P d (P.tmrHz * d.tvSec + ticksOfNsec P d.tvNsec - 1)).mp
      (by omega)
    rw [add_sub_assoc, add_mul, hsec, nanos] at hle
    omega

/-- The tick count the code computes, without any overflow: the ticks of the seconds and those
of the rest, rounded up. -/
def tickCount (P : Platform) (d : Timespec) : ℤ := P.tmrHz * d.tvSec + ticksOfNsec P d.tvNsec

theorem ticksOfNsec_range (P : Platform) {nsec : ℤ} (h0 : 0 ≤ nsec) (h1 : nsec < 1000000000) :
    0 ≤ ticksOfNsec P nsec ∧ ticksOfNsec P nsec ≤ 1000000000 := by
  have htick := tick_pos P
  have hdiv0 : 0 ≤ nsec / nanosecondsPerTick P := Int.ediv_nonneg h0 (by omega)
  have hdiv1 : nsec / nanosecondsPerTick P ≤ nsec := Int.ediv_le_self _ h0
  unfold ticksOfNsec
  rw [Int.tdiv_eq_ediv_of_nonneg h0]
  split_ifs
  · omega
  · omega

/-- The conversion of any valid time, at any rate: the overflow test sees the tick count only up
to a multiple of 2^64. -/
theorem timespec2ticks_valid (P : Platform) {d : Timespec} (hd : validateTimespec d = true)
    (r : ℕ) : timespec2ticks P d r =
      (if tickCount P d % 2 ^ 64 < 2 ^ 32 then .ok else .EINVAL, unsigned 32 (tickCount P d)) := by
  obtain ⟨hn0, hn1⟩ := validateTimespec_iff.mp hd
  obtain ⟨hk0, hk1⟩ := ticksOfNsec_range P hn0 hn1
  have hnsec : signed P.longBits (d.tvNsec.tdiv (nanosecondsPerTick P) +
      if d.tvNsec.tmod (nanosecondsPerTick P) ≠ 0 then 1 else 0) = ticksOfNsec P d.tvNsec :=
    signed_long P (x := ticksOfNsec P d.tvNsec) (by omega) (by omega)
  have htotal : signed 64 (signed 64 (P.tmrHz * d.tvSec) + ticksOfNsec P d.tvNsec) =
      signed 64 (tickCount P d) := signed_add_left 64 _ _
  have hmod0 : 0 ≤ tickCount P d % 2 ^ 64 := Int.emod_nonneg _ (by norm_num)
  simp only [timespec2ticks, hd, hnsec, htotal, UINT_MAX, unsigned_signed (by norm_num : 32 ≤ 64)]
  rcases signed_cases (by norm_num : 0 < 64) (tickCount P d) with ⟨h0, heq, -⟩ | ⟨h0, hge⟩
  · rw [heq, if_neg (by simp), if_neg (by omega)]
    split_ifs <;> first | rfl | omega
  · rw [if_neg (by simp), if_pos h0, if_neg (by omega)]

/-- The conversion of a time whose tick count fits, also when its seconds are negative. -/
theorem timespec2ticks_count (P : Platform) {d : Timespec} (hd : validateTimespec d = true)
    (h0 : 0 ≤ tickCount P d) (h32 : tickCount P d < 2 ^ 32) (r : ℕ) :
    timespec2ticks P d r = (.ok, (tickCount P d).toNat) := by
  have hmod : tickCount P d % 2 ^ 64 = tickCount P d := Int.emod_eq_of_lt h0 (by omega)
  rw [timespec2ticks_valid P hd, hmod, if_pos h32, unsigned_of_nonneg h0 h32]

theorem timespec2ticks_exact (P : Platform) (hdvd : P.tmrHz ∣ 1000000000) {d : Timespec}
    (hd : validateTimespec d = true) (h0 : 0 ≤ exactTicks P d) (h32 : exactTicks P d < 2 ^ 32)
    (r : ℕ) : timespec2ticks P d r = (.ok, (exactTicks P d).toNat) := by
  have heq : exactTicks P d = tickCount P d := exactTicks_eq P hdvd hd
  rw [heq] at h0 h32 ⊢
  exact timespec2ticks_count P hd h0 h32 r

theorem exactTicks_isLeast (P : Platform) (d : Timespec) (t : ℕ) (h : (t : ℤ) ≤ exactTicks P d) :
    IsLeast {n : ℕ | nanos d ≤ (t + n) * nanosecondsPerTick P} (exactTicks P d - t).toNat := by
  constructor
  · show nanos d ≤ (t + (exactTicks P d - t).toNat) * nanosecondsPerTick P
    rw [← exactTicks_le_iff]
    omega
  · intro n hn
    have hle : exactTicks P d ≤ t + n := (exactTicks_le_iff P d _).mpr hn
    omega

end LibPosix.Deadline
