import LibPosix.Deadline

/-! The two clocks of `posix_clock.c`. Both read the kernel's tick counter, which has 32 bits:
`clock_gettime` scales it by a whole number of nanoseconds per tick, `time` divides it by the
tick rate. -/
namespace LibPosix.Clock
open MachineInt TimeUtils Deadline

inductive ClockId where
  | CLOCK_REALTIME
  | CLOCK_MONOTONIC
  deriving DecidableEq, Repr

/-- `none` is a null pointer. -/
def clockGettime (P : Platform) (_clockId : ClockId) (tp : Option Timespec) (tmrTicks : ℕ) :
    ℤ × Option Timespec :=
  match tp with
  | none => (-1, none)
  | some _ => (0, some (TimeUtils.clockGettime P tmrTicks))

def time (P : Platform) (tloc : Option ℤ) (tmrTicks : ℕ) : ℤ × Option ℤ :=
  let currentTime := signed 64 (tmrTicks / P.tmrHz : ℕ)
  (currentTime, tloc.map fun _ => currentTime)

def tick (tmrTicks : ℕ) : ℕ := unsigned 32 (tmrTicks + 1)

def tickRun (tmrTicks n : ℕ) : ℕ := tick^[n] tmrTicks

theorem tick_eq (t : ℕ) : tick t = (t + 1) % 2 ^ 32 := by
  unfold tick unsigned
  omega

theorem tickRun_eq {t : ℕ} (ht : t < 2 ^ 32) (n : ℕ) : tickRun t n = (t + n) % 2 ^ 32 := by
  induction n with
  | zero => exact (Nat.mod_eq_of_lt ht).symm
  | succ n ih =>
    have hstep : tickRun t (n + 1) = tick (tickRun t n) := Function.iterate_succ_apply' tick n t
    rw [hstep, ih, tick_eq]
    omega

theorem tickRun_lt {t : ℕ} (ht : t < 2 ^ 32) (n : ℕ) : tickRun t n < 2 ^ 32 := by
  rw [tickRun_eq ht]
  exact Nat.mod_lt _ (by norm_num)

section
variable (P : Platform)

theorem clockGettime_some (c : ClockId) (tp : Timespec) (t : ℕ) :
    clockGettime P c (some tp) t = (0, some (TimeUtils.clockGettime P t)) := rfl

theorem time_eq (tloc : Option ℤ) {t : ℕ} (ht : t < 2 ^ 32) :
    (time P tloc t).1 = (t / P.tmrHz : ℕ) := by
  have hle : t / P.tmrHz ≤ t := Nat.div_le_self t P.tmrHz
  have hlt : ((t / P.tmrHz : ℕ) : ℤ) < 9223372036854775808 := by
    exact_mod_cast (by omega : t / P.tmrHz < 9223372036854775808)
  simp only [time]
  exact signed_time (le_trans (by norm_num) (Int.natCast_nonneg _)) hlt

theorem clockGettime_cmp {s t : ℕ} (hs : s < 2 ^ 32) (ht : t < 2 ^ 32) :
    0 ≤ timespecCmp (TimeUtils.clockGettime P t) (TimeUtils.clockGettime P s) ↔ s ≤ t := by
  have hpos : 0 < nanosecondsPerTick P := tick_pos P
  have hcases := timespecCmp_cases (clockGettime_valid P ht) (clockGettime_valid P hs)
  rw [clockGettime_nanos P ht, clockGettime_nanos P hs] at hcases
  have hle : (s : ℤ) * nanosecondsPerTick P ≤ t * nanosecondsPerTick P ↔ s ≤ t := by
    rw [mul_le_mul_iff_of_pos_right hpos]
    exact Int.ofNat_le
  rw [← hle]
  rcases hcases with ⟨hc, hn⟩ | ⟨hc, hn⟩ | ⟨hc, hn⟩
  · rw [hc]
    exact iff_of_true (by norm_num) hn.le
  · rw [hc]
    exact iff_of_false (by norm_num) (not_le.mpr hn)
  · rw [hc]
    exact iff_of_true le_rfl hn.ge

theorem time_mono {s t : ℕ} (hs : s < 2 ^ 32) (ht : t < 2 ^ 32) (h : s ≤ t)
    (sloc tloc : Option ℤ) : (time P sloc s).1 ≤ (time P tloc t).1 := by
  rw [time_eq P sloc hs, time_eq P tloc ht]
  exact_mod_cast Nat.div_le_div_right h

end

/-- A call at the tick count `t` does not go back behind one at `s`, whichever the clocks are
called by. -/
def NotEarlier (P : Platform) (s t : ℕ) : Prop :=
  (∀ c d x y x' y', clockGettime P c (some x) s = (0, some x') →
    clockGettime P d (some y) t = (0, some y') → 0 ≤ timespecCmp y' x') ∧
  ∀ sloc tloc, (time P sloc s).1 ≤ (time P tloc t).1

/-- The clocks do not go back between two calls exactly if the counter has not wrapped below
its earlier value. -/
theorem clock_notEarlier_iff (P : Platform) {t : ℕ} (ht : t < 2 ^ 32) (i j : ℕ) :
    NotEarlier P (tickRun t i) (tickRun t j) ↔ (t + i) % 2 ^ 32 ≤ (t + j) % 2 ^ 32 := by
  have hi := tickRun_lt ht i
  have hj := tickRun_lt ht j
  rw [← tickRun_eq ht i, ← tickRun_eq ht j]
  constructor
  · rintro ⟨hget, -⟩
    apply (clockGettime_cmp P hi hj).mp
    exact hget .CLOCK_MONOTONIC .CLOCK_MONOTONIC ⟨0, 0⟩ ⟨0, 0⟩ _ _
      (clockGettime_some P _ _ _) (clockGettime_some P _ _ _)
  · intro hle
    refine ⟨fun c d x y x' y' hx hy => ?_, time_mono P hi hj hle⟩
    rw [clockGettime_some, Prod.mk.injEq, Option.some.injEq] at hx hy
    rw [← hx.2, ← hy.2]
    exact (clockGettime_cmp P hi hj).mpr hle

theorem clock_notEarlier_second :
    NotEarlier platform1000 (tickRun 5 2) (tickRun 5 1002) :=
  (clock_notEarlier_iff platform1000 (by decide) 2 1002).mpr (by decide)

theorem clock_goes_back :
    ¬ NotEarlier platform1000 (tickRun 4294967295 0) (tickRun 4294967295 1) := by
  rintro ⟨-, htime⟩
  have h := htime none none
  revert h
  decide +kernel

/-- The remainder of the tick length that `clock_gettime` loses in a whole second is made up
for by the started one. -/
theorem time_eq_clockGettime_iff (P : Platform) (c : ClockId) (tp : Timespec) (tloc : Option ℤ)
    {t : ℕ} (ht : t < 2 ^ 32) :
    (∃ d, clockGettime P c (some tp) t = (0, some d) ∧ (time P tloc t).1 = d.tvSec) ↔
      t / P.tmrHz * (1000000000 % P.tmrHz) ≤ t % P.tmrHz * (1000000000 / P.tmrHz) := by
  have hpos : 0 < P.tmrHz := P.tmrHz_pos
  simp only [clockGettime_some, Prod.mk.injEq, true_and, Option.some.injEq, exists_eq_left',
    time_eq P tloc ht, clockGettime_eq P ht, nanosecondsPerTick, nanosecondsPerSecond]
  norm_cast
  have hsecond : 1000000000 / P.tmrHz * P.tmrHz + 1000000000 % P.tmrHz = 1000000000 :=
    Nat.div_add_mod' _ _
  have hticks : t / P.tmrHz * P.tmrHz + t % P.tmrHz = t := Nat.div_add_mod' _ _
  have hlt : t % P.tmrHz < P.tmrHz := Nat.mod_lt t hpos
  have hq : 0 < 1000000000 / P.tmrHz := Nat.div_pos P.tmrHz_le hpos
  generalize 1000000000 / P.tmrHz = q at hsecond hq ⊢
  generalize 1000000000 % P.tmrHz = r at hsecond ⊢
  generalize t / P.tmrHz = a at hticks ⊢
  generalize t % P.tmrHz = b at hticks hlt ⊢
  have hsum : t * q + a * r = a * 1000000000 + b * q := by
    rw [← hticks, ← hsecond]
    ring
  have hless : b * q < 1000000000 := by
    have hmul : b * q < P.tmrHz * q := Nat.mul_lt_mul_of_pos_right hlt hq
    rw [mul_comm P.tmrHz q] at hmul
    omega
  omega

/-- At a rate that divides the second the clocks agree at every tick. -/
theorem time_eq_clockGettime_millisecond :
    ∃ d, clockGettime platform1000 .CLOCK_REALTIME (some ⟨0, 0⟩) 12345 = (0, some d) ∧
      (time platform1000 none 12345).1 = d.tvSec :=
  (time_eq_clockGettime_iff platform1000 .CLOCK_REALTIME ⟨0, 0⟩ none (by decide)).mpr (by decide)

/-- Three ticks a second: after a second `clock_gettime` still shows 0.999999999. -/
def platform3 : Platform := ⟨3, 32, 4294967295, 32, by decide, by decide, le_rfl⟩

theorem time_ahead_of_clockGettime :
    clockGettime platform3 .CLOCK_REALTIME (some ⟨0, 0⟩) 3 = (0, some ⟨0, 999999999⟩) ∧
      (time platform3 none 3).1 = 1 := by
  decide +kernel

end LibPosix.Clock
