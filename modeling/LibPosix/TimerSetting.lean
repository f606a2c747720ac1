import LibPosix.Timer

/-! What `timer_settime` stores and what `timer_gettime` reads back, at any tick rate: times and
tick counts are converted into each other, and the conversions are exact as long as the counts
fit in 32 bits. -/
namespace LibPosix.TimerSetting
open MachineInt TimeUtils Deadline Timer

/-- The time of a number of ticks, as `timer_gettime` writes it. -/
def spanOf (P : Platform) (n : ℕ) : Timespec :=
  ⟨(n / P.tmrHz : ℕ), (n % P.tmrHz : ℕ) * nanosecondsPerTick P⟩

def periodOf (P : Platform) (itInterval : Timespec) : ℕ :=
  if timespecIsZero itInterval then 0 else (timespec2ticks P itInterval 0).2

theorem timespecIsZero_iff {ts : Timespec} :
    timespecIsZero ts = true ↔ ts.tvSec = 0 ∧ ts.tvNsec = 0 := by
  simp [timespecIsZero]

section Span
variable (P : Platform) (n : ℕ)

theorem rest_bounds : 0 ≤ ((n % P.tmrHz : ℕ) : ℤ) * nanosecondsPerTick P ∧
    ((n % P.tmrHz : ℕ) : ℤ) * nanosecondsPerTick P < 1000000000 := by
  have htick := tick_pos P
  have hpos := P.tmrHz_pos
  have hmod : n % P.tmrHz < P.tmrHz := Nat.mod_lt n hpos
  have hround : (P.tmrHz : ℤ) * nanosecondsPerTick P ≤ 1000000000 :=
    Int.mul_ediv_self_le (by omega)
  have hlt : ((n % P.tmrHz : ℕ) : ℤ) * nanosecondsPerTick P < P.tmrHz * nanosecondsPerTick P :=
    mul_lt_mul_of_pos_right (by exact_mod_cast hmod) (by omega)
  constructor
  · positivity
  · omega

theorem spanOf_valid : validateTimespec (spanOf P n) = true :=
  validateTimespec_iff.mpr (rest_bounds P n)

/-- The round-up division cancels the length of a tick, whatever that is. -/
theorem tickCount_spanOf : tickCount P (spanOf P n) = n := by
  have htick : nanosecondsPerTick P ≠ 0 := by
    have hpos := tick_pos P
    omega
  have hrest : ticksOfNsec P ((n % P.tmrHz : ℕ) * nanosecondsPerTick P) = (n % P.tmrHz : ℕ) := by
    rw [ticksOfNsec, Int.mul_tdiv_cancel _ htick, Int.mul_tmod_left, if_neg (by simp), add_zero]
  have hsum : (P.tmrHz : ℤ) * (n / P.tmrHz : ℕ) + (n % P.tmrHz : ℕ) = n := by
    exact_mod_cast Nat.div_add_mod n P.tmrHz
  rw [tickCount, spanOf, hrest]
  exact hsum

theorem tickCount_zero {ts : Timespec} (h : timespecIsZero ts = true) : tickCount P ts = 0 := by
  obtain ⟨hs, hn⟩ := timespecIsZero_iff.mp h
  simp [tickCount, ticksOfNsec, hs, hn]

theorem spanOf_isZero : timespecIsZero (spanOf P n) = true ↔ n = 0 := by
  constructor
  · intro h
    have hcount := tickCount_zero P h
    rw [tickCount_spanOf] at hcount
    exact_mod_cast hcount
  · intro h
    simp [timespecIsZero, spanOf, h]

theorem nanos_spanOf (hdvd : P.tmrHz ∣ 1000000000) :
    nanos (spanOf P n) = n * nanosecondsPerTick P := by
  have hz := tick_mul_hz P hdvd
  have hn : (P.tmrHz : ℤ) * (n / P.tmrHz : ℕ) + (n % P.tmrHz : ℕ) = n := by
    exact_mod_cast Nat.div_add_mod n P.tmrHz
  calc nanos (spanOf P n)
      = (n / P.tmrHz : ℕ) * (P.tmrHz * nanosecondsPerTick P) +
          (n % P.tmrHz : ℕ) * nanosecondsPerTick P := by rw [hz]; rfl
    _ = (P.tmrHz * (n / P.tmrHz : ℕ) + (n % P.tmrHz : ℕ)) * nanosecondsPerTick P := by ring
    _ = n * nanosecondsPerTick P := by rw [hn]

end Span

section Reading
variable {P : Platform} {n : ℕ}

theorem spanOf_cast (hn : n < 2 ^ 32) :
    (⟨signed 64 (n / P.tmrHz : ℕ),
      signed P.longBits ((n % P.tmrHz : ℕ) * nanosecondsPerTick P)⟩ : Timespec) = spanOf P n := by
  obtain ⟨h0, h1⟩ := rest_bounds P n
  have hdiv : n / P.tmrHz ≤ n := Nat.div_le_self n P.tmrHz
  have hsec : signed 64 (n / P.tmrHz : ℕ) = (n / P.tmrHz : ℕ) := by
    generalize n / P.tmrHz = sec at hdiv ⊢
    exact signed_time (by omega) (by omega)
  rw [hsec, signed_long P (by omega) (by omega), spanOf]

theorem timerGettime_interval (now : ℕ) {timer : TimerInternal} (hp : timer.period < 2 ^ 32) :
    (timerGettime P now timer).itInterval = spanOf P timer.period := spanOf_cast hp

theorem timerGettime_off (now : ℕ) {timer : TimerInternal} (h : timer.ost = none) :
    (timerGettime P now timer).itValue = ⟨0, 0⟩ := by
  simp [timerGettime, h]

/-- What is left is right also when the counter wraps in between. -/
theorem timerGettime_armed {now : ℕ} {timer : TimerInternal} (h : timer.ost = some (now + n))
    (hn : n < 2 ^ 32) : (timerGettime P now timer).itValue = spanOf P n := by
  have hleft : unsigned 32 (((now + n) % 2 ^ 32 : ℕ) - (tmrTicks now : ℤ)) = n := by
    unfold unsigned tmrTicks
    omega
  simp only [timerGettime, h, hleft]
  exact spanOf_cast hn

theorem timerGettime_value (P : Platform) (now : ℕ) (timer : TimerInternal) :
    ∃ n, n < 2 ^ 32 ∧ (timerGettime P now timer).itValue = spanOf P n := by
  cases h : timer.ost with
  | none => exact ⟨0, by norm_num, by rw [timerGettime_off now h]; simp [spanOf]⟩
  | some expire =>
    simp only [timerGettime, h]
    exact ⟨_, unsigned_lt 32 _, spanOf_cast (unsigned_lt 32 _)⟩

theorem periodOf_lt (P : Platform) (itInterval : Timespec) : periodOf P itInterval < 2 ^ 32 := by
  unfold periodOf
  split_ifs
  · norm_num
  · by_cases hv : validateTimespec itInterval = false
    · simp [timespec2ticks, hv]
    · rw [timespec2ticks, if_neg hv]
      exact unsigned_lt 32 _

theorem periodOf_count {itInterval : Timespec} (hv : validateTimespec itInterval = true)
    (h0 : 0 ≤ tickCount P itInterval) (h32 : tickCount P itInterval < 2 ^ 32) :
    periodOf P itInterval = (tickCount P itInterval).toNat := by
  unfold periodOf
  split_ifs with hz
  · simp [tickCount_zero P hz]
  · rw [timespec2ticks_count P hv h0 h32]

end Reading

section Setting
variable {P : Platform} (now flags : ℕ) {value : Itimerspec} (wantsOld : Bool)
  (timer : TimerInternal)

theorem timerSettime_valid (hi : validateTimespec value.itInterval = true)
    (hd : validateTimespec value.itValue = true) (hnz : timespecIsZero value.itValue = false) :
    timerSettime P now flags value wantsOld timer =
      let old := if wantsOld = true then some (timerGettime P now timer) else none
      let timer := timer.tmrOf.setPeriod (periodOf P value.itInterval)
      let next := nextExpire P now flags value.itValue
      if next.2 = 0 then ⟨.ret next.1, old, (timerDo now timer).1, (timerDo now timer).2⟩
      else ⟨.ret next.1, old, timer.tmrOn now next.2, []⟩ := by
  simp [timerSettime, periodOf, hi, hd, hnz]

theorem timerSettime_ret (hi : validateTimespec value.itInterval = true)
    (hd : validateTimespec value.itValue = true) (hnz : timespecIsZero value.itValue = false) :
    (timerSettime P now flags value wantsOld timer).ret =
      .ret (nextExpire P now flags value.itValue).1 := by
  rw [timerSettime_valid now flags wantsOld timer hi hd hnz]
  by_cases h0 : (nextExpire P now flags value.itValue).2 = 0
  · simp [h0]
  · simp [h0]

theorem timerSettime_ovalue (value : Itimerspec) :
    (timerSettime P now flags value wantsOld timer).ovalue =
      if wantsOld = true then some (timerGettime P now timer) else none := by
  simp only [timerSettime]
  split_ifs
  all_goals rfl

theorem timerDo_period :
    (timerDo now timer).1.period = timer.period := by
  simp only [timerDo]
  split_ifs
  · rfl
  · rfl

theorem timerSettime_period (hi : validateTimespec value.itInterval = true)
    (hd : validateTimespec value.itValue = true) (hnz : timespecIsZero value.itValue = false) :
    (timerSettime P now flags value wantsOld timer).timer.period =
      periodOf P value.itInterval := by
  rw [timerSettime_valid now flags wantsOld timer hi hd hnz]
  by_cases h0 : (nextExpire P now flags value.itValue).2 = 0
  · simp [h0, timerDo_period]
  · simp [h0]

end Setting

section Restoring
variable {P : Platform} {n : ℕ}

theorem nextExpire_relative (now : ℕ) {itValue : Timespec} (hd : validateTimespec itValue = true)
    (h0 : 0 ≤ tickCount P itValue) (h32 : tickCount P itValue < 2 ^ 32) :
    nextExpire P now 0 itValue = (.ok, (tickCount P itValue).toNat) := by
  have hrel : ¬ 0 &&& TIMER_ABSTIME = TIMER_ABSTIME := by decide
  rw [nextExpire, if_neg hrel, timespec2ticks_count P hd h0 h32]

/-- Setting a timer to what has been read from one with `n` ticks left and period `p`. -/
theorem timerSettime_spanOf (now : ℕ) {p : ℕ} (hn : 0 < n) (hn32 : n < 2 ^ 32) (hp32 : p < 2 ^ 32)
    (wantsOld : Bool) (timer : TimerInternal) :
    timerSettime P now 0 ⟨spanOf P p, spanOf P n⟩ wantsOld timer =
      ⟨.ret .ok, if wantsOld = true then some (timerGettime P now timer) else none,
        (timer.tmrOf.setPeriod p).tmrOn now n, []⟩ := by
  let value : Itimerspec := ⟨spanOf P p, spanOf P n⟩
  have hi : validateTimespec value.itInterval = true := spanOf_valid P p
  have hd : validateTimespec value.itValue = true := spanOf_valid P n
  have hnz : timespecIsZero value.itValue = false := by
    rw [Bool.eq_false_iff, ne_eq, spanOf_isZero]
    omega
  have hperiod : periodOf P (spanOf P p) = p := by
    rw [periodOf_count (spanOf_valid P p) (by rw [tickCount_spanOf]; omega)
      (by rw [tickCount_spanOf]; omega), tickCount_spanOf, Int.toNat_natCast]
  have hnext : nextExpire P now 0 (spanOf P n) = (.ok, n) := by
    rw [nextExpire_relative now (spanOf_valid P n) (by rw [tickCount_spanOf]; omega)
      (by rw [tickCount_spanOf]; omega), tickCount_spanOf, Int.toNat_natCast]
  rw [timerSettime_valid now 0 wantsOld timer hi hd hnz]
  simp only [value, hperiod, hnext, hn.ne', if_false]

/-- `old` is a valid setting, and setting any timer to it leaves that timer with `n` ticks to go
and period `p`. -/
structure Restores (P : Platform) (now n p : ℕ) (old : Itimerspec) : Prop where
  interval_valid : validateTimespec old.itInterval = true
  value_valid : validateTimespec old.itValue = true
  ret : ∀ timer, (timerSettime P now 0 old false timer).ret = .ret .ok
  armed : ∀ timer, (timerSettime P now 0 old false timer).timer.ost = some (now + n)
  period : ∀ timer, (timerSettime P now 0 old false timer).timer.period = p
  quiet : ∀ timer, (timerSettime P now 0 old false timer).notices = []

/-- What is read from a running timer, on its own or while it is given another setting, brings
it back exactly, whatever the rate and whatever happened to the timer in between. -/
theorem timer_restored (P : Platform) (now : ℕ) {n p : ℕ} (hn : 1 ≤ n) (hn32 : n < 2 ^ 32)
    (hp32 : p < 2 ^ 32) {timer : TimerInternal} (harmed : timer.ost = some (now + n))
    (hperiod : timer.period = p) :
    Restores P now n p (timerGettime P now timer) ∧
      ∀ flags new, (timerSettime P now flags new true timer).ovalue =
        some (timerGettime P now timer) := by
  have hread : timerGettime P now timer = ⟨spanOf P p, spanOf P n⟩ := by
    have hi : (timerGettime P now timer).itInterval = spanOf P timer.period :=
      timerGettime_interval now (by omega)
    have hv := timerGettime_armed (P := P) harmed hn32
    rw [hperiod] at hi
    rw [← hi, ← hv]
  have hrestores : Restores P now n p (timerGettime P now timer) := by
    have hset := timerSettime_spanOf (P := P) now hn hn32 hp32 false
    rw [hread]
    refine ⟨spanOf_valid P p, spanOf_valid P n, fun t => ?_, fun t => ?_, fun t => ?_,
      fun t => ?_⟩
    · rw [hset t]
    · rw [hset t]
      rfl
    · rw [hset t]
      rfl
    · rw [hset t]
  refine ⟨hrestores, fun flags new => ?_⟩
  rw [timerSettime_ovalue, if_pos rfl]

/-- A timer with a period of half a second is put aside for one that fires once, and back. -/
theorem timer_restored_periodic :
    (timerSettime platform1000 4294967290 0 ⟨⟨0, 0⟩, ⟨1, 0⟩⟩ true
      ⟨some 4294967310, ⟨.SIGEV_THREAD, 0, 0, none⟩, 500⟩).ovalue =
        some ⟨⟨0, 500000000⟩, ⟨0, 20000000⟩⟩ ∧
    Restores platform1000 4294967290 20 500 ⟨⟨0, 500000000⟩, ⟨0, 20000000⟩⟩ := by
  let timer : TimerInternal := ⟨some 4294967310, ⟨.SIGEV_THREAD, 0, 0, none⟩, 500⟩
  have harmed : timer.ost = some (4294967290 + 20) := rfl
  obtain ⟨hrestores, hovalue⟩ :=
    timer_restored platform1000 4294967290 (by decide) (by decide) (by decide) harmed rfl
  have hread : timerGettime platform1000 4294967290 timer =
      ⟨⟨0, 500000000⟩, ⟨0, 20000000⟩⟩ := by
    decide +kernel
  rw [hread] at hrestores hovalue
  exact ⟨hovalue 0 ⟨⟨0, 0⟩, ⟨1, 0⟩⟩, hrestores⟩

end Restoring

section ReadBack
variable {P : Platform} {now : ℕ} {value : Itimerspec} {wantsOld : Bool} {timer : TimerInternal}

/-- A time read back is the one asked for, rounded up to a whole tick. -/
def RoundedUp (P : Platform) (asked got : Timespec) : Prop :=
  nanos asked ≤ nanos got ∧ nanos got < nanos asked + nanosecondsPerTick P

/-- What `timer_gettime` reads right after a relative setting that succeeded. -/
structure ReadBack (P : Platform) (now : ℕ) (value : Itimerspec) (r : SetResult) : Prop where
  itValue : RoundedUp P value.itValue (timerGettime P now r.timer).itValue
  itInterval : RoundedUp P value.itInterval (timerGettime P now r.timer).itInterval
  once : timespecIsZero (timerGettime P now r.timer).itInterval = true →
    timespecIsZero value.itInterval = true
  quiet : r.notices = []

theorem roundedUp_spanOf (hdvd : P.tmrHz ∣ 1000000000) {asked : Timespec}
    (hd : validateTimespec asked = true) {n : ℕ} :
    RoundedUp P asked (spanOf P n) ↔ tickCount P asked = n := by
  have htick := tick_pos P
  have hcount : exactTicks P asked = tickCount P asked := exactTicks_eq P hdvd hd
  have hle := exactTicks_le_iff P asked n
  have hpred := exactTicks_le_iff P asked (n - 1)
  rw [hcount] at hle hpred
  rw [sub_mul, one_mul] at hpred
  rw [RoundedUp, nanos_spanOf P n hdvd]
  constructor
  · rintro ⟨hlow, hhigh⟩
    have h1 := hle.mpr hlow
    have h2 : ¬ tickCount P asked ≤ n - 1 := fun h => by
      have := hpred.mp h
      omega
    omega
  · intro h
    have h1 := hle.mp h.le
    have h2 : ¬ nanos asked ≤ n * nanosecondsPerTick P - nanosecondsPerTick P := fun h' => by
      have := hpred.mpr h'
      omega
    exact ⟨h1, by omega⟩

theorem tickCount_nonneg {ts : Timespec} (hd : validateTimespec ts = true) (h0 : 0 ≤ ts.tvSec) :
    0 ≤ tickCount P ts := by
  obtain ⟨hn0, hn1⟩ := validateTimespec_iff.mp hd
  have hrest := (ticksOfNsec_range P hn0 hn1).1
  have hsec : 0 ≤ (P.tmrHz : ℤ) * ts.tvSec := by positivity
  unfold tickCount
  omega

theorem tickCount_pos (hdvd : P.tmrHz ∣ 1000000000) {ts : Timespec}
    (hd : validateTimespec ts = true) (h0 : 0 ≤ ts.tvSec) (hnz : timespecIsZero ts = false) :
    0 < tickCount P ts := by
  obtain ⟨hn0, -⟩ := validateTimespec_iff.mp hd
  have hcount : exactTicks P ts = tickCount P ts := exactTicks_eq P hdvd hd
  by_contra hle
  have hnanos := (exactTicks_le_iff P ts 0).mp (by omega)
  rw [zero_mul, nanos] at hnanos
  have hzero : timespecIsZero ts = true := timespecIsZero_iff.mpr ⟨by omega, by omega⟩
  simp [hnz] at hzero

theorem interval_nonneg (hdvd : P.tmrHz ∣ 1000000000) {ts : Timespec}
    (hd : validateTimespec ts = true) {p : ℕ} (hp : tickCount P ts = p)
    (honce : timespecIsZero (spanOf P p) = true → timespecIsZero ts = true) : 0 ≤ ts.tvSec := by
  obtain ⟨hn0, hn1⟩ := validateTimespec_iff.mp hd
  have hrest := (ticksOfNsec_bounds P hdvd hn0 hn1).2.2.2
  by_contra hneg
  have hpos : (1 : ℤ) ≤ P.tmrHz := by exact_mod_cast P.tmrHz_pos
  have hsec : (P.tmrHz : ℤ) * ts.tvSec ≤ P.tmrHz * -1 :=
    mul_le_mul_of_nonneg_left (by omega) (by omega)
  have hzero : p = 0 := by
    unfold tickCount at hp
    omega
  have hts := timespecIsZero_iff.mp (honce ((spanOf_isZero P p).mpr hzero))
  omega

/-- A relative setting is read back, rounded up, exactly if the ticks of both its times fit in
32 bits and the interval is not negative. -/
theorem timerSettime_readBack_iff (hdvd : P.tmrHz ∣ 1000000000)
    (hi : validateTimespec value.itInterval = true) (hd : validateTimespec value.itValue = true)
    (hnz : timespecIsZero value.itValue = false) (h0 : 0 ≤ value.itValue.tvSec) :
    ((timerSettime P now 0 value wantsOld timer).ret = .ret .ok →
        ReadBack P now value (timerSettime P now 0 value wantsOld timer)) ↔
      0 ≤ value.itInterval.tvSec ∧ exactTicks P value.itInterval < 2 ^ 32 ∧
        exactTicks P value.itValue < 2 ^ 32 := by
  have hcount : exactTicks P value.itValue = tickCount P value.itValue := exactTicks_eq P hdvd hd
  have hcounti : exactTicks P value.itInterval = tickCount P value.itInterval :=
    exactTicks_eq P hdvd hi
  have hpos := tickCount_pos hdvd hd h0 hnz
  have hperiod := timerSettime_period (P := P) now 0 wantsOld timer hi hd hnz
  rw [hcount, hcounti]
  constructor
  · intro h
    have hrel : ¬ 0 &&& TIMER_ABSTIME = TIMER_ABSTIME := by decide
    have hret : (timerSettime P now 0 value wantsOld timer).ret = .ret .ok := by
      rw [timerSettime_ret now 0 wantsOld timer hi hd hnz, nextExpire, if_neg hrel]
    obtain ⟨hvalue, hinterval, honce, -⟩ := h hret
    obtain ⟨n, hn, hspan⟩ :=
      timerGettime_value P now (timerSettime P now 0 value wantsOld timer).timer
    have hp := periodOf_lt P value.itInterval
    rw [← hperiod] at hp
    rw [hspan, roundedUp_spanOf hdvd hd] at hvalue
    rw [timerGettime_interval now hp] at hinterval honce
    rw [roundedUp_spanOf hdvd hi] at hinterval
    exact ⟨interval_nonneg hdvd hi hinterval honce, by omega, by omega⟩
  · rintro ⟨hi0, hi32, hv32⟩ -
    have hp := periodOf_count hi (tickCount_nonneg hi hi0) hi32
    have hpnonneg := tickCount_nonneg (P := P) hi hi0
    have hplt := periodOf_lt P value.itInterval
    have hnext := nextExpire_relative now hd hpos.le hv32
    have hne : (tickCount P value.itValue).toNat ≠ 0 := by omega
    have hresult := timerSettime_valid (P := P) now 0 wantsOld timer hi hd hnz
    simp only [hnext, if_neg hne] at hresult
    have hinterval : (timerGettime P now
        (timerSettime P now 0 value wantsOld timer).timer).itInterval =
        spanOf P (tickCount P value.itInterval).toNat := by
      rw [timerGettime_interval now (by rw [hperiod]; exact hplt), hperiod, hp]
    have hvalue : (timerGettime P now
        (timerSettime P now 0 value wantsOld timer).timer).itValue =
        spanOf P (tickCount P value.itValue).toNat :=
      timerGettime_armed (by rw [hresult]; rfl) (by omega)
    constructor
    · rw [hvalue, roundedUp_spanOf hdvd hd]
      omega
    · rw [hinterval, roundedUp_spanOf hdvd hi]
      omega
    · rw [hinterval, spanOf_isZero]
      intro hzero
      by_contra hnzi
      have hposi := tickCount_pos hdvd hi hi0 (Bool.eq_false_iff.mpr hnzi)
      omega
    · rw [hresult]

/-- Fractions of a tick in both times are rounded up. -/
theorem timerSettime_readBack_fractions :
    ReadBack platform1000 4294967290 ⟨⟨1, 1⟩, ⟨2, 500⟩⟩
      (timerSettime platform1000 4294967290 0 ⟨⟨1, 1⟩, ⟨2, 500⟩⟩ false
        ⟨none, ⟨.SIGEV_THREAD, 0, 0, none⟩, 0⟩) := by
  have hi : validateTimespec ⟨1, 1⟩ = true := by decide
  have hd : validateTimespec ⟨2, 500⟩ = true := by decide
  have hnz : timespecIsZero ⟨2, 500⟩ = false := by decide
  apply (timerSettime_readBack_iff (by decide) hi hd hnz (by decide)).mpr
  · decide
  · decide +kernel

/-- A delay of 4294968 s is accepted and becomes one of 0.704 s. -/
theorem timerSettime_readBack_wraps :
    let value : Itimerspec := ⟨⟨0, 0⟩, ⟨4294968, 0⟩⟩
    let r := timerSettime platform1000 0 0 value false ⟨none, ⟨.SIGEV_THREAD, 0, 0, none⟩, 0⟩
    r.ret = .ret .ok ∧ (timerGettime platform1000 0 r.timer).itValue = ⟨0, 704000000⟩ ∧
      ¬ ReadBack platform1000 0 value r := by
  intro value r
  have hread : (timerGettime platform1000 0 r.timer).itValue = ⟨0, 704000000⟩ := by
    decide +kernel
  refine ⟨by decide +kernel, hread, fun h => ?_⟩
  have hlow := h.itValue.1
  rw [hread] at hlow
  exact absurd hlow (by decide)

end ReadBack

section Failing
variable (P : Platform) (now flags : ℕ)

/-- What `it_value` asks for: a time from now. A deadline that has passed leaves nothing. -/
def remaining (itValue : Timespec) : Timespec :=
  if flags &&& TIMER_ABSTIME = TIMER_ABSTIME then
    let left := max 0 (nanos itValue - nanos (clockGettime P (tmrTicks now)))
    ⟨left / 1000000000, left % 1000000000⟩
  else itValue

/-- The number of ticks that the code counts, with its `NANOSECONDS_PER_TICK` rounded down, fits
where it is stored. -/
def FitsTicks (ts : Timespec) : Prop := 0 ≤ tickCount P ts ∧ tickCount P ts < 2 ^ 32

instance (ts : Timespec) : Decidable (FitsTicks P ts) := inferInstanceAs (Decidable (_ ∧ _))

/-- Both times are valid and so are their numbers of ticks as the code counts them. -/
structure Convertible (value : Itimerspec) : Prop where
  interval_valid : validateTimespec value.itInterval = true
  value_valid : validateTimespec value.itValue = true
  interval_fits : FitsTicks P value.itInterval
  value_fits : FitsTicks P (remaining P now flags value.itValue)

/-- A failing call has no effect, and a setting that cannot be carried out fails. -/
structure FailsCleanly (value : Itimerspec) (timer : TimerInternal) (r : SetResult) : Prop where
  ret : r.ret = .ret .ok ∨ ∃ errno, r.ret = .fail errno
  unchanged : r.ret ≠ .ret .ok → r.timer = timer ∧ r.notices = []
  refused : timespecIsZero value.itValue = false → ¬ Convertible P now flags value →
    r.ret ≠ .ret .ok

variable {P}

theorem eq_of_nanos {d : Timespec} (hd : validateTimespec d = true) :
    (⟨nanos d / 1000000000, nanos d % 1000000000⟩ : Timespec) = d := by
  obtain ⟨h0, h1⟩ := validateTimespec_iff.mp hd
  cases d with
  | mk sec nsec =>
    simp only [nanos, Timespec.mk.injEq] at h0 h1 ⊢
    omega

/-- A deadline whose ticks fit is at most two rounds of the tick counter away. -/
theorem deadline_sec_lt {itValue : Timespec} (hd : validateTimespec itValue = true)
    (habs : flags &&& TIMER_ABSTIME = TIMER_ABSTIME)
    (hfit : FitsTicks P (remaining P now flags itValue)) : itValue.tvSec < 2 ^ 63 := by
  have hnow : tmrTicks now < 2 ^ 32 := Nat.mod_lt now (by norm_num)
  obtain ⟨hn0, -⟩ := validateTimespec_iff.mp hd
  obtain ⟨hc0, hc1⟩ := tick_count_bounds P hnow
  have hcur := clockGettime_nanos P hnow
  rw [remaining, if_pos habs] at hfit
  generalize hleft : max 0 (nanos itValue - nanos (clockGettime P (tmrTicks now))) = left at hfit
  have hpos : (1 : ℤ) ≤ P.tmrHz := by exact_mod_cast P.tmrHz_pos
  have hrest := (ticksOfNsec_range P (Int.emod_nonneg left (by norm_num))
    (Int.emod_lt_of_pos left (by norm_num : (0 : ℤ) < 1000000000))).1
  have hleft0 : 0 ≤ left / 1000000000 := by omega
  have hsec : left / 1000000000 ≤ P.tmrHz * (left / 1000000000) := by
    have hmul := mul_le_mul_of_nonneg_right hpos hleft0
    omega
  have hcount := hfit.2
  unfold tickCount at hcount
  simp only at hcount
  unfold nanos at hleft hcur
  omega

theorem nextExpire_fits {itValue : Timespec} (hd : validateTimespec itValue = true)
    (hfit : FitsTicks P (remaining P now flags itValue)) :
    (nextExpire P now flags itValue).1 = .ok := by
  by_cases habs : flags &&& TIMER_ABSTIME = TIMER_ABSTIME
  · have hnow : tmrTicks now < 2 ^ 32 := Nat.mod_lt now (by norm_num)
    by_cases hlt : nanos itValue < nanos (clockGettime P (tmrTicks now))
    · have hpast := (absTimespec2ticks_past P hnow hd 0 hlt).1
      simp [nextExpire, habs, hpast]
    · obtain ⟨d, hsub, hdv, hdn, -⟩ := timespecSub_of_le (P := P) (r := ⟨0, 0⟩) hd
        (clockGettime_valid P hnow) (clockGettime_sec P hnow).1
        (deadline_sec_lt now flags hd habs hfit) (not_lt.mp hlt)
      have hleft : remaining P now flags itValue = d := by
        rw [remaining, if_pos habs, max_eq_right (by omega), ← hdn]
        exact eq_of_nanos hdv
      rw [hleft] at hfit
      have hconv : absTimespec2ticks P itValue (clockGettime P (tmrTicks now)) 0 =
          (.ok, (tickCount P d).toNat) := by
        simp [absTimespec2ticks, hsub, timespec2ticks_count P hdv hfit.1 hfit.2]
      simp [nextExpire, habs, hconv]
  · simp [nextExpire, habs]

/-- A call fails without an effect, and fails when it has to, exactly if it disarms the timer,
is refused for an invalid time, or both its tick counts fit in 32 bits. -/
theorem timerSettime_failsCleanly_iff (P : Platform) (now flags : ℕ) (value : Itimerspec)
    (wantsOld : Bool) (timer : TimerInternal) :
    FailsCleanly P now flags value timer (timerSettime P now flags value wantsOld timer) ↔
      timespecIsZero value.itValue = true ∨ validateTimespec value.itInterval = false ∨
        validateTimespec value.itValue = false ∨
        FitsTicks P value.itInterval ∧ FitsTicks P (remaining P now flags value.itValue) := by
  cases hnz : timespecIsZero value.itValue with
  | true =>
    have hresult : timerSettime P now flags value wantsOld timer =
        ⟨.ret .ok, if wantsOld = true then some (timerGettime P now timer) else none,
          timer.tmrOf, []⟩ := by
      simp [timerSettime, hnz]
    rw [hresult]
    simp only [true_or, iff_true]
    exact ⟨.inl rfl, fun h => absurd rfl h, fun h => by simp [hnz] at h⟩
  | false =>
    by_cases hvalid : validateTimespec value.itInterval = true ∧
      validateTimespec value.itValue = true
    · obtain ⟨hi, hd⟩ := hvalid
      have hret := timerSettime_ret (P := P) now flags wantsOld timer hi hd hnz
      simp only [hi, hd, Bool.true_eq_false, Bool.false_eq_true, false_or]
      constructor
      · intro h
        -- a valid setting never returns -1, so its value is 0
        have hok : (timerSettime P now flags value wantsOld timer).ret = .ret .ok := by
          obtain hok | ⟨errno, hfail⟩ := h.ret
          · exact hok
          · rw [hret] at hfail
            cases hfail
        have hconv : Convertible P now flags value := by
          by_contra hconv
          exact h.refused hnz hconv hok
        exact ⟨hconv.interval_fits, hconv.value_fits⟩
      · intro h
        have hok : (timerSettime P now flags value wantsOld timer).ret = .ret .ok := by
          rw [hret, nextExpire_fits now flags hd h.2]
        exact ⟨.inl hok, fun hne => absurd hok hne,
          fun _ hconv => absurd ⟨hi, hd, h.1, h.2⟩ hconv⟩
    · have hinvalid : validateTimespec value.itInterval = false ∨
          validateTimespec value.itValue = false := by
        rcases not_and_or.mp hvalid with h | h
        · exact .inl (Bool.eq_false_iff.mpr h)
        · exact .inr (Bool.eq_false_iff.mpr h)
      have hresult : timerSettime P now flags value wantsOld timer =
          ⟨.fail .EINVAL, if wantsOld = true then some (timerGettime P now timer) else none,
            timer, []⟩ := by
        simp only [timerSettime, hnz, true_and, if_pos hinvalid]
      rw [hresult]
      constructor
      · intro
        rcases hinvalid with h | h
        · exact .inr (.inl h)
        · exact .inr (.inr (.inl h))
      · intro
        exact ⟨.inr ⟨_, rfl⟩, fun _ => ⟨rfl, rfl⟩, fun _ _ => by simp⟩

/-- A deadline too far away stops a running timer, notifies at once and returns `EINVAL`. -/
theorem timerSettime_farDeadline :
    let timer : TimerInternal := ⟨some 20, ⟨.SIGEV_THREAD, 7, 3, none⟩, 500⟩
    let value : Itimerspec := ⟨⟨0, 0⟩, ⟨4294968, 0⟩⟩
    let r := timerSettime platform1000 10 TIMER_ABSTIME value false timer
    r = ⟨.ret .EINVAL, none, ⟨none, timer.event, 0⟩, [(10, .call 3 7)]⟩ ∧
      ¬ FailsCleanly platform1000 10 TIMER_ABSTIME value timer r := by
  intro timer value r
  have hr : r = ⟨.ret .EINVAL, none, ⟨none, timer.event, 0⟩, [(10, .call 3 7)]⟩ := by
    decide +kernel
  refine ⟨hr, fun h => ?_⟩
  have hret := h.ret
  rw [hr] at hret
  simp at hret

end Failing

end LibPosix.TimerSetting
