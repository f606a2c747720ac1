import LibPosix.Sleep

/-! How long the sleeps are: the relative ones against the time asked for, the absolute one
against its deadline, and the short forms against `nanosleep`. -/
namespace LibPosix.SleepDurations
open Program MachineInt TimeUtils Deadline Timer Sleep

/-- A relative sleep that succeeds has lasted at least as long as asked. -/
def NotShort (P : Platform) (d : Timespec) : Prop :=
  ∀ t, ((nanosleep P (some d)).Obeys (slept t) [] fun r ticks =>
      r = .ret .ok → ∃ n ∈ ticks, exactTicks P d ≤ n) ∧
    ∀ flags, flags &&& TIMER_ABSTIME ≠ TIMER_ABSTIME →
      (clockNanosleep P flags (some d)).Obeys (slept t) [] fun r ticks =>
        r = .ok → ∃ n ∈ ticks, exactTicks P d ≤ n

/-- The two relative sleeps do the same and report it each in its own way. -/
def SameSleep (P : Platform) (rqtp : Option Timespec) : Prop :=
  ∃ status sleeps, (status = .ok ∨ status = .EINVAL) ∧ ∀ t,
    ((nanosleep P rqtp).Obeys (slept t) [] fun r ticks =>
      r = (if status = .ok then .ret .ok else .fail status) ∧ ticks = sleeps) ∧
    ∀ flags, flags &&& TIMER_ABSTIME ≠ TIMER_ABSTIME →
      (clockNanosleep P flags rqtp).Obeys (slept t) [] fun r ticks =>
        r = status ∧ ticks = sleeps

section Relative
variable {P : Platform} {d : Timespec}

theorem exactTicks_nonneg (hd : validateTimespec d = true) (h0 : 0 ≤ d.tvSec) :
    0 ≤ exactTicks P d := by
  have htick := tick_pos P
  have hn := (validateTimespec_iff.mp hd).1
  by_contra hlt
  have hle := (exactTicks_le_iff P d (-1)).mp (by omega)
  unfold nanos at hle
  omega

theorem notShort_iff (hd : validateTimespec d = true) :
    NotShort P d ↔ ∃ n ∈ relativeSleep P d, exactTicks P d ≤ n := by
  constructor
  · intro h
    exact (nanosleep_obeys hd).mp (h 0).1 rfl
  · intro h t
    refine ⟨(nanosleep_obeys hd).mpr fun _ => h, fun flags hflags => ?_⟩
    exact (clockNanosleep_relative hd hflags).mpr fun _ => h

theorem sameSleep (rqtp : Option Timespec) : SameSleep P rqtp := by
  cases rqtp with
  | none => exact ⟨.EINVAL, [], .inr rfl, fun t => ⟨⟨rfl, rfl⟩, fun _ _ => ⟨rfl, rfl⟩⟩⟩
  | some d =>
    cases hd : validateTimespec d with
    | false =>
      refine ⟨.EINVAL, [], .inr rfl, fun t => ⟨?_, fun flags _ => ?_⟩⟩
      · simp [nanosleep, hd]
      · simp [clockNanosleep, hd]
    | true =>
      refine ⟨.ok, relativeSleep P d, .inl rfl, fun t => ⟨?_, fun flags hflags => ?_⟩⟩
      · exact (nanosleep_obeys hd).mpr ⟨rfl, rfl⟩
      · exact (clockNanosleep_relative hd hflags).mpr ⟨rfl, rfl⟩

end Relative

/-- A relative sleep is long enough exactly if its ticks fit in 32 bits; `nanosleep` and
`clock_nanosleep` agree on every argument. -/
theorem relativeSleep_notShort_iff (P : Platform) (hdvd : P.tmrHz ∣ 1000000000) :
    (∀ d, validateTimespec d = true → 0 ≤ d.tvSec →
      (NotShort P d ↔ exactTicks P d < 2 ^ 32)) ∧ ∀ rqtp, SameSleep P rqtp := by
  refine ⟨fun d hd hsec => ?_, sameSleep⟩
  rw [notShort_iff hd]
  constructor
  · intro h
    obtain ⟨n, hn, hle⟩ := h
    have hlt := relativeSleep_lt hd n hn
    omega
  · intro h
    have h0 := exactTicks_nonneg (P := P) hd hsec
    rw [relativeSleep_exact hdvd hd h0 h]
    exact ⟨_, List.mem_singleton_self _, by omega⟩

theorem nanosleep_notShort_minute : NotShort platform1000 ⟨60, 1⟩ :=
  ((relativeSleep_notShort_iff platform1000 (by decide)).1 ⟨60, 1⟩ (by decide) (by decide)).mpr
    (by decide)

/-- 58 days with ticks of a millisecond: `nanosleep` returns 0 at once. -/
theorem nanosleep_returns_early :
    (nanosleep platform1000 (some ⟨5000000, 0⟩)).Obeys (slept 0) []
        (fun r ticks => r = .ret .ok ∧ ticks = []) ∧
      ¬ NotShort platform1000 ⟨5000000, 0⟩ := by
  have hnone : relativeSleep platform1000 ⟨5000000, 0⟩ = [] := by decide +kernel
  constructor
  · rw [nanosleep_obeys (by decide), hnone]
    exact ⟨rfl, rfl⟩
  · rw [notShort_iff (by decide), hnone]
    intro h
    obtain ⟨n, hn, -⟩ := h
    cases hn

/-- The least number of ticks after the tick `t` with which the clock gets to `d`. -/
def LeastTicks (P : Platform) (t : ℕ) (d : Timespec) (n : ℕ) : Prop :=
  IsLeast {n : ℕ | nanos d ≤ (t + n) * nanosecondsPerTick P} n

/-- What an absolute sleep has to do at the tick `t`. -/
structure ReachesDeadline (P : Platform) (t : ℕ) (d : Timespec) (flags : ℕ) : Prop where
  passed : validateTimespec d = true → nanos d ≤ nanos (clockGettime P t) →
    (clockNanosleep P flags (some d)).Obeys (slept t) [] fun r ticks =>
      r = .ok ∧ (ticks = [] ∨ ticks = [0])
  ahead : validateTimespec d = true → nanos (clockGettime P t) < nanos d →
    ∀ n < 2 ^ 32, LeastTicks P t d n →
      (clockNanosleep P flags (some d)).Obeys (slept t) [] fun r ticks => r = .ok ∧ ticks = [n]
  refused : (clockNanosleep P flags (some d)).Obeys (slept t) [] fun r ticks =>
    r = .EINVAL → ticks = [] ∧
      (validateTimespec d = false ∨ ∀ n, LeastTicks P t d n → 2 ^ 32 ≤ n)

section Absolute
variable {P : Platform} {t flags n : ℕ} {d : Timespec}

theorem reachesDeadline_invalid (hd : validateTimespec d = false) :
    ReachesDeadline P t d flags := by
  have hinvalid : ¬ validateTimespec d = true := by simp [hd]
  constructor
  · intro hv
    exact absurd hv hinvalid
  · intro hv
    exact absurd hv hinvalid
  · simp [clockNanosleep, hd]

theorem leastTicks_passed (ht : t < 2 ^ 32) (hn : LeastTicks P t d n)
    (hpast : nanos d ≤ nanos (clockGettime P t)) : n = 0 := by
  have hzero : nanos d ≤ (t + (0 : ℕ)) * nanosecondsPerTick P := by
    rw [clockGettime_nanos P ht] at hpast
    simpa using hpast
  have hmin := hn.2 hzero
  omega

theorem reachesDeadline_valid (ht : t < 2 ^ 32) (hd : validateTimespec d = true)
    (hflags : flags &&& TIMER_ABSTIME = TIMER_ABSTIME) (hn : LeastTicks P t d n) :
    ReachesDeadline P t d flags ↔ 2 ^ 32 ≤ n := by
  constructor
  · intro h
    have hleast := ((clockNanosleep_absolute hd hflags).mp h.refused rfl).2
    rw [hd] at hleast
    rcases hleast with hleast | hleast
    · cases hleast
    · exact hleast n hn
  · intro hle
    constructor
    · intro _ hpast
      have hzero := leastTicks_passed ht hn hpast
      omega
    · intro _ _ m hm hleast
      have hmn := hleast.unique hn
      omega
    · refine (clockNanosleep_absolute hd hflags).mpr fun _ => ⟨rfl, .inr fun m hm => ?_⟩
      rw [hm.unique hn]
      exact hle

end Absolute

/-- No absolute sleep succeeds, so that only those do right that have to fail. -/
theorem clockNanosleep_reachesDeadline_iff (P : Platform) {t flags n : ℕ} (ht : t < 2 ^ 32)
    {d : Timespec} (hflags : flags &&& TIMER_ABSTIME = TIMER_ABSTIME) (hn : LeastTicks P t d n) :
    ReachesDeadline P t d flags ↔ validateTimespec d = false ∨ 2 ^ 32 ≤ n := by
  cases hd : validateTimespec d with
  | false => exact iff_of_true (reachesDeadline_invalid hd) (.inl rfl)
  | true =>
    rw [reachesDeadline_valid ht hd hflags hn]
    simp

theorem clockNanosleep_reachesDeadline_far :
    ReachesDeadline platform1000 0 ⟨5000000, 0⟩ TIMER_ABSTIME := by
  have hn : LeastTicks platform1000 0 ⟨5000000, 0⟩ 5000000000 :=
    exactTicks_isLeast platform1000 ⟨5000000, 0⟩ 0 (by decide)
  exact (clockNanosleep_reachesDeadline_iff platform1000 (by decide) (by decide) hn).mpr
    (.inr (by decide))

theorem clockNanosleep_always_fails :
    (clockNanosleep platform1000 TIMER_ABSTIME (some ⟨1, 0⟩)).Obeys (slept 0) []
        (fun r ticks => r = .EINVAL ∧ ticks = []) ∧
      ¬ ReachesDeadline platform1000 0 ⟨1, 0⟩ TIMER_ABSTIME := by
  have hn : LeastTicks platform1000 0 ⟨1, 0⟩ 1000 :=
    exactTicks_isLeast platform1000 ⟨1, 0⟩ 0 (by decide)
  constructor
  · exact (clockNanosleep_absolute (by decide) (by decide)).mpr ⟨rfl, rfl⟩
  · intro h
    have hahead := h.ahead (by decide) (by decide) 1000 (by decide) hn
    rw [clockNanosleep_absolute (by decide) (by decide)] at hahead
    cases hahead.1

/-- A short form whose factor is `product` sleeps as `nanosleep` does for `d`, which is the exact
time rounded up, and the product does not wrap around. -/
structure Agrees (P : Platform) {α : Type} (short : Prog SleepOp SleepAns α) (d : Timespec)
    (product : ℕ) : Prop where
  fits : product < 2 ^ 32
  short : ∀ t, short.Obeys (slept t) [] fun _ ticks => ticks = [(exactTicks P d).toNat]
  nanosleep : ∀ t, (nanosleep P (some d)).Obeys (slept t) [] fun _ ticks =>
    ticks = [(exactTicks P d).toNat]

def ofSeconds (seconds : ℕ) : Timespec := ⟨seconds, 0⟩

def ofMicroseconds (usec : ℕ) : Timespec := ⟨(usec / 1000000 : ℕ), (usec % 1000000 * 1000 : ℕ)⟩

theorem ofSeconds_valid (seconds : ℕ) : validateTimespec (ofSeconds seconds) = true := by
  rw [validateTimespec_iff]
  simp [ofSeconds]

theorem ofMicroseconds_valid (usec : ℕ) : validateTimespec (ofMicroseconds usec) = true := by
  rw [validateTimespec_iff]
  simp only [ofMicroseconds]
  omega

section Short
variable (P : Platform) (hdvd : P.tmrHz ∣ 1000000000)

theorem sleep_obeys {t seconds : ℕ} {post : ℕ → List ℕ → Prop} :
    (sleep P seconds).Obeys (slept t) [] post ↔
      post 0 [unsigned 32 (seconds * P.tmrHz : ℕ)] := by
  rw [sleep, Prog.obeys_bind, taskSleep_obeys, Prog.pure_eq, Prog.obeys_ret]

theorem usleep_obeys {t usec : ℕ} {post : ℤ → List ℕ → Prop} :
    (usleep P usec).Obeys (slept t) [] post ↔
      post 0 [unsigned 32 (usec * P.tmrHz : ℕ) / 1000000] := by
  rw [usleep, Prog.obeys_bind, taskSleep_obeys, Prog.pure_eq, Prog.obeys_ret]

include hdvd

theorem exactTicks_seconds (seconds : ℕ) :
    exactTicks P (ofSeconds seconds) = (seconds * P.tmrHz : ℕ) := by
  rw [exactTicks_eq P hdvd (ofSeconds_valid seconds)]
  simp [ofSeconds, ticksOfNsec, mul_comm]

theorem exactTicks_microseconds_le_iff (usec : ℕ) (n : ℤ) :
    exactTicks P (ofMicroseconds usec) ≤ n ↔ (usec * P.tmrHz : ℕ) ≤ n * 1000000 := by
  have hpos : (0 : ℤ) < P.tmrHz := by exact_mod_cast P.tmrHz_pos
  have hnanos : nanos (ofMicroseconds usec) = usec * 1000 := by
    simp only [nanos, ofMicroseconds]
    omega
  have hticks : n * nanosecondsPerTick P * P.tmrHz = n * 1000000000 := by
    rw [mul_assoc, mul_comm (nanosecondsPerTick P), tick_mul_hz P hdvd]
  have hscaled : (usec : ℤ) * 1000 * P.tmrHz = (usec * P.tmrHz : ℕ) * 1000 := by
    push_cast
    ring
  rw [exactTicks_le_iff, hnanos, ← mul_le_mul_iff_of_pos_right hpos, hticks, hscaled]
  omega

theorem exactTicks_microseconds (usec : ℕ) :
    exactTicks P (ofMicroseconds usec) = ((usec * P.tmrHz + 999999) / 1000000 : ℕ) := by
  apply eq_of_forall_ge_iff
  intro n
  rw [exactTicks_microseconds_le_iff P hdvd]
  omega

end Short

/-- Whenever the exact ticks fit, `sleep` agrees with `nanosleep`, but `usleep` only if its
32-bit product does not wrap and leaves no fraction of a tick to be rounded. -/
theorem shortSleep_agrees_iff (P : Platform) (hdvd : P.tmrHz ∣ 1000000000) :
    (∀ seconds, exactTicks P (ofSeconds seconds) < 2 ^ 32 →
      Agrees P (sleep P seconds) (ofSeconds seconds) (seconds * P.tmrHz)) ∧
    ∀ usec, exactTicks P (ofMicroseconds usec) < 2 ^ 32 →
      (Agrees P (usleep P usec) (ofMicroseconds usec) (usec * P.tmrHz) ↔
        usec * P.tmrHz < 2 ^ 32 ∧ 1000000 ∣ usec * P.tmrHz) := by
  constructor
  · intro seconds h
    have hexact := exactTicks_seconds P hdvd seconds
    have hfits : seconds * P.tmrHz < 2 ^ 32 := by omega
    constructor
    · exact hfits
    · intro t
      rw [sleep_obeys, unsigned_natCast hfits, hexact, Int.toNat_natCast]
    · intro t
      have h0 : 0 ≤ exactTicks P (ofSeconds seconds) := by omega
      rw [nanosleep_obeys (ofSeconds_valid seconds)]
      exact relativeSleep_exact hdvd (ofSeconds_valid seconds) h0 h
  · intro usec h
    have hexact := exactTicks_microseconds P hdvd usec
    constructor
    · intro ha
      have hfits := ha.fits
      have hshort := (usleep_obeys P).mp (ha.short 0)
      rw [unsigned_natCast hfits, hexact, Int.toNat_natCast, List.singleton_inj] at hshort
      exact ⟨hfits, by omega⟩
    · intro hu
      obtain ⟨hfits, hdiv⟩ := hu
      constructor
      · exact hfits
      · intro t
        rw [usleep_obeys, unsigned_natCast hfits, hexact, Int.toNat_natCast, List.singleton_inj]
        omega
      · intro t
        have h0 : 0 ≤ exactTicks P (ofMicroseconds usec) := by omega
        rw [nanosleep_obeys (ofMicroseconds_valid usec)]
        exact relativeSleep_exact hdvd (ofMicroseconds_valid usec) h0 h

/-- Four milliseconds at a thousand ticks a second. -/
theorem usleep_agrees_milliseconds :
    Agrees platform1000 (usleep platform1000 4000) (ofMicroseconds 4000) (4000 * 1000) :=
  ((shortSleep_agrees_iff platform1000 (by decide)).2 4000 (by decide)).mpr (by decide)

/-- A microsecond is no sleep at all for `usleep`, and one tick for `nanosleep`. -/
theorem usleep_truncates :
    (usleep platform1000 1).Obeys (slept 0) [] (fun _ ticks => ticks = [0]) ∧
      (nanosleep platform1000 (some (ofMicroseconds 1))).Obeys (slept 0) []
        (fun _ ticks => ticks = [1]) ∧
      ¬ Agrees platform1000 (usleep platform1000 1) (ofMicroseconds 1) (1 * 1000) := by
  have hzero : unsigned 32 (1 * platform1000.tmrHz : ℕ) / 1000000 = 0 := by decide +kernel
  have hone : relativeSleep platform1000 (ofMicroseconds 1) = [1] := by decide +kernel
  refine ⟨?_, ?_, fun h => ?_⟩
  · rw [usleep_obeys, hzero]
  · rw [nanosleep_obeys (by decide)]
    exact hone
  · have hshort := (usleep_obeys platform1000).mp (h.short 0)
    rw [hzero, List.singleton_inj] at hshort
    revert hshort
    decide +kernel

end LibPosix.SleepDurations
