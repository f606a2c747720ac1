import LibPosix.Deadline

/-! The overflow test of `timespec2ticks`. It is made on a sum of 64 bits that has wrapped by
then, so that it accepts some tick counts far out of range. -/
namespace LibPosix.TickOverflow
open MachineInt TimeUtils Deadline

/-- The exact number of ticks of the seconds and of the nanoseconds, the latter rounded up. -/
def ticksNeeded (P : Platform) (d : Timespec) : ℤ :=
  d.tvSec * P.tmrHz + -(-(d.tvNsec * P.tmrHz) / 1000000000)

def Convertible (P : Platform) (d : Timespec) : Prop :=
  0 ≤ d.tvNsec ∧ d.tvNsec < 1000000000 ∧ 0 ≤ ticksNeeded P d ∧ ticksNeeded P d ≤ 2 ^ 32 - 1

/-- Exactly the convertible times are converted, and everything else is refused. -/
def DetectsOverflow (P : Platform) (d : Timespec) : Prop :=
  ∀ result, (Convertible P d → timespec2ticks P d result = (.ok, (ticksNeeded P d).toNat)) ∧
    (¬ Convertible P d → (timespec2ticks P d result).1 = .EINVAL)

theorem ticksNeeded_eq (P : Platform) (hdvd : P.tmrHz ∣ 1000000000) {d : Timespec}
    (hd : validateTimespec d = true) : ticksNeeded P d = tickCount P d := by
  have hpos : (0 : ℤ) < P.tmrHz := by exact_mod_cast P.tmrHz_pos
  have htick := tick_mul_hz P hdvd
  have hp : nanosecondsPerTick P ≠ 0 := by
    have := tick_pos P
    omega
  have hnsec : -(d.tvNsec * P.tmrHz) / 1000000000 = -d.tvNsec / nanosecondsPerTick P := by
    rw [← htick, ← neg_mul, mul_comm (P.tmrHz : ℤ)]
    exact Int.mul_ediv_mul_of_pos_left _ _ hpos
  have hnanos : -nanos d = -d.tvNsec + -(P.tmrHz * d.tvSec) * nanosecondsPerTick P := by
    have hsec : P.tmrHz * d.tvSec * nanosecondsPerTick P = d.tvSec * 1000000000 := by
      rw [← htick]
      ring
    unfold nanos
    linarith
  have hexact : exactTicks P d = tickCount P d := exactTicks_eq P hdvd hd
  rw [← hexact, exactTicks, hnanos, Int.add_mul_ediv_right _ _ hp, ticksNeeded, hnsec]
  ring

section Valid
variable {P : Platform} {d : Timespec}

theorem detectsOverflow_invalid (hd : validateTimespec d = false) : DetectsOverflow P d := by
  have hinvalid : ¬ Convertible P d := by
    intro h
    have hv : validateTimespec d = true := validateTimespec_iff.mpr ⟨h.1, h.2.1⟩
    rw [hd] at hv
    cases hv
  intro result
  constructor
  · intro h
    exact absurd h hinvalid
  · intro _
    simp [timespec2ticks, hd]

theorem convertible_iff (hd : validateTimespec d = true) :
    Convertible P d ↔ 0 ≤ ticksNeeded P d ∧ ticksNeeded P d < 2 ^ 32 := by
  have hn := validateTimespec_iff.mp hd
  unfold Convertible
  omega

/-- What the code makes of the exact number of ticks. -/
theorem timespec2ticks_needed (hdvd : P.tmrHz ∣ 1000000000) (hd : validateTimespec d = true)
    (result : ℕ) : timespec2ticks P d result =
      (if ticksNeeded P d % 2 ^ 64 < 2 ^ 32 then .ok else .EINVAL,
        unsigned 32 (ticksNeeded P d)) := by
  rw [ticksNeeded_eq P hdvd hd]
  exact timespec2ticks_valid P hd result

theorem detectsOverflow_inRange (hdvd : P.tmrHz ∣ 1000000000) (hd : validateTimespec d = true)
    (h0 : 0 ≤ ticksNeeded P d) (h32 : ticksNeeded P d < 2 ^ 32) : DetectsOverflow P d := by
  have hmod : ticksNeeded P d % 2 ^ 64 = ticksNeeded P d := Int.emod_eq_of_lt h0 (by omega)
  intro result
  rw [timespec2ticks_needed hdvd hd, hmod, if_pos h32, unsigned_of_nonneg h0 h32]
  constructor
  · intro _
    rfl
  · intro hn
    exact absurd ((convertible_iff hd).mpr ⟨h0, h32⟩) hn

/-- Out of range the remainder modulo 2^64 decides. -/
theorem detectsOverflow_outOfRange (hdvd : P.tmrHz ∣ 1000000000)
    (hd : validateTimespec d = true) (hout : ¬ Convertible P d) :
    DetectsOverflow P d ↔ 2 ^ 32 ≤ ticksNeeded P d % 2 ^ 64 := by
  constructor
  · intro h
    by_contra hlt
    have hrefused := (h 0).2 hout
    rw [timespec2ticks_needed hdvd hd, if_pos (by omega)] at hrefused
    cases hrefused
  · intro hge result
    rw [timespec2ticks_needed hdvd hd, if_neg (by omega)]
    constructor
    · intro hc
      exact absurd hc hout
    · intro _
      rfl

end Valid

/-- Overflow is detected exactly for the times whose number of ticks does not come back into
range by wrapping around 2^64. -/
theorem timespec2ticks_detectsOverflow_iff (P : Platform) (hdvd : P.tmrHz ∣ 1000000000)
    (d : Timespec) : DetectsOverflow P d ↔
      validateTimespec d = false ∨ (0 ≤ ticksNeeded P d ∧ ticksNeeded P d < 2 ^ 32) ∨
        2 ^ 32 ≤ ticksNeeded P d % 2 ^ 64 := by
  cases hd : validateTimespec d with
  | false => exact iff_of_true (detectsOverflow_invalid hd) (.inl rfl)
  | true =>
    by_cases hin : 0 ≤ ticksNeeded P d ∧ ticksNeeded P d < 2 ^ 32
    · exact iff_of_true (detectsOverflow_inRange hdvd hd hin.1 hin.2) (.inr (.inl hin))
    · have hout : ¬ Convertible P d := mt (convertible_iff hd).mp hin
      rw [detectsOverflow_outOfRange hdvd hd hout]
      constructor
      · intro h
        exact .inr (.inr h)
      · intro h
        rcases h with h | h | h
        · cases h
        · exact absurd h hin
        · exact h

theorem timespec2ticks_detectsOverflow_minute : DetectsOverflow platform1000 ⟨60, 500000⟩ :=
  (timespec2ticks_detectsOverflow_iff platform1000 (by decide) _).mpr (.inr (.inl (by decide)))

/-- 2^61 seconds make 125 * 2^64 ticks of a millisecond, which are taken for none. -/
theorem timespec2ticks_wraps :
    timespec2ticks platform1000 ⟨2305843009213693952, 0⟩ 7 = (.ok, 0) ∧
      ¬ DetectsOverflow platform1000 ⟨2305843009213693952, 0⟩ := by
  have hzero : timespec2ticks platform1000 ⟨2305843009213693952, 0⟩ 7 = (.ok, 0) := by
    decide +kernel
  refine ⟨hzero, fun h => ?_⟩
  have hrefused := (h 7).2 fun hc => absurd hc.2.2.2 (by decide)
  rw [hzero] at hrefused
  cases hrefused

end LibPosix.TickOverflow
