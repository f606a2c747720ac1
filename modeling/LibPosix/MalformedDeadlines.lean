import LibPosix.TimedWaits

/-! Deadlines whose nanoseconds are out of range. `abs_timespec2ticks` does not look at them but
at their difference to the clock, so that what becomes of them depends on the clock. -/
namespace LibPosix.MalformedDeadlines
open Program TimeUtils MachineInt Deadline Mutex Cond TimedWaits

def untouched (t : ℕ) : Protocol CondWaitOp CondWaitAns Unit where
  safe _ e := e ≠ .mutex .mutUnlock ∧ e ≠ .cond .incWaiting ∧ e ≠ .cond .decWaiting ∧
    e ≠ .cond .clearWaiting
  after
    | _, .cond .tmrTicks, r, _ => r = t
    | _, _, _, _ => True

def unhurried (t : ℕ) : Protocol MutexOp MutexAns Unit where
  safe _ e := ∀ ticks, e = .mutLock ticks → ticks = 0
  after
    | _, .tmrTicks, r, _ => r = t
    | _, _, _, _ => True

/-- At the tick `t` the deadline is invalid for the conversion, which computes its difference to
the clock exactly, and the two calls that rely on it wait for nothing. -/
structure Rejected (P : Platform) (t : ℕ) (D : Timespec) : Prop where
  status : ∀ result, (absTimespec2ticks P D (clockGettime P t) result).1 = .EINVAL
  exact : ∀ op ∈ timespecSubOps P D (clockGettime P t), Fits op.1 op.2
  condTimedwait : (condTimedwait P (some D)).Obeys (untouched t) () fun r _ => r = .EINVAL
  mutexTimedlock : (pthreadMutexTimedlock P (some D)).Obeys (unhurried t) () fun _ _ => True

/-- The clock has not reached the deadline, in the order of seconds and nanoseconds. -/
def Later (D cur : Timespec) : Prop :=
  cur.tvSec < D.tvSec ∨ cur.tvSec = D.tvSec ∧ cur.tvNsec < D.tvNsec

theorem later_iff {D cur : Timespec} : Later D cur ↔ timespecCmp D cur = 1 := by
  unfold timespecCmp
  constructor
  · intro h
    rcases h with h | ⟨heq, h⟩
    · rw [if_pos h]
    · rw [if_neg (by omega), if_neg (by omega), if_pos h]
  · intro h
    split_ifs at h with hsec hless hnsec
    · exact .inl hsec
    · exact .inr ⟨by omega, hnsec⟩
    · omega

def normalised (nsec : ℤ) : Timespec := ⟨nsec / 1000000000, nsec % 1000000000⟩

theorem normalised_valid (nsec : ℤ) : validateTimespec (normalised nsec) = true := by
  rw [validateTimespec_iff]
  exact ⟨Int.emod_nonneg _ (by norm_num), Int.emod_lt_of_pos _ (by norm_num)⟩

theorem normalised_eq {d : Timespec} (hd : validateTimespec d = true) {n : ℤ} (hn : nanos d = n) :
    normalised n = d := by
  have hv := validateTimespec_iff.mp hd
  subst hn
  obtain ⟨sec, nsec⟩ := d
  simp only [normalised, nanos, Timespec.mk.injEq]
  simp only at hv
  omega

section Wellformed
variable {P : Platform} {D cur : Timespec}

/-- The seconds count modulo 2^64 only. -/
theorem tickCount_wrapped (P : Platform) (sec nsec : ℤ) :
    tickCount P ⟨signed 64 sec, nsec⟩ % 2 ^ 64 = tickCount P ⟨sec, nsec⟩ % 2 ^ 64 := by
  have hsec : signed 64 sec % 2 ^ 64 = sec % 2 ^ 64 := Int.bmod_emod
  unfold tickCount
  rw [Int.add_emod, Int.mul_emod, hsec, ← Int.mul_emod, ← Int.add_emod]

theorem tickCount_nonneg (P : Platform) (h : nanos cur ≤ nanos D) :
    0 ≤ tickCount P (normalised (nanos D - nanos cur)) := by
  have hn := validateTimespec_iff.mp (normalised_valid (nanos D - nanos cur))
  have hsec : 0 ≤ (normalised (nanos D - nanos cur)).tvSec :=
    Int.ediv_nonneg (by omega) (by norm_num)
  exact add_nonneg (mul_nonneg (Int.natCast_nonneg _) hsec) (ticksOfNsec_range P hn.1 hn.2).1

/-- Whatever the seconds are, the difference of two well-formed times has the ticks of their
distance, in 64 bits. -/
theorem timespecSub_valid (hD : validateTimespec D = true) (hcur : validateTimespec cur = true)
    (hle : nanos cur ≤ nanos D) (r : Timespec) :
    ∃ d, timespecSub P D cur r = (0, d) ∧ validateTimespec d = true ∧
      tickCount P d % 2 ^ 64 = tickCount P (normalised (nanos D - nanos cur)) % 2 ^ 64 := by
  have hvD := validateTimespec_iff.mp hD
  have hvcur := validateTimespec_iff.mp hcur
  rcases timespecCmp_cases hD hcur with ⟨hc, -⟩ | ⟨-, hlt⟩ | ⟨hc, heq⟩
  · have hn : signed P.longBits (D.tvNsec - cur.tvNsec) = D.tvNsec - cur.tvNsec :=
      signed_long P (by omega) (by omega)
    by_cases hneg : D.tvNsec - cur.tvNsec < 0
    · have hb : signed P.longBits (D.tvNsec - cur.tvNsec + nanosecondsPerSecond) =
          D.tvNsec - cur.tvNsec + 1000000000 := by
        unfold nanosecondsPerSecond
        exact signed_long P (by omega) (by omega)
      have hs : signed 64 (signed 64 (D.tvSec - cur.tvSec) - 1) =
          signed 64 (D.tvSec - cur.tvSec - 1) := signed_add_left 64 _ (-1)
      have hvalid : validateTimespec ⟨D.tvSec - cur.tvSec - 1,
          D.tvNsec - cur.tvNsec + 1000000000⟩ = true :=
        validateTimespec_iff.mpr ⟨by simp only; omega, by simp only; omega⟩
      refine ⟨⟨signed 64 (D.tvSec - cur.tvSec - 1), D.tvNsec - cur.tvNsec + 1000000000⟩, ?_,
        hvalid, ?_⟩
      · simp only [timespecSub, hc, hn, hb, hs, hneg, if_true]
        rw [if_neg (by norm_num), if_neg (by norm_num), if_neg (by omega)]
      · rw [tickCount_wrapped, normalised_eq hvalid (by simp only [nanos]; ring)]
    · have hvalid : validateTimespec ⟨D.tvSec - cur.tvSec, D.tvNsec - cur.tvNsec⟩ = true :=
        validateTimespec_iff.mpr ⟨by simp only; omega, by simp only; omega⟩
      refine ⟨⟨signed 64 (D.tvSec - cur.tvSec), D.tvNsec - cur.tvNsec⟩, ?_, hvalid, ?_⟩
      · simp only [timespecSub, hc, hn, hneg, if_false]
        rw [if_neg (by norm_num), if_neg (by norm_num)]
      · rw [tickCount_wrapped, normalised_eq hvalid (by simp only [nanos]; ring)]
  · omega
  · refine ⟨⟨0, 0⟩, by simp [timespecSub, hc], rfl, ?_⟩
    rw [normalised_eq (d := ⟨0, 0⟩) rfl (by simp [nanos] at heq ⊢; omega)]

theorem absTimespec2ticks_valid (hD : validateTimespec D = true)
    (hcur : validateTimespec cur = true) (r : ℕ) :
    absTimespec2ticks P D cur r =
      if nanos D < nanos cur then (.ETIMEDOUT, r)
      else (if tickCount P (normalised (nanos D - nanos cur)) % 2 ^ 64 < 2 ^ 32 then .ok
          else .EINVAL, unsigned 32 (tickCount P (normalised (nanos D - nanos cur)))) := by
  split_ifs with hpast hcount
  · simp [absTimespec2ticks, timespecSub_of_lt hD hcur hpast]
  · obtain ⟨d, hsub, hd, hticks⟩ := timespecSub_valid (P := P) hD hcur (not_lt.mp hpast) ⟨0, 0⟩
    simp only [absTimespec2ticks, hsub]
    rw [if_neg (by norm_num), if_neg (by norm_num), timespec2ticks_valid P hd, hticks,
      if_pos hcount, unsigned_congr (by norm_num) hticks]
  · obtain ⟨d, hsub, hd, hticks⟩ := timespecSub_valid (P := P) hD hcur (not_lt.mp hpast) ⟨0, 0⟩
    simp only [absTimespec2ticks, hsub]
    rw [if_neg (by norm_num), if_neg (by norm_num), timespec2ticks_valid P hd, hticks,
      if_neg hcount, unsigned_congr (by norm_num) hticks]

end Wellformed

section Difference
variable {P : Platform} {D cur : Timespec}

theorem sub_sec (hsec : 0 ≤ cur.tvSec) (hD : Fits 64 D.tvSec) (hlater : Later D cur) :
    cur.tvSec ≤ D.tvSec ∧ D.tvSec < 9223372036854775808 ∧
      signed 64 (D.tvSec - cur.tvSec) = D.tvSec - cur.tvSec := by
  obtain ⟨-, hmax⟩ := hD
  norm_num only at hmax
  have hle : cur.tvSec ≤ D.tvSec := by
    rcases hlater with h | h
    · exact h.le
    · exact h.1.le
  exact ⟨hle, hmax, signed_time (by omega) (by omega)⟩

theorem sub_nsec (hcur : validateTimespec cur = true) (hD : Fits P.longBits D.tvNsec)
    (hlow : -2 ^ (P.longBits - 1) ≤ D.tvNsec - cur.tvNsec) :
    Fits P.longBits (D.tvNsec - cur.tvNsec) ∧
      signed P.longBits (D.tvNsec - cur.tvNsec) = D.tvNsec - cur.tvNsec := by
  have hv := validateTimespec_iff.mp hcur
  obtain ⟨-, hmax⟩ := hD
  have hfits : Fits P.longBits (D.tvNsec - cur.tvNsec) := ⟨hlow, by omega⟩
  have hwidth := P.longBits_ge
  exact ⟨hfits, signed_of_fits (by omega) hfits⟩

theorem borrow_fits (hlow : -2 ^ (P.longBits - 1) ≤ D.tvNsec - cur.tvNsec)
    (hneg : D.tvNsec - cur.tvNsec < 0) :
    Fits P.longBits (D.tvNsec - cur.tvNsec + nanosecondsPerSecond) := by
  have hhalf : (2147483648 : ℤ) ≤ 2 ^ (P.longBits - 1) := by
    have := (fits_long P (x := 2147483647) (by norm_num) (by norm_num)).2
    omega
  unfold nanosecondsPerSecond
  exact ⟨by omega, by omega⟩

end Difference

section Malformed
variable {P : Platform} {D cur : Timespec} (hcur : validateTimespec cur = true)
  (hcur0 : 0 ≤ cur.tvSec) (hsec : Fits 64 D.tvSec) (hnsec : Fits P.longBits D.tvNsec)
  (hlater : Later D cur) (hlow : -2 ^ (P.longBits - 1) ≤ D.tvNsec - cur.tvNsec)
include hcur hcur0 hsec hnsec hlater hlow

theorem timespecSubOps_fit : ∀ op ∈ timespecSubOps P D cur, Fits op.1 op.2 := by
  obtain ⟨hle, hmax, -⟩ := sub_sec hcur0 hsec hlater
  have hfits := (sub_nsec hcur hnsec hlow).1
  intro op hop
  simp only [timespecSubOps, later_iff.mp hlater, if_true, List.mem_append, List.mem_cons,
    List.not_mem_nil, or_false] at hop
  rcases hop with (rfl | rfl) | hop
  · exact fits_time (by omega) (by omega)
  · exact hfits
  · split_ifs at hop with hneg
    · simp only [List.mem_cons, List.not_mem_nil, or_false] at hop
      rcases hop with rfl | rfl
      · exact fits_time (by omega) (by omega)
      · exact borrow_fits hlow hneg
    · simp at hop

/-- The difference of a later deadline and the clock: normalised when the nanoseconds differ by
less than a second, invalid or an error otherwise. -/
theorem timespecSub_later (r : Timespec) :
    (D.tvNsec - cur.tvNsec < -1000000000 ∧ (timespecSub P D cur r).1 = -1) ∨
      (1000000000 ≤ D.tvNsec - cur.tvNsec ∧
        ∃ d, timespecSub P D cur r = (0, d) ∧ validateTimespec d = false) ∨
      (-1000000000 ≤ D.tvNsec - cur.tvNsec ∧ D.tvNsec - cur.tvNsec < 1000000000 ∧
        timespecSub P D cur r = (0, normalised (nanos D - nanos cur))) := by
  obtain ⟨hle, hmax, hs⟩ := sub_sec hcur0 hsec hlater
  have hn := (sub_nsec hcur hnsec hlow).2
  have hs1 : signed 64 (D.tvSec - cur.tvSec - 1) = D.tvSec - cur.tvSec - 1 :=
    signed_time (by omega) (by omega)
  have hvalue : timespecSub P D cur r =
      (if (if D.tvNsec - cur.tvNsec < 0 then D.tvNsec - cur.tvNsec + 1000000000
          else D.tvNsec - cur.tvNsec) < 0 then -1 else 0,
        if D.tvNsec - cur.tvNsec < 0 then
          ⟨D.tvSec - cur.tvSec - 1, D.tvNsec - cur.tvNsec + 1000000000⟩
        else ⟨D.tvSec - cur.tvSec, D.tvNsec - cur.tvNsec⟩) := by
    simp only [timespecSub, later_iff.mp hlater, hs, hn, hs1]
    by_cases hneg : D.tvNsec - cur.tvNsec < 0
    · have hb : signed P.longBits (D.tvNsec - cur.tvNsec + nanosecondsPerSecond) =
          D.tvNsec - cur.tvNsec + 1000000000 := by
        have hwidth := P.longBits_ge
        exact signed_of_fits (by omega) (borrow_fits hlow hneg)
      simp [hneg, hb]
    · simp [hneg]
  rw [hvalue]
  by_cases hfar : D.tvNsec - cur.tvNsec < -1000000000
  · left
    rw [if_pos (by omega), if_pos (by omega)]
    exact ⟨hfar, rfl⟩
  right
  by_cases habove : 1000000000 ≤ D.tvNsec - cur.tvNsec
  · left
    rw [if_neg (by omega), if_neg (by omega)]
    refine ⟨habove, _, rfl, ?_⟩
    rw [Bool.eq_false_iff, Ne, validateTimespec_iff]
    intro h
    exact absurd h.2 (not_lt.mpr habove)
  right
  refine ⟨by omega, by omega, ?_⟩
  unfold normalised nanos
  by_cases hneg : D.tvNsec - cur.tvNsec < 0
  · rw [if_pos hneg, if_pos hneg, if_neg (by omega)]
    congr 2
    · omega
    · omega
  · rw [if_neg hneg, if_neg hneg, if_neg hneg]
    congr 2
    · omega
    · omega

/-- Such a deadline is refused exactly if the nanoseconds differ by a second or more, or if the
overflow test refuses the ticks of the distance. -/
theorem absTimespec2ticks_later (r : ℕ) :
    (absTimespec2ticks P D cur r).1 = .EINVAL ↔
      D.tvNsec - cur.tvNsec < -1000000000 ∨ 1000000000 ≤ D.tvNsec - cur.tvNsec ∨
        2 ^ 32 ≤ tickCount P (normalised (nanos D - nanos cur)) % 2 ^ 64 := by
  simp only [absTimespec2ticks]
  rcases timespecSub_later hcur hcur0 hsec hnsec hlater hlow ⟨0, 0⟩ with
    ⟨hfar, hsub⟩ | ⟨habove, d, hsub, hd⟩ | ⟨hge, hlt, hsub⟩
  · rw [hsub, if_neg (by norm_num), if_pos rfl]
    exact iff_of_true rfl (.inl hfar)
  · rw [hsub, if_neg (by norm_num), if_neg (by norm_num)]
    refine iff_of_true ?_ (.inr (.inl habove))
    simp [timespec2ticks, hd]
  · rw [hsub, if_neg (by norm_num), if_neg (by norm_num),
      timespec2ticks_valid P (normalised_valid _)]
    constructor
    · intro h
      right
      right
      by_contra hn
      rw [if_pos (by omega)] at h
      cases h
    · intro h
      have h64 : 2 ^ 32 ≤ tickCount P (normalised (nanos D - nanos cur)) % 2 ^ 64 := by
        rcases h with h | h | h
        · omega
        · omega
        · exact h
      rw [if_neg (by omega)]

end Malformed

section Calls
variable {P : Platform} {t : ℕ} {D : Timespec}

theorem condTimedwait_rejected
    (h : ∀ r, (absTimespec2ticks P D (clockGettime P t) r).1 = .EINVAL) :
    (condTimedwait P (some D)).Obeys (untouched t) () fun r _ => r = .EINVAL := by
  simp [condTimedwait, pthreadCondTimedwait, condHandler, untouched]
  intro tick _ htick
  subst tick
  simp [h]

theorem pthreadMutexTimedlock_rejected
    (h : ∀ r, (absTimespec2ticks P D (clockGettime P t) r).1 = .EINVAL) :
    (pthreadMutexTimedlock P (some D)).Obeys (unhurried t) () fun _ _ => True := by
  simp [pthreadMutexTimedlock, lockTicks, lockWithin, unhurried, h]

theorem absTimespec2ticks_earlier {cur : Timespec} (hcur : validateTimespec cur = true)
    (hbad : validateTimespec D = false) (hlate : ¬ Later D cur) (r : ℕ) :
    (absTimespec2ticks P D cur r).1 = .ETIMEDOUT := by
  have hv := validateTimespec_iff.mp hcur
  have hn : ¬ (0 ≤ D.tvNsec ∧ D.tvNsec < 1000000000) := by
    rw [← validateTimespec_iff, hbad]
    simp
  have hcmp : timespecCmp D cur = -1 := by
    unfold Later at hlate
    unfold timespecCmp
    split_ifs <;> omega
  simp [absTimespec2ticks, timespecSub, hcmp]

end Calls

/-- Later than the clock, with nanoseconds that can be subtracted in the type `long` and that
differ by more than a second, or else with a distance whose ticks come out of the 64-bit
arithmetic too large. -/
def Refusable (P : Platform) (D cur : Timespec) : Prop :=
  Later D cur ∧ -2 ^ (P.longBits - 1) ≤ D.tvNsec - cur.tvNsec ∧
    (D.tvNsec - cur.tvNsec < -1000000000 ∨ 1000000000 ≤ D.tvNsec - cur.tvNsec ∨
      2 ^ 32 ≤ tickCount P (normalised (nanos D - nanos cur)) % 2 ^ 64)

instance (D cur : Timespec) : Decidable (Later D cur) := inferInstanceAs (Decidable (_ ∨ _))

instance (P : Platform) (D cur : Timespec) : Decidable (Refusable P D cur) :=
  inferInstanceAs (Decidable (_ ∧ _))

/-- Not every malformed deadline is rejected. -/
theorem malformed_rejected_iff (P : Platform) {t : ℕ} (ht : t < 2 ^ 32) {D : Timespec}
    (hsec : Fits 64 D.tvSec) (hnsec : Fits P.longBits D.tvNsec)
    (hbad : ¬ (0 ≤ D.tvNsec ∧ D.tvNsec < 1000000000)) :
    Rejected P t D ↔ Refusable P D (clockGettime P t) := by
  have hcur := clockGettime_valid P ht
  have hcur0 := (clockGettime_sec P ht).1
  have hinvalid : validateTimespec D = false := by
    rw [Bool.eq_false_iff, Ne, validateTimespec_iff]
    exact hbad
  constructor
  · intro h
    have hlater : Later D (clockGettime P t) := by
      by_contra hn
      have hlate := absTimespec2ticks_earlier (P := P) hcur hinvalid hn 0
      have hstatus := h.status 0
      rw [hlate] at hstatus
      cases hstatus
    have hmem : (P.longBits, D.tvNsec - (clockGettime P t).tvNsec) ∈
        timespecSubOps P D (clockGettime P t) := by
      rw [timespecSubOps, if_pos (later_iff.mp hlater)]
      simp
    have hlow : -2 ^ (P.longBits - 1) ≤ D.tvNsec - (clockGettime P t).tvNsec := (h.exact _ hmem).1
    exact ⟨hlater, hlow,
      (absTimespec2ticks_later hcur hcur0 hsec hnsec hlater hlow 0).mp (h.status 0)⟩
  · intro h
    obtain ⟨hlater, hlow, hrest⟩ := h
    have hstatus (r : ℕ) : (absTimespec2ticks P D (clockGettime P t) r).1 = .EINVAL :=
      (absTimespec2ticks_later hcur hcur0 hsec hnsec hlater hlow r).mpr hrest
    exact {
      status := hstatus
      exact := timespecSubOps_fit hcur hcur0 hsec hnsec hlater hlow
      condTimedwait := condTimedwait_rejected hstatus
      mutexTimedlock := pthreadMutexTimedlock_rejected hstatus }

/-- Two seconds too many in the nanoseconds, one second ahead. -/
theorem malformed_rejected_two_seconds : Rejected platform1000 1000 ⟨2, 2000000000⟩ :=
  (malformed_rejected_iff platform1000 (by decide) (by decide) (by decide) (by decide)).mpr
    (by decide)

/-- At 2.6 s a deadline of 3 s and 1.5e9 ns is taken for a valid one 1.9 s ahead, and one of 1 s and
-1 ns for a late one; no call rejects them. -/
theorem malformed_accepted :
    absTimespec2ticks platform1000 ⟨3, 1500000000⟩ (clockGettime platform1000 2600) 0 =
        (.ok, 1900) ∧
      absTimespec2ticks platform1000 ⟨1, -1⟩ (clockGettime platform1000 2600) 0 =
        (.ETIMEDOUT, 0) ∧
      ¬ Rejected platform1000 2600 ⟨3, 1500000000⟩ ∧ ¬ Rejected platform1000 2600 ⟨1, -1⟩ := by
  refine ⟨by decide +kernel, by decide +kernel, fun h => ?_, fun h => ?_⟩
  · have hstatus := h.status 0
    revert hstatus
    decide +kernel
  · have hstatus := h.status 0
    revert hstatus
    decide +kernel

end LibPosix.MalformedDeadlines
