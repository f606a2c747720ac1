import LibPosix.ExpiredDeadlines
import LibPosix.MalformedDeadlines
import LibPosix.Trace

/-! The units of a semaphore. A wait takes one unit or none, and what it has taken is what it
reports; the ticks it hands to the kernel are read off its requests. -/
namespace LibPosix.SemaphoreWaits
open Program MachineInt TimeUtils Deadline MalformedDeadlines ExpiredDeadlines Semaphore Trace

structure Units where
  count : ℕ
  taken : ℕ
  deriving DecidableEq, Repr

/-- The reading of the clock and how many units are posted while the wait is blocked. -/
structure Arrival where
  tick : ℕ
  posted : ℕ
  deriving DecidableEq, Repr

/-- Only the timeout `WAIT` never expires. -/
def semWaitExec (WAIT : ℕ) (c : Arrival) : (e : SemOp) → Units → Option (SemAns e × Units)
  | .tmrTicks, s => some (c.tick, s)
  | .semGet ticks, s =>
    if 0 < s.count then some (true, ⟨s.count - 1, s.taken + 1⟩)
    else if ticks = 0 then some (false, s)
    else if 0 < c.posted then some (true, ⟨c.posted - 1, s.taken + 1⟩)
    else if ticks = WAIT then none
    else some (false, s)

def waitRun (P : Platform) (c : Arrival) (n : ℕ) (p : Prog SemOp SemAns Status) :
    Option (Status × Units × List SemOp) :=
  p.eval (traced (semWaitExec P.WAIT c)) (⟨n, 0⟩, [])

/-- A wait that returns has taken one unit if it reports success and none if it reports an error,
and it has not blocked if the error is `EINVAL`. -/
structure Accounts (P : Platform) (abstime : Option Timespec) (tick n : ℕ) : Prop where
  units : ∀ posted r s log,
    waitRun P ⟨tick, posted⟩ n (semTimedwait P abstime) = some (r, s, log) →
      r = .ok ∧ s.taken = 1 ∨ r ≠ .ok ∧ s = ⟨n, 0⟩
  unblocked : ∀ posted s log,
    waitRun P ⟨tick, posted⟩ n (semTimedwait P abstime) = some (.EINVAL, s, log) →
      ∀ ticks, .semGet ticks ∈ log → ticks = 0

/-- An attempt succeeds exactly on a positive count, and never blocks. -/
def Attempts (P : Platform) (tick n : ℕ) : Prop :=
  ∀ posted, ∃ log,
    waitRun P ⟨tick, posted⟩ n (semTrywait P) =
        some (if 0 < n then (.ok, ⟨n - 1, 1⟩, log) else (.EAGAIN, ⟨n, 0⟩, log)) ∧
      ∀ ticks, .semGet ticks ∈ log → ticks = 0

/-- A well-formed deadline whose distance to the clock has too many ticks, and that makes the
conversion leave a finite number of them behind. -/
def Overlong (P : Platform) (D : Timespec) (tick : ℕ) : Prop :=
  let ticks := tickCount P (normalised (nanos D - nanos (clockGettime P tick)))
  validateTimespec D = true ∧ nanos (clockGettime P tick) ≤ nanos D ∧
    2 ^ 32 ≤ ticks % 2 ^ 64 ∧ unsigned 32 ticks ≠ 0 ∧ unsigned 32 ticks ≠ P.WAIT

instance (P : Platform) (D : Timespec) (tick : ℕ) : Decidable (Overlong P D tick) :=
  inferInstanceAs (Decidable (_ ∧ _))

def semTimeout (P : Platform) (tick : ℕ) : Option Timespec → Status × ℕ
  | none => (.ok, P.WAIT)
  | some abstime =>
    if validateTimespec abstime = false then (.EINVAL, 0)
    else
      let conv := absTimespec2ticks P abstime (clockGettime P tick) P.WAIT
      if conv.1 = .ETIMEDOUT then (.ETIMEDOUT, 0) else conv

def waitStatus (e : Status) (taken : Bool) : Status :=
  if taken = false then if e = .ok then .ETIMEDOUT else e else .ok

section Runs
variable {P : Platform} {c : Arrival} {n tick : ℕ} {abstime : Option Timespec}

theorem semTicks_eval (abstime : Option Timespec) (s : Units) (log : List SemOp) :
    ∃ reads, (∀ ticks, SemOp.semGet ticks ∉ reads) ∧
      (semTicks P abstime).eval (traced (semWaitExec P.WAIT c)) (s, log) =
        some (semTimeout P c.tick abstime, s, log ++ reads) := by
  cases abstime with
  | none => exact ⟨[], by simp, by simp [semTicks, semTimeout]⟩
  | some D =>
    cases hv : validateTimespec D with
    | false => exact ⟨[], by simp, by simp [semTicks, semTimeout, hv]⟩
    | true => exact ⟨[.tmrTicks], by simp, by
        simp [semTicks, semTimeout, hv, traced, semWaitExec]⟩

/-- A wait reads the clock at most, asks for a unit once, and reports the answer. -/
theorem semTimedwait_run (P : Platform) (c : Arrival) (n : ℕ) (abstime : Option Timespec) :
    ∃ log, (∀ ticks, .semGet ticks ∈ log ↔ ticks = (semTimeout P c.tick abstime).2) ∧
      waitRun P c n (semTimedwait P abstime) =
        (semWaitExec P.WAIT c (.semGet (semTimeout P c.tick abstime).2) ⟨n, 0⟩).map fun x =>
          (waitStatus (semTimeout P c.tick abstime).1 x.1, x.2, log) := by
  obtain ⟨reads, hreads, hticks⟩ := semTicks_eval (P := P) (c := c) abstime ⟨n, 0⟩ []
  refine ⟨reads ++ [.semGet (semTimeout P c.tick abstime).2], ?_, ?_⟩
  · intro ticks
    simp [hreads ticks]
  · rw [waitRun, semTimedwait, Prog.eval_bind, hticks]
    cases hget : semWaitExec P.WAIT c (.semGet (semTimeout P c.tick abstime).2) ⟨n, 0⟩ with
    | none => simp [traced, hget]
    | some x =>
      obtain ⟨taken, s⟩ := x
      cases taken with
      | false =>
        by_cases he : (semTimeout P c.tick abstime).1 = .ok
        · simp [traced, hget, waitStatus, he]
        · simp [traced, hget, waitStatus, he]
      | true => simp [traced, hget, waitStatus]

/-- A request for a unit takes one, or ends because it was not to block for ever. -/
theorem semGet_cases {WAIT ticks : ℕ} {taken : Bool} {s : Units}
    (h : semWaitExec WAIT c (.semGet ticks) ⟨n, 0⟩ = some (taken, s)) :
    taken = true ∧ s.taken = 1 ∨
      taken = false ∧ s = ⟨n, 0⟩ ∧ n = 0 ∧ (ticks = 0 ∨ ticks ≠ WAIT) := by
  simp only [semWaitExec] at h
  split_ifs at h with hn h0 hposted hwait
  · cases h
    exact .inl ⟨rfl, rfl⟩
  · cases h
    exact .inr ⟨rfl, rfl, by omega, .inl h0⟩
  · cases h
    exact .inl ⟨rfl, rfl⟩
  · cases h
    exact .inr ⟨rfl, rfl, by omega, .inr hwait⟩

/-- Only an overlong deadline makes a wait that is to report `EINVAL` block for a while. -/
theorem semTimeout_overlong_iff : (∃ D ∈ abstime, Overlong P D tick) ↔
    (semTimeout P tick abstime).1 = .EINVAL ∧ (semTimeout P tick abstime).2 ≠ 0 ∧
      (semTimeout P tick abstime).2 ≠ P.WAIT := by
  cases abstime with
  | none => simp [semTimeout]
  | some D =>
    simp only [Option.mem_def, Option.some.injEq, exists_eq_left', Overlong]
    cases hv : validateTimespec D with
    | false => simp [semTimeout, hv]
    | true =>
      have hconv := absTimespec2ticks_valid (P := P) hv (clockGettime_wrapped P tick) P.WAIT
      by_cases hpast : nanos D < nanos (clockGettime P tick)
      · rw [if_pos hpast] at hconv
        simp [semTimeout, hv, hconv, hpast]
      · rw [if_neg hpast] at hconv
        by_cases hcount : tickCount P (normalised (nanos D - nanos (clockGettime P tick))) %
            2 ^ 64 < 2 ^ 32
        · rw [if_pos hcount] at hconv
          simp only [semTimeout, hv, hconv]
          simp
          intro _ h
          omega
        · rw [if_neg hcount] at hconv
          simp only [semTimeout, hv, hconv]
          simp [not_lt.mp hpast]
          intro _ _
          omega

theorem semTimeout_epoch (ht : tick < 2 ^ 32) :
    ((semTimeout P tick (some ⟨0, 0⟩)).1 = .ok ∨ (semTimeout P tick (some ⟨0, 0⟩)).1 = .ETIMEDOUT) ∧
      (semTimeout P tick (some ⟨0, 0⟩)).2 = 0 := by
  have hD : validateTimespec ⟨0, 0⟩ = true := by decide
  have hconv := absTimespec2ticks_expired ht hD (epoch_expired P ht) P.WAIT
  split_ifs at hconv
  · simp [semTimeout, hD, hconv]
  · simp [semTimeout, hD, hconv]

theorem waitStatus_ok {e : Status} {taken : Bool} : waitStatus e taken = .ok ↔ taken = true := by
  cases taken with
  | false =>
    by_cases he : e = .ok
    · simp [waitStatus, he]
    · simp [waitStatus, he]
  | true => simp [waitStatus]

theorem waitStatus_einval {e : Status} {taken : Bool} (h : waitStatus e taken = .EINVAL) :
    taken = false ∧ e = .EINVAL := by
  cases taken with
  | false =>
    by_cases he : e = .ok
    · simp [waitStatus, he] at h
    · simpa [waitStatus, he] using h
  | true => simp [waitStatus] at h

end Runs

section Results
variable {P : Platform} {tick n : ℕ} {abstime : Option Timespec}

theorem semTimedwait_units {posted : ℕ} {r : Status} {s : Units} {log : List SemOp}
    (h : waitRun P ⟨tick, posted⟩ n (semTimedwait P abstime) = some (r, s, log)) :
    r = .ok ∧ s.taken = 1 ∨ r ≠ .ok ∧ s = ⟨n, 0⟩ := by
  obtain ⟨log', -, hrun⟩ := semTimedwait_run P ⟨tick, posted⟩ n abstime
  rw [hrun, Option.map_eq_some_iff] at h
  obtain ⟨⟨taken, s'⟩, hget, heq⟩ := h
  cases heq
  rcases semGet_cases hget with ⟨rfl, htaken⟩ | ⟨rfl, hs, -, -⟩
  · exact .inl ⟨waitStatus_ok.mpr rfl, htaken⟩
  · exact .inr ⟨mt waitStatus_ok.mp (by simp), hs⟩

theorem semTimedwait_unblocked (hok : 0 < n ∨ ∀ D ∈ abstime, ¬ Overlong P D tick) {posted : ℕ}
    {s : Units} {log : List SemOp}
    (h : waitRun P ⟨tick, posted⟩ n (semTimedwait P abstime) = some (.EINVAL, s, log))
    {ticks : ℕ} (hmem : .semGet ticks ∈ log) : ticks = 0 := by
  obtain ⟨log', hlog, hrun⟩ := semTimedwait_run P ⟨tick, posted⟩ n abstime
  rw [hrun, Option.map_eq_some_iff] at h
  obtain ⟨⟨taken, s'⟩, hget, heq⟩ := h
  simp only [Prod.mk.injEq] at heq
  obtain ⟨hstatus, -, rfl⟩ := heq
  obtain ⟨htaken, heinval⟩ := waitStatus_einval hstatus
  rw [(hlog ticks).mp hmem]
  rcases semGet_cases hget with ⟨hwon, -⟩ | ⟨-, -, hempty, hticks⟩
  · rw [htaken] at hwon
    cases hwon
  · by_contra hne
    have hwait : (semTimeout P tick abstime).2 ≠ P.WAIT := hticks.resolve_left hne
    obtain ⟨D, hD, hover⟩ := semTimeout_overlong_iff.mpr ⟨heinval, hne, hwait⟩
    rcases hok with hpos | hnone
    · omega
    · exact hnone D hD hover

theorem semTrywait_attempts (ht : tick < 2 ^ 32) (n : ℕ) : Attempts P tick n := by
  intro posted
  obtain ⟨log, hlog, hrun⟩ := semTimedwait_run P ⟨tick, posted⟩ n (some ⟨0, 0⟩)
  obtain ⟨hstatus, hzero⟩ := semTimeout_epoch (P := P) ht
  refine ⟨log, ?_, fun ticks hmem => by rw [(hlog ticks).mp hmem, hzero]⟩
  unfold waitRun at hrun ⊢
  rw [semTrywait, Prog.eval_bind, hrun, hzero]
  by_cases hn : 0 < n
  · simp [semWaitExec, hn, waitStatus]
  · obtain rfl : n = 0 := by omega
    rcases hstatus with h | h
    · simp [semWaitExec, h, waitStatus]
    · simp [semWaitExec, h, waitStatus]

/-- The waits account for their units whenever there is one, or the deadline is not overlong; the
attempts always do. -/
theorem semWaits_account_iff (P : Platform) (abstime : Option Timespec) (tick n : ℕ) :
    Accounts P abstime tick n ∧ (tick < 2 ^ 32 → Attempts P tick n) ↔
      0 < n ∨ ∀ D ∈ abstime, ¬ Overlong P D tick := by
  constructor
  · intro h
    by_contra hn
    push Not at hn
    obtain ⟨hempty, hover⟩ := hn
    obtain rfl : n = 0 := by omega
    obtain ⟨heinval, hne, hwait⟩ := semTimeout_overlong_iff.mp hover
    obtain ⟨log, hlog, hrun⟩ := semTimedwait_run P ⟨tick, 0⟩ 0 abstime
    have hblocked : semWaitExec P.WAIT ⟨tick, 0⟩ (.semGet (semTimeout P tick abstime).2) ⟨0, 0⟩ =
        some (false, ⟨0, 0⟩) := by
      simp [semWaitExec, hne, hwait]
    rw [hblocked] at hrun
    simp only [Option.map_some, waitStatus, heinval] at hrun
    exact hne (h.1.unblocked 0 _ log hrun _ ((hlog _).mpr rfl))
  · intro hok
    constructor
    · constructor
      · intro posted r s log h
        exact semTimedwait_units h
      · intro posted s log h ticks hmem
        exact semTimedwait_unblocked hok h hmem
    · intro ht
      exact semTrywait_attempts ht n

/-- A second after the start a deadline 2^32 + 1 ticks away is refused as invalid, and the wait
blocks for one tick. -/
theorem semTimedwait_blocks :
    waitRun platform1000 ⟨1000, 0⟩ 0 (semTimedwait platform1000 (some ⟨4294968, 297000000⟩)) =
        some (.EINVAL, ⟨0, 0⟩, [.tmrTicks, .semGet 1]) ∧
      ¬ Accounts platform1000 (some ⟨4294968, 297000000⟩) 1000 0 := by
  have hrun : waitRun platform1000 ⟨1000, 0⟩ 0
      (semTimedwait platform1000 (some ⟨4294968, 297000000⟩)) =
        some (.EINVAL, ⟨0, 0⟩, [.tmrTicks, .semGet 1]) := by
    decide +kernel
  refine ⟨hrun, fun h => ?_⟩
  exact absurd (h.unblocked 0 _ _ hrun 1 (by simp)) (by norm_num)

end Results

end LibPosix.SemaphoreWaits
