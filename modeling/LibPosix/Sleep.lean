import LibPosix.Clock
import LibPosix.Timer

/-! The sleeps of `posix_clock.c` and `posix_unistd.c`. They differ in how they come by the number
of ticks for the kernel's `task_sleep`. -/
namespace LibPosix.Sleep
open Program MachineInt TimeUtils Deadline Timer

inductive SleepOp where
  | tmrTicks
  | taskSleep (ticks : ℕ)
  deriving DecidableEq, Repr

abbrev SleepAns : SleepOp → Type
  | .tmrTicks => ℕ
  | .taskSleep _ => Unit

abbrev ask (e : SleepOp) : Prog SleepOp SleepAns (SleepAns e) := Prog.request e

/-- Sleep for a converted time; a conversion that failed goes unnoticed. -/
def sleepFor (conv : Status × ℕ) : Prog SleepOp SleepAns Unit :=
  if conv.1 = .ok then ask (.taskSleep conv.2) else pure ()

/-- `none` is a null pointer. The time that remains is never stored. -/
def clockNanosleep (P : Platform) (flags : ℕ) (rqtp : Option Timespec) :
    Prog SleepOp SleepAns Status :=
  match rqtp with
  | none => pure .EINVAL
  | some rqtp => do
    if validateTimespec rqtp = false then
      return .EINVAL
    let cur := Clock.clockGettime P .CLOCK_REALTIME (some ⟨0, 0⟩) (← ask .tmrTicks)
    if cur.1 ≠ 0 then
      return .EINVAL
    if flags &&& TIMER_ABSTIME = TIMER_ABSTIME then
      let cur := Clock.clockGettime P .CLOCK_REALTIME cur.2 (← ask .tmrTicks)
      -- the second time a reading that succeeds is taken for a failure
      if cur.1 = 0 then
        return .EINVAL
      sleepFor (absTimespec2ticks P rqtp (cur.2.getD ⟨0, 0⟩) 0)
    else
      sleepFor (timespec2ticks P rqtp 0)
    return .ok

def nanosleep (P : Platform) (rqtp : Option Timespec) : Prog SleepOp SleepAns CallRet :=
  match rqtp with
  | none => pure (.fail .EINVAL)
  | some rqtp => do
    if validateTimespec rqtp = false then
      return .fail .EINVAL
    sleepFor (timespec2ticks P rqtp 0)
    return .ret .ok

/-- The product has the type `unsigned`. -/
def sleep (P : Platform) (seconds : ℕ) : Prog SleepOp SleepAns ℕ := do
  ask (.taskSleep (unsigned 32 (seconds * P.tmrHz : ℕ)))
  return 0

def usleep (P : Platform) (usec : ℕ) : Prog SleepOp SleepAns ℤ := do
  let ticks := unsigned 32 (usec * P.tmrHz : ℕ) / 1000000
  ask (.taskSleep ticks)
  return 0

def slept (t : ℕ) : Protocol SleepOp SleepAns (List ℕ) where
  safe _ _ := True
  after
    | l, .tmrTicks, r, l' => r = t ∧ l' = l
    | l, .taskSleep ticks, _, l' => l' = l ++ [ticks]

def relativeSleep (P : Platform) (d : Timespec) : List ℕ :=
  let conv := timespec2ticks P d 0
  if conv.1 = .ok then [conv.2] else []

section Calls
variable {P : Platform} {t flags : ℕ} {d : Timespec}

theorem taskSleep_obeys {ticks : ℕ} {post : Unit → List ℕ → Prop} :
    (ask (.taskSleep ticks)).Obeys (slept t) [] post ↔ post () [ticks] := by
  rw [Prog.obeys_request]
  constructor
  · intro hp
    exact hp.2 () _ rfl
  · intro hp
    refine ⟨trivial, fun _ l hl => ?_⟩
    obtain rfl : l = [ticks] := hl
    exact hp

theorem sleepFor_obeys {conv : Status × ℕ} {post : Unit → List ℕ → Prop} :
    (sleepFor conv).Obeys (slept t) [] post ↔
      post () (if conv.1 = .ok then [conv.2] else []) := by
  by_cases h : conv.1 = .ok
  · rw [sleepFor, if_pos h, if_pos h]
    exact taskSleep_obeys
  · simp [sleepFor, h]

theorem nanosleep_obeys (hd : validateTimespec d = true) {post : CallRet → List ℕ → Prop} :
    (nanosleep P (some d)).Obeys (slept t) [] post ↔ post (.ret .ok) (relativeSleep P d) := by
  simp [nanosleep, hd, sleepFor_obeys, relativeSleep]

theorem clockNanosleep_relative (hd : validateTimespec d = true)
    (hflags : flags &&& TIMER_ABSTIME ≠ TIMER_ABSTIME) {post : Status → List ℕ → Prop} :
    (clockNanosleep P flags (some d)).Obeys (slept t) [] post ↔ post .ok (relativeSleep P d) := by
  have hread (r : ℕ) (l : List ℕ) : (slept t).after [] .tmrTicks r l ↔ r = t ∧ l = [] := Iff.rfl
  have hsafe (l : List ℕ) (e : SleepOp) : (slept t).safe l e := trivial
  simp [clockNanosleep, hd, hflags, Clock.clockGettime, sleepFor_obeys, relativeSleep, hread,
    hsafe]

theorem clockNanosleep_absolute (hd : validateTimespec d = true)
    (hflags : flags &&& TIMER_ABSTIME = TIMER_ABSTIME) {post : Status → List ℕ → Prop} :
    (clockNanosleep P flags (some d)).Obeys (slept t) [] post ↔ post .EINVAL [] := by
  simp [clockNanosleep, hd, hflags, Clock.clockGettime, slept]

theorem relativeSleep_exact (hdvd : P.tmrHz ∣ 1000000000) (hd : validateTimespec d = true)
    (h0 : 0 ≤ exactTicks P d) (h32 : exactTicks P d < 2 ^ 32) :
    relativeSleep P d = [(exactTicks P d).toNat] := by
  simp [relativeSleep, timespec2ticks_exact P hdvd hd h0 h32]

theorem relativeSleep_lt (hd : validateTimespec d = true) :
    ∀ n ∈ relativeSleep P d, n < 2 ^ 32 := by
  intro n hn
  simp only [relativeSleep] at hn
  split_ifs at hn
  · rw [List.mem_singleton.mp hn, timespec2ticks_valid P hd]
    exact unsigned_lt 32 _
  · cases hn

end Calls

end LibPosix.Sleep
