import LibPosix.TimeUtils
import LibPosix.Program

/-! The semaphores of `posix_semaphore.c`: waits with an absolute deadline over the kernel's
`sem_get`, which takes a number of ticks. -/
namespace LibPosix.Semaphore
open Program TimeUtils

inductive SemOp where
  | tmrTicks
  | semGet (ticks : ℕ)
  deriving DecidableEq, Repr

/-- The answer to `semGet` is whether it returned 0. -/
abbrev SemAns : SemOp → Type
  | .tmrTicks => ℕ
  | .semGet _ => Bool

abbrev ask (e : SemOp) : Prog SemOp SemAns (SemAns e) := Prog.request e

/-- The timeout of `sem_timedwait` and what a failing wait will report. -/
def semTicks (P : Platform) (abstime : Option Timespec) : Prog SemOp SemAns (Status × ℕ) :=
  match abstime with
  | none => pure (.ok, P.WAIT)
  | some abstime =>
    -- an invalid deadline still tries to take the semaphore without blocking
    if validateTimespec abstime = false then pure (.EINVAL, 0)
    else do
      let cur := clockGettime P (← ask .tmrTicks)
      let conv := absTimespec2ticks P abstime cur P.WAIT
      return if conv.1 = .ETIMEDOUT then (.ETIMEDOUT, 0) else conv

/-- Returns -1 with the resulting status in `errno` unless that is `ok`. -/
def semTimedwait (P : Platform) (abstime : Option Timespec) : Prog SemOp SemAns Status := do
  let conv ← semTicks P abstime
  if (← ask (.semGet conv.2)) = false then
    return if conv.1 = .ok then .ETIMEDOUT else conv.1
  else
    return .ok

def semTrywait (P : Platform) : Prog SemOp SemAns Status := do
  let ret ← semTimedwait P (some ⟨0, 0⟩)
  return if ret = .ETIMEDOUT then .EAGAIN else ret

def semWait (P : Platform) : Prog SemOp SemAns Status :=
  semTimedwait P none

end LibPosix.Semaphore
