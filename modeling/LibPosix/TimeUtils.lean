import LibPosix.Platform

/-! The time arithmetic of `utils.c` and the clock readings of `posix_clock.c`. Pointers
are never null here: every caller in the library passes the address of a local variable or
has tested its argument. A result parameter is the old value of the object it points to. -/
namespace LibPosix.TimeUtils
open MachineInt

structure Timespec where
  tvSec : ℤ
  tvNsec : ℤ
  deriving DecidableEq, Repr

def nanosecondsPerSecond : ℤ := 1000000000

def nanosecondsPerTick (P : Platform) : ℤ := nanosecondsPerSecond / P.tmrHz

def UINT_MAX : ℤ := 4294967295

/-- Verify 0 <= tv_nsec < 1000000000. -/
def validateTimespec (timeSpec : Timespec) : Bool :=
  0 ≤ timeSpec.tvNsec && timeSpec.tvNsec < nanosecondsPerSecond

def timespecCmp (x y : Timespec) : ℤ :=
  if x.tvSec > y.tvSec then 1
  else if x.tvSec < y.tvSec then -1
  else if x.tvNsec > y.tvNsec then 1
  else if x.tvNsec < y.tvNsec then -1
  else 0

/-- The return value is 1 if the difference would be negative and -1 on overflow. -/
def timespecSub (P : Platform) (x y result : Timespec) : ℤ × Timespec :=
  let cmp := timespecCmp x y
  if cmp = -1 then (1, result)
  else if cmp = 0 then (0, ⟨0, 0⟩)
  else
    let sec := signed 64 (x.tvSec - y.tvSec)
    let nsec := signed P.longBits (x.tvNsec - y.tvNsec)
    let diff : Timespec :=
      if nsec < 0 then
        ⟨signed 64 (sec - 1), signed P.longBits (nsec + nanosecondsPerSecond)⟩
      else ⟨sec, nsec⟩
    (if diff.tvNsec < 0 then -1 else 0, diff)

/-- The result is written whenever the argument is valid, also when the tick count does
not fit and the return value says so. -/
def timespec2ticks (P : Platform) (timeSpec : Timespec) (result : ℕ) : Status × ℕ :=
  if validateTimespec timeSpec = false then (.EINVAL, result)
  else
    let secTicks := signed 64 (P.tmrHz * timeSpec.tvSec)
    let nanos := signed P.longBits (timeSpec.tvNsec.tdiv (nanosecondsPerTick P) +
      if timeSpec.tvNsec.tmod (nanosecondsPerTick P) ≠ 0 then 1 else 0)
    let totalTicks := signed 64 (secTicks + nanos)
    let ret : Status :=
      if totalTicks < 0 then .EINVAL
      else if totalTicks > UINT_MAX then .EINVAL
      else .ok
    (ret, unsigned 32 totalTicks)

def absTimespec2ticks (P : Platform) (absTime curTime : Timespec) (result : ℕ) : Status × ℕ :=
  let sub := timespecSub P absTime curTime ⟨0, 0⟩
  if sub.1 = 1 then (.ETIMEDOUT, result)
  else if sub.1 = -1 then (.EINVAL, result)
  else timespec2ticks P sub.2 result

def nano2timespec (P : Platform) (llSource : ℤ) : Timespec :=
  let sec := signed 64 (llSource.tdiv nanosecondsPerSecond)
  let nsec := signed P.longBits (llSource.tmod nanosecondsPerSecond)
  if nsec < 0 then
    let carry := signed P.longBits (nsec.tdiv nanosecondsPerSecond + 1)
    ⟨signed 64 (sec - carry),
      signed P.longBits (nsec + signed P.longBits (carry * nanosecondsPerSecond))⟩
  else ⟨sec, nsec⟩

/-- The time at a value of the kernel's tick counter; the call never fails, since `tp` is
not null. -/
def clockGettime (P : Platform) (tmrTicks : ℕ) : Timespec :=
  nano2timespec P (signed 64 (tmrTicks * nanosecondsPerTick P))

end LibPosix.TimeUtils
