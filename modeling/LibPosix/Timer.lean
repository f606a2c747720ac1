import LibPosix.Program
import LibPosix.Deadline
import LibPosix.Transition

/-! The timers of `posix_timer.c`. A timer re-arms itself: the kernel runs `timer_do` once
for each arming, and `timer_do` arms it again as long as there is a period. Ticks are counted
without a bound here; what the code reads is the 32-bit counter. -/
namespace LibPosix.Timer
open Program MachineInt TimeUtils

inductive SigevNotify where
  | SIGEV_NONE
  | SIGEV_SIGNAL
  | SIGEV_THREAD
  deriving DecidableEq, Repr

/-- `struct sigevent`; functions, values and attributes are addresses. -/
structure Sigevent where
  sigevNotify : SigevNotify
  sigevValue : ℕ
  sigevNotifyFunction : ℕ
  sigevNotifyAttributes : Option ℕ
  deriving DecidableEq, Repr

structure Itimerspec where
  itInterval : Timespec
  itValue : Timespec
  deriving DecidableEq, Repr

/-- `timer_internal_t`. Of the kernel's timer, `ost`, it is known at which tick it will run
`timer_do`, if it is armed. -/
structure TimerInternal where
  ost : Option ℕ
  event : Sigevent
  period : ℕ
  deriving DecidableEq, Repr

/-- A call returns a status, or -1 with the status in `errno`. -/
inductive CallRet where
  | ret (s : Status)
  | fail (errno : Status)
  deriving DecidableEq, Repr

inductive CreateOp where
  | allocHook
  | alloc
  | memset (block : Bool)
  deriving DecidableEq, Repr

/-- Whether there is an allocator, and whether the block it returned is not null. -/
abbrev CreateAns : CreateOp → Type
  | .allocHook => Bool
  | .alloc => Bool
  | .memset _ => Unit

abbrev ask (e : CreateOp) : Prog CreateOp CreateAns (CreateAns e) := Prog.request e

def timerCreate (evp : Option Sigevent) :
    Prog CreateOp CreateAns (CallRet × Option TimerInternal) := do
  let ret : CallRet := if evp.all (·.sigevNotify = .SIGEV_SIGNAL) then .fail .ENOTSUP else .ret .ok
  let ret := if (← ask .allocHook) = false then .fail .EAGAIN else ret
  match evp with
  | none => return (ret, none)
  | some event =>
    if ret = .ret .ok then
      let block ← ask .alloc
      -- the block is cleared before it is tested
      ask (.memset block)
      if block = false then
        return (.fail .EAGAIN, none)
      return (ret, some ⟨none, event, 0⟩)
    else
      return (ret, none)

/-- What `timer_do` does for the application. -/
inductive Notification where
  | call (function value : ℕ)
  | pthreadCreate (attr function arg : ℕ)
  deriving DecidableEq, Repr

/-- A timer and the notifications it has delivered, each with its tick; `timer` is `none` once
the timer has been deleted. -/
structure World where
  now : ℕ
  timer : Option TimerInternal
  notices : List (ℕ × Notification)
  deriving DecidableEq, Repr

def tmrTicks (now : ℕ) : ℕ := now % 2 ^ 32

namespace TimerInternal

@[simps] def tmrOn (now n : ℕ) (timer : TimerInternal) : TimerInternal :=
  { timer with ost := some (now + n) }

@[simps] def tmrOf (timer : TimerInternal) : TimerInternal := { timer with ost := none }

@[simps] def setPeriod (p : ℕ) (timer : TimerInternal) : TimerInternal := { timer with period := p }

end TimerInternal

/-- With thread attributes the function is run by a new thread, otherwise it is called. -/
def notification (event : Sigevent) : Notification :=
  match event.sigevNotifyAttributes with
  | none => .call event.sigevNotifyFunction event.sigevValue
  | some attr => .pthreadCreate attr event.sigevNotifyFunction event.sigevValue

def timerDo (now : ℕ) (timer : TimerInternal) : TimerInternal × List (ℕ × Notification) :=
  let timer := if timer.period > 0 then timer.tmrOn now timer.period else timer
  (timer, if timer.event.sigevNotify = .SIGEV_THREAD then [(now, notification timer.event)] else [])

def timespecIsZero (ts : Timespec) : Bool := ts.tvSec = 0 ∧ ts.tvNsec = 0

def TIMER_ABSTIME : ℕ := 1

def timerGettime (P : Platform) (now : ℕ) (timer : TimerInternal) : Itimerspec :=
  let ofTicks (n : ℕ) : Timespec :=
    ⟨signed 64 (n / P.tmrHz : ℕ), signed P.longBits ((n % P.tmrHz : ℕ) * nanosecondsPerTick P)⟩
  ⟨ofTicks timer.period,
    match timer.ost with
    | some expire => ofTicks (unsigned 32 ((expire % 2 ^ 32 : ℕ) - (tmrTicks now : ℤ)))
    | none => ⟨0, 0⟩⟩

/-- The first expiration: the status and the number of ticks, 0 for a deadline that has
passed. -/
def nextExpire (P : Platform) (now flags : ℕ) (itValue : Timespec) : Status × ℕ :=
  if flags &&& TIMER_ABSTIME = TIMER_ABSTIME then
    let cur := clockGettime P (tmrTicks now)
    let conv := absTimespec2ticks P itValue cur 0
    if conv.1 ≠ .ok then
      (if conv.1 = .ETIMEDOUT then .ok else conv.1, 0)
    else conv
  else
    -- the status of the conversion is not looked at
    (.ok, (timespec2ticks P itValue 0).2)

/-- What `timer_settime` leaves behind: its value, the old setting if it was asked for, the
timer and what has been delivered. -/
structure SetResult where
  ret : CallRet
  ovalue : Option Itimerspec
  timer : TimerInternal
  notices : List (ℕ × Notification)
  deriving DecidableEq, Repr

def timerSettime (P : Platform) (now flags : ℕ) (value : Itimerspec) (wantsOld : Bool)
    (timer : TimerInternal) : SetResult :=
  let invalid := timespecIsZero value.itValue = false ∧
    (validateTimespec value.itInterval = false ∨ validateTimespec value.itValue = false)
  let ovalue := if wantsOld = true then some (timerGettime P now timer) else none
  if invalid then ⟨.fail .EINVAL, ovalue, timer, []⟩
  else
    let timer := timer.tmrOf
    if timespecIsZero value.itValue then ⟨.ret .ok, ovalue, timer, []⟩
    else
      let period :=
        if timespecIsZero value.itInterval then 0 else (timespec2ticks P value.itInterval 0).2
      let timer := timer.setPeriod period
      let next := nextExpire P now flags value.itValue
      if next.2 = 0 then
        let done := timerDo now timer
        ⟨.ret next.1, ovalue, done.1, done.2⟩
      else ⟨.ret next.1, ovalue, timer.tmrOn now next.2, []⟩

inductive Action where
  | tick
  | settime (flags : ℕ) (value : Itimerspec) (wantsOld : Bool)
  | gettime
  | delete
  deriving DecidableEq, Repr

/-- A deleted timer is not used any more. The kernel disarms a timer before it runs it. -/
def step (P : Platform) (w : World) : Action → Option World
  | .tick =>
    let now := w.now + 1
    match w.timer with
    | none => some { w with now := now }
    | some timer =>
      if timer.ost = some now then
        let done := timerDo now timer.tmrOf
        some ⟨now, some done.1, w.notices ++ done.2⟩
      else some { w with now := now }
  | .settime flags value wantsOld =>
    w.timer.map fun timer =>
      let r := timerSettime P w.now flags value wantsOld timer
      { w with timer := some r.timer, notices := w.notices ++ r.notices }
  | .gettime => w.timer.map fun _ => w
  | .delete => w.timer.map fun _ => { w with timer := none }

end LibPosix.Timer
