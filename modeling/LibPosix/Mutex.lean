import LibPosix.Kernel
import LibPosix.TimeUtils
import LibPosix.Program

/-! The mutexes of `posix_pthread_mutex.c`. A call is a program over the requests it makes
to the mutex it was given, to the clock and to the kernel; `uninit` is the value of a local
variable that has not been assigned. -/
namespace LibPosix.Mutex
open Program TimeUtils Kernel

inductive MutexType where
  | normal
  | errorcheck
  | recursive
  deriving DecidableEq, Repr

inductive MutexOp where
  | inited
  | type
  | ownIsCur
  | tmrTicks
  | uninit
  | mutLock (ticks : ℕ)
  | mutUnlock
  deriving DecidableEq, Repr

abbrev MutexAns : MutexOp → Type
  | .inited => Bool
  | .type => MutexType
  | .ownIsCur => Bool
  | .tmrTicks => ℕ
  | .uninit => ℕ
  | .mutLock _ => Bool
  | .mutUnlock => Unit

abbrev ask (e : MutexOp) : Prog MutexOp MutexAns (MutexAns e) := Prog.request e

/-- The first block of `pthread_mutex_timedlock`: the timeout for an absolute time. -/
def lockTicks (P : Platform) (abstime : Option Timespec) (sleepTicks : ℕ) :
    Prog MutexOp MutexAns (Status × ℕ) :=
  match abstime with
  | none => pure (.ok, sleepTicks)
  | some abstime => do
    let cur := clockGettime P (← ask .tmrTicks)
    let conv := absTimespec2ticks P abstime cur sleepTicks
    -- a deadline that has passed leads to one attempt
    return if conv.1 = .ETIMEDOUT then (.ok, 0) else conv

/-- The rest of it: the deadlock check and the lock. -/
def lockWithin (ret : Status) (sleepTicks : ℕ) : Prog MutexOp MutexAns Status := do
  let deadlock ←
    if ret = .ok then do
      if (← ask .type) = .errorcheck then ask .ownIsCur else pure false
    else pure false
  let ret := if deadlock = true then .EDEADLK else ret
  if ret = .ok then
    -- the result of `mut_lock` is not looked at
    let _ ← ask (.mutLock sleepTicks)
  return ret

def pthreadMutexTimedlock (P : Platform) (abstime : Option Timespec) :
    Prog MutexOp MutexAns Status := do
  let sleepTicks ← ask .uninit
  if (← ask .inited) = false then
    return .EINVAL
  let conv ← lockTicks P abstime sleepTicks
  lockWithin conv.1 conv.2

def pthreadMutexLock (P : Platform) : Prog MutexOp MutexAns Status :=
  pthreadMutexTimedlock P none

def pthreadMutexTrylock (P : Platform) : Prog MutexOp MutexAns Status := do
  let ret ← pthreadMutexTimedlock P (some ⟨0, 0⟩)
  return if ret = .ETIMEDOUT then .EBUSY else ret

def pthreadMutexUnlock : Prog MutexOp MutexAns Status := do
  if (← ask .inited) = false then
    return .EINVAL
  let type ← ask .type
  let ret ←
    if type = .errorcheck ∨ type = .recursive then do
      pure (if (← ask .ownIsCur) = true then Status.ok else .EPERM)
    else pure Status.ok
  if ret = .ok then
    ask .mutUnlock
  return ret

structure PthreadMutex (T : Type) where
  inited : Bool
  mux : Mut T
  type : MutexType
  deriving DecidableEq, Repr

/-- The mutex after `pthread_mutex_init`; no attributes mean `PTHREAD_MUTEX_DEFAULT`. -/
def pthreadMutexInit {T : Type} (attr : Option MutexType) : PthreadMutex T :=
  ⟨true, mutInit, attr.getD .normal⟩

/-- What the environment decides at a request: the tick counter, the content of an
unassigned variable, and whether a wait that may run out does. -/
structure Outcome where
  tick : ℕ
  garbage : ℕ
  expire : Bool
  deriving DecidableEq, Repr

variable {T : Type} [DecidableEq T]

def mutexExec (relock : Bool) (P : Platform) (t : T) :
    (e : MutexOp) → Outcome → PthreadMutex T → Option (MutexAns e × PthreadMutex T)
  | .inited, _, m => some (m.inited, m)
  | .type, _, m => some (m.type, m)
  | .ownIsCur, _, m => some (decide (m.mux.own = some t), m)
  | .tmrTicks, c, m => some (c.tick, m)
  | .uninit, c, m => some (c.garbage, m)
  | .mutLock ticks, c, m =>
    (mutLock relock P.WAIT t ticks c.expire m.mux).map fun r => (r.1, { m with mux := r.2 })
  | .mutUnlock, _, m => some ((), { m with mux := mutUnlock m.mux })

end LibPosix.Mutex
