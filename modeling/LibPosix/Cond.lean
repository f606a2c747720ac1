import LibPosix.Kernel
import LibPosix.TimeUtils
import LibPosix.Program

/-! The condition variables of `posix_pthread_cond.c`. Every access to a field and every
kernel call is one request; `sem_get` makes two, since the caller may be queued in between.
The calls on the user's mutex are requests as well. -/
namespace LibPosix.Cond
open Program TimeUtils Kernel MachineInt

inductive CondOp where
  | inited
  | tmrTicks
  | muxLock
  | muxUnlock
  | loadWaiting
  | incWaiting
  | decWaiting
  | clearWaiting
  | semPost
  | semPostN (n : ℕ)
  | semGet (ticks : ℕ)
  | semResult (ticks : ℕ)
  | mutexUnlock
  | mutexLock
  deriving DecidableEq, Repr

abbrev CondAns : CondOp → Type
  | .inited => Bool
  | .tmrTicks => ℕ
  | .loadWaiting => ℤ
  | .semGet _ => Bool
  | .semResult _ => Bool
  | .mutexUnlock => Status
  | .mutexLock => Status
  | _ => Unit

abbrev ask (e : CondOp) : Prog CondOp CondAns (CondAns e) := Prog.request e

def getUnit (ticks : ℕ) : Prog CondOp CondAns Bool := do
  if (← ask (.semGet ticks)) = true then
    return true
  else
    ask (.semResult ticks)

def pthreadCondBroadcast : Prog CondOp CondAns Status := do
  if (← ask .inited) = false then
    return .EINVAL
  ask .muxLock
  ask (.semPostN (unsigned 32 (← ask .loadWaiting)))
  ask .clearWaiting
  ask .muxUnlock
  return .ok

def pthreadCondSignal : Prog CondOp CondAns Status := do
  if (← ask .inited) = false then
    return .EINVAL
  if (← ask .loadWaiting) > 0 then
    ask .muxLock
    if (← ask .loadWaiting) > 0 then
      ask .semPost
      ask .decWaiting
    ask .muxUnlock
  return .ok

def pthreadCondTimedwait (P : Platform) (abstime : Option Timespec) :
    Prog CondOp CondAns Status := do
  if (← ask .inited) = false then
    return .EINVAL
  let conv ←
    match abstime with
    | none => pure (Status.ok, P.WAIT)
    | some abstime => do
      let cur := clockGettime P (← ask .tmrTicks)
      pure (absTimespec2ticks P abstime cur P.WAIT)
  let ret ←
    if conv.1 = .ok then do
      ask .muxLock
      ask .incWaiting
      ask .muxUnlock
      ask .mutexUnlock
    else pure conv.1
  if ret = .ok then
    if (← getUnit conv.2) = true then
      ask .mutexLock
    else
      -- after a timeout the caller stays counted until it has the mutex again
      let _ ← ask .mutexLock
      ask .muxLock
      ask .decWaiting
      ask .muxUnlock
      return .ETIMEDOUT
  else
    return ret

def pthreadCondWait (P : Platform) : Prog CondOp CondAns Status :=
  pthreadCondTimedwait P none

structure PthreadCond (T : Type) where
  inited : Bool
  mux : Mut T
  cond : Sem T
  waiting : ℤ

def pthreadCondInit {T : Type} : PthreadCond T := ⟨true, mutInit, semInit 0, 0⟩

end LibPosix.Cond
