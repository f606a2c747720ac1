import LibPosix.Kernel
import LibPosix.Program

/-! The life of a thread in `posix_pthread.c`: creation, `run_thread`, `exit_thread` and
`pthread_join`. All of them work on one thread object, the one they are passed or that
`pthread_self` returns, so the requests name its fields only. The return from a function that
is documented not to return is a request as well: it needs the stack. -/
namespace LibPosix.Pthread
open Program Kernel MachineInt

/-- Addresses; 0 is the null pointer. -/
abbrev Ptr := ℕ

/-- `pthread_attr_t`: the priority is in the 15 low bits of `status`. -/
structure PthreadAttr where
  stackSz : BitVec 16
  status : BitVec 16
  deriving DecidableEq, Repr

def MASK_DETACH : BitVec 16 := 0x8000#16

def MASK_PRIORITY : BitVec 16 := 0x7FFF#16

def SHFT_DETACH : ℕ := 15

def PTHREAD_CREATE_DETACHED : BitVec 16 := 0#16

def PTHREAD_CREATE_JOINABLE : BitVec 16 := 1#16

def PTHREAD_STACK_MIN : BitVec 16 := 1024#16

def statusPriority (status : BitVec 16) : ℕ := (status &&& MASK_PRIORITY).toNat

def statusJoinable (status : BitVec 16) : Bool := status &&& MASK_DETACH = MASK_DETACH

def hcosLowestPriority (P : Platform) : ℤ := P.cfgTpriNum - 2

def pthreadAttrDefault (P : Platform) : PthreadAttr where
  stackSz := PTHREAD_STACK_MIN
  status := BitVec.ofInt 16 (hcosLowestPriority P) &&& MASK_PRIORITY |||
    PTHREAD_CREATE_JOINABLE <<< SHFT_DETACH

inductive ThreadSem where
  | barrier
  | joined
  deriving DecidableEq, Repr

inductive ThreadOp where
  | self
  | allocSet
  | allocThread
  | clearThread (thread : Option Ptr)
  | storeAttr (attr : PthreadAttr)
  | loadAttr
  | storeFunArg (arg : Ptr)
  | loadFunArg
  | storeFun (func : Ptr)
  | loadFun
  | mutInit
  | muxLock (ticks : ℕ)
  | muxUnlock
  | semInit (sem : ThreadSem) (value : ℕ)
  | semPost (sem : ThreadSem)
  | semGet (sem : ThreadSem)
  | allocStack (sz : BitVec 16)
  | storeStack (stack : Option Ptr)
  | loadStack
  | taskInit (pri : ℕ) (stack : Option Ptr) (sz : BitVec 16)
  | storeRet (ret : Ptr)
  | loadRet
  | free (type : PosixObj) (p : Option Ptr)
  | work
  | popFrame
  deriving DecidableEq, Repr

/-- `muxLock` and `taskInit` answer whether the call returned 0, `work` what a statement of
the user's routine has found out. -/
abbrev ThreadAns : ThreadOp → Type
  | .self => Ptr
  | .allocSet => Bool
  | .allocThread => Option Ptr
  | .loadAttr => PthreadAttr
  | .loadFunArg => Ptr
  | .loadFun => Ptr
  | .muxLock _ => Bool
  | .allocStack _ => Option Ptr
  | .loadStack => Option Ptr
  | .taskInit .. => Bool
  | .loadRet => Ptr
  | .work => ℕ
  | _ => Unit

abbrev ask (e : ThreadOp) : Prog ThreadOp ThreadAns (ThreadAns e) := Prog.request e

def WAIT_NO : ℕ := 0

/-- The part of `pthread_create` for a joinable thread. -/
def createSync : Prog ThreadOp ThreadAns Unit := do
  ask .mutInit
  ask (.semInit .barrier 1)
  ask (.semInit .joined 1)

/-- The last part of `pthread_create`: the stack and the task. -/
def createTask (thread : Ptr) (pri : ℕ) : Prog ThreadOp ThreadAns (Status × Option Ptr) := do
  ask (.storeStack (← ask (.allocStack (← ask .loadAttr).stackSz)))
  if (← ask .loadStack) = none then
    ask (.free .POSIX_THREAD (some thread))
    return (.EAGAIN, none)
  let stack ← ask .loadStack
  if (← ask (.taskInit pri stack (← ask .loadAttr).stackSz)) = false then
    ask (.free .POSIX_STACK (← ask .loadStack))
    ask (.free .POSIX_THREAD (some thread))
    return (.EAGAIN, none)
  return (.ok, some thread)

def createThread (P : Platform) (attr : Option PthreadAttr) (func arg : Ptr) :
    Prog ThreadOp ThreadAns (Status × Option Ptr) := do
  let thread ← ask .allocThread
  ask (.clearThread thread)
  match thread with
  | none => return (.EAGAIN, none)
  | some thread =>
    ask (.storeAttr (attr.getD (pthreadAttrDefault P)))
    let pri := statusPriority (← ask .loadAttr).status
    ask (.storeFunArg arg)
    ask (.storeFun func)
    if statusJoinable (← ask .loadAttr).status = true then
      createSync
    createTask thread pri

/-- Returns the thread through the second component. -/
def pthreadCreate (P : Platform) (attr : Option PthreadAttr) (func arg : Ptr) :
    Prog ThreadOp ThreadAns (Status × Option Ptr) := do
  if (← ask .allocSet) = false then
    return (.EAGAIN, none)
  createThread P attr func arg

def exitThread : Prog ThreadOp ThreadAns Unit := do
  let thread ← ask .self
  if statusJoinable (← ask .loadAttr).status = true then
    ask (.semPost .barrier)
    ask (.semGet .joined)
  else
    -- the stack this runs on
    ask (.free .POSIX_STACK (← ask .loadStack))
    ask (.free .POSIX_THREAD (some thread))
  ask .popFrame

def pthreadExit (valuePtr : Ptr) : Prog ThreadOp ThreadAns Unit := do
  let _thread ← ask .self
  ask (.storeRet valuePtr)
  exitThread
  ask .popFrame

def pthreadEqual (t1 t2 : Ptr) : Bool := t1 ≠ 0 ∧ t2 ≠ 0 ∧ t1 = t2

/-- The part of `pthread_join` after its checks. The second component is what was stored
through `retval`. -/
def joinWait (pthread : Ptr) (retval : Bool) : Prog ThreadOp ThreadAns (Status × Option Ptr) := do
  ask (.semGet .barrier)
  ask (.semPost .joined)
  ask .muxUnlock
  let out ←
    if retval = true then do
      pure (some (← ask .loadRet))
    else pure none
  ask (.free .POSIX_STACK (← ask .loadStack))
  ask (.free .POSIX_THREAD (some pthread))
  return (.ok, out)

def pthreadJoin (pthread : Ptr) (retval : Bool) :
    Prog ThreadOp ThreadAns (Status × Option Ptr) := do
  if statusJoinable (← ask .loadAttr).status = false then
    return (.EDEADLK, none)
  if (← ask (.muxLock WAIT_NO)) = false then
    return (.EDEADLK, none)
  if pthreadEqual (← ask .self) pthread = true then
    return (.EDEADLK, none)
  joinWait pthread retval

/-- What a user's routine does as far as its own thread object is concerned. -/
inductive RoutineOp where
  | work
  | exit (valuePtr : Ptr)
  | joinSelf (retval : Bool)
  deriving DecidableEq, Repr

abbrev RoutineAns : RoutineOp → Type
  | .work => ℕ
  | .exit _ => Unit
  | .joinSelf _ => Status × Option Ptr

/-- A routine that ends with its return value. Runs of a routine that does not end are, as
far as they go, runs of one that does. -/
abbrev Routine := Prog RoutineOp RoutineAns Ptr

def onThread : (e : RoutineOp) → Prog ThreadOp ThreadAns (RoutineAns e)
  | .work => ask .work
  | .exit valuePtr => pthreadExit valuePtr
  | .joinSelf retval => do pthreadJoin (← ask .self) retval

/-- `text` is the routine at an address, for an argument. -/
def runThread (text : Ptr → Ptr → Routine) : Prog ThreadOp ThreadAns Unit := do
  let routine := text (← ask .loadFun) (← ask .loadFunArg)
  ask (.storeRet (← routine.interp onThread))
  exitThread

end LibPosix.Pthread
