import LibPosix.Kernel
import LibPosix.MachineInt
import LibPosix.ThreadPool

/-! The barriers of `posix_pthread_barrier.c`, and any number of threads that wait at one,
each as often as it likes. Every access to a field and every kernel call is one request. -/
namespace LibPosix.Barrier
open Program ThreadPool Kernel MachineInt

inductive BarrierOp where
  | mutLock
  | mutUnlock
  | curThread
  | setCurThread (n : ℕ)
  | threshold
  | semPostN (n : ℕ)
  | semGet
  | semResult
  deriving DecidableEq, Repr

abbrev BarrierAns : BarrierOp → Type
  | .curThread => ℕ
  | .threshold => ℕ
  | .semGet => Bool
  | .semResult => Bool
  | _ => Unit

abbrev ask (e : BarrierOp) : Prog BarrierOp BarrierAns (BarrierAns e) := Prog.request e

inductive WaitValue where
  | ok
  | EINVAL
  | PTHREAD_BARRIER_SERIAL_THREAD
  deriving DecidableEq, Repr

/-- The value for the thread that has set the counter to `n`; `cur` is an `int`. -/
def waitValue (n : ℕ) : WaitValue :=
  let cur := signed 32 n
  if cur = 1 then .PTHREAD_BARRIER_SERIAL_THREAD else .ok

/-- `sem_get` without a timeout; its result is not looked at. -/
def getUnit : Prog BarrierOp BarrierAns Unit := do
  if (← ask .semGet) = false then
    let _ ← ask .semResult

def pthreadBarrierWait : Prog BarrierOp BarrierAns WaitValue := do
  ask .mutLock
  if (← ask .curThread) ≥ (← ask .threshold) then
    ask .mutUnlock
    return .EINVAL
  let cur := unsigned 32 ((← ask .curThread) + 1)
  ask (.setCurThread cur)
  ask .mutUnlock
  -- read again outside the lock: more than one thread may find the barrier full
  if (← ask .curThread) ≥ (← ask .threshold) then
    ask (.semPostN (← ask .threshold))
  getUnit
  return waitValue cur

structure PthreadBarrier (T : Type) where
  curThread : ℕ
  threshold : ℕ
  sem : Sem T
  mux : Mut T

def pthreadBarrierInit {T : Type} (b : PthreadBarrier T) (count : ℕ) : Status × PthreadBarrier T :=
  let ret : Status := if count = 0 then .EINVAL else .ok
  if ret = .ok then
    (ret, { b with sem := semInit 0, mux := mutInit, curThread := 0, threshold := count })
  else (ret, b)

/-- A call that has returned: the thread, how many calls it had made before, the value. -/
structure Return (T : Type) where
  thread : T
  round : ℕ
  value : WaitValue
  deriving DecidableEq, Repr

/-- The barrier and its history: the threads in the order of their increments, those that
have found the barrier full or got a unit, and the calls that have returned. -/
structure World (T : Type) where
  barrier : PthreadBarrier T
  arrived : List T
  released : T → Bool
  calls : T → ℕ
  returned : List (Return T)

def freshWorld {T : Type} (b : PthreadBarrier T) (count : ℕ) : World T :=
  ⟨(pthreadBarrierInit b count).2, [], fun _ => false, fun _ => 0, []⟩

namespace World
variable {T : Type} [DecidableEq T]

@[simps] def setMux (m : Mut T) (s : World T) : World T :=
  { s with barrier := { s.barrier with mux := m } }

@[simps] def setSem (q : Sem T) (s : World T) : World T :=
  { s with barrier := { s.barrier with sem := q } }

@[simps] def arrive (t : T) (n : ℕ) (s : World T) : World T :=
  { s with barrier := { s.barrier with curThread := n }, arrived := s.arrived ++ [t] }

@[simps] def learn (t : T) (full : Bool) (s : World T) : World T :=
  { s with released := Function.update s.released t (s.released t || full) }

@[simps] def log (r : Return T) (s : World T) : World T :=
  { s with
    calls := Function.update s.calls r.thread (s.calls r.thread + 1)
    returned := r :: s.returned }

end World

variable {T : Type} [DecidableEq T]

/-- One request of thread `t`. No wait has a timeout; a post may wake any of the threads that
are queued. -/
def barrierExec (relock : Bool) (P : Platform) (t : T) :
    (e : BarrierOp) → Finset T → World T → Option (BarrierAns e × World T)
  | .mutLock, _, s =>
    (mutLock relock P.WAIT t P.WAIT false s.barrier.mux).map fun r => ((), s.setMux r.2)
  | .mutUnlock, _, s => some ((), s.setMux (mutUnlock s.barrier.mux))
  | .curThread, _, s =>
    some (s.barrier.curThread, s.learn t (decide (s.barrier.curThread ≥ s.barrier.threshold)))
  | .setCurThread n, _, s => some ((), s.arrive t n)
  | .threshold, _, s => some (s.barrier.threshold, s)
  | .semPostN n, woken, s => (semPostN n woken s.barrier.sem).map fun q => ((), s.setSem q)
  | .semGet, _, s =>
    let r := semGet t s.barrier.sem
    some (r.1, (s.setSem r.2).learn t r.1)
  | .semResult, _, s =>
    (semResult P.WAIT t P.WAIT false s.barrier.sem).map fun r => (r.1, (s.setSem r.2).learn t r.1)

/-- Threads that wait at one barrier; a call is given the number of calls its thread has made. -/
def barrierSystem (relock : Bool) (P : Platform) :
    System T BarrierOp BarrierAns (Finset T) (World T) ℕ WaitValue where
  code _ _ := pthreadBarrierWait
  exec := barrierExec relock P
  enter t k s := if k = s.calls t then some s else none
  leave t k v s := s.log ⟨t, k, v⟩

end LibPosix.Barrier
