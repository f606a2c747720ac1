import LibPosix.Pthread
import LibPosix.ThreadPool

/-! One thread from its creation on, and the threads that join it. The world is the thread
object together with a record of what has happened to it. -/
namespace LibPosix.PthreadRun
open Program Kernel ThreadPool Pthread
variable {T : Type} [DecidableEq T]

/-- `pthread_internal_t`. A semaphore is its count: `sem_get` with `WAIT` returns only by
taking a unit. -/
structure PthreadInternal (T : Type) where
  attr : PthreadAttr
  func : Ptr
  funArg : Ptr
  stack : Option Ptr
  sem : ThreadSem → ℕ
  mux : Mut T
  ret : Ptr

/-- The address of the thread object, the task that runs the thread, and the `priv` field of
every task. -/
structure Tasks (T : Type) where
  thread : Ptr
  target : T
  priv : T → Ptr
  thread_ne : thread ≠ 0
  priv_iff : ∀ t, priv t = thread ↔ t = target

/-- `final` is the first value the thread stores as its result, `posts` counts the units its
`exit_thread` has posted, `passed` are the tasks that got a unit of the barrier, `results`
what the finished calls of `pthread_join` returned, `frees` the calls of the application's
free function. `misuse` is set by a step of the thread, or an access to the thread object,
after the memory it needs has been freed. -/
structure World (T : Type) where
  obj : PthreadInternal T
  started : Bool
  finished : Bool
  joiners : Finset T
  final : Option Ptr
  posts : ℕ
  passed : Finset T
  results : List (Status × Option Ptr)
  frees : List (PosixObj × Option Ptr)
  misuse : Bool

structure Env where
  allocSet : Bool
  threadBlock : Option Ptr
  stackBlock : Option Ptr
  taskOk : Bool
  input : ℕ
  deriving DecidableEq, Repr

inductive ThreadCall where
  | runThread
  | pthreadJoin (retval : Bool)
  deriving DecidableEq, Repr

def zeroThread : PthreadInternal T :=
  ⟨⟨0#16, 0#16⟩, 0, 0, none, fun _ => 0, mutInit, 0⟩

def touches : ThreadOp → Bool
  | .self => false
  | .allocSet => false
  | .allocThread => false
  | .allocStack _ => false
  | .free .. => false
  | .work => false
  | .popFrame => false
  | _ => true

@[simp] theorem touches_free (type : PosixObj) (p : Option Ptr) : touches (.free type p) = false :=
  rfl

namespace World
variable (s : World T)

@[simps]
def modify (f : PthreadInternal T → PthreadInternal T) : World T := { s with obj := f s.obj }

def setSem (sem : ThreadSem) (n : ℕ) : World T :=
  s.modify fun o => { o with sem := Function.update o.sem sem n }

@[simps]
def enterRun : World T := { s with started := true }

@[simps]
def leaveRun : World T := { s with finished := true }

@[simps]
def enterJoin (t : T) : World T := { s with joiners := insert t s.joiners }

@[simps]
def leaveJoin (v : Status × Option Ptr) : World T := { s with results := v :: s.results }

@[simps]
def noteFinal (ret : Ptr) : World T := { s with final := some (s.final.getD ret) }

@[simps]
def notePost : World T := { s with posts := s.posts + 1 }

@[simps]
def notePassed (t : T) : World T := { s with passed := insert t s.passed }

@[simps]
def noteFree (type : PosixObj) (p : Option Ptr) : World T :=
  { s with frees := s.frees ++ [(type, p)] }

def stackFreed : Bool := (PosixObj.POSIX_STACK, s.obj.stack) ∈ s.frees

def threadFreed (K : Tasks T) : Bool := (PosixObj.POSIX_THREAD, some K.thread) ∈ s.frees

/-- A step of task `t`, which uses the object or not. -/
@[simps]
def mark (K : Tasks T) (t : T) (touch : Bool) : World T :=
  { s with misuse := s.misuse || (decide (t = K.target) && (s.stackFreed || s.threadFreed K)) ||
      (touch && s.threadFreed K) }

end World

def answer (relock : Bool) (P : Platform) (K : Tasks T) (t : T) (c : Env) :
    (e : ThreadOp) → World T → Option (ThreadAns e × World T)
  | .self, s => some (K.priv t, s)
  | .allocSet, s => some (c.allocSet, s)
  | .allocThread, s => some (c.threadBlock, s)
  | .clearThread thread, s => thread.map fun _ => ((), s.modify fun _ => zeroThread)
  | .storeAttr attr, s => some ((), s.modify fun o => { o with attr := attr })
  | .loadAttr, s => some (s.obj.attr, s)
  | .storeFunArg arg, s => some ((), s.modify fun o => { o with funArg := arg })
  | .loadFunArg, s => some (s.obj.funArg, s)
  | .storeFun func, s => some ((), s.modify fun o => { o with func := func })
  | .loadFun, s => some (s.obj.func, s)
  | .mutInit, s => some ((), s.modify fun o => { o with mux := mutInit })
  | .muxLock ticks, s =>
    (mutLock relock P.WAIT t ticks true s.obj.mux).map fun r =>
      (r.1, s.modify fun o => { o with mux := r.2 })
  | .muxUnlock, s => some ((), s.modify fun o => { o with mux := mutUnlock o.mux })
  | .semInit sem value, s => some ((), s.setSem sem value)
  | .semPost .barrier, s =>
    some ((), (s.setSem .barrier (s.obj.sem .barrier + 1)).notePost)
  | .semPost .joined, s => some ((), s.setSem .joined (s.obj.sem .joined + 1))
  | .semGet .barrier, s =>
    if 0 < s.obj.sem .barrier then
      some ((), (s.setSem .barrier (s.obj.sem .barrier - 1)).notePassed t)
    else none
  | .semGet .joined, s =>
    if 0 < s.obj.sem .joined then some ((), s.setSem .joined (s.obj.sem .joined - 1)) else none
  | .allocStack _, s => some (c.stackBlock, s)
  | .storeStack stack, s => some ((), s.modify fun o => { o with stack := stack })
  | .loadStack, s => some (s.obj.stack, s)
  | .taskInit .., s => some (c.taskOk, s)
  | .storeRet ret, s =>
    some ((), (s.modify fun o => { o with ret := ret }).noteFinal ret)
  | .loadRet, s => some (s.obj.ret, s)
  | .free type p, s => some ((), s.noteFree type p)
  | .work, s => some (c.input, s)
  | .popFrame, s => some ((), s)

def threadExec (relock : Bool) (P : Platform) (K : Tasks T) (t : T) (e : ThreadOp) (c : Env)
    (s : World T) : Option (ThreadAns e × World T) :=
  answer relock P K t c e (s.mark K t (touches e))

/-- The thread runs once; a join is made by another thread, as often as `mayJoin` permits. -/
def threadEnter (K : Tasks T) (mayJoin : World T → Bool) (t : T) : ThreadCall → World T →
    Option (World T)
  | .runThread, s =>
    if t = K.target ∧ s.started = false then some s.enterRun else none
  | .pthreadJoin _, s =>
    if t ≠ K.target ∧ mayJoin s = true then some (s.enterJoin t) else none

def threadLeave (K : Tasks T) (t : T) : ThreadCall → Status × Option Ptr → World T → World T
  | .runThread, _, s => (s.mark K t false).leaveRun
  | .pthreadJoin _, v, s => (s.mark K t false).leaveJoin v

def threadCode (K : Tasks T) (text : Ptr → Ptr → Routine) :
    ThreadCall → Prog ThreadOp ThreadAns (Status × Option Ptr)
  | .runThread => do
    runThread text
    return (.ok, none)
  | .pthreadJoin retval => pthreadJoin K.thread retval

def joinOnce (s : World T) : Bool := s.joiners = ∅

abbrev ThreadSystem (T : Type) :=
  System T ThreadOp ThreadAns Env (World T) ThreadCall (Status × Option Ptr)

def threadSystem (relock : Bool) (P : Platform) (K : Tasks T) (mayJoin : World T → Bool)
    (text : Ptr → Ptr → Routine) : ThreadSystem T where
  code _ k := threadCode K text k
  exec := threadExec relock P K
  enter := threadEnter K mayJoin
  leave := threadLeave K

def rawWorld (o : PthreadInternal T) : World T :=
  ⟨o, false, false, ∅, none, 0, ∅, [], [], false⟩

def Created (relock : Bool) (P : Platform) (K : Tasks T) (attr : Option PthreadAttr)
    (func arg : Ptr) (s : World T) : Prop :=
  ∃ t c o, (pthreadCreate P attr func arg).eval (fun e => threadExec relock P K t e c)
    (rawWorld o) = some ((.ok, some K.thread), s)

def createdThread (P : Platform) (attr : Option PthreadAttr) (func arg : Ptr)
    (stack : Option Ptr) : PthreadInternal T :=
  let attr := attr.getD (pthreadAttrDefault P)
  ⟨attr, func, arg, stack, fun _ => if statusJoinable attr.status = true then 1 else 0,
    mutInit, 0⟩

section Creation
variable {relock : Bool} {P : Platform} {K : Tasks T} {t : T} {c : Env}

theorem World.mark_rawWorld (touch : Bool) (o : PthreadInternal T) :
    (rawWorld o).mark K t touch = rawWorld o := by
  simp [World.mark, rawWorld, World.stackFreed, World.threadFreed]

omit [DecidableEq T] in
theorem rawWorld_obj (o : PthreadInternal T) : (rawWorld o).obj = o := rfl

omit [DecidableEq T] in
theorem rawWorld_modify (o : PthreadInternal T) (f : PthreadInternal T → PthreadInternal T) :
    (rawWorld o).modify f = rawWorld (f o) := rfl

theorem createSync_eval (o : PthreadInternal T) :
    createSync.eval (fun e => threadExec relock P K t e c) (rawWorld o) =
      some ((), rawWorld { o with sem := fun _ => 1, mux := mutInit }) := by
  have hsem : Function.update (Function.update o.sem .barrier 1) .joined 1 = fun _ => 1 := by
    funext sem
    cases sem with
    | barrier => rfl
    | joined => rfl
  simp [createSync, threadExec, answer, World.mark_rawWorld, rawWorld_modify, World.setSem, hsem]

/-- The stack and the task. Without a stack, or if the task cannot be made, the blocks are freed. -/
theorem createTask_eval (relock : Bool) (P : Platform) (K : Tasks T) (t : T) (c : Env)
    (thread : Ptr) (pri : ℕ) (o : PthreadInternal T) :
    ∃ out s, (createTask thread pri).eval (fun e => threadExec relock P K t e c) (rawWorld o) =
      some (out, s) ∧
      ((out = (.ok, some thread) ∧ c.taskOk = true ∧ ∃ stack, c.stackBlock = some stack ∧
          s = rawWorld { o with stack := some stack }) ∨
        (out = (.EAGAIN, none) ∧ (c.stackBlock = none ∨ c.taskOk = false))) := by
  cases hstack : c.stackBlock with
  | none => simp [createTask, threadExec, answer, World.mark_rawWorld, rawWorld_modify, hstack]
  | some stack =>
    cases htask : c.taskOk with
    | false =>
      simp [createTask, threadExec, answer, World.mark_rawWorld, rawWorld_modify, hstack, htask]
    | true =>
      simp [createTask, threadExec, answer, World.mark_rawWorld, rawWorld_modify, hstack, htask]

theorem createThread_eval (attr : Option PthreadAttr) (func arg : Ptr) (o : PthreadInternal T)
    {thread : Ptr} (hthread : c.threadBlock = some thread) :
    (createThread P attr func arg).eval (fun e => threadExec relock P K t e c) (rawWorld o) =
      (createTask thread (statusPriority (attr.getD (pthreadAttrDefault P)).status)).eval
        (fun e => threadExec relock P K t e c) (rawWorld (createdThread P attr func arg none)) := by
  simp only [createThread, threadExec, answer, World.mark_rawWorld, hthread, rawWorld_modify,
    rawWorld_obj, Prog.request_bind, Prog.eval_call, Option.map_some, Option.bind_some]
  by_cases hj : statusJoinable (attr.getD (pthreadAttrDefault P)).status = true
  · rw [if_pos hj, Prog.eval_bind, createSync_eval]
    simp [createdThread, hj, zeroThread]
  · rw [if_neg hj]
    simp [createdThread, hj, zeroThread]

theorem created_of_blocks (t : T) (c : Env) (attr : Option PthreadAttr) (func arg : Ptr)
    (hset : c.allocSet = true) (hthread : c.threadBlock = some K.thread) {stack : Ptr}
    (hstack : c.stackBlock = some stack) (htask : c.taskOk = true) :
    Created relock P K attr func arg (rawWorld (createdThread P attr func arg (some stack))) := by
  refine ⟨t, c, zeroThread, ?_⟩
  obtain ⟨out, s, heval, hmade⟩ := createTask_eval relock P K t c K.thread
    (statusPriority (attr.getD (pthreadAttrDefault P)).status) (createdThread P attr func arg none)
  rcases hmade with ⟨rfl, -, p, hp, rfl⟩ | ⟨-, hnone | hfalse⟩
  · obtain rfl : stack = p := Option.some.inj (hstack.symm.trans hp)
    simp only [pthreadCreate, threadExec, answer, World.mark_rawWorld, hset, Prog.request_bind,
      Prog.eval_call, Option.bind_some, Bool.true_eq_false, if_false]
    exact (createThread_eval attr func arg zeroThread hthread).trans heval
  · simp [hstack] at hnone
  · simp [htask] at hfalse

theorem created_world {attr : Option PthreadAttr} {func arg : Ptr} {s : World T}
    (h : Created relock P K attr func arg s) :
    ∃ stack, stack ≠ none ∧ s = rawWorld (createdThread P attr func arg stack) := by
  obtain ⟨t, c, o, h⟩ := h
  cases hset : c.allocSet with
  | false => simp [pthreadCreate, threadExec, answer, World.mark_rawWorld, hset] at h
  | true =>
    simp only [pthreadCreate, threadExec, answer, World.mark_rawWorld, hset, Prog.request_bind,
      Prog.eval_call, Option.bind_some, Bool.true_eq_false, if_false] at h
    cases hthread : c.threadBlock with
    | none => simp [createThread, threadExec, answer, World.mark_rawWorld, hthread] at h
    | some thread =>
      have hrun := (createThread_eval attr func arg o hthread).symm.trans h
      obtain ⟨out, s', heval, hmade⟩ := createTask_eval relock P K t c thread
        (statusPriority (attr.getD (pthreadAttrDefault P)).status)
        (createdThread P attr func arg none)
      obtain ⟨rfl, rfl⟩ := Prod.mk.inj (Option.some.inj (heval.symm.trans hrun))
      rcases hmade with ⟨-, -, stack, -, rfl⟩ | ⟨hagain, -⟩
      · exact ⟨some stack, by simp, rfl⟩
      · simp at hagain

end Creation

end LibPosix.PthreadRun
