import LibPosix.Pthread
import LibPosix.Timer
import LibPosix.Transition

/-! The blocks of the two calls that create an object. A ledger keeps the live blocks of the
application's allocator over any run of calls, with what every call has returned, and notes a
write through a null pointer. -/
namespace LibPosix.CreationLedger
open Program Transition Pthread Timer

structure Heap where
  live : Multiset (PosixObj × Ptr)
  nullWrite : Bool
  deriving DecidableEq

namespace Heap

def alloc (h : Heap) (type : PosixObj) (p : Option Ptr) : Heap :=
  p.elim h fun p => { h with live := (type, p) ::ₘ h.live }

def free (h : Heap) (type : PosixObj) (p : Option Ptr) : Heap :=
  p.elim h fun p => { h with live := h.live.erase (type, p) }

@[simps] def write (h : Heap) (block : Bool) : Heap :=
  { h with nullWrite := h.nullWrite || !block }

@[simp] theorem write_true (h : Heap) : h.write true = h := by
  simp [write]

@[simp] theorem alloc_nullWrite (h : Heap) (type : PosixObj) (p : Option Ptr) :
    (h.alloc type p).nullWrite = h.nullWrite := by
  cases p with
  | none => rfl
  | some p => rfl

@[simp] theorem free_nullWrite (h : Heap) (type : PosixObj) (p : Option Ptr) :
    (h.free type p).nullWrite = h.nullWrite := by
  cases p with
  | none => rfl
  | some p => rfl

end Heap

/-- What the application and the kernel do during a call: whether there is an allocator, what it
returns for the object and for the stack, and whether `task_init` returns 0. -/
structure Supply where
  hook : Bool
  object : Option Ptr
  stack : Option Ptr
  task : Bool
  deriving DecidableEq, Repr

/-- The heap, the fields of the new thread that its creation reads back, and what `task_init` was
given: a priority and the size of the stack. -/
structure Making where
  heap : Heap
  attr : PthreadAttr
  stack : Option Ptr
  task : Option (ℕ × BitVec 16)
  deriving DecidableEq

@[simps] def Making.start (h : Heap) : Making := ⟨h, ⟨0, 0⟩, none, none⟩

def creating (c : Supply) : (e : ThreadOp) → Making → Option (ThreadAns e × Making)
  | .allocSet, s => some (c.hook, s)
  | .allocThread, s => some (c.object, { s with heap := s.heap.alloc .POSIX_THREAD c.object })
  | .clearThread thread, s => some ((), ⟨s.heap.write thread.isSome, ⟨0, 0⟩, none, none⟩)
  | .storeAttr attr, s => some ((), { s with attr := attr })
  | .loadAttr, s => some (s.attr, s)
  | .storeFunArg _, s => some ((), s)
  | .storeFun _, s => some ((), s)
  | .mutInit, s => some ((), s)
  | .semInit _ _, s => some ((), s)
  | .allocStack _, s => some (c.stack, { s with heap := s.heap.alloc .POSIX_STACK c.stack })
  | .storeStack stack, s => some ((), { s with stack := stack })
  | .loadStack, s => some (s.stack, s)
  | .taskInit pri _ sz, s => some (c.task, { s with task := some (pri, sz) })
  | .free type p, s => some ((), { s with heap := s.heap.free type p })
  | .self, _ => none
  | .loadFunArg, _ => none
  | .loadFun, _ => none
  | .muxLock _, _ => none
  | .muxUnlock, _ => none
  | .semPost _, _ => none
  | .semGet _, _ => none
  | .storeRet _, _ => none
  | .loadRet, _ => none
  | .work, _ => none
  | .popFrame, _ => none

def creatingTimer (c : Supply) : (e : CreateOp) → Heap → Option (CreateAns e × Heap)
  | .allocHook, h => some (c.hook, h)
  | .alloc, h => some (c.object.isSome, h.alloc .POSIX_TIMER c.object)
  | .memset block, h => some ((), h.write block)

inductive Creation where
  | pthreadCreate (attr : Option PthreadAttr) (func arg : Ptr)
  | timerCreate (evp : Option Sigevent)
  deriving DecidableEq, Repr

namespace Creation

def run (P : Platform) (c : Supply) (h : Heap) : Creation → Option (CallRet × Heap)
  | .pthreadCreate attr func arg =>
    ((Pthread.pthreadCreate P attr func arg).eval (creating c) (.start h)).map fun r =>
      (.ret r.1.1, r.2.heap)
  | .timerCreate evp =>
    ((Timer.timerCreate evp).eval (creatingTimer c) h).map fun r => (r.1.1, r.2)

/-- A nonzero code, or -1 with `errno`. -/
def isError : Creation → CallRet → Prop
  | .pthreadCreate .., r => ∃ s, s ≠ .ok ∧ r = .ret s
  | .timerCreate _, r => ∃ s, s ≠ .ok ∧ r = .fail s

def owned (c : Supply) : Creation → Option (Multiset (PosixObj × Ptr))
  | .pthreadCreate .. => do
    let thread ← c.object
    let stack ← c.stack
    return {(.POSIX_THREAD, thread), (.POSIX_STACK, stack)}
  | .timerCreate _ => c.object.map fun timer => {(.POSIX_TIMER, timer)}

def starved (c : Supply) : Creation → Bool
  | .pthreadCreate .. => c.hook && c.object.isNone
  | .timerCreate evp =>
    evp.any (·.sigevNotify ≠ .SIGEV_SIGNAL) && c.hook && c.object.isNone

end Creation

structure Entry where
  call : Creation
  supply : Supply
  ret : CallRet
  before : Multiset (PosixObj × Ptr)
  after : Multiset (PosixObj × Ptr)

/-- Success adds exactly the blocks of the new object, failure is an error and changes nothing. -/
def Entry.Balanced (e : Entry) : Prop :=
  (e.ret = .ret .ok ∧ ∃ blocks, e.call.owned e.supply = some blocks ∧ e.after = blocks + e.before) ∨
    (e.call.isError e.ret ∧ e.after = e.before)

structure Ledger where
  heap : Heap
  entries : List Entry

def create (P : Platform) (s : Ledger) (x : Creation × Supply) : Option Ledger :=
  (x.1.run P x.2 s.heap).map fun r =>
    ⟨r.2, s.entries ++ [⟨x.1, x.2, r.1, s.heap.live, r.2.live⟩]⟩

structure Survives (s : Ledger) : Prop where
  noNullWrite : s.heap.nullWrite = false
  balanced : ∀ e ∈ s.entries, e.Balanced

section Calls
variable {P : Platform} {c : Supply} {h : Heap}

structure Books (call : Creation) (c : Supply) (h : Heap) (r : CallRet × Heap) : Prop where
  balanced : Entry.Balanced ⟨call, c, r.1, h.live, r.2.live⟩
  nullWrite : r.2.nullWrite = (h.nullWrite || call.starved c)

theorem createSync_eval (s : Making) : createSync.eval (creating c) s = some ((), s) := rfl

/-- The stack and the task: what cannot be had is given back together with the object. -/
def makeTask (c : Supply) (thread : Ptr) (pri : ℕ) (s : Making) : (Status × Option Ptr) × Making :=
  match c.stack with
  | none => ((.EAGAIN, none),
    { s with heap := s.heap.free .POSIX_THREAD (some thread), stack := none })
  | some stack =>
    let made := s.heap.alloc .POSIX_STACK (some stack)
    let undone := (made.free .POSIX_STACK (some stack)).free .POSIX_THREAD (some thread)
    let task := some (pri, s.attr.stackSz)
    if c.task = true then ((.ok, some thread), ⟨made, s.attr, some stack, task⟩)
    else ((.EAGAIN, none), ⟨undone, s.attr, some stack, task⟩)

theorem createTask_eval (thread : Ptr) (pri : ℕ) (s : Making) :
    (createTask thread pri).eval (creating c) s = some (makeTask c thread pri s) := by
  cases hstack : c.stack with
  | none => simp [createTask, creating, makeTask, hstack, Heap.alloc]
  | some stack =>
    cases htask : c.task with
    | false => simp [createTask, creating, makeTask, hstack, htask]
    | true => simp [createTask, creating, makeTask, hstack, htask]

theorem createThread_eval (a : Option PthreadAttr) (func arg : Ptr) {thread : Ptr}
    (hobject : c.object = some thread) (s : Making) :
    let attr := a.getD (pthreadAttrDefault P)
    (createThread P a func arg).eval (creating c) s =
      some (makeTask c thread (statusPriority attr.status)
        ⟨s.heap.alloc .POSIX_THREAD (some thread), attr, none, none⟩) := by
  intro attr
  rw [← createTask_eval]
  by_cases hj : statusJoinable attr.status = true
  · simp [createThread, creating, hobject, attr, hj, Prog.eval_bind, createSync_eval]
  · simp [createThread, creating, hobject, attr, hj]

theorem makeTask_nullWrite (thread : Ptr) (pri : ℕ) (s : Making) :
    (makeTask c thread pri s).2.heap.nullWrite = s.heap.nullWrite := by
  unfold makeTask
  split
  · simp
  · split_ifs
    · simp
    · simp

theorem makeTask_books (thread : Ptr) (pri : ℕ) (s : Making) {live : Multiset (PosixObj × Ptr)}
    (hlive : s.heap.live = (.POSIX_THREAD, thread) ::ₘ live) :
    ((makeTask c thread pri s).1.1 = .ok ∧ ∃ stack, c.stack = some stack ∧
        (makeTask c thread pri s).2.heap.live =
          (.POSIX_STACK, stack) ::ₘ (.POSIX_THREAD, thread) ::ₘ live) ∨
      ((makeTask c thread pri s).1.1 = .EAGAIN ∧ (makeTask c thread pri s).2.heap.live = live) := by
  cases hstack : c.stack with
  | none => simp [makeTask, hstack, hlive, Heap.free]
  | some stack =>
    cases htask : c.task with
    | false => simp [makeTask, hstack, htask, hlive, Heap.alloc, Heap.free]
    | true => simp [makeTask, hstack, htask, hlive, Heap.alloc]

theorem pthreadCreate_books (attr : Option PthreadAttr) (func arg : Ptr) :
    ∃ r, (Creation.pthreadCreate attr func arg).run P c h = some r ∧
      Books (.pthreadCreate attr func arg) c h r := by
  cases hhook : c.hook with
  | false =>
    refine ⟨(.ret .EAGAIN, h), ?_, ?_, ?_⟩
    · simp [Creation.run, pthreadCreate, creating, hhook]
    · exact .inr ⟨⟨.EAGAIN, by simp, rfl⟩, rfl⟩
    · simp [Creation.starved, hhook]
  | true =>
    cases hobject : c.object with
    | none =>
      -- the null block has been cleared by the time it is tested
      refine ⟨(.ret .EAGAIN, h.write false), ?_, ?_, ?_⟩
      · simp [Creation.run, pthreadCreate, createThread, creating, hhook, hobject, Heap.alloc]
      · exact .inr ⟨⟨.EAGAIN, by simp, rfl⟩, rfl⟩
      · simp [Creation.starved, hhook, hobject, Heap.write]
    | some thread =>
      let given := attr.getD (pthreadAttrDefault P)
      let start : Making := ⟨h.alloc .POSIX_THREAD (some thread), given, none, none⟩
      let made := makeTask c thread (statusPriority given.status) start
      have hrun : (Creation.pthreadCreate attr func arg).run P c h =
          some (.ret made.1.1, made.2.heap) := by
        simp [Creation.run, pthreadCreate, creating, hhook, createThread_eval attr func arg hobject,
          given, start, made]
      refine ⟨_, hrun, ?_, ?_⟩
      · rcases makeTask_books thread (statusPriority given.status) start rfl with
          ⟨hok, stack, hstack, hlive⟩ | ⟨hagain, hlive⟩
        · refine .inl ⟨congrArg _ hok, {(.POSIX_THREAD, thread), (.POSIX_STACK, stack)}, ?_, ?_⟩
          · simp [Creation.owned, hobject, hstack]
          · refine hlive.trans ?_
            rw [Multiset.cons_swap]
            simp [Multiset.insert_eq_cons]
        · exact .inr ⟨⟨.EAGAIN, by simp, congrArg _ hagain⟩, hlive⟩
      · refine (makeTask_nullWrite thread _ start).trans ?_
        simp [start, Creation.starved, hobject]

theorem timerCreate_books (evp : Option Sigevent) :
    ∃ r, (Creation.timerCreate evp).run P c h = some r ∧ Books (.timerCreate evp) c h r := by
  cases evp with
  | none =>
    cases hhook : c.hook with
    | false =>
      refine ⟨(.fail .EAGAIN, h), ?_, .inr ⟨⟨.EAGAIN, by simp, rfl⟩, rfl⟩, ?_⟩
      · simp [Creation.run, timerCreate, creatingTimer, hhook]
      · simp [Creation.starved]
    | true =>
      refine ⟨(.fail .ENOTSUP, h), ?_, .inr ⟨⟨.ENOTSUP, by simp, rfl⟩, rfl⟩, ?_⟩
      · simp [Creation.run, timerCreate, creatingTimer, hhook]
      · simp [Creation.starved]
  | some event =>
    cases hhook : c.hook with
    | false =>
      refine ⟨(.fail .EAGAIN, h), ?_, .inr ⟨⟨.EAGAIN, by simp, rfl⟩, rfl⟩, ?_⟩
      · simp [Creation.run, timerCreate, creatingTimer, hhook]
      · simp [Creation.starved, hhook]
    | true =>
      by_cases hsignal : event.sigevNotify = .SIGEV_SIGNAL
      · refine ⟨(.fail .ENOTSUP, h), ?_, .inr ⟨⟨.ENOTSUP, by simp, rfl⟩, rfl⟩, ?_⟩
        · simp [Creation.run, timerCreate, creatingTimer, hhook, hsignal]
        · simp [Creation.starved, hsignal]
      · cases hobject : c.object with
        | none =>
          refine ⟨(.fail .EAGAIN, h.write false), ?_, .inr ⟨⟨.EAGAIN, by simp, rfl⟩, rfl⟩, ?_⟩
          · simp [Creation.run, timerCreate, creatingTimer, hhook, hsignal, hobject, Heap.alloc]
          · simp [Creation.starved, hhook, hsignal, hobject, Heap.write]
        | some timer =>
          refine ⟨(.ret .ok, h.alloc .POSIX_TIMER (some timer)), ?_, .inl ⟨rfl,
            {(.POSIX_TIMER, timer)}, by simp [Creation.owned, hobject], rfl⟩, ?_⟩
          · simp [Creation.run, timerCreate, creatingTimer, hhook, hsignal, hobject]
          · simp [Creation.starved, hobject, Heap.alloc]

theorem creation_books (call : Creation) : ∃ r, call.run P c h = some r ∧ Books call c h r := by
  cases call with
  | pthreadCreate attr func arg => exact pthreadCreate_books attr func arg
  | timerCreate evp => exact timerCreate_books evp

end Calls

/-- What holds after any calls: every entry balances, and a null block has been written exactly
if there was a call without one for its object. -/
structure Kept (s : Ledger) : Prop where
  balanced : ∀ e ∈ s.entries, e.Balanced
  nullWrite : s.heap.nullWrite = s.entries.any fun e => e.call.starved e.supply

section Runs
variable {P : Platform} {s : Ledger}

theorem Kept.create (hs : Kept s) (x : Creation × Supply) : ∃ s', create P s x = some s' ∧
    Kept s' ∧ s'.entries.map (fun e => (e.call, e.supply)) =
      s.entries.map (fun e => (e.call, e.supply)) ++ [x] := by
  obtain ⟨r, hr, hbooks⟩ := creation_books (P := P) (c := x.2) (h := s.heap) x.1
  refine ⟨_, by rw [CreationLedger.create, hr]; rfl, ⟨?_, ?_⟩, by simp⟩
  · intro e he
    rcases List.mem_append.mp he with he | he
    · exact hs.balanced e he
    · rw [List.mem_singleton.mp he]
      exact hbooks.balanced
  · simp [hbooks.nullWrite, hs.nullWrite]

theorem Kept.run (hs : Kept s) (calls : List (Creation × Supply)) :
    ∃ s', execute (CreationLedger.create P) s calls = some s' ∧ Kept s' ∧
      s'.entries.map (fun e => (e.call, e.supply)) =
        s.entries.map (fun e => (e.call, e.supply)) ++ calls := by
  induction calls generalizing s with
  | nil => exact ⟨s, rfl, hs, by simp⟩
  | cons x calls ih =>
    obtain ⟨u, hu, hkept, hentries⟩ := hs.create (P := P) x
    obtain ⟨s', hs', hkept', hentries'⟩ := ih hkept
    refine ⟨s', execute_cons.mpr ⟨u, hu, hs'⟩, hkept', ?_⟩
    rw [hentries', hentries, List.append_assoc]
    rfl

/-- The calls survive their allocations exactly if none of them asks for the block of its object
in vain; a missing stack or a failing `task_init` does no harm. -/
theorem creation_survives_iff (P : Platform) (live : Multiset (PosixObj × Ptr))
    (calls : List (Creation × Supply)) :
    ∃ s, execute (create P) ⟨⟨live, false⟩, []⟩ calls = some s ∧
      s.entries.map (fun e => (e.call, e.supply)) = calls ∧
      (Survives s ↔ ∀ x ∈ calls, x.1.starved x.2 = false) := by
  have hstart : Kept ⟨⟨live, false⟩, []⟩ := ⟨by simp, rfl⟩
  obtain ⟨s, hrun, hkept, hentries⟩ := hstart.run (P := P) calls
  have hcalls : s.entries.map (fun e => (e.call, e.supply)) = calls := hentries
  refine ⟨s, hrun, hcalls, ?_⟩
  have hfed : s.heap.nullWrite = false ↔ ∀ x ∈ calls, x.1.starved x.2 = false := by
    rw [hkept.nullWrite, ← hcalls]
    simp
  constructor
  · intro h
    exact hfed.mp h.noNullWrite
  · intro h
    exact ⟨hfed.mpr h, hkept.balanced⟩

/-- A thread and a timer whose objects cannot be allocated: each call fails as it should, after
having cleared the null block. -/
theorem creation_null_writes :
    let short : Supply := ⟨true, none, none, true⟩
    ((Creation.pthreadCreate none 4096 0).run platform1000 short ⟨0, false⟩).map
        (fun r => (r.1, r.2.nullWrite)) = some (.ret .EAGAIN, true) ∧
      ((Creation.timerCreate (some ⟨.SIGEV_THREAD, 7, 4096, none⟩)).run platform1000 short
        ⟨0, false⟩).map (fun r => (r.1, r.2.nullWrite)) = some (.fail .EAGAIN, true) ∧
      ¬ ∀ calls s, execute (create platform1000) ⟨⟨0, false⟩, []⟩ calls = some s → Survives s := by
  intro short
  refine ⟨by decide +kernel, by decide +kernel, fun h => ?_⟩
  obtain ⟨s, hrun, hnull⟩ : ∃ s, execute (create platform1000) ⟨⟨0, false⟩, []⟩
      [(.pthreadCreate none 4096 0, short)] = some s ∧ s.heap.nullWrite = true :=
    ⟨_, rfl, rfl⟩
  rw [(h _ s hrun).noNullWrite] at hnull
  cases hnull

end Runs

end LibPosix.CreationLedger
