import LibPosix.PthreadAttributes
import LibPosix.CreationLedger
import LibPosix.Simulation

/-! Attributes, threads and the priorities that the kernel knows of their tasks. The attributes
are words with packed fields, copied into each thread; to the callers they are records, and the
priority of a thread is one number, in the record and in the kernel. -/
namespace LibPosix.ThreadPriorities
open Program Pthread PthreadAttributes Simulation
open CreationLedger (Supply Making creating makeTask createThread_eval makeTask_nullWrite)

def SCHED_OTHER : ℕ := 3

/-- `none` is a null pointer; otherwise this is what is stored. -/
def pthreadAttrInit (P : Platform) (attr : Option Ptr) : Status × Option PthreadAttr :=
  if attr = none then (.EINVAL, none) else (.ok, some (pthreadAttrDefault P))

def pthreadAttrDestroy (attr : Option Ptr) : Status := if attr = none then .EINVAL else .ok

/-- A thread object and the priority of its task. -/
structure Thread where
  attr : PthreadAttr
  taskPri : ℤ
  deriving DecidableEq, Repr

def pthreadGetschedparam (thread : Thread) : ℕ × ℤ :=
  (SCHED_OTHER, statusPriority thread.attr.status)

/-- The policy that is asked for is not looked at. -/
def pthreadSetschedparam (P : Platform) (thread : Thread) (_policy : ℤ) (param : Option ℤ) :
    Status × Thread :=
  let r := pthreadAttrSetschedparam P thread.attr param
  match r.1, param with
  | .ok, some schedPriority => (.ok, ⟨r.2, schedPriority⟩)
  | ret, _ => (ret, { thread with attr := r.2 })

/-- Calls on attributes and threads; the end of a thread frees its object. -/
inductive Call where
  | attrInit (attr : Option Ptr)
  | attrDestroy (attr : Option Ptr)
  | attrSet (attr : Ptr) (k : AttrCall)
  | attrGet (attr : Ptr)
  | pthreadCreate (attr : Option Ptr) (func arg : Ptr) (c : Supply)
  | pthreadGetschedparam (thread : Ptr)
  | pthreadSetschedparam (thread : Ptr) (policy : ℤ) (param : Option ℤ)
  | joinable (thread : Ptr)
  | ended (thread : Ptr)
  deriving DecidableEq, Repr

/-- What is returned; of a new task also what the kernel is given, and of a thread also the
priority that the kernel goes by. -/
inductive Answer where
  | status (ret : Status)
  | values (v : AttrValues)
  | created (ret : Status) (thread : Option Ptr) (task : Option (ℤ × ℕ))
  | sched (policy : ℕ) (schedPriority taskPri : ℤ)
  | joinable (b : Bool)
  | ended
  deriving DecidableEq, Repr

structure Objects (A B : Type) where
  attr : Ptr → Option A
  thread : Ptr → Option B

namespace Objects
variable {A B : Type}

def setAttr (q : Ptr) (x : Option A) (s : Objects A B) : Objects A B :=
  { s with attr := Function.update s.attr q x }

def setThread (q : Ptr) (x : Option B) (s : Objects A B) : Objects A B :=
  { s with thread := Function.update s.thread q x }

def attrOf (attr : Option Ptr) (s : Objects A B) : Option (Option A) :=
  match attr with
  | none => some none
  | some q => (s.attr q).map some

def inUse (c : Supply) (s : Objects A B) : Bool := c.object.any fun p => (s.thread p).isSome

def empty : Objects A B := ⟨fun _ => none, fun _ => none⟩

end Objects

/-- `pthread_create` with these attributes. One that clears a thread object it has not got does not
come back. -/
def createWith (P : Platform) (a : Option PthreadAttr) (func arg : Ptr) (c : Supply)
    (s : Objects PthreadAttr Thread) : Option (Objects PthreadAttr Thread × Answer) :=
  ((pthreadCreate P a func arg).eval (creating c) (.start ⟨0, false⟩)).bind fun r =>
    let task := r.2.task.map fun x => ((x.1 : ℤ), x.2.toNat)
    if r.2.heap.nullWrite = true then none
    else some (match r.1.2, r.2.task with
      | some q, some (pri, _) =>
        (s.setThread q (some ⟨r.2.attr, pri⟩), .created r.1.1 (some q) task)
      | thread, _ => (s, .created r.1.1 thread task))

/-- The code. An object that does not exist is not used. -/
def threads (P : Platform) : Machine (Objects PthreadAttr Thread) Call Answer
  | s, .attrInit attr =>
    let r := pthreadAttrInit P attr
    match attr with
    | none => some (s, .status r.1)
    | some q => some (s.setAttr q r.2, .status r.1)
  | s, .attrDestroy attr => some (s, .status (pthreadAttrDestroy attr))
  | s, .attrSet q k => (s.attr q).map fun attr =>
    let r := k.run P attr
    (s.setAttr q (some r.2), .status r.1)
  | s, .attrGet q => (s.attr q).map fun attr => (s, .values (getters attr))
  | s, .pthreadCreate attr func arg c =>
    if s.inUse c = true then none
    else (s.attrOf attr).bind fun a => createWith P a func arg c s
  | s, .pthreadGetschedparam q => (s.thread q).map fun thread =>
    let r := pthreadGetschedparam thread
    (s, .sched r.1 r.2 thread.taskPri)
  | s, .pthreadSetschedparam q policy param => (s.thread q).map fun thread =>
    let r := pthreadSetschedparam P thread policy param
    (s.setThread q (some r.2), .status r.1)
  | s, .joinable q => (s.thread q).map fun thread =>
    (s, .joinable (statusJoinable thread.attr.status))
  | s, .ended q => (s.thread q).map fun _ => (s.setThread q none, .ended)

/-- What a setter says to its argument, whatever the attributes are. -/
def verdict (P : Platform) : AttrCall → Status
  | .setdetachstate detach => if detach = 0 ∨ detach = 1 then .ok else .EINVAL
  | .setschedparam none => .EINVAL
  | .setschedparam (some priority) =>
    if 0 ≤ priority ∧ priority < P.cfgTpriNum then .ok else .ENOTSUP
  | .setstacksize stacksize => if stacksize < 1024 then .EINVAL else .ok

def change (P : Platform) (k : AttrCall) (v : AttrValues) : AttrValues :=
  if verdict P k = .ok then v.note k else v

def defaults (P : Platform) : AttrValues := ⟨1, P.cfgTpriNum - 2, 1024⟩

/-- A thread with this record is created if everything it needs is supplied. -/
def createRecord (v : AttrValues) (c : Supply) (s : Objects AttrValues AttrValues) :
    Option (Objects AttrValues AttrValues × Answer) :=
  if c.hook = false then some (s, .created .EAGAIN none none)
  else c.object.map fun q =>
    let task := some (v.schedPriority, v.stacksize)
    if c.stack = none then (s, .created .EAGAIN none none)
    else if c.task = true then (s.setThread q (some v), .created .ok (some q) task)
    else (s, .created .EAGAIN none task)

/-- What the callers take it for: attributes and threads are records. -/
def records (P : Platform) : Machine (Objects AttrValues AttrValues) Call Answer
  | s, .attrInit none => some (s, .status .EINVAL)
  | s, .attrInit (some q) => some (s.setAttr q (some (defaults P)), .status .ok)
  | s, .attrDestroy attr => some (s, .status (if attr = none then .EINVAL else .ok))
  | s, .attrSet q k => (s.attr q).map fun v =>
    (s.setAttr q (some (change P k v)), .status (verdict P k))
  | s, .attrGet q => (s.attr q).map fun v => (s, .values v)
  | s, .pthreadCreate attr _ _ c =>
    if s.inUse c = true then none
    else (s.attrOf attr).bind fun a => createRecord (a.getD (defaults P)) c s
  | s, .pthreadGetschedparam q => (s.thread q).map fun v =>
    (s, .sched SCHED_OTHER v.schedPriority v.schedPriority)
  | s, .pthreadSetschedparam q _ param => (s.thread q).map fun v =>
    (s.setThread q (some (change P (.setschedparam param) v)),
      .status (verdict P (.setschedparam param)))
  | s, .joinable q => (s.thread q).map fun v => (s, .joinable (decide (v.detachstate = 1)))
  | s, .ended q => (s.thread q).map fun _ => (s.setThread q none, .ended)

/-- A stack size that is set can be kept in 16 bits. -/
def InRange : Call → Prop
  | .attrSet _ (.setstacksize stacksize) => stacksize < 2 ^ 16
  | _ => True

instance decidableInRange : ∀ e, Decidable (InRange e)
  | .attrSet _ (.setstacksize stacksize) => inferInstanceAs (Decidable (stacksize < 2 ^ 16))
  | .attrSet _ (.setdetachstate _) | .attrSet _ (.setschedparam _) | .attrInit _ | .attrDestroy _
  | .attrGet _ | .pthreadCreate .. | .pthreadGetschedparam _ | .pthreadSetschedparam ..
  | .joinable _ | .ended _ => .isTrue trivial

/-- The words keep what the record says, and no stack size is cut off. -/
structure Holds (attr : PthreadAttr) (v : AttrValues) : Prop where
  kept : Kept attr v
  stacksize_lt : v.stacksize < 2 ^ 16

section Values
variable {P : Platform} {attr : PthreadAttr} {v : AttrValues}

theorem run_verdict (attr : PthreadAttr) (k : AttrCall) : (k.run P attr).1 = verdict P k := by
  cases k with
  | setdetachstate detach =>
    simp only [AttrCall.run, pthreadAttrSetdetachstate, verdict]
    have hd : PTHREAD_CREATE_DETACHED.toInt = 0 := by decide
    have hj : PTHREAD_CREATE_JOINABLE.toInt = 1 := by decide
    rw [hd, hj]
    by_cases h0 : detach = 0
    · simp [h0]
    · by_cases h1 : detach = 1
      · simp [h1]
      · simp [h0, h1]
  | setschedparam param =>
    cases param with
    | none => rfl
    | some priority =>
      simp only [AttrCall.run, pthreadAttrSetschedparam, verdict]
      have hrange : (priority > schedGetPriorityMax P ∨ priority < 0) ↔
          ¬ (0 ≤ priority ∧ priority < P.cfgTpriNum) := by
        unfold schedGetPriorityMax
        omega
      by_cases h : 0 ≤ priority ∧ priority < P.cfgTpriNum
      · rw [if_neg (fun hbad => hrange.mp hbad h), if_pos h]
      · rw [if_pos (hrange.mpr h), if_neg h]
  | setstacksize stacksize =>
    simp only [AttrCall.run, pthreadAttrSetstacksize, verdict]
    have hmin : PTHREAD_STACK_MIN.toNat = 1024 := by decide
    rw [hmin]
    split_ifs
    · rfl
    · rfl

/-- A setter does to the word what it does to the record. -/
theorem Holds.set (hpri : P.cfgTpriNum ≤ 2 ^ 15) (hh : Holds attr v) (k : AttrCall)
    (hk : ∀ stacksize, k = .setstacksize stacksize → stacksize < 2 ^ 16) :
    Holds (k.run P attr).2 (change P k v) := by
  by_cases h : (k.run P attr).1 = .ok
  · rw [change, if_pos ((run_verdict attr k).symm.trans h)]
    refine ⟨run_kept hpri hh.kept h, ?_⟩
    cases k with
    | setdetachstate detach => exact hh.stacksize_lt
    | setschedparam param => exact hh.stacksize_lt
    | setstacksize stacksize => exact hk stacksize rfl
  · rw [change, if_neg fun hv => h ((run_verdict attr k).trans hv), run_failed h]
    exact hh

theorem Holds.stackSz (hh : Holds attr v) : attr.stackSz.toNat = v.stacksize := by
  rw [hh.kept.stackSz, BitVec.toNat_ofNat, Nat.mod_eq_of_lt hh.stacksize_lt]

theorem Holds.getters (hh : Holds attr v) : getters attr = v := by
  rw [PthreadAttributes.getters, hh.kept.detachstate, hh.kept.schedPriority,
    pthreadAttrGetstacksize, hh.stackSz]

theorem Kept.joinable (hk : Kept attr v) :
    statusJoinable attr.status = decide (v.detachstate = 1) := by
  rw [← hk.detachstate, pthreadAttrGetdetachstate]
  have hd : PTHREAD_CREATE_DETACHED.toInt = 0 := by decide
  have hj : PTHREAD_CREATE_JOINABLE.toInt = 1 := by decide
  rw [hd, hj]
  by_cases h : statusJoinable attr.status = true
  · simp [h]
  · simp [h]

theorem default_holds (h2 : 2 ≤ P.cfgTpriNum) (hpri : P.cfgTpriNum ≤ 2 ^ 15) :
    Holds (pthreadAttrDefault P) (defaults P) := by
  refine ⟨?_, by norm_num [defaults]⟩
  obtain ⟨n, hn⟩ : ∃ n, P.cfgTpriNum = n + 2 := ⟨P.cfgTpriNum - 2, by omega⟩
  have hlow : hcosLowestPriority P = n := by
    rw [hcosLowestPriority, hn]
    omega
  have hmask : MASK_PRIORITY = ~~~MASK_DETACH := by decide
  have hstatus : (pthreadAttrDefault P).status =
      BitVec.ofNat 16 n &&& ~~~MASK_DETACH ||| PTHREAD_CREATE_JOINABLE <<< SHFT_DETACH := by
    rw [pthreadAttrDefault, hlow, BitVec.ofInt_natCast, hmask]
  constructor
  · rw [pthreadAttrGetdetachstate, hstatus, setDetach_joinable]
    rfl
  · rw [pthreadAttrGetschedparam, hstatus, setDetach_priority, statusPriority, defaults, hn]
    have hand : (BitVec.ofNat 16 n &&& MASK_PRIORITY).toNat = n := by
      rw [BitVec.toNat_and, BitVec.toNat_ofNat, Nat.mod_eq_of_lt (by omega)]
      exact (Nat.and_two_pow_sub_one_eq_mod n 15).trans (Nat.mod_eq_of_lt (by omega))
    rw [hand]
    simp
  · rfl

end Values

structure Matches (thread : Thread) (v : AttrValues) : Prop where
  attr : Holds thread.attr v
  taskPri : thread.taskPri = v.schedPriority

section Threads
variable {P : Platform} {thread : Thread} {v : AttrValues}

theorem Matches.setschedparam (h : Matches thread v) (hpri : P.cfgTpriNum ≤ 2 ^ 15) (policy : ℤ)
    (param : Option ℤ) :
    (pthreadSetschedparam P thread policy param).1 = verdict P (.setschedparam param) ∧
      Matches (pthreadSetschedparam P thread policy param).2
        (change P (.setschedparam param) v) := by
  have hret : (pthreadAttrSetschedparam P thread.attr param).1 = verdict P (.setschedparam param) :=
    run_verdict thread.attr (.setschedparam param)
  have hkept : Holds (pthreadAttrSetschedparam P thread.attr param).2
      (change P (.setschedparam param) v) := h.attr.set hpri (.setschedparam param) nofun
  cases param with
  | none => exact ⟨rfl, hkept, h.taskPri⟩
  | some priority =>
    by_cases hok : 0 ≤ priority ∧ priority < P.cfgTpriNum
    · have hverdict : verdict P (.setschedparam (some priority)) = .ok := by simp [verdict, hok]
      rw [hverdict] at hret ⊢
      simp only [pthreadSetschedparam, hret, true_and]
      exact ⟨hkept, by simp [change, hverdict, AttrValues.note]⟩
    · have hverdict : verdict P (.setschedparam (some priority)) = .ENOTSUP := by
        simp [verdict, hok]
      rw [hverdict] at hret ⊢
      simp only [pthreadSetschedparam, hret, true_and]
      exact ⟨hkept, by simp [change, hverdict, h.taskPri]⟩

/-- Attributes and threads stand for the records at the same addresses. -/
structure Stand (s : Objects PthreadAttr Thread) (t : Objects AttrValues AttrValues) : Prop where
  attr : ∀ q, Option.Rel Holds (s.attr q) (t.attr q)
  thread : ∀ q, Option.Rel Matches (s.thread q) (t.thread q)

section Tables
variable {s : Objects PthreadAttr Thread} {t : Objects AttrValues AttrValues}

theorem Stand.setAttr (h : Stand s t) (q : Ptr) {x : Option PthreadAttr} {y : Option AttrValues}
    (hx : Option.Rel Holds x y) : Stand (s.setAttr q x) (t.setAttr q y) :=
  ⟨pointwise_update h.attr q hx, h.thread⟩

theorem Stand.setThread (h : Stand s t) (q : Ptr) {x : Option Thread} {y : Option AttrValues}
    (hx : Option.Rel Matches x y) : Stand (s.setThread q x) (t.setThread q y) :=
  ⟨h.attr, pointwise_update h.thread q hx⟩

theorem Stand.inUse (h : Stand s t) (c : Supply) : s.inUse c = t.inUse c := by
  cases hobject : c.object with
  | none => simp [Objects.inUse, hobject]
  | some p => simpa [Objects.inUse, hobject] using isSome_eq (h.thread p)

theorem Stand.attrOf (h : Stand s t) (attr : Option Ptr) :
    Option.Rel (Option.Rel Holds) (s.attrOf attr) (t.attrOf attr) := by
  cases attr with
  | none => exact .some .none
  | some q =>
    have hq := h.attr q
    simp only [Objects.attrOf]
    generalize s.attr q = x at hq ⊢
    generalize t.attr q = y at hq ⊢
    cases hq with
    | none => exact .none
    | some hk => exact .some (.some hk)

end Tables

end Threads

section Steps
variable {P : Platform} {s : Objects PthreadAttr Thread} {t : Objects AttrValues AttrValues}

/-- A new thread gets a copy of the attributes, and its task their priority. -/
theorem Stand.create (h : Stand s t) {a : Option PthreadAttr} {v : AttrValues}
    (hk : Holds (a.getD (pthreadAttrDefault P)) v) (func arg : Ptr) (c : Supply) :
    Agree Stand (createWith P a func arg c s) (createRecord v c t) := by
  have hpri : (statusPriority (a.getD (pthreadAttrDefault P)).status : ℤ) = v.schedPriority :=
    hk.kept.schedPriority
  have hsize : (a.getD (pthreadAttrDefault P)).stackSz.toNat = v.stacksize := hk.stackSz
  unfold createWith createRecord
  cases hhook : c.hook with
  | false =>
    have heval : (pthreadCreate P a func arg).eval (creating c) (.start ⟨0, false⟩) =
        some ((.EAGAIN, none), .start ⟨0, false⟩) := by
      simp [pthreadCreate, creating, hhook]
    rw [heval]
    exact .answered h
  | true =>
    have heval : (pthreadCreate P a func arg).eval (creating c) (.start ⟨0, false⟩) =
        (createThread P a func arg).eval (creating c) (.start ⟨0, false⟩) := by
      simp [pthreadCreate, creating, hhook]
    rw [heval]
    cases hobject : c.object with
    | none =>
      have hnull : (createThread P a func arg).eval (creating c) (.start ⟨0, false⟩) =
          some ((.EAGAIN, none), .start ⟨0, true⟩) := by
        simp [createThread, creating, hobject, Making.start, CreationLedger.Heap.alloc,
          CreationLedger.Heap.write]
      rw [hnull]
      exact .refused
    | some q =>
      rw [createThread_eval a func arg hobject, Option.bind_some, if_neg]
      · cases hstack : c.stack with
        | none =>
          simp only [makeTask, hstack]
          exact .answered h
        | some stack =>
          cases htask : c.task with
          | false =>
            simp only [makeTask, hstack, htask, Bool.false_eq_true, if_false, Option.map_some,
              hpri, hsize, reduceCtorEq]
            exact .answered h
          | true =>
            simp only [makeTask, hstack, htask, if_true, if_false, Option.map_some, hpri, hsize,
              reduceCtorEq]
            exact .answered (h.setThread q (.some ⟨hk, rfl⟩))
      · simp [makeTask_nullWrite]

theorem Stand.step (h2 : 2 ≤ P.cfgTpriNum) (hpri : P.cfgTpriNum ≤ 2 ^ 15) (h : Stand s t)
    {e : Call} (hok : InRange e) : Agree Stand (threads P s e) (records P t e) := by
  cases e with
  | attrInit attr =>
    cases attr with
    | none => exact .answered h
    | some q => exact .answered (h.setAttr q (.some (default_holds h2 hpri)))
  | attrDestroy attr => exact .answered h
  | attrSet q k =>
    refine .map (h.attr q) ?_
    intro attr v hk
    have hset : Holds (k.run P attr).2 (change P k v) := by
      refine hk.set hpri k fun stacksize hsz => ?_
      subst hsz
      exact hok
    exact ⟨h.setAttr q (.some hset), congrArg _ (run_verdict attr k)⟩
  | attrGet q =>
    refine .map (h.attr q) ?_
    intro attr v hk
    exact ⟨h, congrArg _ hk.getters⟩
  | pthreadCreate attr func arg c =>
    simp only [threads, records, h.inUse c]
    split_ifs
    · exact .refused
    · have hattr := h.attrOf attr
      generalize s.attrOf attr = x at hattr ⊢
      generalize t.attrOf attr = y at hattr ⊢
      cases hattr with
      | none => exact .refused
      | some hk =>
        refine h.create ?_ func arg c
        cases hk with
        | none => exact default_holds h2 hpri
        | some hk => exact hk
  | pthreadGetschedparam q =>
    refine .map (h.thread q) ?_
    intro thread v hm
    have hpriority : (statusPriority thread.attr.status : ℤ) = v.schedPriority :=
      hm.attr.kept.schedPriority
    simp only [pthreadGetschedparam, hpriority, hm.taskPri, and_true]
    exact h
  | pthreadSetschedparam q policy param =>
    refine .map (h.thread q) ?_
    intro thread v hm
    obtain ⟨hret, hset⟩ := hm.setschedparam hpri policy param
    exact ⟨h.setThread q (.some hset), congrArg _ hret⟩
  | joinable q =>
    refine .map (h.thread q) ?_
    intro thread v hm
    exact ⟨h, congrArg _ (Kept.joinable hm.attr.kept)⟩
  | ended q => exact .map (h.thread q) fun _ _ _ => ⟨h.setThread q .none, rfl⟩

end Steps

/-- Whatever is done with attributes and threads, they cannot be told from records, and the
kernel goes by the priority in the record, as long as the stack sizes that are set can be kept. -/
theorem threads_answer_as_records (P : Platform) (h2 : 2 ≤ P.cfgTpriNum)
    (hpri : P.cfgTpriNum ≤ 2 ^ 15) {es : List Call} (hok : ∀ e ∈ es, InRange e) :
    (threads P).answers .empty es = (records P).answers .empty es := by
  have hstep : ∀ s t e, Stand s t → InRange e → Agree Stand (threads P s e) (records P t e) :=
    fun _ _ _ h he => h.step h2 hpri he
  exact answers_eq hstep hok ⟨fun _ => .none, fun _ => .none⟩

/-- A detached thread whose priority is set past the limit, and then within it; its attributes
have been changed in the meantime. -/
def priorityCalls : List Call :=
  [.attrInit (some 5), .attrSet 5 (.setdetachstate 0), .attrSet 5 (.setschedparam (some 7)),
    .attrSet 5 (.setstacksize 65535), .attrSet 5 (.setstacksize 1023),
    .pthreadCreate (some 5) 4096 0 ⟨true, some 1, some 2, true⟩,
    .attrSet 5 (.setschedparam (some 9)), .pthreadSetschedparam 1 3 (some 32),
    .pthreadGetschedparam 1, .pthreadSetschedparam 1 3 (some 31), .pthreadGetschedparam 1,
    .joinable 1, .attrGet 5]

def priorityAnswers : List Answer :=
  [.status .ok, .status .ok, .status .ok, .status .ok, .status .EINVAL,
    .created .ok (some 1) (some (7, 65535)), .status .ok, .status .ENOTSUP, .sched 3 7 7,
    .status .ok, .sched 3 31 31, .joinable false, .values ⟨0, 9, 65535⟩]

theorem threads_answer_as_records_detached :
    (threads platform1000).answers .empty priorityCalls = some priorityAnswers := by
  have hok : ∀ e ∈ priorityCalls, InRange e := by decide
  rw [threads_answer_as_records platform1000 (by decide) (by decide) hok]
  decide

end LibPosix.ThreadPriorities
