import LibPosix.PoolHistory
import LibPosix.MutexExclusion
import LibPosix.CondAccounting
import LibPosix.TimedWaits

/-! The compile-time initializers of mutexes and condition variables. They leave the flag
`inited` at 0, so that every entry point refuses the object with `EINVAL`; an object that has
been set up by its init call refuses nothing but deadlines it cannot convert. -/
namespace LibPosix.StaticInit
open Program ThreadPool Transition Kernel TimeUtils Deadline Mutex MutexExclusion Cond
open CondAccounting TimedWaits PoolHistory
variable {T : Type} [DecidableEq T]

def PTHREAD_MUTEX_INITIALIZER : PthreadMutex T := ⟨false, ⟨none, 0⟩, .normal⟩

def PTHREAD_COND_INITIALIZER : PthreadCond T := ⟨false, ⟨none, 0⟩, semInit 0, 0⟩

/-- Any calls on one mutex, unlocking included; the tick counter has 32 bits. -/
def mutexCalls (relock : Bool) (P : Platform) :
    System T MutexOp MutexAns Outcome (PthreadMutex T) MutexCall Status where
  code _ k := mutexCode P k
  exec t e c m := mutexExec relock P t e ⟨c.tick % 2 ^ 32, c.garbage, c.expire⟩ m
  enter _ _ m := some m
  leave _ _ _ m := m

/-- The conversion of the deadline at this tick fails for another reason than lateness. -/
def DeadlineRefused (P : Platform) (abstime : Timespec) (tick : ℕ) : Prop :=
  (absTimespec2ticks P abstime (clockGettime P tick) 0).1 = .EINVAL

instance (P : Platform) (abstime : Timespec) (tick : ℕ) :
    Decidable (DeadlineRefused P abstime tick) := inferInstanceAs (Decidable (_ = _))

def mutexDeadline : MutexCall → Option Timespec
  | .timedlock abstime => abstime
  | _ => none

/-- The deadline of a timed call is refused when the call reads the clock. -/
def MutexRefused (P : Platform) (k : MutexCall) (e : MutexOp) (c : Outcome) : Prop :=
  e = .tmrTicks → ∀ abstime ∈ mutexDeadline k, DeadlineRefused P abstime (c.tick % 2 ^ 32)

theorem absTimespec2ticks_status (P : Platform) (x y : Timespec) (r : ℕ) :
    (absTimespec2ticks P x y r).1 = (absTimespec2ticks P x y 0).1 := by
  simp only [absTimespec2ticks, timespec2ticks]
  split_ifs <;> rfl

theorem absTimespec2ticks_statuses (P : Platform) (x y : Timespec) (r : ℕ) :
    (absTimespec2ticks P x y r).1 = .ok ∨ (absTimespec2ticks P x y r).1 = .ETIMEDOUT ∨
      (absTimespec2ticks P x y r).1 = .EINVAL := by
  simp only [absTimespec2ticks, timespec2ticks]
  split_ifs <;> simp

theorem zero_not_refused (P : Platform) {t : ℕ} (ht : t < 2 ^ 32) :
    ¬ DeadlineRefused P ⟨0, 0⟩ t := by
  have hz : validateTimespec ⟨0, 0⟩ = true := by decide
  by_cases h : nanos ⟨0, 0⟩ < nanos (clockGettime P t)
  · rw [DeadlineRefused, (absTimespec2ticks_past P ht hz 0 h).1]
    simp
  · have hpos := tick_pos P
    have hzero : (t : ℤ) * nanosecondsPerTick P = 0 := by
      rw [clockGettime_nanos P ht] at h
      have hnn := (tick_count_bounds P ht).1
      simp only [nanos] at h
      omega
    rw [DeadlineRefused, clockGettime_eq P ht, hzero]
    simp [absTimespec2ticks, timespecSub, timespecCmp, timespec2ticks, validateTimespec,
      nanosecondsPerSecond, MachineInt.signed, UINT_MAX]

def mutexVerdict (P : Platform) (k : MutexCall) : Protocol MutexOp MutexAns Bool where
  safe l e := l = true → e ≠ .mutUnlock ∧ ∀ n, e ≠ .mutLock n
  after
    | l, .inited, r, l' => r = true ∧ l' = l
    | l, .type, r, l' => r = .normal ∧ l' = l
    | l, .tmrTicks, r, l' => r < 2 ^ 32 ∧
        l' = (l && decide (∀ abstime ∈ mutexDeadline k, DeadlineRefused P abstime r))
    | l, _, _, l' => l' = l

theorem lockWithin_verdict {P : Platform} {k : MutexCall} {l : Bool} {ret : Status} {ticks : ℕ}
    (h : ret = .ok ∧ l = false ∨ ret = .EINVAL ∧ l = true) :
    (lockWithin ret ticks).Obeys (mutexVerdict P k) l fun v l' => v = .EINVAL ↔ l' = true := by
  rcases h with ⟨rfl, rfl⟩ | ⟨rfl, rfl⟩
  · simp [lockWithin, mutexVerdict]
  · simp [lockWithin]

theorem timedlock_verdict_none (P : Platform) (k : MutexCall) :
    (pthreadMutexTimedlock P none).Obeys (mutexVerdict P k) false
      fun v l => v = .EINVAL ↔ l = true := by
  simp [pthreadMutexTimedlock, lockTicks, lockWithin, mutexVerdict]

theorem timedlock_verdict_some (P : Platform) {k : MutexCall} (abstime : Timespec) {l : Bool}
    (hl : ∀ t < 2 ^ 32, DeadlineRefused P abstime t ↔
      l = true ∧ ∀ d ∈ mutexDeadline k, DeadlineRefused P d t) :
    (pthreadMutexTimedlock P (some abstime)).Obeys (mutexVerdict P k) l
      fun v l => v = .EINVAL ↔ l = true := by
  simp only [pthreadMutexTimedlock, lockTicks, Prog.obeys_bind, Prog.obeys_request,
    Prog.obeys_ite, Prog.pure_eq, Prog.obeys_ret]
  refine ⟨by simp [mutexVerdict], ?_⟩
  rintro garbage l₁ (h₁ : l₁ = l)
  subst l₁
  refine ⟨by simp [mutexVerdict], ?_⟩
  rintro inited l₂ ⟨rfl, h₂⟩
  subst l₂
  refine ⟨by simp, fun _ => ⟨by simp [mutexVerdict], ?_⟩⟩
  rintro t l₃ ⟨ht, rfl⟩
  apply lockWithin_verdict
  have hstatus := absTimespec2ticks_status P abstime (clockGettime P t) garbage
  have hverdict : (l && decide (∀ d ∈ mutexDeadline k, DeadlineRefused P d t)) =
      decide ((absTimespec2ticks P abstime (clockGettime P t) garbage).1 = .EINVAL) := by
    rw [hstatus, Bool.eq_iff_iff, Bool.and_eq_true, decide_eq_true_eq, decide_eq_true_eq]
    exact (hl t ht).symm
  rw [hverdict]
  rcases absTimespec2ticks_statuses P abstime (clockGettime P t) garbage with h | h | h
  · simp [h]
  · simp [h]
  · simp [h]

theorem mutexCode_verdict (P : Platform) (k : MutexCall) :
    (mutexCode P k).Obeys (mutexVerdict P k) (mutexDeadline k).isSome
      fun v l => v = .EINVAL ↔ l = true := by
  cases k with
  | lock => exact timedlock_verdict_none P _
  | timedlock abstime =>
    cases abstime with
    | none => exact timedlock_verdict_none P _
    | some abstime => exact timedlock_verdict_some P abstime (by simp [mutexDeadline])
  | trylock =>
    have hzero := timedlock_verdict_some P (k := .trylock) ⟨0, 0⟩ (l := false)
      (by simpa using fun t ht => zero_not_refused P ht)
    rw [mutexCode, pthreadMutexTrylock, Prog.obeys_bind]
    refine hzero.mono fun v l hv => ?_
    by_cases h : v = .ETIMEDOUT
    · simp [h] at hv ⊢
      exact hv
    · simpa [h] using hv
  | unlock => simp [mutexCode, pthreadMutexUnlock, mutexVerdict, mutexDeadline]

def DefaultMutex (m : PthreadMutex T) : Prop := m.inited = true ∧ m.type = .normal

theorem mutexCalls_judged (relock : Bool) (P : Platform) :
    Judged (mutexCalls (T := T) relock P) (mutexVerdict P) (fun k => (mutexDeadline k).isSome)
      (MutexRefused P) DefaultMutex .EINVAL := by
  refine ⟨fun _ _ _ => rfl, fun _ _ _ _ => rfl, fun _ k => ?_, ?_⟩
  · rw [Bool.decide_eq_true]
    exact mutexCode_verdict P k
  · intro t k e c l m r m' hm hsafe hs
    cases e with
    | inited =>
      cases hs
      exact ⟨hm, l, ⟨hm.1, rfl⟩, by simp [MutexRefused], fun _ _ => rfl⟩
    | type =>
      cases hs
      exact ⟨hm, l, ⟨hm.2, rfl⟩, by simp [MutexRefused], fun _ _ => rfl⟩
    | ownIsCur =>
      cases hs
      exact ⟨hm, l, rfl, by simp [MutexRefused], fun _ _ => rfl⟩
    | tmrTicks =>
      cases hs
      exact ⟨hm, _, ⟨Nat.mod_lt _ (by norm_num), rfl⟩, by simp [MutexRefused], fun _ _ => rfl⟩
    | uninit =>
      cases hs
      exact ⟨hm, l, rfl, by simp [MutexRefused], fun _ _ => rfl⟩
    | mutLock n =>
      obtain ⟨x, -, heq⟩ := Option.map_eq_some_iff.mp hs
      cases heq
      exact ⟨hm, l, rfl, by simp [MutexRefused], fun hl => absurd rfl ((hsafe hl).2 n)⟩
    | mutUnlock =>
      cases hs
      exact ⟨hm, l, rfl, by simp [MutexRefused], fun hl => absurd rfl (hsafe hl).1⟩

/-- On a mutex that has not been initialised nothing but the flag is looked at. -/
def mutexRefusal (_k : MutexCall) : Protocol MutexOp MutexAns Bool where
  safe _ e := e = .uninit ∨ e = .inited
  after
    | l, .inited, r, l' => r = false ∧ l' = l
    | l, _, _, l' => l' = l

theorem mutexCode_refusal (P : Platform) (k : MutexCall) :
    (mutexCode P k).Obeys (mutexRefusal k) true fun v l => v = .EINVAL ↔ l = true := by
  have htimed (abstime : Option Timespec) : (pthreadMutexTimedlock P abstime).Obeys
      (mutexRefusal k) true fun v l => v = .EINVAL ∧ l = true := by
    simp only [pthreadMutexTimedlock, Prog.obeys_bind, Prog.obeys_request, Prog.obeys_ite]
    simp [mutexRefusal]
  cases k with
  | lock => exact (htimed none).mono fun v l h => iff_of_true h.1 h.2
  | timedlock abstime => exact (htimed abstime).mono fun v l h => iff_of_true h.1 h.2
  | trylock =>
    rw [mutexCode, pthreadMutexTrylock, Prog.obeys_bind]
    refine (htimed (some ⟨0, 0⟩)).mono fun v l h => ?_
    simp [h.1, h.2]
  | unlock => simp [mutexCode, pthreadMutexUnlock, mutexRefusal]

theorem mutexCalls_refusing (relock : Bool) (P : Platform) :
    Judged (mutexCalls (T := T) relock P) mutexRefusal (fun _ => True) (fun _ _ _ => True)
      (fun m => m.inited = false) .EINVAL := by
  refine ⟨fun _ _ _ => rfl, fun _ _ _ _ => rfl, fun _ k => ?_, ?_⟩
  · exact mutexCode_refusal P k
  · intro t k e c l m r m' hm hsafe hs
    rcases hsafe with rfl | rfl
    · cases hs
      exact ⟨hm, l, rfl, by simp, fun _ _ => rfl⟩
    · cases hs
      exact ⟨hm, l, ⟨hm, rfl⟩, by simp, fun _ _ => rfl⟩

theorem staticMutex_refusesAll (relock : Bool) (P : Platform) :
    RefusesAll (mutexCalls (T := T) relock P) PTHREAD_MUTEX_INITIALIZER .EINVAL := by
  refine ⟨fun _ _ => rfl, fun _ _ => rfl, fun t k => ⟨⟨0, 0, false⟩, ?_⟩⟩
  cases k with
  | lock => rfl
  | timedlock abstime => rfl
  | trylock => rfl
  | unlock => rfl

structure CondWorld (T : Type) where
  cond : CondAccounting.World T
  mutex : PthreadMutex T

structure WaitChoice (T : Type) where
  cond : Choice T
  mutex : Outcome

def condWaitExec (relock : Bool) (P : Platform) (t : T) :
    (e : CondWaitOp) → WaitChoice T → CondWorld T → Option (CondWaitAns e × CondWorld T)
  | .cond e, c, s => (condExec relock P t e c.cond s.cond).map fun r => (r.1, ⟨r.2, s.mutex⟩)
  | .mutex e, c, s => (mutexExec relock P t e c.mutex s.mutex).map fun r => (r.1, ⟨s.cond, r.2⟩)

/-- Any calls on one condition variable, down to the kernel. -/
def condCalls (relock : Bool) (P : Platform) :
    System T CondWaitOp CondWaitAns (WaitChoice T) (CondWorld T) CondCall Status where
  code _ k := (condCode P k).interp (condHandler P)
  exec := condWaitExec relock P
  enter _ _ s := some s
  leave _ _ _ s := s

def condDeadline : CondCall → Option Timespec
  | .timedwait abstime => abstime
  | _ => none

def CondRefused (P : Platform) (k : CondCall) (e : CondWaitOp) (c : WaitChoice T) : Prop :=
  e = .cond .tmrTicks → ∀ abstime ∈ condDeadline k, DeadlineRefused P abstime c.cond.tick

deriving instance DecidableEq for CondWaitOp

instance (P : Platform) (k : CondCall) (e : CondWaitOp) (c : WaitChoice T) :
    Decidable (CondRefused P k e c) := inferInstanceAs (Decidable (_ → _))

instance (P : Platform) (k : MutexCall) (e : MutexOp) (c : Outcome) :
    Decidable (MutexRefused P k e c) := inferInstanceAs (Decidable (_ → _))

/-- The verdict on a call of an initialised condition variable, whose mutex calls are not
refused. -/
def condVerdict (P : Platform) (k : CondCall) : Protocol CondOp CondAns Bool where
  safe l e := l = true → e = .inited ∨ e = .tmrTicks
  after
    | l, .inited, r, l' => r = true ∧ l' = l
    | l, .tmrTicks, r, l' =>
        l' = (l && decide (∀ abstime ∈ condDeadline k, DeadlineRefused P abstime r))
    | l, .mutexUnlock, r, l' => r ≠ .EINVAL ∧ l' = l
    | l, .mutexLock, r, l' => r ≠ .EINVAL ∧ l' = l
    | l, _, _, l' => l' = l

/-- The same with an initialised mutex in place of its calls. -/
def condWaitVerdict (P : Platform) (k : CondCall) : Protocol CondWaitOp CondWaitAns Bool where
  safe
    | _, .cond .mutexUnlock => False
    | _, .cond .mutexLock => False
    | l, .cond e => (condVerdict P k).safe l e
    | l, .mutex _ => l = false
  after
    | l, .cond e, r, l' => (condVerdict P k).after l e r l'
    | l, .mutex .inited, r, l' => r = true ∧ l' = l
    | l, .mutex _, _, l' => l' = l

theorem condHandler_verdict (P : Platform) (k : CondCall) (e : CondOp) (l : Bool)
    (h : (condVerdict P k).safe l e) :
    (condHandler P e).Obeys (condWaitVerdict P k) l ((condVerdict P k).after l e) := by
  cases e with
  | mutexUnlock =>
    obtain rfl : l = false := by simpa [condVerdict] using h
    simp [condHandler, onMutex, pthreadMutexUnlock, condWaitVerdict, condVerdict]
  | mutexLock =>
    obtain rfl : l = false := by simpa [condVerdict] using h
    simp [condHandler, onMutex, pthreadMutexLock, pthreadMutexTimedlock, lockTicks, lockWithin,
      condWaitVerdict, condVerdict]
  | _ => exact ⟨h, fun _ _ ha => ha⟩

theorem timedwait_verdict_none (P : Platform) (k : CondCall) :
    (pthreadCondTimedwait P none).Obeys (condVerdict P k) false
      fun v l => v = .EINVAL ↔ l = true := by
  simp [pthreadCondTimedwait, getUnit, condVerdict]
  exact fun _ h _ => h

theorem timedwait_verdict_some (P : Platform) (abstime : Timespec) :
    (pthreadCondTimedwait P (some abstime)).Obeys
      (condVerdict P (.timedwait (some abstime))) true fun v l => v = .EINVAL ↔ l = true := by
  simp only [pthreadCondTimedwait, Prog.obeys_bind, Prog.obeys_request, Prog.obeys_ite,
    Prog.pure_eq, Prog.obeys_ret]
  refine ⟨by simp [condVerdict], ?_⟩
  rintro inited l₁ ⟨rfl, rfl⟩
  refine ⟨by simp, fun _ => ⟨by simp [condVerdict], ?_⟩⟩
  rintro t l₂ rfl
  have hstatus := absTimespec2ticks_status P abstime (clockGettime P t) P.WAIT
  have hverdict : (true && decide (∀ d ∈ condDeadline (.timedwait (some abstime)),
      DeadlineRefused P d t)) =
        decide ((absTimespec2ticks P abstime (clockGettime P t) P.WAIT).1 = .EINVAL) := by
    simp [condDeadline, DeadlineRefused, hstatus]
  rw [hverdict]
  rcases absTimespec2ticks_statuses P abstime (clockGettime P t) P.WAIT with h | h | h
  · simp [h, getUnit, condVerdict]
    exact fun _ h _ => h
  · simp [h]
  · simp [h]

theorem condCode_verdict (P : Platform) (k : CondCall) :
    (condCode P k).Obeys (condVerdict P k) (condDeadline k).isSome
      fun v l => v = .EINVAL ↔ l = true := by
  cases k with
  | wait => exact timedwait_verdict_none P _
  | timedwait abstime =>
    cases abstime with
    | none => exact timedwait_verdict_none P _
    | some abstime => exact timedwait_verdict_some P abstime
  | signal => simp [condCode, pthreadCondSignal, condVerdict, condDeadline]
  | broadcast => simp [condCode, pthreadCondBroadcast, condVerdict, condDeadline]

theorem condExec_inited {relock : Bool} {P : Platform} {t : T} {e : CondOp} {c : Choice T}
    {s s' : CondAccounting.World T} {r : CondAns e}
    (hs : condExec relock P t e c s = some (r, s')) :
    s'.cond.inited = s.cond.inited := by
  cases e with
  | muxLock =>
    obtain ⟨x, -, heq⟩ := Option.map_eq_some_iff.mp hs
    cases heq
    rfl
  | semPost =>
    obtain ⟨x, -, heq⟩ := Option.map_eq_some_iff.mp hs
    cases heq
    rfl
  | semPostN n =>
    obtain ⟨x, -, heq⟩ := Option.map_eq_some_iff.mp hs
    cases heq
    rfl
  | semGet n =>
    cases hs
    split_ifs
    · rfl
    · rfl
  | semResult n =>
    obtain ⟨x, -, heq⟩ := Option.map_eq_some_iff.mp hs
    cases heq
    split_ifs
    · rfl
    · rfl
  | _ =>
    cases hs
    rfl

theorem mutexExec_inited {relock : Bool} {P : Platform} {t : T} {e : MutexOp} {c : Outcome}
    {m m' : PthreadMutex T} {r : MutexAns e} (hs : mutexExec relock P t e c m = some (r, m')) :
    m'.inited = m.inited := by
  cases e with
  | mutLock n =>
    obtain ⟨x, -, heq⟩ := Option.map_eq_some_iff.mp hs
    cases heq
    rfl
  | _ =>
    cases hs
    rfl

def BothInited (s : CondWorld T) : Prop := s.cond.cond.inited = true ∧ s.mutex.inited = true

theorem condCalls_judged (relock : Bool) (P : Platform) :
    Judged (condCalls (T := T) relock P) (condWaitVerdict P) (fun k => (condDeadline k).isSome)
      (CondRefused P) BothInited .EINVAL := by
  refine ⟨fun _ _ _ => rfl, fun _ _ _ _ => rfl, fun _ k => ?_, ?_⟩
  · rw [Bool.decide_eq_true]
    exact (condCode_verdict P k).interp (condHandler_verdict P k)
  · intro t k e c l s r s' hq hsafe hs
    rcases e with e | e
    · obtain ⟨⟨x, w⟩, hx, heq⟩ := Option.map_eq_some_iff.mp hs
      cases heq
      have hq' : BothInited ⟨w, s.mutex⟩ := ⟨(condExec_inited hx).trans hq.1, hq.2⟩
      cases e with
      | inited =>
        cases hx
        exact ⟨hq', l, ⟨hq.1, rfl⟩, by simp [CondRefused], fun _ _ => rfl⟩
      | tmrTicks =>
        cases hx
        exact ⟨hq', _, rfl, by simp [CondRefused], fun _ _ => rfl⟩
      | mutexUnlock => exact hsafe.elim
      | mutexLock => exact hsafe.elim
      | _ =>
        refine ⟨hq', l, rfl, by simp [CondRefused], fun hl => ?_⟩
        rcases hsafe hl with h | h
        · cases h
        · cases h
    · obtain ⟨⟨x, m⟩, hx, heq⟩ := Option.map_eq_some_iff.mp hs
      cases heq
      have hq' : BothInited ⟨s.cond, m⟩ := ⟨hq.1, (mutexExec_inited hx).trans hq.2⟩
      have hl : l = false := hsafe
      subst l
      cases e with
      | inited =>
        cases hx
        exact ⟨hq', false, ⟨hq.2, rfl⟩, by simp, by simp⟩
      | _ => exact ⟨hq', false, rfl, by simp, by simp⟩

/-- On a condition variable that has not been initialised only the flag is looked at. -/
def condRefusal (_k : CondCall) : Protocol CondWaitOp CondWaitAns Bool where
  safe _ e := e = .cond .inited
  after
    | l, .cond .inited, r, l' => r = false ∧ l' = l
    | l, _, _, l' => l' = l

theorem condCalls_refusing (relock : Bool) (P : Platform) :
    Judged (condCalls (T := T) relock P) condRefusal (fun _ => True) (fun _ _ _ => True)
      (fun s => s.cond.cond.inited = false) .EINVAL := by
  refine ⟨fun _ _ _ => rfl, fun _ _ _ _ => rfl, fun _ k => ?_, ?_⟩
  · cases k with
    | wait =>
      simp [condCalls, condCode, pthreadCondWait, pthreadCondTimedwait, condHandler, condRefusal]
    | timedwait abstime =>
      simp [condCalls, condCode, pthreadCondTimedwait, condHandler, condRefusal]
    | signal => simp [condCalls, condCode, pthreadCondSignal, condHandler, condRefusal]
    | broadcast => simp [condCalls, condCode, pthreadCondBroadcast, condHandler, condRefusal]
  · intro t k e c l s r s' hq hsafe hs
    obtain rfl : e = .cond .inited := hsafe
    cases hs
    exact ⟨hq, l, ⟨hq, rfl⟩, by simp, fun _ _ => rfl⟩

def staticCond (m : PthreadMutex T) : CondWorld T :=
  ⟨{ (idleWorld : CondAccounting.World T) with cond := PTHREAD_COND_INITIALIZER }, m⟩

theorem staticCond_refusesAll (relock : Bool) (P : Platform) (m : PthreadMutex T) :
    RefusesAll (condCalls (T := T) relock P) (staticCond m) .EINVAL := by
  refine ⟨fun _ _ => rfl, fun _ _ => rfl, fun t k => ⟨⟨⟨0, false, ∅, .ok⟩, ⟨0, 0, false⟩⟩, ?_⟩⟩
  cases k with
  | wait => rfl
  | timedwait abstime => rfl
  | signal => rfl
  | broadcast => rfl

def SameOwner (m m' : PthreadMutex T) : Prop := m'.mux.own = m.mux.own

theorem staticMutex_repeated_iff (relock : Bool) (P : Platform)
    {as : List (Action T Outcome MutexCall)}
    {p : Pool T MutexOp MutexAns (PthreadMutex T) MutexCall Status}
    (hrun : execute (step (mutexCalls relock P)) (idlePool (pthreadMutexInit none)) as = some p)
    (hidle : ∀ t, p.thread t = none) :
    Repeated (mutexCalls relock P) (pthreadMutexInit none) PTHREAD_MUTEX_INITIALIZER SameOwner
        as p ↔
      Meets (step (mutexCalls relock P))
        (Admitted (fun k => (mutexDeadline k).isSome) (MutexRefused P))
        (idlePool (pthreadMutexInit none)) as := by
  have hinit : DefaultMutex (pthreadMutexInit none : PthreadMutex T) := ⟨rfl, rfl⟩
  have hsame : SameOwner (pthreadMutexInit none : PthreadMutex T) PTHREAD_MUTEX_INITIALIZER := rfl
  exact repeated_iff (mutexCalls_judged relock P) hinit (mutexCalls_refusing relock P) rfl
    (staticMutex_refusesAll relock P) hsame hrun hidle

theorem staticCond_repeated_iff (relock : Bool) (P : Platform) {m : PthreadMutex T}
    (hm : m.inited = true) {as : List (Action T (WaitChoice T) CondCall)}
    {p : Pool T CondWaitOp CondWaitAns (CondWorld T) CondCall Status}
    (hrun : execute (step (condCalls relock P)) (idlePool ⟨idleWorld, m⟩) as = some p)
    (hidle : ∀ t, p.thread t = none) :
    Repeated (condCalls relock P) ⟨idleWorld, m⟩ (staticCond m)
        (fun s s' => SameOwner s.mutex s'.mutex) as p ↔
      Meets (step (condCalls relock P))
        (Admitted (fun k => (condDeadline k).isSome) (CondRefused P))
        (idlePool ⟨idleWorld, m⟩) as := by
  let same (s s' : CondWorld T) : Prop := SameOwner s.mutex s'.mutex
  have hinit : BothInited (⟨idleWorld, m⟩ : CondWorld T) := ⟨rfl, hm⟩
  have hsame : same ⟨idleWorld, m⟩ (staticCond m) := rfl
  exact repeated_iff (condCalls_judged relock P) hinit (condCalls_refusing relock P) rfl
    (staticCond_refusesAll relock P m) hsame hrun hidle

/-- Which runs on initialised objects look the same on objects set to their initializers: those
that make timed calls only, each with a deadline that is refused when it is read. -/
theorem staticInitializers_repeated_iff (relock : Bool) (P : Platform)
    {as : List (Action T Outcome MutexCall)}
    {p : Pool T MutexOp MutexAns (PthreadMutex T) MutexCall Status}
    (hrun : execute (step (mutexCalls relock P)) (idlePool (pthreadMutexInit none)) as = some p)
    (hidle : ∀ t, p.thread t = none) {m : PthreadMutex T} (hm : m.inited = true)
    {bs : List (Action T (WaitChoice T) CondCall)}
    {q : Pool T CondWaitOp CondWaitAns (CondWorld T) CondCall Status}
    (hrun' : execute (step (condCalls relock P)) (idlePool ⟨idleWorld, m⟩) bs = some q)
    (hidle' : ∀ t, q.thread t = none) :
    (Repeated (mutexCalls relock P) (pthreadMutexInit none) PTHREAD_MUTEX_INITIALIZER SameOwner
        as p ↔
      Meets (step (mutexCalls relock P))
        (Admitted (fun k => (mutexDeadline k).isSome) (MutexRefused P))
        (idlePool (pthreadMutexInit none)) as) ∧
    (Repeated (condCalls relock P) ⟨idleWorld, m⟩ (staticCond m)
        (fun s s' => SameOwner s.mutex s'.mutex) bs q ↔
      Meets (step (condCalls relock P))
        (Admitted (fun k => (condDeadline k).isSome) (CondRefused P))
        (idlePool ⟨idleWorld, m⟩) bs) :=
  ⟨staticMutex_repeated_iff relock P hrun hidle, staticCond_repeated_iff relock P hm hrun' hidle'⟩

/-- A deadline 58 days ahead does not fit into 32 bits of milliseconds. -/
def farAhead : Timespec := ⟨5000000, 0⟩

def calm : WaitChoice T := ⟨⟨5, false, ∅, .ok⟩, patient⟩

/-- Two threads want to wait at once, one of them still longer and again. -/
def refusedLocks : List (Action Bool Outcome MutexCall) :=
  [.enter false (.timedlock (some farAhead)), .run false patient,
    .enter true (.timedlock (some ⟨9000000, 5⟩)), .run true patient, .run false patient,
    .run true patient, .run false patient, .leave false, .run true patient, .leave true] ++
    callSteps true (.timedlock (some ⟨9000000, 5⟩)) 3 patient

def refusedWaits : List (Action Bool (WaitChoice Bool) CondCall) :=
  [.enter false (.timedwait (some farAhead)), .enter true (.timedwait (some ⟨9000000, 5⟩)),
    .run false calm, .run true calm, .run true calm, .leave true, .run false calm, .leave false]

theorem staticInitializers_repeated_far : ∃ p q,
    execute (step (mutexCalls true platform1000)) (idlePool (pthreadMutexInit none))
      refusedLocks = some p ∧
    execute (step (condCalls true platform1000)) (idlePool ⟨idleWorld, pthreadMutexInit none⟩)
      refusedWaits = some q ∧
    Repeated (mutexCalls true platform1000) (pthreadMutexInit none) PTHREAD_MUTEX_INITIALIZER
      SameOwner refusedLocks p ∧
    Repeated (condCalls true platform1000) ⟨idleWorld, pthreadMutexInit none⟩
      (staticCond (pthreadMutexInit none)) (fun s s' => SameOwner s.mutex s'.mutex)
      refusedWaits q := by
  have hrun : ((execute (step (mutexCalls true platform1000)) (idlePool (pthreadMutexInit none))
      refusedLocks).map fun p => decide (∀ t, (p.thread t).isNone = true)) = some true := by
    decide +kernel
  have hrun' : ((execute (step (condCalls true platform1000))
      (idlePool ⟨idleWorld, pthreadMutexInit none⟩) refusedWaits).map
        fun q => decide (∀ t, (q.thread t).isNone = true)) = some true := by
    decide +kernel
  obtain ⟨p, hp, hidle⟩ := Option.map_eq_some_iff.mp hrun
  obtain ⟨q, hq, hidle'⟩ := Option.map_eq_some_iff.mp hrun'
  have hboth := staticInitializers_repeated_iff true platform1000 hp
    (fun t => Option.isNone_iff_eq_none.mp (of_decide_eq_true hidle t))
    (m := pthreadMutexInit none) rfl hq
    (fun t => Option.isNone_iff_eq_none.mp (of_decide_eq_true hidle' t))
  exact ⟨p, q, hp, hq, hboth.1.mpr (by decide +kernel), hboth.2.mpr (by decide +kernel)⟩

/-- One lock: the initialised mutex is locked, the other one reports `EINVAL`, and so does every
run on it. -/
theorem staticMutex_lock_fails : ∃ p,
    execute (step (mutexCalls true platform1000)) (idlePool (pthreadMutexInit none))
      (callSteps () .lock 4 patient) = some p ∧
    history (mutexCalls true platform1000) (idlePool (pthreadMutexInit none))
      (callSteps () .lock 4 patient) = [.entered () .lock, .returned () .ok] ∧
    history (mutexCalls true platform1000) (idlePool PTHREAD_MUTEX_INITIALIZER)
      (callSteps () .lock 2 patient) = [.entered () .lock, .returned () .EINVAL] ∧
    ¬ Repeated (mutexCalls true platform1000) (pthreadMutexInit none) PTHREAD_MUTEX_INITIALIZER
      SameOwner (callSteps () .lock 4 patient) p := by
  have hrun : ((execute (step (mutexCalls true platform1000))
      (idlePool (pthreadMutexInit none)) (callSteps () .lock 4 patient)).map
        fun p => (p.thread ()).isNone) = some true := by
    decide +kernel
  obtain ⟨p, hp, hidle⟩ := Option.map_eq_some_iff.mp hrun
  refine ⟨p, hp, by decide +kernel, by decide +kernel, fun h => ?_⟩
  have hm := (staticMutex_repeated_iff true platform1000 hp
    (fun _ => Option.isNone_iff_eq_none.mp hidle)).mp h
  have henter := hm.1
  simp [Admitted, mutexDeadline] at henter

end LibPosix.StaticInit
