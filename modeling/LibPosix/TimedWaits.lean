import LibPosix.Deadline
import LibPosix.Mutex
import LibPosix.Semaphore
import LibPosix.Cond
import LibPosix.Mqueue

/-! The timed calls against one deadline. Each call is run against every answer its
environment can give, and every timeout it hands to the kernel is compared with the exact
number of ticks that are left. -/
namespace LibPosix.TimedWaits
open Program TimeUtils MachineInt Deadline Mutex Semaphore Cond Mqueue

/-- Every wait lasts at least `n` ticks; the view tells whether there has been a wait. -/
def patient {E : Type} {R : E → Type} (n : ℕ) (timeout : E → Option ℕ)
    (admits : (e : E) → R e → Prop) : Protocol E R Bool where
  safe _ e := ∀ k, timeout e = some k → n ≤ k
  after w e r w' := admits e r ∧ w' = (w || (timeout e).isSome)

def logging {E : Type} {R : E → Type} (timeout : E → Option ℕ) (answer : (e : E) → R e) :
    (e : E) → List ℕ → Option (R e × List ℕ) :=
  fun e ks => some (answer e, ks ++ (timeout e).toList)

theorem patient_log {E α : Type} {R : E → Type} {n : ℕ} {timeout : E → Option ℕ}
    {admits : (e : E) → R e → Prop} {answer : (e : E) → R e}
    (hadm : ∀ e, admits e (answer e)) {p : Prog E R α} {post : α → Bool → Prop}
    (h : p.Obeys (patient n timeout admits) false post) {a : α} {ks : List ℕ}
    (hrun : p.eval (logging timeout answer) [] = some (a, ks)) :
    (∀ k ∈ ks, n ≤ k) ∧ post a (!ks.isEmpty) := by
  have hstep (e : E) (l : List ℕ) (r : R e) (l' : List ℕ) (hl : ∀ k ∈ l, n ≤ k)
      (hsafe : (patient n timeout admits).safe (!l.isEmpty) e)
      (hx : logging timeout answer e l = some (r, l')) :
      (∀ k ∈ l', n ≤ k) ∧ (patient n timeout admits).after (!l.isEmpty) e r (!l'.isEmpty) := by
    cases hx
    refine ⟨fun k hk => ?_, hadm e, ?_⟩
    · rcases List.mem_append.mp hk with hk | hk
      · exact hl k hk
      · exact hsafe k (Option.mem_toList.mp hk)
    · cases timeout e with
      | none => simp
      | some k => simp
  exact Prog.Obeys.eval hstep (by simp) h hrun

def mqTimeout : MqOp → Option ℕ
  | .mqPut _ _ ticks => some ticks
  | .mqGet _ _ ticks => some ticks
  | _ => none

def mqAdmits (t : ℕ) : (e : MqOp) → MqAns e → Prop
  | .tmrTicks, r => r = t
  | .load _, r => r.flags.O_NONBLOCK = false
  | _, _ => True

def semTimeout : SemOp → Option ℕ
  | .semGet ticks => some ticks
  | _ => none

def semAdmits (t : ℕ) : (e : SemOp) → SemAns e → Prop
  | .tmrTicks, r => r = t
  | _, _ => True

def mutexTimeout : MutexOp → Option ℕ
  | .mutLock ticks => some ticks
  | _ => none

def mutexAdmits (t g : ℕ) : (e : MutexOp) → MutexAns e → Prop
  | .tmrTicks, r => r = t
  | .uninit, r => r = g
  | _, _ => True

/-- The requests of a wait on a condition with those of the mutex calls it makes. -/
inductive CondWaitOp where
  | cond (e : CondOp)
  | mutex (e : MutexOp)

abbrev CondWaitAns : CondWaitOp → Type
  | .cond e => CondAns e
  | .mutex e => MutexAns e

def onMutex {α : Type} (p : Prog MutexOp MutexAns α) : Prog CondWaitOp CondWaitAns α :=
  p.interp fun e => Prog.request (.mutex e)

def condHandler (P : Platform) : (e : CondOp) → Prog CondWaitOp CondWaitAns (CondAns e)
  | .mutexUnlock => onMutex pthreadMutexUnlock
  | .mutexLock => onMutex (pthreadMutexLock P)
  | e => Prog.request (CondWaitOp.cond e)

def condTimedwait (P : Platform) (abstime : Option Timespec) :
    Prog CondWaitOp CondWaitAns Status :=
  (pthreadCondTimedwait P abstime).interp (condHandler P)

/-- The library's own lock is taken with `WAIT`, which never runs out. -/
def condTimeout : CondWaitOp → Option ℕ
  | .cond (.semGet ticks) => some ticks
  | .cond (.semResult ticks) => some ticks
  | .mutex e => mutexTimeout e
  | _ => none

def condAdmits (t g : ℕ) : (e : CondWaitOp) → CondWaitAns e → Prop
  | .cond .tmrTicks, r => r = t
  | .mutex e, r => mutexAdmits t g e r
  | _, _ => True

/-- At tick `t`, with the deadline `D` another `n` ticks away, no timed call reports a
timeout without having waited or hands the kernel a timeout below `n`. -/
structure NeverEarly (P : Platform) (D : Timespec) (t n g : ℕ) : Prop where
  mqTimedsend : ∀ mq msgPtr msgLen, (mqTimedsend P mq msgPtr msgLen (some D)).Obeys
    (patient n mqTimeout (mqAdmits t)) false fun r w => r = .ETIMEDOUT → w = true
  mqTimedreceive : ∀ mq msgPtr msgLen, (mqTimedreceive P mq msgPtr msgLen (some D)).Obeys
    (patient n mqTimeout (mqAdmits t)) false fun r w => r = .error .ETIMEDOUT → w = true
  semTimedwait : (semTimedwait P (some D)).Obeys
    (patient n semTimeout (semAdmits t)) false fun r w => r = .ETIMEDOUT → w = true
  condTimedwait : (condTimedwait P (some D)).Obeys
    (patient n condTimeout (condAdmits t g)) false fun r w => r = .ETIMEDOUT → w = true
  mutexTimedlock : (pthreadMutexTimedlock P (some D)).Obeys
    (patient n mutexTimeout (mutexAdmits t g)) false fun r w => r = .ETIMEDOUT → w = true

theorem timespec2ticks_lt (P : Platform) (D : Timespec) {r : ℕ} (hr : r < 2 ^ 32) :
    (timespec2ticks P D r).2 < 2 ^ 32 := by
  unfold timespec2ticks
  by_cases h : validateTimespec D = false
  · rw [if_pos h]
    exact hr
  · rw [if_neg h]
    exact unsigned_lt 32 _

theorem absTimespec2ticks_lt (P : Platform) (D cur : Timespec) {r : ℕ} (hr : r < 2 ^ 32) :
    (absTimespec2ticks P D cur r).2 < 2 ^ 32 := by
  simp only [absTimespec2ticks]
  split_ifs
  · exact hr
  · exact hr
  · exact timespec2ticks_lt P _ hr

section Calls
variable {P : Platform} {D : Timespec} {t n g : ℕ}

theorem getTickTimeout_patient
    (hconv : ∀ r, absTimespec2ticks P D (clockGettime P t) r = (.ok, n))
    (hD : validateTimespec D = true) {flags : OFlag} (hf : flags.O_NONBLOCK = false) (r : ℕ)
    (w : Bool) : (getTickTimeout P flags (some D) r).Obeys
      (patient n mqTimeout (mqAdmits t)) w fun conv w' => conv = (.ok, n) ∧ w' = w := by
  simp [getTickTimeout, patient, mqTimeout, mqAdmits, hf, hD, hconv]

theorem mqPrepare_patient
    (hconv : ∀ r, absTimespec2ticks P D (clockGettime P t) r = (.ok, n))
    (hD : validateTimespec D = true) (mq msgPtr : ℕ) (badLen : ℕ → Bool) :
    (mqPrepare P mq msgPtr badLen (some D)).Obeys (patient n mqTimeout (mqAdmits t)) false
      fun conv w => w = false ∧ (conv = (.ok, n) ∨ conv.1 ≠ .ok ∧ conv.1 ≠ .ETIMEDOUT) := by
  simp only [mqPrepare, mqExtractLocked, Prog.obeys_bind, Prog.obeys_request]
  refine ⟨by simp [patient, mqTimeout], fun _ w hw => ?_⟩
  refine ⟨by simp [patient, mqTimeout], fun l w' hw' => ?_⟩
  obtain rfl : w = false := hw.2
  obtain rfl : w' = false := hw'.2
  by_cases ha : msgPtr % 4 = 0
  · by_cases hl : mq ∈ l
    · simp [ha, hl, patient, mqTimeout, mqAdmits]
      intro obj _
      by_cases hb : badLen obj.q.isz = true
      · simp [hb]
      · simp [hb]
        intro obj' hf
        apply (getTickTimeout_patient hconv hD hf 0 false).mono
        rintro conv w ⟨rfl, rfl⟩
        simp
    · simp [ha, hl, patient, mqTimeout, mqAdmits]
      intro h
      rw [if_pos h]
      exact ⟨h, by simp⟩
  · simp [ha, patient, mqTimeout, mqAdmits]

theorem mqTimedsend_patient
    (hconv : ∀ r, absTimespec2ticks P D (clockGettime P t) r = (.ok, n))
    (hD : validateTimespec D = true) (mq msgPtr msgLen : ℕ) :
    (mqTimedsend P mq msgPtr msgLen (some D)).Obeys (patient n mqTimeout (mqAdmits t)) false
      fun r w => r = .ETIMEDOUT → w = true := by
  rw [mqTimedsend, Prog.obeys_bind]
  apply (mqPrepare_patient hconv hD mq msgPtr _).mono
  rintro conv w ⟨rfl, rfl | ⟨hok, ht⟩⟩
  · simp [mqFailure, patient, mqTimeout]
  · simp [hok, ht]

theorem mqTimedreceive_patient
    (hconv : ∀ r, absTimespec2ticks P D (clockGettime P t) r = (.ok, n))
    (hD : validateTimespec D = true) (mq msgPtr msgLen : ℕ) :
    (mqTimedreceive P mq msgPtr msgLen (some D)).Obeys (patient n mqTimeout (mqAdmits t)) false
      fun r w => r = .error .ETIMEDOUT → w = true := by
  rw [mqTimedreceive, Prog.obeys_bind]
  apply (mqPrepare_patient hconv hD mq msgPtr _).mono
  rintro conv w ⟨rfl, rfl | ⟨hok, ht⟩⟩
  · simp [mqFailure, patient, mqTimeout]
  · simp [hok, ht]

theorem semTimedwait_patient
    (hconv : ∀ r, absTimespec2ticks P D (clockGettime P t) r = (.ok, n))
    (hD : validateTimespec D = true) :
    (semTimedwait P (some D)).Obeys (patient n semTimeout (semAdmits t)) false
      fun r w => r = .ETIMEDOUT → w = true := by
  simp [semTimedwait, semTicks, patient, semTimeout, semAdmits, hD, hconv]

theorem pthreadMutexTimedlock_patient
    (hconv : ∀ r, absTimespec2ticks P D (clockGettime P t) r = (.ok, n)) :
    (pthreadMutexTimedlock P (some D)).Obeys (patient n mutexTimeout (mutexAdmits t g)) false
      fun r w => r = .ETIMEDOUT → w = true := by
  simp [pthreadMutexTimedlock, lockTicks, lockWithin, patient, mutexTimeout, mutexAdmits, hconv]

theorem condTimedwait_patient
    (hconv : ∀ r, absTimespec2ticks P D (clockGettime P t) r = (.ok, n)) (hg : n ≤ g) :
    (condTimedwait P (some D)).Obeys (patient n condTimeout (condAdmits t g)) false
      fun r w => r = .ETIMEDOUT → w = true := by
  simp [condTimedwait, pthreadCondTimedwait, getUnit, condHandler, onMutex, pthreadMutexLock,
    pthreadMutexUnlock, pthreadMutexTimedlock, lockTicks, lockWithin, patient, condTimeout,
    condAdmits, mutexTimeout, mutexAdmits, hconv, hg]

def anyName : CString := ⟨[47], by decide⟩

def plainQueue (isz : ℕ) : MqdInternal :=
  ⟨⟨isz, 0, 0⟩, 0, anyName, ⟨false, false, false⟩, 0, false⟩

def mqAnswer (t : ℕ) : (e : MqOp) → MqAns e
  | .loadInited => true
  | .allq => [0]
  | .load _ => plainQueue 0
  | .allocQueue => none
  | .allocBuf _ => none
  | .tmrTicks => t
  | .mqPut .. => true
  | .mqGet .. => true
  | .llInit | .mutInit | .storeInited | .muxLock | .muxUnlock | .storeOpenCount ..
  | .storePendingUnlink _ | .lleDel _ | .clearQueue _ | .storeBuf .. | .clearBuf ..
  | .storeName .. | .storeFlags .. | .lleInit _ | .mqInit .. | .free .. => ()

theorem mqAnswer_admitted (t : ℕ) (e : MqOp) : mqAdmits t e (mqAnswer t e) := by
  cases e <;> trivial

/-- A registered queue is enough to see whether the deadline fits in 32 bits. -/
theorem mqTimedsend_near (hD : validateTimespec D = true)
    (h : (mqTimedsend P 0 0 0 (some D)).Obeys (patient n mqTimeout (mqAdmits t)) false
      fun r w => r = .ETIMEDOUT → w = true) : n < 2 ^ 32 := by
  have h0 : (0 : ℕ) < 2 ^ 32 := by norm_num
  have hlt := absTimespec2ticks_lt P D (clockGettime P t) h0
  by_cases hok : (absTimespec2ticks P D (clockGettime P t) 0).1 = .ok
  · have hrun : (mqTimedsend P 0 0 0 (some D)).eval (logging mqTimeout (mqAnswer t)) [] =
        some (.ok, [(absTimespec2ticks P D (clockGettime P t) 0).2]) := by
      simp [mqTimedsend, mqPrepare, mqExtractLocked, getTickTimeout, hD, hok, logging, mqAnswer,
        mqTimeout, plainQueue]
    have hle := (patient_log (mqAnswer_admitted t) h hrun).1 _ List.mem_cons_self
    omega
  · have hrun : (mqTimedsend P 0 0 0 (some D)).eval (logging mqTimeout (mqAnswer t)) [] =
        some (.ETIMEDOUT, []) := by
      simp [mqTimedsend, mqPrepare, mqExtractLocked, getTickTimeout, hD, hok, logging, mqAnswer,
        mqTimeout, plainQueue]
    have hw := (patient_log (mqAnswer_admitted t) h hrun).2 rfl
    cases hw

def condAnswer (t g : ℕ) : (e : CondWaitOp) → CondWaitAns e
  | .cond .inited => true
  | .cond .tmrTicks => t
  | .cond .loadWaiting => 0
  | .cond (.semGet _) => true
  | .cond (.semResult _) => true
  | .cond .mutexUnlock => .ok
  | .cond .mutexLock => .ok
  | .cond .muxLock | .cond .muxUnlock | .cond .incWaiting | .cond .decWaiting
  | .cond .clearWaiting | .cond .semPost | .cond (.semPostN _) => ()
  | .mutex .inited => true
  | .mutex .type => .normal
  | .mutex .ownIsCur => true
  | .mutex .tmrTicks => t
  | .mutex .uninit => g
  | .mutex (.mutLock _) => true
  | .mutex .mutUnlock => ()

/-- After a wait that got its unit the mutex is locked again with the unassigned timeout. -/
theorem condTimedwait_relock
    (hconv : ∀ r, absTimespec2ticks P D (clockGettime P t) r = (.ok, n))
    (h : (condTimedwait P (some D)).Obeys (patient n condTimeout (condAdmits t g)) false
      fun r w => r = .ETIMEDOUT → w = true) : n ≤ g := by
  have hadm (e : CondWaitOp) : condAdmits t g e (condAnswer t g e) := by
    rcases e with e | e
    · cases e <;> trivial
    · cases e <;> trivial
  have hrun : (condTimedwait P (some D)).eval (logging condTimeout (condAnswer t g)) [] =
      some (.ok, [n, g]) := by
    simp [condTimedwait, pthreadCondTimedwait, getUnit, condHandler, onMutex, pthreadMutexLock,
      pthreadMutexUnlock, pthreadMutexTimedlock, lockTicks, lockWithin, condTimeout,
      mutexTimeout, hconv, logging, condAnswer]
  exact (patient_log hadm h hrun).1 g (by simp)

end Calls

/-- The timed calls keep to a deadline exactly when it is less than 2^32 ticks away and the
unassigned timeout with which a wait locks its mutex again is not shorter. -/
theorem timedWaits_neverEarly_iff (P : Platform) (hdvd : P.tmrHz ∣ 1000000000) {t : ℕ}
    (ht : t < 2 ^ 32) {D : Timespec} (hD : validateTimespec D = true)
    (hlater : nanos (clockGettime P t) < nanos D) (g : ℕ) {n : ℕ}
    (hn : IsLeast {n : ℕ | nanos D ≤ (t + n) * nanosecondsPerTick P} n) :
    NeverEarly P D t n g ↔ n < 2 ^ 32 ∧ n ≤ g := by
  constructor
  · intro h
    have hlt := mqTimedsend_near hD (h.mqTimedsend 0 0 0)
    have hconv := absTimespec2ticks_near hdvd ht hD hlater.le hn hlt
    exact ⟨hlt, condTimedwait_relock hconv h.condTimedwait⟩
  · rintro ⟨hlt, hg⟩
    have hconv := absTimespec2ticks_near hdvd ht hD hlater.le hn hlt
    exact {
      mqTimedsend := mqTimedsend_patient hconv hD
      mqTimedreceive := mqTimedreceive_patient hconv hD
      semTimedwait := semTimedwait_patient hconv hD
      condTimedwait := condTimedwait_patient hconv hg
      mutexTimedlock := pthreadMutexTimedlock_patient hconv }

theorem isLeast_whole_seconds (s : ℕ) : IsLeast {n : ℕ | nanos ⟨s, 0⟩ ≤
    ((0 : ℕ) + n) * nanosecondsPerTick platform1000} (s * 1000) := by
  have htick : nanosecondsPerTick platform1000 = 1000000 := by decide
  simp only [IsLeast, lowerBounds, Set.mem_ofPred_eq, htick, nanos]
  constructor
  · omega
  · intro n h
    omega

/-- One second ahead with ticks of a millisecond. -/
theorem timedWaits_neverEarly_second :
    NeverEarly platform1000 ⟨1, 0⟩ 0 1000 4294967295 :=
  (timedWaits_neverEarly_iff platform1000 (by decide) (by decide) (by decide) (by decide)
    4294967295 (isLeast_whole_seconds 1)).mpr ⟨by decide, by decide⟩

/-- A deadline 58 days ahead: `mq_timedsend` reports a timeout at once. -/
theorem mqTimedsend_gives_up :
    IsLeast {n : ℕ | nanos ⟨5000000, 0⟩ ≤ ((0 : ℕ) + n) * nanosecondsPerTick platform1000}
        5000000000 ∧
      (mqTimedsend platform1000 0 0 0 (some ⟨5000000, 0⟩)).eval
        (logging mqTimeout (mqAnswer 0)) [] = some (.ETIMEDOUT, []) ∧
      ¬ NeverEarly platform1000 ⟨5000000, 0⟩ 0 5000000000 4294967295 := by
  have hrun : (mqTimedsend platform1000 0 0 0 (some ⟨5000000, 0⟩)).eval
      (logging mqTimeout (mqAnswer 0)) [] = some (.ETIMEDOUT, []) := by
    decide +kernel
  refine ⟨isLeast_whole_seconds 5000000, hrun, fun h => ?_⟩
  have hw := (patient_log (mqAnswer_admitted 0) (h.mqTimedsend 0 0 0) hrun).2 rfl
  cases hw

end LibPosix.TimedWaits
