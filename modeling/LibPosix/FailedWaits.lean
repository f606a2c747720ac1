import LibPosix.StaticInit
import LibPosix.Trace

/-! What a wait leaves behind that fails before it has reached the semaphore. The caller counts
itself as waiting before it gives the mutex up, and no exit in between takes that back. -/
namespace LibPosix.FailedWaits
open Program Kernel TimeUtils MachineInt Mutex Cond CondAccounting TimedWaits StaticInit Trace
variable {T : Type} [DecidableEq T]

def IsWait : CondCall → Prop
  | .wait => True
  | .timedwait _ => True
  | _ => False

/-- The timeout of a wait, or why there is none, if its deadline is read at the tick `tick`. -/
def waitTicks (P : Platform) (abstime : Option Timespec) (tick : ℕ) : Status × ℕ :=
  match abstime with
  | none => (.ok, P.WAIT)
  | some abstime => absTimespec2ticks P abstime (clockGettime P tick) P.WAIT

def UnlockRefused (t : T) (m : PthreadMutex T) : Prop :=
  m.inited = false ∨ (m.type = .errorcheck ∨ m.type = .recursive) ∧ m.mux.own ≠ some t

instance (t : T) (m : PthreadMutex T) : Decidable (UnlockRefused t m) :=
  inferInstanceAs (Decidable (_ ∨ _))

/-- A wait from the state `s` that returns `r` without having reached the semaphore, for another
reason than lateness, has left `waiting` and the semaphore's count alone. -/
def NoTrace (s s' : CondWorld T) (r : Status) (log : List CondWaitOp) : Prop :=
  r ≠ .ok → r ≠ .ETIMEDOUT → (∀ ticks, .cond (.semGet ticks) ∉ log) →
    s'.cond.cond.waiting = s.cond.cond.waiting ∧ s'.cond.cond.cond.count = s.cond.cond.cond.count

def waitReleased (ticks : ℕ) : Prog CondOp CondAns Status := do
  if (← getUnit ticks) = true then
    ask .mutexLock
  else
    let _ ← ask .mutexLock
    ask .muxLock
    ask .decWaiting
    ask .muxUnlock
    return .ETIMEDOUT

/-- A wait up to the point where the mutex has been given up, or has not. -/
def waitThen (P : Platform) (abstime : Option Timespec)
    (rest : Status → ℕ → Prog CondOp CondAns Status) : Prog CondOp CondAns Status := do
  if (← ask .inited) = false then
    return .EINVAL
  let conv ←
    match abstime with
    | none => pure (Status.ok, P.WAIT)
    | some abstime => do
      let cur := clockGettime P (← ask .tmrTicks)
      pure (absTimespec2ticks P abstime cur P.WAIT)
  let ret ←
    if conv.1 = .ok then do
      ask .muxLock
      ask .incWaiting
      ask .muxUnlock
      ask .mutexUnlock
    else pure conv.1
  rest ret conv.2

theorem pthreadCondTimedwait_eq (P : Platform) (abstime : Option Timespec) :
    pthreadCondTimedwait P abstime =
      waitThen P abstime fun ret ticks => if ret = .ok then waitReleased ticks else .ret ret := rfl

section Runs
variable {relock : Bool} {P : Platform} {t : T} {c : WaitChoice T} {abstime : Option Timespec}
  {rest : Status → ℕ → Prog CondOp CondAns Status} {s s' : CondWorld T} {r : Status}
  {log : List CondWaitOp}

variable (relock P t c) in
abbrev alone (e : CondWaitOp) (x : CondWorld T × List CondWaitOp) :=
  traced (fun e => condWaitExec relock P t e c) e x

theorem wait_uninitialised (hi : s.cond.cond.inited = false)
    (hrun : ((waitThen P abstime rest).interp (condHandler P)).eval (alone relock P t c) (s, []) =
      some (r, s', log)) : s' = s := by
  simp [waitThen, condHandler, traced, condWaitExec, condExec, hi] at hrun
  exact hrun.2.1.symm

theorem wait_refused (hi : s.cond.cond.inited = true)
    (hconv : (waitTicks P abstime c.cond.tick).1 ≠ .ok)
    (hrun : ((waitThen P abstime rest).interp (condHandler P)).eval (alone relock P t c) (s, []) =
      some (r, s', log)) :
    ∃ l, ((rest (waitTicks P abstime c.cond.tick).1 (waitTicks P abstime c.cond.tick).2).interp
      (condHandler P)).eval (alone relock P t c) (s, l) = some (r, s', log) := by
  cases abstime with
  | none => exact absurd rfl hconv
  | some D =>
    have hne : (absTimespec2ticks P D (clockGettime P c.cond.tick) P.WAIT).1 ≠ .ok := hconv
    simp [waitThen, condHandler, traced, condWaitExec, condExec, hi, hne] at hrun
    exact ⟨_, hrun⟩

theorem wait_counted (hi : s.cond.cond.inited = true)
    (hconv : (waitTicks P abstime c.cond.tick).1 = .ok)
    (hrun : ((waitThen P abstime rest).interp (condHandler P)).eval (alone relock P t c) (s, []) =
      some (r, s', log)) :
    ∃ w l, w.mutex = s.mutex ∧ w.cond.cond.waiting = signed 32 (s.cond.cond.waiting + 1) ∧
      (∀ ticks, .cond (.semGet ticks) ∉ l) ∧
      (onMutex pthreadMutexUnlock >>= fun ret =>
        (rest ret (waitTicks P abstime c.cond.tick).2).interp (condHandler P)).eval
          (alone relock P t c) (w, l) = some (r, s', log) := by
  cases abstime with
  | none =>
    simp [waitThen, condHandler, traced, condWaitExec, condExec, hi] at hrun
    obtain ⟨x, hx, hrest⟩ := Option.bind_eq_some_iff.mp hrun
    obtain ⟨y, hy, rfl⟩ := Option.map_eq_some_iff.mp hx
    refine ⟨_, _, ?_, ?_, ?_, hrest⟩
    · rfl
    · rfl
    · simp
  | some D =>
    have hok : (absTimespec2ticks P D (clockGettime P c.cond.tick) P.WAIT).1 = .ok := hconv
    simp [waitThen, condHandler, traced, condWaitExec, condExec, hi, hok] at hrun
    obtain ⟨x, hx, hrest⟩ := Option.bind_eq_some_iff.mp hrun
    obtain ⟨y, hy, rfl⟩ := Option.map_eq_some_iff.mp hx
    refine ⟨_, _, ?_, ?_, ?_, hrest⟩
    · rfl
    · rfl
    · simp

variable (relock P t c) in
theorem unlock_eval (w : CondWorld T) (l : List CondWaitOp) :
    ∃ ret m l', (onMutex pthreadMutexUnlock).eval (alone relock P t c) (w, l) =
        some (ret, ⟨w.cond, m⟩, l ++ l') ∧
      (ret = .ok ↔ ¬ UnlockRefused t w.mutex) ∧ ret ≠ .ETIMEDOUT ∧
      ∀ ticks, .cond (.semGet ticks) ∉ l' := by
  cases hi : w.mutex.inited with
  | false =>
    refine ⟨.EINVAL, w.mutex, [.mutex .inited], ?_, ?_, by simp, by simp⟩
    · simp [onMutex, pthreadMutexUnlock, traced, condWaitExec, mutexExec, hi]
    · simp [UnlockRefused, hi]
  | true =>
    by_cases hcheck : w.mutex.type = .errorcheck ∨ w.mutex.type = .recursive
    · by_cases hown : w.mutex.mux.own = some t
      · refine ⟨.ok, { w.mutex with mux := mutUnlock w.mutex.mux },
          [.mutex .inited, .mutex .type, .mutex .ownIsCur, .mutex .mutUnlock], ?_, ?_, by simp,
          by simp⟩
        · simp [onMutex, pthreadMutexUnlock, traced, condWaitExec, mutexExec, hi, hcheck, hown]
        · simp [UnlockRefused, hi, hown]
      · refine ⟨.EPERM, w.mutex, [.mutex .inited, .mutex .type, .mutex .ownIsCur], ?_, ?_, by simp,
          by simp⟩
        · simp [onMutex, pthreadMutexUnlock, traced, condWaitExec, mutexExec, hi, hcheck, hown]
        · simp [UnlockRefused, hcheck, hown]
    · refine ⟨.ok, { w.mutex with mux := mutUnlock w.mutex.mux },
        [.mutex .inited, .mutex .type, .mutex .mutUnlock], ?_, ?_, by simp, by simp⟩
      · simp [onMutex, pthreadMutexUnlock, traced, condWaitExec, mutexExec, hi, hcheck]
      · simp [UnlockRefused, hi, hcheck]

theorem waitReleased_log {ticks : ℕ} {w : CondWorld T} {l : List CondWaitOp}
    (hrun : ((waitReleased ticks).interp (condHandler P)).eval (alone relock P t c) (w, l) =
      some (r, s', log)) : .cond (.semGet ticks) ∈ log := by
  obtain ⟨⟨a, x, l'⟩, hx, hrest⟩ := Option.bind_eq_some_iff.mp hrun
  obtain rfl : l' = l ++ [.cond (.semGet ticks)] := (traced_some.mp hx).2
  have hprefix := log_prefix hrest
  exact hprefix.subset (by simp)

theorem waiting_counted (w : ℤ) : signed 32 (w + 1) ≠ w := by
  intro h
  have hmod : signed 32 (w + 1) % ((2 ^ 32 : ℕ) : ℤ) = (w + 1) % ((2 ^ 32 : ℕ) : ℤ) :=
    Int.bmod_emod
  rw [h] at hmod
  omega

end Runs

theorem wait_code (P : Platform) {k : CondCall} (hk : IsWait k) :
    (condCode P k).interp (condHandler P) =
      (waitThen P (condDeadline k) fun ret ticks =>
        if ret = .ok then waitReleased ticks else .ret ret).interp (condHandler P) := by
  cases k with
  | wait => exact congrArg (Prog.interp (condHandler P)) (pthreadCondTimedwait_eq P none)
  | timedwait abstime =>
    exact congrArg (Prog.interp (condHandler P)) (pthreadCondTimedwait_eq P abstime)
  | signal => exact hk.elim
  | broadcast => exact hk.elim

/-- A wait that fails early leaves no trace exactly if it has not come as far as an unlock that is
refused. -/
theorem failedWait_noTrace_iff (relock : Bool) (P : Platform) (t : T) {k : CondCall}
    (hk : IsWait k) (c : WaitChoice T) {s s' : CondWorld T} {r : Status} {log : List CondWaitOp}
    (hrun : ((condCode P k).interp (condHandler P)).eval
      (traced fun e => condWaitExec relock P t e c) (s, []) = some (r, s', log)) :
    NoTrace s s' r log ↔ ¬ (s.cond.cond.inited = true ∧
      (waitTicks P (condDeadline k) c.cond.tick).1 = .ok ∧ UnlockRefused t s.mutex) := by
  rw [wait_code P hk] at hrun
  by_cases hi : s.cond.cond.inited = true
  · by_cases hconv : (waitTicks P (condDeadline k) c.cond.tick).1 = .ok
    · obtain ⟨w, l, hmutex, hwaiting, hl, hrest⟩ := wait_counted hi hconv hrun
      obtain ⟨ret, m, l', hunlock, hok, htime, hl'⟩ := unlock_eval relock P t c w l
      rw [Prog.eval_bind, hunlock, Option.bind_some] at hrest
      rw [hmutex] at hok
      by_cases hret : ret = .ok
      · -- the semaphore is reached
        rw [if_pos hret] at hrest
        have hmem := waitReleased_log hrest
        apply iff_of_true
        · intro _ _ hnot
          exact absurd hmem (hnot _)
        · intro h
          exact hok.mp hret h.2.2
      · -- the unlock is refused with the caller counted
        rw [if_neg hret] at hrest
        cases hrest
        apply iff_of_false
        · intro h
          have hlog : ∀ ticks, .cond (.semGet ticks) ∉ l ++ l' := fun ticks hmem =>
            (List.mem_append.mp hmem).elim (hl ticks) (hl' ticks)
          have hsame := (h hret htime hlog).1
          exact waiting_counted _ (hwaiting.symm.trans hsame)
        · intro h
          have hrefused : UnlockRefused t s.mutex := by
            by_contra hn
            exact hret (hok.mpr hn)
          exact h ⟨hi, hconv, hrefused⟩
    · obtain ⟨l, hrest⟩ := wait_refused hi hconv hrun
      rw [if_neg hconv] at hrest
      cases hrest
      exact iff_of_true (fun _ _ _ => ⟨rfl, rfl⟩) fun h => hconv h.2.1
  · have hsame := wait_uninitialised (Bool.eq_false_iff.mpr hi) hrun
    subst hsame
    exact iff_of_true (fun _ _ _ => ⟨rfl, rfl⟩) fun h => hi h.1

def quietWorld (type : MutexType) : CondWorld Unit := ⟨idleWorld, pthreadMutexInit (some type)⟩

def quietRun (type : MutexType) (k : CondCall) :
    Option (Status × CondWorld Unit × List CondWaitOp) :=
  ((condCode platform1000 k).interp (condHandler platform1000)).eval
    (traced fun e => condWaitExec true platform1000 () e ⟨⟨0, false, ∅, .ok⟩, ⟨0, 0, false⟩⟩)
      (quietWorld type, [])

/-- A deadline 58 days ahead is refused before anything has been done. -/
theorem failedWait_noTrace_deadline : ∃ s' log,
    quietRun .normal (.timedwait (some ⟨5000000, 0⟩)) = some (.EINVAL, s', log) ∧
      NoTrace (quietWorld .normal) s' .EINVAL log := by
  have hrun : (quietRun .normal (.timedwait (some ⟨5000000, 0⟩))).map (·.1) = some .EINVAL := by
    decide +kernel
  obtain ⟨⟨r, s', log⟩, hx, hr⟩ := Option.map_eq_some_iff.mp hrun
  obtain rfl : r = .EINVAL := hr
  refine ⟨s', log, hx, ?_⟩
  exact (failedWait_noTrace_iff true platform1000 () (k := .timedwait (some ⟨5000000, 0⟩)) trivial
    _ hx).mpr (by decide +kernel)

/-- A wait with an error-checking mutex that nobody owns: `EPERM`, and one waiter too many. -/
theorem pthreadCondWait_counts_itself : ∃ s' log,
    quietRun .errorcheck .wait = some (.EPERM, s', log) ∧
      (quietWorld .errorcheck).cond.cond.waiting = 0 ∧ s'.cond.cond.waiting = 1 ∧
      ¬ NoTrace (quietWorld .errorcheck) s' .EPERM log := by
  have hrun : (quietRun .errorcheck .wait).map
      (fun x => (x.1, x.2.1.cond.cond.waiting, x.2.2)) =
        some (.EPERM, 1, [.cond .inited, .cond .muxLock, .cond .incWaiting, .cond .muxUnlock,
          .mutex .inited, .mutex .type, .mutex .ownIsCur]) := by
    decide +kernel
  obtain ⟨⟨r, s', log⟩, hx, hends⟩ := Option.map_eq_some_iff.mp hrun
  simp only [Prod.mk.injEq] at hends
  obtain ⟨rfl, hwaiting, rfl⟩ := hends
  refine ⟨s', _, hx, rfl, hwaiting, fun h => ?_⟩
  have hsame := (h (by simp) (by simp) (by simp)).1
  rw [hwaiting] at hsame
  cases hsame

end LibPosix.FailedWaits
