import LibPosix.SemaphoreWaits
import LibPosix.Linearizability

/-! Threads that wait on, post and read one semaphore, in any order. The kernel hands a unit that
is posted to a thread that is queued for one, so that a post may complete the wait of another
thread. Whatever the order, the calls act like those of a counter that is never overdrawn. -/
namespace LibPosix.SemaphoreThreads
open Program ThreadPool Transition Kernel TimeUtils MachineInt Deadline MalformedDeadlines
open Semaphore SemaphoreWaits PoolHistory Linearizability
variable {T : Type} [DecidableEq T]

/-- The requests of a wait, with the two halves of `sem_get`, and those of `sem_post` and
`sem_getvalue`. -/
inductive KernOp where
  | tmrTicks
  | semGet (ticks : ℕ)
  | semResult (ticks : ℕ)
  | semPost
  | val
  deriving DecidableEq, Repr

/-- The first half of `sem_get` is answered at once, unless the caller has been queued. -/
abbrev KernAns : KernOp → Type
  | .tmrTicks => Fin (2 ^ 32)
  | .semGet _ => Option Bool
  | .semResult _ => Bool
  | .semPost => Unit
  | .val => ℕ

abbrev kern (e : KernOp) : Prog KernOp KernAns (KernAns e) := Prog.request e

def kernelCall : (e : SemOp) → Prog KernOp KernAns (SemAns e)
  | .tmrTicks => do return (← kern .tmrTicks).val
  | .semGet ticks => do
    match ← kern (.semGet ticks) with
    | some taken => return taken
    | none => kern (.semResult ticks)

inductive SemCall where
  | semWait
  | semTrywait
  | semTimedwait (abstime : Option Timespec)
  | semPost
  | semGetvalue
  deriving DecidableEq, Repr

inductive SemRes where
  | status (ret : Status)
  | sval (n : ℕ)
  deriving DecidableEq, Repr

/-- `sem_post` is the kernel's, and `sem_getvalue` reads the count. -/
def semCode (P : Platform) : SemCall → Prog KernOp KernAns SemRes
  | .semWait => do return .status (← (semWait P).interp kernelCall)
  | .semTrywait => do return .status (← (semTrywait P).interp kernelCall)
  | .semTimedwait abstime => do return .status (← (semTimedwait P abstime).interp kernelCall)
  | .semPost => do
    kern .semPost
    return .status .ok
  | .semGetvalue => do return .sval (← kern .val)

/-- The tick counter, whether a wait runs out now, and whom a post wakes. -/
structure Choice (T : Type) where
  tick : Fin (2 ^ 32)
  expire : Bool
  woken : Finset T

/-- A timeout of 0 does not queue the caller. -/
def semExec (P : Platform) (t : T) :
    (e : KernOp) → Choice T → Sem T → Option (KernAns e × Sem T)
  | .tmrTicks, c, s => some (c.tick, s)
  | .semGet ticks, _, s =>
    let r := semGet t s
    some (if r.1 = true then (some true, r.2) else if ticks = 0 then (some false, s)
      else (none, r.2))
  | .semResult ticks, c, s => semResult P.WAIT t ticks c.expire s
  | .semPost, c, s => (semPostN 1 c.woken s).map fun q => ((), q)
  | .val, _, s => some (s.count, s)

def semThreads (P : Platform) : System T KernOp KernAns (Choice T) (Sem T) SemCall SemRes where
  code _ k := semCode P k
  exec := semExec P
  enter _ _ s := some s
  leave _ _ _ s := s

def SemCall.mayReport : SemCall → Status → Prop
  | .semTrywait, e => e = .EAGAIN
  | .semTimedwait (some abstime), e =>
    e = .EINVAL ∨ e = .ETIMEDOUT ∧ validateTimespec abstime = true
  | _, _ => False

/-- The counter: a wait takes a unit, or it gives up when there is none. -/
def counter : Object ℕ T SemCall SemRes := fun _ k n v m =>
  match k with
  | .semPost => v = .status .ok ∧ m = n + 1
  | .semGetvalue => v = .sval n ∧ m = n
  | k => (v = .status .ok ∧ n = m + 1) ∨
      (n = 0 ∧ m = 0 ∧ ∃ e, v = .status e ∧ k.mayReport e)

/-- The deadline a wait hands to `sem_timedwait`; the other calls do not wait. -/
def SemCall.deadline : SemCall → Option (Option Timespec)
  | .semWait => some none
  | .semTrywait => some (some ⟨0, 0⟩)
  | .semTimedwait abstime => some abstime
  | .semPost => none
  | .semGetvalue => none

/-- What a wait that has read the clock at `tick` reports when it takes nothing. -/
def refusal (P : Platform) (tick : ℕ) : SemCall → Status
  | .semTrywait =>
    let e := waitStatus (semTimeout P tick (some ⟨0, 0⟩)).1 false
    if e = .ETIMEDOUT then .EAGAIN else e
  | .semTimedwait abstime => waitStatus (semTimeout P tick abstime).1 false
  | _ => waitStatus .ok false

inductive Stage where
  | before
  | waiting
  | done (v : SemRes)

structure Local where
  call : SemCall
  tick : Fin (2 ^ 32)
  stage : Stage

def Asks (P : Platform) (l : Local) (ticks : ℕ) : Prop :=
  ∃ D, l.call.deadline = some D ∧ ticks = (semTimeout P l.tick D).2

def taking (P : Platform) : Protocol KernOp KernAns Local where
  safe
    | l, .tmrTicks => l.stage = .before
    | l, .semGet ticks => l.stage = .before ∧ Asks P l ticks
    | l, .semResult ticks => l.stage = .waiting ∧ Asks P l ticks
    | l, .semPost => l.stage = .before ∧ l.call = .semPost
    | l, .val => l.stage = .before ∧ l.call = .semGetvalue
  after
    | l, .tmrTicks, r, l' => l' = { l with tick := r }
    | l, .semGet _, some true, l' => l' = { l with stage := .done (.status .ok) }
    | l, .semGet _, some false, l' =>
      l' = { l with stage := .done (.status (refusal P l.tick l.call)) }
    | l, .semGet _, none, l' => l' = { l with stage := .waiting }
    | l, .semResult _, true, l' => l' = { l with stage := .done (.status .ok) }
    | l, .semResult _, false, l' =>
      l' = { l with stage := .done (.status (refusal P l.tick l.call)) }
    | l, .semPost, _, l' => l' = { l with stage := .done (.status .ok) }
    | l, .val, r, l' => l' = { l with stage := .done (.sval r) }

section Calls
variable {P : Platform} {l : Local} {abstime : Option Timespec}

theorem semTicks_taking (hl : l.stage = .before) :
    ((semTicks P abstime).interp kernelCall).Obeys (taking P) l fun conv l' =>
      l'.stage = .before ∧ l'.call = l.call ∧ conv = semTimeout P l'.tick abstime := by
  cases abstime with
  | none => simp [semTicks, semTimeout, hl]
  | some D =>
    cases hv : validateTimespec D with
    | false => simp [semTicks, semTimeout, hl, hv]
    | true =>
      simp only [semTicks, hv, Bool.true_eq_false, if_false, Prog.interp_bind,
        Prog.interp_request, Prog.obeys_bind, kernelCall, Prog.obeys_request]
      refine ⟨hl, ?_⟩
      intro r l' hl'
      cases hl'
      simp [semTimeout, hl, hv]

theorem semTimeout_status (P : Platform) (tick : ℕ) (D : Timespec) :
    (semTimeout P tick (some D)).1 = .ok ∨ (semTimeout P tick (some D)).1 = .EINVAL ∨
      (semTimeout P tick (some D)).1 = .ETIMEDOUT := by
  cases hv : validateTimespec D with
  | false => simp [semTimeout, hv]
  | true =>
    have hconv := absTimespec2ticks_valid (P := P) hv (clockGettime_wrapped P tick) P.WAIT
    split_ifs at hconv
    · simp [semTimeout, hv, hconv]
    · simp [semTimeout, hv, hconv]
    · simp [semTimeout, hv, hconv]

structure Settled (P : Platform) (abstime : Option Timespec) (r : Status) (l : Local) : Prop where
  taken : r = .ok → l.stage = .done (.status .ok)
  refused : r ≠ .ok → r = waitStatus (semTimeout P l.tick abstime).1 false ∧
    l.stage = .done (.status (refusal P l.tick l.call))

theorem waitStatus_false_ne (e : Status) : waitStatus e false ≠ .ok := by
  rw [Ne, waitStatus_ok]
  simp

theorem semGet_taking (hl : l.stage = .before) (hD : l.call.deadline = some abstime) :
    (kernelCall (.semGet (semTimeout P l.tick abstime).2)).Obeys (taking P) l fun taken l' =>
      l'.tick = l.tick ∧ l'.call = l.call ∧ l'.stage = .done (.status
        (if taken = true then .ok else refusal P l.tick l.call)) := by
  rw [kernelCall, Prog.obeys_bind, Prog.obeys_request]
  refine ⟨⟨hl, abstime, hD, rfl⟩, ?_⟩
  intro r l' hl'
  rcases r with _ | _ | _
  · cases hl'
    rw [Prog.obeys_request]
    refine ⟨⟨rfl, abstime, hD, rfl⟩, ?_⟩
    intro r l' hl'
    cases r with
    | false =>
      cases hl'
      simp
    | true =>
      cases hl'
      simp
  · cases hl'
    simp
  · cases hl'
    simp

theorem semTimedwait_taking (hl : l.stage = .before) (hD : l.call.deadline = some abstime) :
    ((semTimedwait P abstime).interp kernelCall).Obeys (taking P) l fun r l' =>
      Settled P abstime r l' ∧ l'.call = l.call := by
  rw [semTimedwait, Prog.interp_bind, Prog.obeys_bind]
  apply (semTicks_taking hl).mono
  rintro conv l' ⟨hl', hcall, rfl⟩
  rw [← hcall] at hD ⊢
  rw [Prog.interp_bind, Prog.obeys_bind, Prog.interp_request, Prog.obeys_bind]
  apply (semGet_taking hl' hD).mono
  intro taken l2 h
  obtain ⟨htick, hcall', hstage⟩ := h
  cases taken with
  | false =>
    have hne := waitStatus_false_ne (semTimeout P l'.tick abstime).1
    simp only [Prog.obeys_ret, if_true, Prog.pure_eq, Prog.interp_ret]
    refine ⟨⟨fun hok => absurd hok ?_, fun _ => ⟨?_, ?_⟩⟩, hcall'⟩
    · simpa [waitStatus] using hne
    · rw [htick]
      simp [waitStatus]
    · rw [hstage, htick, hcall']
      simp
  | true =>
    simp only [Prog.obeys_ret, Bool.true_eq_false, if_false, Prog.pure_eq, Prog.interp_ret]
    refine ⟨⟨fun _ => by simpa using hstage, fun hne => absurd rfl hne⟩, hcall'⟩

theorem Settled.done {r : Status} (h : Settled P abstime r l) {f : Status → Status}
    (hok : f .ok = .ok)
    (hf : refusal P l.tick l.call = f (waitStatus (semTimeout P l.tick abstime).1 false)) :
    l.stage = .done (.status (f r)) := by
  by_cases hr : r = .ok
  · subst r
    rw [hok]
    exact h.taken rfl
  · obtain ⟨rfl, hstage⟩ := h.refused hr
    rw [hstage, hf]

theorem semCode_taking (P : Platform) (k : SemCall) :
    (semCode P k).Obeys (taking P) ⟨k, 0, .before⟩ fun v l => l.stage = .done v := by
  cases k with
  | semWait =>
    rw [semCode, Prog.obeys_bind, semWait]
    apply (semTimedwait_taking rfl rfl).mono
    intro r l h
    exact h.1.done (f := id) rfl (by rw [h.2]; rfl)
  | semTrywait =>
    rw [semCode, Prog.obeys_bind, semTrywait, Prog.interp_bind, Prog.obeys_bind]
    apply (semTimedwait_taking rfl rfl).mono
    intro r l h
    exact h.1.done (f := fun r => if r = .ETIMEDOUT then .EAGAIN else r) rfl (by rw [h.2]; rfl)
  | semTimedwait abstime =>
    rw [semCode, Prog.obeys_bind]
    apply (semTimedwait_taking rfl rfl).mono
    intro r l h
    exact h.1.done (f := id) rfl (by rw [h.2]; rfl)
  | semPost => simp [semCode, taking]
  | semGetvalue => simp [semCode, taking]

theorem refusal_mayReport {k : SemCall} {tick : ℕ} {D : Option Timespec} (ht : tick < 2 ^ 32)
    (hD : k.deadline = some D) (hW : (semTimeout P tick D).2 ≠ P.WAIT) :
    k.mayReport (refusal P tick k) := by
  cases k with
  | semWait =>
    cases hD
    exact absurd rfl hW
  | semTrywait =>
    obtain ⟨hstatus, -⟩ := semTimeout_epoch (P := P) ht
    rcases hstatus with h | h
    · simp [SemCall.mayReport, refusal, waitStatus, h]
    · simp [SemCall.mayReport, refusal, waitStatus, h]
  | semTimedwait abstime =>
    obtain rfl : D = abstime := (Option.some.inj hD).symm
    cases D with
    | none => exact absurd rfl hW
    | some D =>
      cases hv : validateTimespec D with
      | false => simp [SemCall.mayReport, refusal, waitStatus, semTimeout, hv]
      | true =>
        rcases semTimeout_status P tick D with h | h | h
        · simp [SemCall.mayReport, refusal, waitStatus, h, hv]
        · simp [SemCall.mayReport, refusal, waitStatus, h, hv]
        · simp [SemCall.mayReport, refusal, waitStatus, h, hv]
  | semPost => cases hD
  | semGetvalue => cases hD

end Calls

/-- The value with which a call has been committed; a thread that is queued knows nothing of the
unit it has been handed. -/
def result (s : Sem T) (t : T) (l : Local) : Option SemRes :=
  match l.stage with
  | .before => none
  | .waiting => if t ∈ s.granted then some (.status .ok) else none
  | .done v => some v

/-- The count is the counter, and exactly the threads in the middle of a wait are queued. -/
structure Inv (s : Sem T) (n : ℕ) (f : T → Option (SemCall × Local)) : Prop where
  count : s.count = n
  valid : s.Valid
  queued : ∀ t, (t ∈ s.blocked ∨ t ∈ s.granted) ↔ ∃ k l, f t = some (k, l) ∧ l.stage = .waiting
  call : ∀ t k l, f t = some (k, l) → l.call = k
  waits : ∀ t k l, f t = some (k, l) → l.stage = .waiting → k.deadline ≠ none

section Steps
variable {P : Platform} {s s' : Sem T} {n m : ℕ} {f : T → Option (SemCall × Local)} {t : T}
  {k : SemCall} {l l' : Local}

theorem Inv.set (h : Inv s n f) {y : Option (SemCall × Local)} (hcount : s'.count = m)
    (hvalid : s'.Valid)
    (hself : (t ∈ s'.blocked ∨ t ∈ s'.granted) ↔ ∃ k l, y = some (k, l) ∧ l.stage = .waiting)
    (hcall : ∀ k l, y = some (k, l) → l.call = k ∧ (l.stage = .waiting → k.deadline ≠ none))
    (hothers : ∀ u, u ≠ t →
      ((u ∈ s'.blocked ∨ u ∈ s'.granted) ↔ (u ∈ s.blocked ∨ u ∈ s.granted))) :
    Inv s' m (Function.update f t y) := by
  refine ⟨hcount, hvalid, fun u => ?_, fun u k l hu => ?_, fun u k l hu hl => ?_⟩
  · by_cases hut : u = t
    · subst u
      simpa using hself
    · rw [Function.update_of_ne hut, hothers u hut]
      exact h.queued u
  · by_cases hut : u = t
    · subst u
      rw [Function.update_self] at hu
      exact (hcall k l hu).1
    · rw [Function.update_of_ne hut] at hu
      exact h.call u k l hu
  · by_cases hut : u = t
    · subst u
      rw [Function.update_self] at hu
      exact (hcall k l hu).2 hl
    · rw [Function.update_of_ne hut] at hu
      exact h.waits u k l hu hl

omit [DecidableEq T] in
theorem Inv.not_queued (h : Inv s n f) (ht : f t = some (k, l)) (hl : l.stage ≠ .waiting) :
    t ∉ s.blocked ∧ t ∉ s.granted := by
  have hn : ¬ (t ∈ s.blocked ∨ t ∈ s.granted) := by
    rw [h.queued]
    rintro ⟨k', l', heq, hw⟩
    obtain ⟨rfl, rfl⟩ := Prod.mk.inj (Option.some.inj (ht.symm.trans heq))
    exact hl hw
  exact not_or.mp hn

theorem result_others (hg : ∀ u, u ≠ t → (u ∈ s'.granted ↔ u ∈ s.granted)) (u : T) (hu : u ≠ t)
    (k : SemCall) (l : Local) (_ : f u = some (k, l)) : result s' u l = result s u l := by
  simp [result, hg u hu]

def Serves (t : T) (k : SemCall) (s : Sem T) (n : ℕ)
    (f : T → Option (SemCall × Local)) (s' : Sem T) (l' : Local) : Prop :=
  ∃ m, Inv s' m (Function.update f t (some (k, l'))) ∧
    Commits counter ⟨n, phases (result s) f⟩
      ⟨m, phases (result s') (Function.update f t (some (k, l')))⟩

theorem Inv.quiet (h : Inv s n f) (ht : f t = some (k, l)) (hl : l.stage = .before)
    (hcall : l'.call = l.call) (hl' : l'.stage = .before) : Serves t k s n f s l' := by
  obtain ⟨hb, hg⟩ := h.not_queued ht (by simp [hl])
  refine ⟨n, h.set h.count h.valid (by simp [hb, hg, hl']) ?_ (by simp), ?_⟩
  · rintro _ _ ⟨⟩
    exact ⟨hcall.trans (h.call t k l ht), by simp [hl']⟩
  · rw [phases_keep ht (by simp [result, hl, hl']) (result_others fun _ _ => Iff.rfl)]
    exact .refl _

theorem Inv.settles (h : Inv s n f) (ht : f t = some (k, l)) (hr : result s t l = none)
    {v : SemRes} (hcall : l'.call = l.call) (hl' : l'.stage = .done v) (hO : counter t k n v m)
    (hcount : s'.count = m) (hvalid : s'.Valid) (hself : t ∉ s'.blocked ∧ t ∉ s'.granted)
    (hb : ∀ u, u ≠ t → (u ∈ s'.blocked ↔ u ∈ s.blocked))
    (hg : ∀ u, u ≠ t → (u ∈ s'.granted ↔ u ∈ s.granted)) : Serves t k s n f s' l' := by
  refine ⟨m, h.set hcount hvalid (by simp [hself, hl']) ?_ ?_, ?_⟩
  · rintro _ _ ⟨⟩
    exact ⟨hcall.trans (h.call t k l ht), by simp [hl']⟩
  · intro u hu
    rw [hb u hu, hg u hu]
  · exact commits_own ht hr (by simp [result, hl']) hO (result_others hg)

omit [DecidableEq T] in
theorem counter_take (hk : k.deadline ≠ none) (t : T) (n : ℕ) :
    counter t k (n + 1) (.status .ok) n := by
  cases k with
  | semPost => exact absurd rfl hk
  | semGetvalue => exact absurd rfl hk
  | _ => exact .inl ⟨rfl, rfl⟩

omit [DecidableEq T] in
theorem counter_refuse (hk : k.deadline ≠ none) {e : Status} (he : k.mayReport e) (t : T) :
    counter t k 0 (.status e) 0 := by
  cases k with
  | semPost => exact absurd rfl hk
  | semGetvalue => exact absurd rfl hk
  | _ => exact .inr ⟨rfl, rfl, e, rfl, he⟩

theorem Inv.semGet (h : Inv s n f) (ht : f t = some (k, l)) {ticks : ℕ} {c : Choice T}
    {r : Option Bool} (hW : 0 < P.WAIT) (hsafe : (taking P).safe l (.semGet ticks))
    (hs : semExec P t (.semGet ticks) c s = some (r, s')) :
    ∃ l', (taking P).after l (.semGet ticks) r l' ∧ Serves t k s n f s' l' := by
  obtain ⟨hl, D, hD, hticks⟩ := hsafe
  obtain ⟨hb, hg⟩ := h.not_queued ht (by simp [hl])
  have hcall := h.call t k l ht
  rw [hcall] at hD
  have hk : k.deadline ≠ none := by simp [hD]
  have hnone : result s t l = none := by simp [result, hl]
  have hn := h.count
  simp only [semExec, Kernel.semGet] at hs
  by_cases hpos : 0 < s.count
  · simp only [if_pos hpos, if_true] at hs
    cases hs
    refine ⟨_, rfl, h.settles (m := n - 1) ht hnone rfl rfl ?_ ?_ ?_ ⟨hb, hg⟩ ?_ ?_⟩
    · obtain ⟨m, rfl⟩ : ∃ m, n = m + 1 := ⟨n - 1, by omega⟩
      exact counter_take hk t m
    · simp [hn]
    · have hempty : ¬ s.blocked.Nonempty := fun hne => by
        have := h.valid.no_idle hne
        omega
      exact ⟨fun hne => absurd hne hempty, h.valid.disjoint⟩
    · exact fun _ _ => Iff.rfl
    · exact fun _ _ => Iff.rfl
  · obtain rfl : n = 0 := by omega
    simp only [if_neg hpos, Bool.false_eq_true, if_false] at hs
    by_cases hzero : ticks = 0
    · rw [if_pos hzero] at hs
      cases hs
      have hne : (semTimeout P l.tick D).2 ≠ P.WAIT := by omega
      have he := refusal_mayReport l.tick.isLt hD hne
      refine ⟨_, rfl, h.settles ht hnone rfl rfl ?_ hn h.valid ⟨hb, hg⟩ ?_ ?_⟩
      · rw [hcall]
        exact counter_refuse hk he t
      · exact fun _ _ => Iff.rfl
      · exact fun _ _ => Iff.rfl
    · rw [if_neg hzero] at hs
      cases hs
      have hres : result (⟨s.count, insert t s.blocked, s.granted⟩ : Sem T) t
          { l with stage := .waiting } = result s t l := by
        simp [result, hl, hg]
      refine ⟨_, rfl, 0, h.set hn ?_ (by simp) ?_ ?_, ?_⟩
      · refine ⟨fun _ => hn, ?_⟩
        rw [Finset.disjoint_insert_left]
        exact ⟨hg, h.valid.disjoint⟩
      · rintro _ _ ⟨⟩
        exact ⟨hcall, fun _ => hk⟩
      · intro u hu
        simp [hu]
      · rw [phases_keep ht hres (result_others fun _ _ => Iff.rfl)]
        exact .refl _

theorem Inv.semResult (h : Inv s n f) (ht : f t = some (k, l)) {ticks : ℕ} {c : Choice T}
    {r : Bool} (hsafe : (taking P).safe l (.semResult ticks))
    (hs : semExec P t (.semResult ticks) c s = some (r, s')) :
    ∃ l', (taking P).after l (.semResult ticks) r l' ∧ Serves t k s n f s' l' := by
  obtain ⟨hl, D, hD, hticks⟩ := hsafe
  have hcall := h.call t k l ht
  rw [hcall] at hD
  have hk : k.deadline ≠ none := by simp [hD]
  have hqueued : t ∈ s.blocked ∨ t ∈ s.granted := (h.queued t).mpr ⟨k, l, ht, hl⟩
  simp only [semExec, Kernel.semResult] at hs
  by_cases hg : t ∈ s.granted
  · rw [if_pos hg] at hs
    cases hs
    have hb : t ∉ s.blocked := Finset.disjoint_right.mp h.valid.disjoint hg
    have hres : result (⟨s.count, s.blocked, s.granted.erase t⟩ : Sem T) t
        { l with stage := .done (.status .ok) } = result s t l := by
      simp [result, hl, hg]
    refine ⟨_, rfl, n, h.set h.count ?_ (by simp [hb]) ?_ ?_, ?_⟩
    · exact ⟨h.valid.no_idle, h.valid.disjoint.mono_right (Finset.erase_subset t _)⟩
    · rintro _ _ ⟨⟩
      exact ⟨hcall, by simp⟩
    · intro u hu
      simp [hu]
    · rw [phases_keep ht hres (result_others fun u hu => by simp [hu])]
      exact .refl _
  · rw [if_neg hg] at hs
    by_cases he : c.expire = true ∧ ticks ≠ P.WAIT
    · rw [if_pos he] at hs
      cases hs
      have hcount : s.count = 0 := h.valid.no_idle ⟨t, hqueued.resolve_right hg⟩
      obtain rfl : n = 0 := h.count.symm.trans hcount
      have hreport := refusal_mayReport l.tick.isLt hD (hticks ▸ he.2)
      refine ⟨_, rfl, h.settles ht (by simp [result, hl, hg]) rfl rfl ?_ hcount ?_ ?_ ?_ ?_⟩
      · rw [hcall]
        exact counter_refuse hk hreport t
      · exact ⟨fun _ => hcount, h.valid.disjoint.mono_left (Finset.erase_subset t _)⟩
      · exact ⟨by simp, hg⟩
      · exact fun u hu => by simp [hu]
      · exact fun _ _ => Iff.rfl
    · rw [if_neg he] at hs
      cases hs

/-- A post that wakes `u` completes the wait of `u` right after itself. -/
theorem Inv.handsOver (h : Inv s 0 f) (ht : f t = some (k, l)) (hl : l.stage = .before)
    (hk : k = .semPost) (hl' : l' = { l with stage := .done (.status .ok) }) {u : T}
    (hu : u ∈ s.blocked)
    (hs' : s' = ⟨s.count, s.blocked \ {u}, s.granted ∪ {u}⟩) : Serves t k s 0 f s' l' := by
  obtain ⟨hb, hg⟩ := h.not_queued ht (by simp [hl])
  obtain ⟨ku, lu, hfu, hwait⟩ := (h.queued u).mp (.inl hu)
  have hut : u ≠ t := fun heq => hb (heq ▸ hu)
  have hgu : u ∉ s.granted := Finset.disjoint_left.mp h.valid.disjoint hu
  subst hl' hs'
  have hpost : semPostN 1 {u} s = some ⟨s.count, s.blocked \ {u}, s.granted ∪ {u}⟩ := by
    have hcard : 1 ≤ s.blocked.card := Finset.card_pos.mpr ⟨u, hu⟩
    simp [semPostN, hu, hcard]
  refine ⟨0, h.set h.count (semPostN_valid h.valid hpost) ?_ ?_ ?_, ?_⟩
  · simp [hb, hg, hut.symm]
  · rintro _ _ ⟨⟩
    exact ⟨h.call t k l ht, by simp⟩
  · intro w _
    by_cases hw : w = u
    · subst w
      simp [hu]
    · simp [hw]
  · have hfirst : Commits counter ⟨0, phases (result s) f⟩
        ⟨1, Function.update (phases (result s) f) t (.done k (.status .ok))⟩ := by
      refine .one (by simp [phases, ht, Phase.ofCall, result, hl]) ?_
      rw [hk]
      exact ⟨rfl, rfl⟩
    refine hfirst.trans ?_
    have hphases : phases (result (⟨s.count, s.blocked \ {u}, s.granted ∪ {u}⟩ : Sem T))
        (Function.update f t (some (k, { l with stage := .done (.status .ok) }))) =
        Function.update (Function.update (phases (result s) f) t (.done k (.status .ok))) u
          (.done ku (.status .ok)) := by
      funext w
      by_cases hwu : w = u
      · subst w
        simp [phases, hut, hfu, Phase.ofCall, result, hwait]
      · rw [Function.update_of_ne hwu]
        by_cases hwt : w = t
        · subst w
          simp [phases, Phase.ofCall, result]
        · rw [Function.update_of_ne hwt, phases, phases, Function.update_of_ne hwt]
          cases f w with
          | none => rfl
          | some kl => simp [Phase.ofCall, result, hwu]
    rw [hphases]
    refine .one ?_ (counter_take (h.waits u ku lu hfu hwait) u 0)
    simp [phases, hut, hfu, Phase.ofCall, result, hwait, hgu]

theorem Inv.semPost (h : Inv s n f) (ht : f t = some (k, l)) {c : Choice T} {r : Unit}
    (hsafe : (taking P).safe l .semPost) (hs : semExec P t .semPost c s = some (r, s')) :
    ∃ l', (taking P).after l .semPost r l' ∧ Serves t k s n f s' l' := by
  obtain ⟨hl, hk⟩ := hsafe
  rw [h.call t k l ht] at hk
  obtain ⟨q, hq, heq⟩ := Option.map_eq_some_iff.mp hs
  cases heq
  obtain ⟨hsub, hcard, rfl⟩ := semPostN_some hq
  obtain ⟨hb, hg⟩ := h.not_queued ht (by simp [hl])
  refine ⟨_, rfl, ?_⟩
  rcases s.blocked.eq_empty_or_nonempty with hempty | hne
  · have hwoken : c.woken = ∅ := by simpa [hempty] using hsub
    have hstate : (⟨s.count + (1 - c.woken.card), s.blocked \ c.woken, s.granted ∪ c.woken⟩ :
        Sem T) = ⟨s.count + 1, s.blocked, s.granted⟩ := by
      simp [hwoken]
    rw [hstate]
    refine h.settles ht (by simp [result, hl]) rfl rfl ?_ rfl ?_ ⟨hb, hg⟩ ?_ ?_
    · rw [hk]
      exact ⟨rfl, by rw [h.count]⟩
    · exact ⟨fun hn => by simp [hempty] at hn, h.valid.disjoint⟩
    · exact fun _ _ => Iff.rfl
    · exact fun _ _ => Iff.rfl
  · have hone : c.woken.card = 1 := by
      have hpos := Finset.card_pos.mpr hne
      omega
    obtain ⟨u, hu⟩ := Finset.card_eq_one.mp hone
    have hcount : s.count = 0 := h.valid.no_idle hne
    obtain rfl : n = 0 := h.count.symm.trans hcount
    rw [hu] at hsub
    refine h.handsOver ht hl hk rfl (Finset.singleton_subset_iff.mp hsub) ?_
    simp [hu]

end Steps

def semService (P : Platform) (hW : 0 < P.WAIT) :
    Linearizability.Service (semThreads P : System T KernOp KernAns (Choice T) (Sem T) SemCall SemRes)
      counter Local where
  toProtocol := taking P
  inv := Inv
  result := result
  fits := Eq
  post _ v l := l.stage = .done v
  enter_step := by
    intro s s' n f t k h ht hs
    cases hs
    have hout : ¬ (t ∈ s.blocked ∨ t ∈ s.granted) := by
      rw [h.queued]
      simp [ht]
    refine ⟨⟨k, 0, .before⟩, semCode_taking P k, h.set h.count h.valid (by simp [hout]) ?_
      (by simp), ?_⟩
    · rintro _ _ ⟨⟩
      exact ⟨rfl, by simp⟩
    · exact phases_update (result_others fun _ _ => Iff.rfl)
  exec_step := by
    intro s s' n f t k l e c r h ht hsafe hs
    cases e with
    | tmrTicks =>
      cases hs
      have hstep : Serves t k s n f s { l with tick := c.tick } := h.quiet ht hsafe rfl hsafe
      obtain ⟨m, hm⟩ := hstep
      exact ⟨_, m, rfl, hm⟩
    | semGet ticks =>
      obtain ⟨l', ha, m, hm⟩ := h.semGet (c := c) ht hW hsafe hs
      exact ⟨l', m, ha, hm⟩
    | semResult ticks =>
      obtain ⟨l', ha, m, hm⟩ := h.semResult (c := c) ht hsafe hs
      exact ⟨l', m, ha, hm⟩
    | semPost =>
      obtain ⟨l', ha, m, hm⟩ := h.semPost (c := c) ht hsafe hs
      exact ⟨l', m, ha, hm⟩
    | val =>
      cases hs
      obtain ⟨hl, hk⟩ := hsafe
      have hstep : Serves t k s n f s { l with stage := .done (.sval s.count) } := by
        refine h.settles ht (by simp [result, hl]) rfl rfl ?_ h.count h.valid
          (h.not_queued ht (by simp [hl])) (fun _ _ => Iff.rfl) (fun _ _ => Iff.rfl)
        rw [← h.call t k l ht, hk, h.count]
        exact ⟨rfl, rfl⟩
      obtain ⟨m, hm⟩ := hstep
      exact ⟨_, m, rfl, hm⟩
  leave_step := by
    intro s n f t k l v h ht hv
    obtain ⟨hb, hg⟩ := h.not_queued ht (by simp [hv])
    have hset : Inv s n (Function.update f t none) :=
      h.set h.count h.valid (by simp [hb, hg]) (by simp) (by simp)
    refine ⟨n, phases (result s) f, v, hset, .refl _, ?_, rfl, ?_⟩
    · simp [phases, ht, Phase.ofCall, result, hv]
    · exact phases_update (result_others fun _ _ => Iff.rfl)

omit [DecidableEq T] in
theorem semInit_inv (value : ℕ) : Inv (semInit value : Sem T) value fun _ => none where
  count := rfl
  valid := semInit_valid value
  queued := by simp [semInit]
  call := nofun
  waits := nofun

/-- Every run of waits, posts and reads on a semaphore of `value` units is linearizable to the
counter, and the count of the semaphore is that of the counter. No thread is queued while there
are units. -/
theorem semaphore_linearizes {P : Platform} (hW : 0 < P.WAIT) (value : ℕ)
    {as : List (Action T (Choice T) SemCall)}
    {p : Pool T KernOp KernAns (Sem T) SemCall SemRes}
    (hrun : execute (step (semThreads P)) (idlePool (semInit value)) as = some p) :
    Linearizes counter value (history (semThreads P) (idlePool (semInit value)) as)
        p.shared.count ∧ p.shared.Valid := by
  have hinit : (semService (T := T) P hW).inv (semInit value) value fun _ => none :=
    semInit_inv value
  obtain ⟨n, f, hlin, hinv, -⟩ := (semService P hW).linearizes rfl hinit hrun
  rw [hinv.count]
  exact ⟨hlin, hinv.valid⟩

def quietly : Choice Bool := ⟨5, false, ∅⟩

/-- A thread waits for the unit of another one, which then fails to get a unit itself although
the first one has not run yet. -/
def handoverSteps : List (Action Bool (Choice Bool) SemCall) :=
  [.enter false .semWait, .run false quietly, .enter true .semPost, .run true ⟨5, false, {false}⟩,
    .leave true, .enter true .semTrywait, .run true quietly, .run true quietly, .leave true,
    .run false quietly, .leave false]

def handoverHistory : List (Event Bool SemCall SemRes) :=
  [.entered false .semWait, .entered true .semPost, .returned true (.status .ok),
    .entered true .semTrywait, .returned true (.status .EAGAIN), .returned false (.status .ok)]

theorem semaphore_linearizes_handover : ∃ p,
    execute (step (semThreads platform1000)) (idlePool (semInit 0)) handoverSteps = some p ∧
      p.shared.count = 0 ∧ Linearizes counter 0 handoverHistory 0 := by
  have hrun : (execute (step (semThreads platform1000)) (idlePool (semInit 0))
      handoverSteps).map (fun p => p.shared.count) = some 0 ∧
      history (semThreads platform1000) (idlePool (semInit 0)) handoverSteps =
        handoverHistory := by
    decide +kernel
  obtain ⟨hcount, hhist⟩ := hrun
  obtain ⟨p, hp, hzero⟩ := Option.map_eq_some_iff.mp hcount
  obtain ⟨hlin, -⟩ := semaphore_linearizes (by decide) 0 hp
  rw [hhist, hzero] at hlin
  exact ⟨p, hp, hzero, hlin⟩

end LibPosix.SemaphoreThreads
