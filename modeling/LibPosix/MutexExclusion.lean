import LibPosix.Mutex
import LibPosix.Deadline
import LibPosix.ThreadPool

/-! Mutual exclusion. Any number of threads call the four entry points of one mutex in any
order. `locked t` counts the calls that returned 0 to `t` and that `t` has not begun to
undo; the kernel's count is what `t` really holds. -/
namespace LibPosix.MutexExclusion
open Program ThreadPool Transition Kernel TimeUtils Mutex Deadline
variable {T : Type} [DecidableEq T]

inductive MutexCall where
  | lock
  | timedlock (abstime : Option Timespec)
  | trylock
  | unlock
  deriving DecidableEq, Repr

structure Clients (T : Type) where
  mutex : PthreadMutex T
  locked : T → ℕ

def clients (attr : Option MutexType) : Clients T := ⟨pthreadMutexInit attr, fun _ => 0⟩

def mutexCode (P : Platform) : MutexCall → Prog MutexOp MutexAns Status
  | .lock => pthreadMutexLock P
  | .timedlock abstime => pthreadMutexTimedlock P abstime
  | .trylock => pthreadMutexTrylock P
  | .unlock => pthreadMutexUnlock

/-- A thread unlocks only what it holds by the values its calls returned. -/
def mutexSystem (relock : Bool) (P : Platform) :
    System T MutexOp MutexAns Outcome (Clients T) MutexCall Status where
  code _ k := mutexCode P k
  exec t e c s := (mutexExec relock P t e c s.mutex).map fun r => (r.1, { s with mutex := r.2 })
  enter t k s :=
    if k = .unlock then
      if s.locked t = 0 then none
      else some { s with locked := Function.update s.locked t (s.locked t - 1) }
    else some s
  leave t k v s :=
    if k ≠ .unlock ∧ v = .ok then
      { s with locked := Function.update s.locked t (s.locked t + 1) }
    else s

/-- The wait of a `mut_lock` runs out. -/
def Refused (relock : Bool) (P : Platform) (s : Clients T) (t : T) (e : MutexOp)
    (c : Outcome) : Prop :=
  ∃ ticks m, e = .mutLock ticks ∧
    mutLock relock P.WAIT t ticks c.expire s.mutex.mux = some (false, m)

structure Account where
  locked : ℕ
  held : ℕ

def account : Protocol MutexOp MutexAns Account where
  safe l e := e = .mutUnlock → l.locked < l.held
  after
    | l, .inited, r, l' => r = true ∧ l' = l
    | l, .ownIsCur, r, l' => r = decide (0 < l.held) ∧ l' = l
    | l, .mutLock _, r, l' => r = true ∧ l' = ⟨l.locked, l.held + 1⟩
    | l, .mutUnlock, _, l' => l' = ⟨l.locked, l.held - 1⟩
    | l, _, _, l' => l' = l

/-- A lock call that succeeds has acquired once more, any other call that returns leaves the
account balanced. -/
def Settled (k : MutexCall) (v : Status) (l : Account) : Prop :=
  l.held = if k ≠ .unlock ∧ v = .ok then l.locked + 1 else l.locked

theorem lockTicks_obeys (P : Platform) (abstime : Option Timespec) (ticks : ℕ) (l : Account) :
    (lockTicks P abstime ticks).Obeys account l fun _ l' => l' = l := by
  cases abstime with
  | none => simp [lockTicks]
  | some abstime => simp [lockTicks, account]

theorem lockWithin_obeys {k : MutexCall} (hk : k ≠ .unlock) (n ticks : ℕ) (ret : Status) :
    (lockWithin ret ticks).Obeys account ⟨n, n⟩ (Settled k) := by
  by_cases h : ret = .ok
  · subst ret
    simp [lockWithin, Settled, account, hk, Nat.pos_iff_ne_zero]
  · simp [lockWithin, Settled, account, hk, h]

theorem pthreadMutexTimedlock_obeys {k : MutexCall} (hk : k ≠ .unlock) (P : Platform)
    (abstime : Option Timespec) (n : ℕ) :
    (pthreadMutexTimedlock P abstime).Obeys account ⟨n, n⟩ (Settled k) := by
  have hrest (ticks : ℕ) : (lockTicks P abstime ticks).Obeys account ⟨n, n⟩ fun conv l =>
      (lockWithin conv.1 conv.2).Obeys account l (Settled k) := by
    refine (lockTicks_obeys P abstime ticks ⟨n, n⟩).mono fun conv l hl => ?_
    rw [hl]
    exact lockWithin_obeys hk n conv.2 conv.1
  simp only [pthreadMutexTimedlock, Prog.obeys_bind, Prog.obeys_request]
  refine ⟨by simp [account], fun ticks l hl => ⟨by simp [account], fun inited l' hi => ?_⟩⟩
  obtain rfl : l = ⟨n, n⟩ := hl
  obtain ⟨rfl, rfl⟩ := hi
  rw [if_neg (by simp), Prog.obeys_bind]
  exact hrest ticks

theorem pthreadMutexTrylock_obeys (P : Platform) (n : ℕ) :
    (pthreadMutexTrylock P).Obeys account ⟨n, n⟩ (Settled .trylock) := by
  have hk : MutexCall.trylock ≠ .unlock := by simp
  rw [pthreadMutexTrylock, Prog.obeys_bind]
  refine (pthreadMutexTimedlock_obeys hk P (some ⟨0, 0⟩) n).mono fun v l hl => ?_
  by_cases hv : v = .ETIMEDOUT
  · simpa [Settled, hv] using hl
  · simpa [Settled, hv] using hl

theorem pthreadMutexUnlock_obeys (n : ℕ) :
    pthreadMutexUnlock.Obeys account ⟨n, n + 1⟩ (Settled .unlock) := by
  simp [pthreadMutexUnlock, Settled, account]

theorem mutexCode_obeys (P : Platform) {k : MutexCall} (hk : k ≠ .unlock) (n : ℕ) :
    (mutexCode P k).Obeys account ⟨n, n⟩ (Settled k) := by
  cases k with
  | lock => exact pthreadMutexTimedlock_obeys hk P none n
  | timedlock abstime => exact pthreadMutexTimedlock_obeys hk P abstime n
  | trylock => exact pthreadMutexTrylock_obeys P n
  | unlock => exact absurd rfl hk

def accountOf (s : Clients T) (t : T) : Account := ⟨s.locked t, s.mutex.mux.held t⟩

structure Consistent (s : Clients T) : Prop where
  inited : s.mutex.inited = true
  valid : s.mutex.mux.Valid
  locked_le : ∀ t, s.locked t ≤ s.mutex.mux.held t

theorem held_pos_iff {m : Mut T} (hv : m.Valid) (t : T) :
    0 < m.held t ↔ m.own = some t := by
  refine ⟨Mut.held_pos, fun ho => ?_⟩
  have hd : m.depth ≠ 0 := fun h => by simp [hv.mpr h] at ho
  simp only [Mut.held, ho, if_true]
  omega

theorem enter_consistent {relock : Bool} {P : Platform} {s s' : Clients T} {t : T}
    {k : MutexCall} (h : Consistent s) (hb : s.locked t = s.mutex.mux.held t)
    (hs : (mutexSystem relock P).enter t k s = some s') :
    Consistent s' ∧ (mutexCode P k).Obeys account (accountOf s' t) (Settled k) ∧
      ∀ u, u ≠ t → accountOf s' u = accountOf s u := by
  by_cases hk : k = .unlock
  · subst k
    simp only [mutexSystem, if_true] at hs
    split_ifs at hs with hl
    cases hs
    refine ⟨⟨h.inited, h.valid, fun u => ?_⟩, ?_, fun u hu => by simp [accountOf, hu]⟩
    · by_cases hu : u = t
      · subst u
        simp only [Function.update_self]
        omega
      · simpa [hu] using h.locked_le u
    · obtain ⟨n, hn⟩ := Nat.exists_eq_succ_of_ne_zero hl
      have ha : accountOf { s with locked := Function.update s.locked t (s.locked t - 1) } t =
          ⟨n, n + 1⟩ := by
        simp [accountOf, ← hb, hn]
      rw [ha]
      exact pthreadMutexUnlock_obeys n
  · obtain rfl : s' = s := by simpa [mutexSystem, hk, eq_comm] using hs
    refine ⟨h, ?_, fun u _ => rfl⟩
    have ha : accountOf s' t = ⟨s'.locked t, s'.locked t⟩ := by rw [accountOf, ← hb]
    rw [ha]
    exact mutexCode_obeys P hk _

theorem leave_consistent {relock : Bool} {P : Platform} {s : Clients T} {t : T}
    {k : MutexCall} {v : Status} (h : Consistent s) (hp : Settled k v (accountOf s t)) :
    Consistent ((mutexSystem relock P).leave t k v s) ∧
      ((mutexSystem relock P).leave t k v s).locked t =
        ((mutexSystem relock P).leave t k v s).mutex.mux.held t ∧
      ∀ u, u ≠ t → accountOf ((mutexSystem relock P).leave t k v s) u = accountOf s u := by
  simp only [Settled, accountOf] at hp
  by_cases hk : k ≠ .unlock ∧ v = .ok
  · simp only [mutexSystem, if_pos hk] at hp ⊢
    refine ⟨⟨h.inited, h.valid, fun u => ?_⟩, ?_, fun u hu => by simp [accountOf, hu]⟩
    · by_cases hu : u = t
      · subst u
        simp [hp]
      · simpa [hu] using h.locked_le u
    · simp [hp]
  · simp only [mutexSystem, if_neg hk] at hp ⊢
    exact ⟨h, hp.symm, fun u _ => trivial⟩

theorem exec_consistent {relock : Bool} {P : Platform} {s s' : Clients T} {t : T}
    {e : MutexOp} {c : Outcome} {r : MutexAns e} (h : Consistent s)
    (hsafe : account.safe (accountOf s t) e) (hok : ¬ Refused relock P s t e c)
    (hs : (mutexSystem relock P).exec t e c s = some (r, s')) :
    Consistent s' ∧ account.after (accountOf s t) e r (accountOf s' t) ∧
      ∀ u, u ≠ t → accountOf s' u = accountOf s u := by
  cases e with
  | inited =>
    cases hs
    exact ⟨h, ⟨h.inited, rfl⟩, fun u _ => rfl⟩
  | type =>
    cases hs
    exact ⟨h, rfl, fun u _ => rfl⟩
  | ownIsCur =>
    cases hs
    refine ⟨h, ⟨?_, rfl⟩, fun u _ => rfl⟩
    simp [accountOf, held_pos_iff h.valid]
  | tmrTicks =>
    cases hs
    exact ⟨h, rfl, fun u _ => rfl⟩
  | uninit =>
    cases hs
    exact ⟨h, rfl, fun u _ => rfl⟩
  | mutLock ticks =>
    simp only [mutexSystem, mutexExec, Option.map_map, Option.map_eq_some_iff] at hs
    obtain ⟨⟨a, m⟩, hm, heq⟩ := hs
    cases heq
    obtain rfl : a = true := by
      by_contra ha
      exact hok ⟨ticks, m, rfl, by simpa [ha] using hm⟩
    obtain ⟨hv, ht, hu⟩ := mutLock_acquired h.valid hm
    refine ⟨⟨h.inited, hv, fun u => ?_⟩, ⟨rfl, ?_⟩, fun u hne => ?_⟩
    · have hle := h.locked_le u
      by_cases hut : u = t
      · subst u
        simp only [ht]
        omega
      · simpa [hu u hut] using hle
    · simp [accountOf, ht]
    · simp [accountOf, hu u hne]
  | mutUnlock =>
    cases hs
    have hlt : s.locked t < s.mutex.mux.held t := hsafe rfl
    obtain ⟨hv, ht, hu⟩ := mutUnlock_held (Nat.zero_lt_of_lt hlt)
    refine ⟨⟨h.inited, hv, fun u => ?_⟩, ?_, fun u hne => ?_⟩
    · have hle := h.locked_le u
      by_cases hut : u = t
      · subst u
        simp only [ht]
        omega
      · simpa [hu u hut] using hle
    · simp [account, accountOf, ht]
    · simp [accountOf, hu u hne]

def exclusion (relock : Bool) (P : Platform) :
    Discipline (mutexSystem (T := T) relock P) Account where
  toProtocol := account
  view := accountOf
  inv := Consistent
  allowed s t e c := ¬ Refused relock P s t e c
  between _ l := l.locked = l.held
  post _ k v l := Settled k v l
  enter_step h hb hs := enter_consistent h hb hs
  exec_step h hsafe hok hs := exec_consistent h hsafe hok hs
  leave_step h hp := leave_consistent h hp

/-- Whoever is between a lock call that returned 0 and its unlock owns the kernel mutex. -/
def Exclusive (s : Clients T) : Prop :=
  (∀ t, 0 < s.locked t → s.mutex.mux.own = some t) ∧
    ∀ t u, 0 < s.locked t → 0 < s.locked u → t = u

theorem Consistent.exclusive {s : Clients T} (h : Consistent s) : Exclusive s := by
  have hown (t : T) (ht : 0 < s.locked t) : s.mutex.mux.own = some t :=
    Mut.held_pos (ht.trans_le (h.locked_le t))
  refine ⟨hown, fun t u ht hu => ?_⟩
  have heq := (hown t ht).symm.trans (hown u hu)
  exact Option.some.inj heq

theorem clients_consistent (attr : Option MutexType) : Consistent (clients attr : Clients T) :=
  ⟨rfl, mutInit_valid, fun _ => Nat.zero_le _⟩

/-- Mutual exclusion in every run in which no wait for the mutex runs out. -/
theorem pthreadMutex_exclusive (relock : Bool) (P : Platform) (attr : Option MutexType)
    (as : List (Action T Outcome MutexCall))
    (p : Pool T MutexOp MutexAns (Clients T) MutexCall Status)
    (hrun : execute (step (mutexSystem relock P)) (idlePool (clients attr)) as = some p)
    (hok : Meets (step (mutexSystem relock P))
      (Allowed fun s t e c => ¬ Refused relock P s t e c) (idlePool (clients attr)) as) :
    Exclusive p.shared := by
  have h0 : (exclusion relock P).Inv (idlePool (clients attr : Clients T)) :=
    Discipline.idle_inv _ (clients_consistent attr) fun _ => rfl
  have hinv := h0.execute hok hrun
  exact hinv.shared.exclusive

def callSteps (t : T) (k : MutexCall) (n : ℕ) (c : Outcome) : List (Action T Outcome MutexCall) :=
  .enter t k :: List.replicate n (.run t c) ++ [.leave t]

theorem not_refused_of_waits {relock : Bool} {P : Platform} {s : Clients T} {t : T}
    {e : MutexOp} {c : Outcome} (hc : c.expire = false) :
    ¬ Refused relock P s t e c := by
  rintro ⟨ticks, m, -, hm⟩
  have he := (mutLock_refused hm).2.1
  simp [hc] at he

theorem meets_of_waits {relock : Bool} {P : Platform}
    (p : Pool T MutexOp MutexAns (Clients T) MutexCall Status)
    (as : List (Action T Outcome MutexCall))
    (h : ∀ a ∈ as, ∀ t c, a = .run t c → c.expire = false) :
    Meets (step (mutexSystem relock P))
      (Allowed fun s t e c => ¬ Refused relock P s t e c) p as := by
  induction as generalizing p with
  | nil => trivial
  | cons a as ih =>
    refine ⟨?_, fun q _ => ih q fun b hb => h b (List.mem_cons_of_mem a hb)⟩
    cases a with
    | enter t k => trivial
    | leave t => trivial
    | run t c =>
      intro k e f _
      exact not_refused_of_waits (h _ List.mem_cons_self t c rfl)

def patient : Outcome := ⟨5, 0, false⟩

def impatient : Outcome := ⟨5, 0, true⟩

/-- `true` wants to lock the mutex while `false` has it, and gets it when `false` unlocks. -/
def handoverSteps : List (Action Bool Outcome MutexCall) :=
  callSteps false .lock 4 patient ++ .enter true .lock :: List.replicate 3 (.run true patient) ++
    callSteps false .unlock 3 patient ++ [.run true patient, .leave true]

theorem pthreadMutex_exclusive_lock : ∃ p,
    execute (step (mutexSystem true platform1000)) (idlePool (clients none)) handoverSteps =
      some p ∧
    Exclusive p.shared ∧ p.shared.locked false = 0 ∧ p.shared.locked true = 1 := by
  have hrun : ((execute (step (mutexSystem true platform1000)) (idlePool (clients none))
      handoverSteps).map fun p => (p.shared.locked false, p.shared.locked true)) = some (0, 1) := by
    decide +kernel
  obtain ⟨p, hp, hl⟩ := Option.map_eq_some_iff.mp hrun
  obtain ⟨hf, ht⟩ := Prod.mk.inj hl
  refine ⟨p, hp, pthreadMutex_exclusive true platform1000 none handoverSteps p hp ?_, hf, ht⟩
  refine meets_of_waits _ _ fun a ha t c hac => ?_
  subst a
  simp [handoverSteps, callSteps] at ha
  grind [patient]

/-- Two threads try the same mutex; both calls return 0. -/
theorem pthreadMutexTrylock_shared : ∃ p,
    execute (step (mutexSystem true platform1000)) (idlePool (clients none))
      (callSteps false .trylock 5 impatient ++ callSteps true .trylock 5 impatient) = some p ∧
    p.shared.locked false = 1 ∧ p.shared.locked true = 1 ∧ ¬ Exclusive p.shared := by
  have hrun : ((execute (step (mutexSystem true platform1000)) (idlePool (clients none))
      (callSteps false .trylock 5 impatient ++ callSteps true .trylock 5 impatient)).map fun p =>
        (p.shared.locked false, p.shared.locked true)) = some (1, 1) := by
    decide +kernel
  obtain ⟨p, hp, hl⟩ := Option.map_eq_some_iff.mp hrun
  obtain ⟨hf, ht⟩ := Prod.mk.inj hl
  refine ⟨p, hp, hf, ht, fun h => ?_⟩
  have heq : false = true := h.2 false true (by omega) (by omega)
  cases heq

end LibPosix.MutexExclusion
