import LibPosix.MalformedDeadlines
import LibPosix.ExpiredDeadlines

/-! What `pthread_mutex_lock` and `pthread_mutex_trylock` report. Neither looks at the result of
the kernel's lock, and the one hands it an unassigned timeout, the other a timeout of 0. -/
namespace LibPosix.LockResults
open Program TimeUtils Kernel Deadline Mutex MalformedDeadlines ExpiredDeadlines
variable {T : Type} [DecidableEq T]

/-- An initialised mutex as the thread `t` sees it, with `g` in the unassigned variable. -/
def seen (t : T) (m : PthreadMutex T) (g : ℕ) : (e : MutexOp) → MutexAns e → Prop
  | .inited, r => r = true
  | .type, r => r = m.type
  | .ownIsCur, r => r = decide (m.mux.own = some t)
  | .uninit, r => r = g
  | _, _ => True

def unbounded (P : Platform) (t : T) (m : PthreadMutex T) (g : ℕ) :
    Protocol MutexOp MutexAns Unit where
  safe _ e := ∀ ticks, e = .mutLock ticks → ticks = P.WAIT
  after _ e r _ := seen t m g e r

/-- An environment of any kind, which shows the mutex as `t` sees it. -/
def Shows {σ : Type} (t : T) (m : PthreadMutex T) (g : ℕ)
    (exec : (e : MutexOp) → σ → Option (MutexAns e × σ)) (s : σ) : Prop :=
  exec .inited s = some (true, s) ∧ exec .type s = some (m.type, s) ∧
    exec .ownIsCur s = some (decide (m.mux.own = some t), s) ∧ exec .uninit s = some (g, s)

def withGarbage {σ : Type} (g : ℕ) (exec : (e : MutexOp) → σ → Option (MutexAns e × σ)) :
    (e : MutexOp) → σ → Option (MutexAns e × σ)
  | .uninit, s => some (g, s)
  | e, s => exec e s

/-- The call does the same for either content of the unassigned variable, and waits until no
other thread holds the mutex. -/
structure Steady (P : Platform) (t : T) (m : PthreadMutex T) (g₁ g₂ : ℕ)
    (p : Prog MutexOp MutexAns Status) : Prop where
  same : ∀ {σ : Type} (exec : (e : MutexOp) → σ → Option (MutexAns e × σ)) (s : σ),
    Shows t m g₁ exec s → p.eval (withGarbage g₂ exec) s = p.eval exec s
  unbounded : ∀ g, g = g₁ ∨ g = g₂ → p.Obeys (unbounded P t m g) () fun _ _ => True
  waits : ∀ relock c m', c.garbage = g₁ ∨ c.garbage = g₂ →
    p.eval (fun e => mutexExec relock P t e c) m = some (.ok, m') →
      m.mux.own = none ∨ m.mux.own = some t

def Deadlocks (t : T) (m : PthreadMutex T) : Prop := m.type = .errorcheck ∧ m.mux.own = some t

instance (t : T) (m : PthreadMutex T) : Decidable (Deadlocks t m) :=
  inferInstanceAs (Decidable (_ ∧ _))

section Lock
variable {P : Platform} {t : T} {m : PthreadMutex T} {g g₁ g₂ : ℕ}

theorem lock_eval {σ : Type} {exec : (e : MutexOp) → σ → Option (MutexAns e × σ)} {s : σ}
    (h : Shows t m g exec s) : (pthreadMutexTimedlock P none).eval exec s =
      if Deadlocks t m then some (.EDEADLK, s)
      else (exec (.mutLock g) s).bind fun r => some (.ok, r.2) := by
  obtain ⟨hi, ht, ho, hg⟩ := h
  by_cases htype : m.type = .errorcheck
  · by_cases hown : m.mux.own = some t
    · simp [pthreadMutexTimedlock, lockTicks, lockWithin, Deadlocks, hi, ht, ho, hg, htype, hown]
    · simp [pthreadMutexTimedlock, lockTicks, lockWithin, Deadlocks, hi, ht, ho, hg, htype, hown]
  · simp [pthreadMutexTimedlock, lockTicks, lockWithin, Deadlocks, hi, ht, hg, htype]

theorem lock_unbounded_iff : (pthreadMutexTimedlock P none).Obeys (unbounded P t m g) ()
    (fun _ _ => True) ↔ g = P.WAIT ∨ Deadlocks t m := by
  by_cases htype : m.type = .errorcheck
  · by_cases hown : m.mux.own = some t
    · simp [pthreadMutexTimedlock, lockTicks, lockWithin, unbounded, seen, Deadlocks, htype, hown]
    · simp [pthreadMutexTimedlock, lockTicks, lockWithin, unbounded, seen, Deadlocks, htype, hown]
  · simp [pthreadMutexTimedlock, lockTicks, lockWithin, unbounded, seen, Deadlocks, htype]

theorem Shows.withGarbage {σ : Type} {exec : (e : MutexOp) → σ → Option (MutexAns e × σ)} {s : σ}
    (h : Shows t m g₁ exec s) : Shows t m g₂ (withGarbage g₂ exec) s :=
  ⟨h.1, h.2.1, h.2.2.1, rfl⟩

theorem shows_mutexExec (hm : m.inited = true) (relock : Bool) (c : Outcome) :
    Shows t m c.garbage (fun e => mutexExec relock P t e c) m :=
  ⟨by simp [mutexExec, hm], rfl, rfl, rfl⟩

/-- A call that waits for ever, or not at all, does not get past another owner. -/
theorem lock_waits (hm : m.inited = true) {relock : Bool} {c : Outcome} {m' : PthreadMutex T}
    (hg : c.garbage = P.WAIT ∨ Deadlocks t m)
    (hrun : (pthreadMutexTimedlock P none).eval (fun e => mutexExec relock P t e c) m =
      some (.ok, m')) : m.mux.own = none ∨ m.mux.own = some t := by
  by_cases hown : m.mux.own = some t
  · exact .inr hown
  · have hd : ¬ Deadlocks t m := fun hd => hown hd.2
    rw [lock_eval (shows_mutexExec hm relock c), if_neg hd] at hrun
    obtain ⟨r, hr, -⟩ := Option.bind_eq_some_iff.mp hrun
    obtain ⟨x, hx, -⟩ := Option.map_eq_some_iff.mp hr
    rw [hg.resolve_right hd] at hx
    exact .inl (mutLock_forever hown hx).1

/-- A lock does the same for two contents of the unassigned variable, and waits, exactly if both
are the timeout `WAIT` or the call finds out that it would deadlock. -/
theorem timedlock_steady_iff (hm : m.inited = true) :
    Steady P t m g₁ g₂ (pthreadMutexTimedlock P none) ↔
      (g₁ = P.WAIT ∧ g₂ = P.WAIT) ∨ Deadlocks t m := by
  constructor
  · intro h
    have h1 := lock_unbounded_iff.mp (h.unbounded g₁ (.inl rfl))
    have h2 := lock_unbounded_iff.mp (h.unbounded g₂ (.inr rfl))
    rcases h1 with h1 | h1
    · rcases h2 with h2 | h2
      · exact .inl ⟨h1, h2⟩
      · exact .inr h2
    · exact .inr h1
  · intro h
    have hg : ∀ g, g = g₁ ∨ g = g₂ → g = P.WAIT ∨ Deadlocks t m := by
      intro g hg
      rcases h with ⟨h1, h2⟩ | hd
      · rcases hg with rfl | rfl
        · exact .inl h1
        · exact .inl h2
      · exact .inr hd
    constructor
    · intro σ exec s hs
      rw [lock_eval hs.withGarbage, lock_eval hs]
      rcases h with ⟨rfl, rfl⟩ | hd
      · rfl
      · rw [if_pos hd, if_pos hd]
    · intro g hgg
      exact lock_unbounded_iff.mpr (hg g hgg)
    · intro relock c m' hc hrun
      exact lock_waits hm (hg c.garbage hc) hrun

end Lock

/-- The result of a lock without a deadline depends on the unassigned timeout in every state of
the mutex but one. -/
theorem pthreadMutexLock_steady_iff (P : Platform) (t : T) {m : PthreadMutex T}
    (hm : m.inited = true) (g₁ g₂ : ℕ) :
    (Steady P t m g₁ g₂ (pthreadMutexLock P) ∧
        Steady P t m g₁ g₂ (pthreadMutexTimedlock P none)) ↔
      (g₁ = P.WAIT ∧ g₂ = P.WAIT) ∨ Deadlocks t m :=
  (and_self_iff).trans (timedlock_steady_iff hm)

def ownedByOther : PthreadMutex Bool := ⟨true, ⟨some true, 1⟩, .normal⟩

theorem pthreadMutexLock_steady_wait :
    Steady platform1000 false ownedByOther 4294967295 4294967295 (pthreadMutexLock platform1000) :=
  ((pthreadMutexLock_steady_iff platform1000 false (m := ownedByOther) rfl 4294967295
    4294967295).mpr (.inl ⟨rfl, rfl⟩)).1

/-- With 0 left on the stack `pthread_mutex_lock` returns 0 at once, and the other thread still
owns the mutex. -/
theorem pthreadMutexLock_returns_early :
    (pthreadMutexLock platform1000).eval
        (fun e => mutexExec true platform1000 false e ⟨0, 0, true⟩) ownedByOther =
      some (.ok, ownedByOther) ∧
    ¬ Steady platform1000 false ownedByOther 0 4294967295 (pthreadMutexLock platform1000) := by
  have hrun : (pthreadMutexLock platform1000).eval
      (fun e => mutexExec true platform1000 false e ⟨0, 0, true⟩) ownedByOther =
        some (.ok, ownedByOther) := by
    decide +kernel
  refine ⟨hrun, fun h => ?_⟩
  have hown := h.waits true ⟨0, 0, true⟩ _ (.inl rfl) hrun
  revert hown
  decide

/-- A lock that only tries, at a tick the environment has chosen. -/
structure ExactTry (relock : Bool) (P : Platform) (t : T) (c : Outcome) (m : PthreadMutex T) :
    Prop where
  zero : (pthreadMutexTrylock P).Obeys (unhurried c.tick) () fun _ _ => True
  result : ∃ r m', (pthreadMutexTrylock P).eval (fun e => mutexExec relock P t e c) m =
      some (r, m') ∧
    (r = .ok ↔ m.mux.own = none ∧ m'.mux.own = some t) ∧
    (r ≠ .ok → r = .EBUSY ∧ m'.mux.own = m.mux.own)

section Trylock
variable {P : Platform} {tick : ℕ}

theorem pthreadMutexTimedlock_unhurried {D : Timespec}
    (hconv : ∀ r, (absTimespec2ticks P D (clockGettime P tick) r).1 = .ETIMEDOUT ∨
      absTimespec2ticks P D (clockGettime P tick) r = (.ok, 0)) :
    (pthreadMutexTimedlock P (some D)).Obeys (unhurried tick) () fun _ _ => True := by
  simp only [pthreadMutexTimedlock, lockTicks, Prog.obeys_bind, Prog.obeys_request,
    Prog.obeys_ite, Prog.pure_eq, Prog.obeys_ret]
  refine ⟨by simp [unhurried], fun g _ _ => ⟨by simp [unhurried], fun inited _ _ => ?_⟩⟩
  refine ⟨by simp, fun _ => ⟨by simp [unhurried], ?_⟩⟩
  intro r _ hr
  obtain rfl : r = tick := hr
  rcases hconv g with h | h
  · simp [h, lockWithin, unhurried]
  · simp [h, lockWithin, unhurried]

theorem pthreadMutexTrylock_unhurried (ht : tick < 2 ^ 32) :
    (pthreadMutexTrylock P).Obeys (unhurried tick) () fun _ _ => True := by
  have hzero : validateTimespec ⟨0, 0⟩ = true := by decide
  have hconv (r : ℕ) := absTimespec2ticks_expired ht hzero (epoch_expired P ht) r
  rw [pthreadMutexTrylock, Prog.obeys_bind]
  apply (pthreadMutexTimedlock_unhurried fun r => ?_).mono
  · intro _ _ _
    trivial
  · rw [hconv]
    split_ifs
    · exact .inr rfl
    · exact .inl rfl

end Trylock

/-- `pthread_mutex_trylock` is exact only on a mutex that is free. -/
theorem pthreadMutexTrylock_exact_iff (relock : Bool) (P : Platform) (t : T) {c : Outcome}
    (ht : c.tick < 2 ^ 32) {m : PthreadMutex T} (hm : m.inited = true) :
    ExactTry relock P t c m ↔ m.mux.own = none := by
  have heval : (pthreadMutexTrylock P).eval (fun e => mutexExec relock P t e c) m =
      (lockWithin .ok 0).eval (fun e => mutexExec relock P t e c) m :=
    pthreadMutexTrylock_eval ht hm
  constructor
  · intro h
    obtain ⟨r, m', hrun, hok, herr⟩ := h.result
    rw [heval] at hrun
    rcases lockWithin_status hrun with rfl | rfl
    · exact (hok.mp rfl).1
    · cases (herr (by simp)).1
  · intro hfree
    refine ⟨pthreadMutexTrylock_unhurried ht, .ok, { m with mux := ⟨some t, 1⟩ }, ?_, ?_, ?_⟩
    · rw [heval]
      exact lockWithin_free 0 hfree
    · exact iff_of_true rfl ⟨hfree, rfl⟩
    · intro h
      exact absurd rfl h

theorem pthreadMutexTrylock_exact_free :
    ExactTry true platform1000 false ⟨0, 7, true⟩ (pthreadMutexInit (some .errorcheck)) :=
  (pthreadMutexTrylock_exact_iff true platform1000 false (by decide) rfl).mpr rfl

/-- On a mutex that another thread owns `pthread_mutex_trylock` returns 0, and on an
error-checking one of the caller's own `EDEADLK`. -/
theorem pthreadMutexTrylock_never_busy :
    (pthreadMutexTrylock platform1000).eval
        (fun e => mutexExec true platform1000 false e ⟨5, 7, true⟩) ownedByOther =
      some (.ok, ownedByOther) ∧
    (pthreadMutexTrylock platform1000).eval
        (fun e => mutexExec true platform1000 true e ⟨5, 7, true⟩)
        { ownedByOther with type := .errorcheck } =
      some (.EDEADLK, { ownedByOther with type := .errorcheck }) ∧
    ¬ ExactTry true platform1000 false ⟨5, 7, true⟩ ownedByOther := by
  have hrun : (pthreadMutexTrylock platform1000).eval
      (fun e => mutexExec true platform1000 false e ⟨5, 7, true⟩) ownedByOther =
        some (.ok, ownedByOther) := by
    decide +kernel
  refine ⟨hrun, by decide +kernel, fun h => ?_⟩
  obtain ⟨r, m', hres, hok, -⟩ := h.result
  rw [hrun] at hres
  cases hres
  cases (hok.mp rfl).1

end LibPosix.LockResults
