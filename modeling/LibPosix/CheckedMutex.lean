import LibPosix.StaticInit
import LibPosix.MalformedDeadlines

/-! Mutexes that check their owner. Threads make any calls on a mutex of the type
`PTHREAD_MUTEX_ERRORCHECK` or `PTHREAD_MUTEX_RECURSIVE`; next to the mutex it is noted for each of
them what its latest call has found and done. -/
namespace LibPosix.CheckedMutex
open Program ThreadPool Transition MachineInt Kernel TimeUtils Deadline Mutex MutexExclusion
open MalformedDeadlines
variable {T : Type} [DecidableEq T]

/-- Whether the caller owned the mutex when it made the call, the tick the call has read, and
whether a step of the call has changed the owner. -/
structure CallNote where
  owned : Bool
  tick : Option ℕ
  moved : Bool
  deriving DecidableEq, Repr

structure Watched (T : Type) where
  mutex : PthreadMutex T
  note : T → CallNote

def CallNote.add (n : CallNote) (e : MutexOp) (tick : ℕ) (moved : Bool) : CallNote :=
  ⟨n.owned, if e = .tmrTicks then some tick else n.tick, n.moved || moved⟩

def watched (type : MutexType) : Watched T :=
  ⟨pthreadMutexInit (some type), fun _ => ⟨false, none, false⟩⟩

/-- Any calls on the mutex, with the notes kept; the tick counter has 32 bits. -/
def checkedCalls (relock : Bool) (P : Platform) :
    System T MutexOp MutexAns Outcome (Watched T) MutexCall Status where
  code _ k := mutexCode P k
  exec t e c s :=
    (mutexExec relock P t e ⟨c.tick % 2 ^ 32, c.garbage, c.expire⟩ s.mutex).map fun r =>
      (r.1, ⟨r.2, Function.update s.note t
        ((s.note t).add e (c.tick % 2 ^ 32) (decide (r.2.mux.own ≠ s.mutex.mux.own)))⟩)
  enter t _ s := some { s with
    note := Function.update s.note t ⟨decide (s.mutex.mux.own = some t), none, false⟩ }
  leave _ _ _ s := s

def Representable (P : Platform) (D : Timespec) (tick : ℕ) : Prop :=
  validateTimespec D = true ∧ Fits 64 D.tvSec ∧
    tickCount P (normalised (nanos D - nanos (clockGettime P tick))) < 2 ^ 32

/-- A lock whose deadline, if there is one, was representable when the call read the clock. -/
def Lockable (P : Platform) (tick : Option ℕ) : MutexCall → Prop
  | .lock => True
  | .timedlock abstime => ∀ D ∈ abstime, ∀ t ∈ tick, Representable P D t
  | _ => False

/-- What a call that has returned `v` must have been like. -/
structure Verdict (P : Platform) (type : MutexType) (k : MutexCall) (v : Status)
    (n : CallNote) : Prop where
  failed : v ≠ .ok → n.moved = false
  unlock : k = .unlock → n.owned = false → v = .EPERM
  deadlock : type = .errorcheck → n.owned = true → Lockable P n.tick k → v = .EDEADLK

structure View where
  owns : Bool
  note : CallNote

def viewOf (s : Watched T) (t : T) : View := ⟨decide (s.mutex.mux.own = some t), s.note t⟩

def checking (type : MutexType) : Protocol MutexOp MutexAns View where
  safe l e := e = .mutUnlock → l.owns = true
  after
    | l, .inited, r, l' => r = true ∧ l' = l
    | l, .type, r, l' => r = type ∧ l' = l
    | l, .ownIsCur, r, l' => r = l.owns ∧ l' = l
    | l, .tmrTicks, r, l' => r < 2 ^ 32 ∧ l' = { l with note := { l.note with tick := some r } }
    | l, .uninit, _, l' => l' = l
    | l, .mutLock _, _, l' => l'.note.owned = l.note.owned ∧ l'.note.tick = l.note.tick
    | l, .mutUnlock, _, l' => l'.note.owned = l.note.owned ∧ l'.note.tick = l.note.tick

section Calls
variable {P : Platform} {type : MutexType} {tick : ℕ} {D : Timespec}

theorem Representable.converts (h : Representable P D tick) (ht : tick < 2 ^ 32) (r : ℕ) :
    (absTimespec2ticks P D (clockGettime P tick) r).1 ≠ .EINVAL := by
  obtain ⟨hD, -, hcount⟩ := h
  rw [absTimespec2ticks_valid hD (clockGettime_valid P ht)]
  by_cases hpast : nanos D < nanos (clockGettime P tick)
  · simp [hpast]
  · have hcount0 := tickCount_nonneg P (not_lt.mp hpast)
    rw [if_neg hpast, Int.emod_eq_of_lt hcount0 (by omega), if_pos hcount]
    simp

/-- Nothing has been done yet by a call that found the mutex as the note says. -/
def Untouched (l : View) : Prop := l.owns = l.note.owned ∧ l.note.moved = false

theorem lockWithin_checked {k : MutexCall} (hk : k ≠ .unlock) {ret : Status} {l : View}
    (hl : Untouched l) (hret : ret ≠ .ok → l.note.owned = true → ¬ Lockable P l.note.tick k)
    (ticks : ℕ) : (lockWithin ret ticks).Obeys (checking type) l fun v l' =>
      Verdict P type k v l'.note := by
  obtain ⟨howns, hmoved⟩ := hl
  by_cases hok : ret = .ok
  · subst ret
    by_cases htype : type = .errorcheck
    · cases howned : l.note.owned with
      | true =>
        rw [howned] at howns
        simp [lockWithin, checking, htype, howns]
        exact ⟨fun _ => hmoved, fun h => absurd h hk, fun _ _ _ => rfl⟩
      | false =>
        rw [howned] at howns
        simp [lockWithin, checking, htype, howns, howned]
        intro l' ho _
        exact ⟨by simp, fun h => absurd h hk, by simp [ho]⟩
    · simp [lockWithin, checking, htype]
      intro l' _ _
      exact ⟨by simp, fun h => absurd h hk, fun h => absurd h htype⟩
  · simp [lockWithin, hok]
    exact ⟨fun _ => hmoved, fun h => absurd h hk,
      fun _ ho hfit => absurd hfit (hret hok ho)⟩

theorem pthreadMutexTimedlock_checked {k : MutexCall} (hk : k ≠ .unlock)
    {abstime : Option Timespec} (hfit : ∀ tick, Lockable P (some tick) k →
      ∀ D ∈ abstime, Representable P D tick) {l : View} (hl : Untouched l) :
    (pthreadMutexTimedlock P abstime).Obeys (checking type) l fun v l' =>
      Verdict P type k v l'.note := by
  simp only [pthreadMutexTimedlock, Prog.obeys_bind, Prog.obeys_request, Prog.obeys_ite,
    Prog.pure_eq, Prog.obeys_ret]
  refine ⟨by simp [checking], ?_⟩
  intro garbage l₁ h₁
  obtain rfl : l₁ = l := h₁
  refine ⟨by simp [checking], ?_⟩
  intro inited l₂ h₂
  obtain ⟨rfl, rfl⟩ := h₂
  refine ⟨by simp, fun _ => ?_⟩
  cases abstime with
  | none => exact lockWithin_checked hk hl (by simp) garbage
  | some D =>
    simp only [lockTicks, Prog.obeys_bind, Prog.obeys_request, Prog.pure_eq, Prog.obeys_ret]
    refine ⟨by simp [checking], ?_⟩
    intro tick l₃ h₃
    obtain ⟨ht, rfl⟩ := h₃
    have hl₃ : Untouched { l₂ with note := { l₂.note with tick := some tick } } := hl
    apply lockWithin_checked hk hl₃
    intro hret _ hlock
    have hD := hfit tick hlock D rfl
    rcases StaticInit.absTimespec2ticks_statuses P D (clockGettime P tick) garbage with h | h | h
    · simp [h] at hret
    · simp [h] at hret
    · exact hD.converts ht garbage h

/-- Every call keeps to the protocol and ends as the verdict on it says. -/
theorem mutexCode_checked (htype : type = .errorcheck ∨ type = .recursive) (k : MutexCall)
    {l : View} (hl : Untouched l) : (mutexCode P k).Obeys (checking type) l fun v l' =>
      Verdict P type k v l'.note := by
  cases k with
  | lock => exact pthreadMutexTimedlock_checked (by simp) (by simp) hl
  | timedlock abstime =>
    have hfit (tick : ℕ) (h : Lockable P (some tick) (.timedlock abstime)) :
        ∀ D ∈ abstime, Representable P D tick := fun D hD => h D hD tick rfl
    exact pthreadMutexTimedlock_checked (by simp) hfit hl
  | trylock =>
    rw [mutexCode, pthreadMutexTrylock, Prog.obeys_bind]
    apply (pthreadMutexTimedlock_checked (k := .trylock) (by simp) (by simp [Lockable]) hl).mono
    intro v l' hv
    refine ⟨fun hne => hv.failed fun hok => hne ?_, by simp, fun _ _ h => h.elim⟩
    rw [hok]
    rfl
  | unlock =>
    obtain ⟨howns, hmoved⟩ := hl
    cases howned : l.note.owned with
    | true =>
      rw [howned] at howns
      have hverdict (l' : View) (ho : l'.note.owned = true) :
          Verdict P type .unlock .ok l'.note :=
        ⟨by simp, by simp [ho], fun _ _ h => h.elim⟩
      simp [mutexCode, pthreadMutexUnlock, checking, htype, howns, howned]
      exact ⟨fun l' ho _ => hverdict l' ho, fun _ _ l' ho _ => hverdict l' ho⟩
    | false =>
      rw [howned] at howns
      have hverdict : Verdict P type .unlock .EPERM l.note :=
        ⟨fun _ => hmoved, fun _ _ => rfl, fun _ _ h => h.elim⟩
      simp [mutexCode, pthreadMutexUnlock, checking, htype, howns]
      exact ⟨hverdict, fun h => htype.resolve_left h⟩

end Calls

section Steps
variable {relock : Bool} {P : Platform} {type : MutexType} {t : T}

theorem mutexExec_own {e : MutexOp} {c : Outcome} {m m' : PthreadMutex T} {r : MutexAns e}
    (h : mutexExec relock P t e c m = some (r, m')) :
    m'.mux.own = m.mux.own ∨ (m.mux.own = none ∧ m'.mux.own = some t) ∨
      (e = .mutUnlock ∧ m'.mux.own = none) := by
  cases e with
  | mutLock ticks =>
    obtain ⟨x, hx, heq⟩ := Option.map_eq_some_iff.mp h
    cases heq
    rcases mutLock_own hx with ⟨-, hown, hbefore⟩ | ⟨-, hsame⟩
    · rcases hbefore with hnone | hmine
      · exact .inr (.inl ⟨hnone, hown⟩)
      · exact .inl (hown.trans hmine.symm)
    · exact .inl (congrArg Mut.own hsame)
  | mutUnlock =>
    cases h
    rcases mutUnlock_own m.mux with hnone | hsame
    · exact .inr (.inr ⟨rfl, hnone⟩)
    · exact .inl hsame
  | _ =>
    cases h
    exact .inl rfl

theorem mutexExec_type {e : MutexOp} {c : Outcome} {m m' : PthreadMutex T} {r : MutexAns e}
    (h : mutexExec relock P t e c m = some (r, m')) : m'.type = m.type := by
  cases e with
  | mutLock ticks =>
    obtain ⟨x, -, heq⟩ := Option.map_eq_some_iff.mp h
    cases heq
    rfl
  | _ =>
    cases h
    rfl

def Kept (type : MutexType) (s : Watched T) : Prop :=
  s.mutex.inited = true ∧ s.mutex.type = type

theorem viewOf_of_ne {s : Watched T} {m : PthreadMutex T} {n : CallNote} {u : T} (hu : u ≠ t)
    (hown : m.mux.own = some u ↔ s.mutex.mux.own = some u) :
    viewOf ⟨m, Function.update s.note t n⟩ u = viewOf s u := by
  simp [viewOf, hu, hown]

theorem exec_checked {s s' : Watched T} {e : MutexOp} {c : Outcome} {r : MutexAns e}
    (hs : Kept type s) (hsafe : (checking type).safe (viewOf s t) e)
    (h : (checkedCalls relock P).exec t e c s = some (r, s')) :
    Kept type s' ∧ (checking type).after (viewOf s t) e r (viewOf s' t) ∧
      ∀ u, u ≠ t → viewOf s' u = viewOf s u := by
  obtain ⟨⟨r', m'⟩, hm, heq⟩ := Option.map_eq_some_iff.mp h
  cases heq
  have hkept : Kept type (⟨m', s.note⟩ : Watched T) :=
    ⟨(StaticInit.mutexExec_inited hm).trans hs.1, (mutexExec_type hm).trans hs.2⟩
  refine ⟨hkept, ?_, fun u hu => viewOf_of_ne hu ?_⟩
  · cases e with
    | inited =>
      cases hm
      exact ⟨hs.1, by simp [viewOf, CallNote.add]⟩
    | type =>
      cases hm
      exact ⟨hs.2, by simp [viewOf, CallNote.add]⟩
    | ownIsCur =>
      cases hm
      exact ⟨rfl, by simp [viewOf, CallNote.add]⟩
    | tmrTicks =>
      cases hm
      exact ⟨Nat.mod_lt _ (by norm_num), by simp [viewOf, CallNote.add]⟩
    | uninit =>
      cases hm
      simp [checking, viewOf, CallNote.add]
    | mutLock ticks => simp [checking, viewOf, CallNote.add]
    | mutUnlock => simp [checking, viewOf, CallNote.add]
  · rcases mutexExec_own hm with hsame | ⟨hnone, hown⟩ | ⟨rfl, hnone⟩
    · rw [hsame]
    · simp [hown, hnone, hu.symm]
    · have hmine : s.mutex.mux.own = some t := of_decide_eq_true (hsafe rfl)
      simp [hnone, hmine, hu.symm]

def ownerDiscipline (relock : Bool) (P : Platform)
    (htype : type = .errorcheck ∨ type = .recursive) :
    Discipline (checkedCalls (T := T) relock P) View where
  toProtocol := checking type
  view := viewOf
  inv := Kept type
  allowed _ _ _ _ := True
  between _ _ := True
  post _ k v l := Verdict P type k v l.note
  enter_step := by
    intro s s' t k hs _ h
    cases h
    refine ⟨hs, mutexCode_checked htype k ?_, fun u hu => ?_⟩
    · simp [Untouched, viewOf]
    · simp [viewOf, hu]
  exec_step hs hsafe _ h := exec_checked hs hsafe h
  leave_step hs _ := ⟨hs, trivial, fun _ _ => rfl⟩

theorem mutexCode_requesting (P : Platform) (k : MutexCall) :
    (mutexCode P k).Obeys (requesting MutexAns fun e => e = .mutUnlock → k = .unlock) ()
      fun _ _ => True := by
  cases k with
  | unlock => simp [mutexCode, pthreadMutexUnlock, requesting]
  | lock =>
    simp [mutexCode, pthreadMutexLock, pthreadMutexTimedlock, lockTicks, lockWithin, requesting]
  | timedlock abstime =>
    cases abstime with
    | none => simp [mutexCode, pthreadMutexTimedlock, lockTicks, lockWithin, requesting]
    | some D => simp [mutexCode, pthreadMutexTimedlock, lockTicks, lockWithin, requesting]
  | trylock =>
    simp [mutexCode, pthreadMutexTrylock, pthreadMutexTimedlock, lockTicks, lockWithin, requesting]

end Steps

/-- In every run of any threads on a checked mutex the owner changes away from a thread only in an
unlock that this thread makes, and every call that returns has been as its verdict says. -/
theorem checkedMutex_ownerReleases (relock : Bool) (P : Platform) {type : MutexType}
    (htype : type = .errorcheck ∨ type = .recursive) {as : List (Action T Outcome MutexCall)}
    {p : Pool T MutexOp MutexAns (Watched T) MutexCall Status}
    (hrun : execute (step (checkedCalls relock P)) (idlePool (watched type)) as = some p) :
    (∀ a p' u, step (checkedCalls relock P) p a = some p' → p.shared.mutex.mux.own = some u →
      p'.shared.mutex.mux.own ≠ some u →
        ∃ c f, a = .run u c ∧ p.thread u = some (.unlock, .call .mutUnlock f)) ∧
    ∀ t k v, p.thread t = some (k, .ret v) → Verdict P type k v (p.shared.note t) := by
  have h0 : (ownerDiscipline (T := T) relock P htype).Inv (idlePool (watched type)) :=
    Discipline.idle_inv _ ⟨rfl, rfl⟩ fun _ => trivial
  have hinv := h0.execute_all (fun _ _ _ _ => trivial) hrun
  constructor
  · intro a p' u hstep hown hnot
    cases a with
    | enter t k =>
      obtain ⟨-, s, hs, rfl⟩ := step_enter.mp hstep
      cases hs
      exact absurd hown hnot
    | leave t =>
      obtain ⟨k, v, -, rfl⟩ := step_leave.mp hstep
      exact absurd hown hnot
    | run t c =>
      obtain ⟨k, e, f, ht, r, s, hs, rfl⟩ := step_run.mp hstep
      obtain ⟨⟨r', m'⟩, hm, heq⟩ := Option.map_eq_some_iff.mp hs
      cases heq
      rcases mutexExec_own hm with hsame | ⟨hnone, -⟩ | ⟨rfl, -⟩
      · exact absurd (hsame.trans hown) hnot
      · rw [hown] at hnone
        cases hnone
      · have hk := request_of_code (fun _ k => mutexCode_requesting P k) hrun ht rfl
        subst hk
        have hf := hinv.threads t
        rw [ht] at hf
        have hmine : p.shared.mutex.mux.own = some t := of_decide_eq_true (hf.1 rfl)
        obtain rfl : t = u := Option.some.inj (hmine.symm.trans hown)
        exact ⟨c, f, rfl, ht⟩
  · intro t k v ht
    have hf := hinv.threads t
    rw [ht] at hf
    exact hf

/-- A thread locks an error-checking mutex and another one unlocks it. -/
theorem checkedMutex_ownerReleases_stranger : ∃ p,
    execute (step (checkedCalls true platform1000)) (idlePool (watched .errorcheck))
      (callSteps false .lock 5 patient ++ [.enter true .unlock, .run true patient,
        .run true patient, .run true patient]) = some p ∧
    p.outcome true = some (.unlock, .EPERM) ∧ p.shared.mutex.mux.own = some false ∧
    Verdict platform1000 .errorcheck .unlock .EPERM (p.shared.note true) := by
  have hrun : ((execute (step (checkedCalls true platform1000)) (idlePool (watched .errorcheck))
      (callSteps false .lock 5 patient ++ [.enter true .unlock, .run true patient,
        .run true patient, .run true patient])).map fun p =>
          (p.outcome true, p.shared.mutex.mux.own)) =
        some (some (.unlock, .EPERM), some false) := by
    decide +kernel
  obtain ⟨p, hp, hends⟩ := Option.map_eq_some_iff.mp hrun
  obtain ⟨hret, hown⟩ := Prod.mk.inj hends
  have hverdict := (checkedMutex_ownerReleases true platform1000 (.inl rfl) hp).2 true .unlock
    .EPERM (Pool.outcome_eq.mp hret)
  exact ⟨p, hp, hret, hown, hverdict⟩

end LibPosix.CheckedMutex
