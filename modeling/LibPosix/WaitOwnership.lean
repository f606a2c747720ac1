import LibPosix.CheckedMutex

/-! Who owns the mutex when a wait returns. Threads make any calls on one condition variable and
one mutex; a wait gives the mutex up and locks it again, with an unassigned timeout and without
looking at the result. -/
namespace LibPosix.WaitOwnership
open Program ThreadPool Transition Kernel TimeUtils Mutex MutexExclusion Cond CondAccounting
open TimedWaits StaticInit CheckedMutex
variable {T : Type} [DecidableEq T]

inductive ClientCall where
  | cond (k : CondCall)
  | mutex (k : MutexCall)
  deriving DecidableEq, Repr

def ClientCall.waits : ClientCall → Bool
  | .cond .wait => true
  | .cond (.timedwait _) => true
  | _ => false

def clientCode (P : Platform) : ClientCall → Prog CondWaitOp CondWaitAns Status
  | .cond k => (condCode P k).interp (condHandler P)
  | .mutex k => onMutex (mutexCode P k)

/-- The two objects and, as a ghost, the threads that are inside a wait. -/
structure WaitWorld (T : Type) where
  world : CondWorld T
  inside : Finset T

def WaitWorld.owner (s : WaitWorld T) : Option T := s.world.mutex.mux.own

/-- A wait is entered by a thread that owns the mutex once. -/
def clientCalls (relock : Bool) (P : Platform) :
    System T CondWaitOp CondWaitAns (WaitChoice T) (WaitWorld T) ClientCall Status where
  code _ k := clientCode P k
  exec t e c s := (condWaitExec relock P t e c s.world).map fun r => (r.1, { s with world := r.2 })
  enter t k s :=
    if k.waits = true then
      if s.world.mutex.mux = ⟨some t, 1⟩ then some { s with inside := insert t s.inside } else none
    else some s
  leave t k _ s := if k.waits = true then { s with inside := s.inside.erase t } else s

/-- A lock made inside a wait gets past another owner only by waiting for ever, and nobody else's
unlock releases the mutex from under a thread that is inside a wait. -/
def Undisturbed (P : Platform) (s : WaitWorld T) (t : T) : CondWaitOp → WaitChoice T → Prop
  | .mutex (.mutLock ticks), _ => t ∈ s.inside →
      ticks = P.WAIT ∨ s.owner = none ∨ s.owner = some t
  | .mutex .mutUnlock, _ => ∀ u ∈ s.inside, u ≠ t → s.owner ≠ some u
  | _, _ => True

instance (P : Platform) (s : WaitWorld T) (t : T) (e : CondWaitOp) (c : WaitChoice T) :
    Decidable (Undisturbed P s t e c) :=
  match e with
  | .mutex (.mutLock _) => inferInstanceAs (Decidable (_ → _))
  | .mutex .mutUnlock => inferInstanceAs (Decidable (∀ u ∈ s.inside, u ≠ t → s.owner ≠ some u))
  | .mutex .inited | .mutex .type | .mutex .ownIsCur | .mutex .tmrTicks | .mutex .uninit
  | .cond _ => .isTrue trivial

def viewOf (s : WaitWorld T) (t : T) : Option Bool :=
  if t ∈ s.inside then some (decide (s.owner = some t)) else none

/-- A lock succeeds, and a thread inside a wait knows whether it owns the mutex. -/
def holding : Protocol CondWaitOp CondWaitAns (Option Bool) where
  safe _ _ := True
  after
    | l, .mutex .inited, r, l' => r = true ∧ l' = l
    | l, .mutex .ownIsCur, r, l' => (∀ b, l = some b → r = b) ∧ l' = l
    | l, .mutex (.mutLock _), _, l' => l' = l.map fun _ => true
    | l, .mutex .mutUnlock, _, l' => l'.isSome = l.isSome
    | l, _, _, l' => l' = l

def Ends (k : ClientCall) (l : Option Bool) : Prop :=
  l = if k.waits = true then some true else none

section Calls

/-- Outside of a wait there is nothing to keep. -/
theorem obeys_outside {α : Type} (p : Prog CondWaitOp CondWaitAns α) :
    p.Obeys holding none fun _ l => l = none := by
  induction p with
  | ret a => exact rfl
  | call e k ih =>
    refine ⟨trivial, fun r l hl => ?_⟩
    obtain rfl : l = none := by
      rcases e with e | e
      · exact hl
      · cases e with
        | inited => exact hl.2
        | ownIsCur => exact hl.2
        | mutUnlock => exact Option.not_isSome_iff_eq_none.mp (by simp [show l.isSome = _ from hl])
        | _ => exact hl
    exact ih r

theorem pthreadMutexUnlock_holding :
    (onMutex pthreadMutexUnlock).Obeys holding (some true) fun r l =>
      r = .ok ∧ l.isSome = true := by
  simp [onMutex, pthreadMutexUnlock, holding]

theorem pthreadMutexLock_holding (P : Platform) (b : Bool) :
    (onMutex (pthreadMutexLock P)).Obeys holding (some b) fun _ l => l = some true := by
  cases b with
  | true =>
    simp [onMutex, pthreadMutexLock, pthreadMutexTimedlock, lockTicks, lockWithin, holding]
  | false =>
    simp [onMutex, pthreadMutexLock, pthreadMutexTimedlock, lockTicks, lockWithin, holding]

/-- The same for the calls a wait makes on its mutex. -/
def handing : Protocol CondOp CondAns (Option Bool) where
  safe
    | l, .mutexUnlock => l = some true
    | l, .mutexLock => l.isSome = true
    | _, _ => True
  after
    | _, .mutexUnlock, r, l' => r = .ok ∧ l'.isSome = true
    | _, .mutexLock, _, l' => l' = some true
    | l, _, _, l' => l' = l

theorem condHandler_holding (P : Platform) (e : CondOp) (l : Option Bool)
    (h : handing.safe l e) : (condHandler P e).Obeys holding l (handing.after l e) := by
  cases e with
  | mutexUnlock =>
    obtain rfl : l = some true := h
    exact pthreadMutexUnlock_holding
  | mutexLock =>
    obtain ⟨b, rfl⟩ := Option.isSome_iff_exists.mp h
    exact pthreadMutexLock_holding P b
  | _ => exact ⟨trivial, fun _ _ ha => ha⟩

/-- A wait that is entered with the mutex owned returns with the mutex owned. -/
theorem pthreadCondTimedwait_handing (P : Platform) (abstime : Option Timespec) :
    (pthreadCondTimedwait P abstime).Obeys handing (some true) fun _ l => l = some true := by
  cases abstime with
  | none =>
    simp [pthreadCondTimedwait, getUnit, handing]
    exact fun r l hr hl => ⟨fun _ => hl, fun h => absurd hr h⟩
  | some D =>
    simp [pthreadCondTimedwait, getUnit, handing]
    exact fun _ _ r l hr hl => ⟨fun _ => hl, fun h => absurd hr h⟩

theorem clientCode_holding (P : Platform) (k : ClientCall) :
    (clientCode P k).Obeys holding (if k.waits = true then some true else none)
      fun _ l => Ends k l := by
  cases k with
  | cond k =>
    cases k with
    | wait => exact (pthreadCondTimedwait_handing P none).interp (condHandler_holding P)
    | timedwait abstime =>
      exact (pthreadCondTimedwait_handing P abstime).interp (condHandler_holding P)
    | signal => exact obeys_outside _
    | broadcast => exact obeys_outside _
  | mutex k => exact obeys_outside _

end Calls

section Steps
variable {relock : Bool} {P : Platform} {t : T}

theorem viewOf_of_owner {s s' : WaitWorld T} {u : T} (hinside : u ∈ s'.inside ↔ u ∈ s.inside)
    (hown : u ∈ s.inside → (s'.owner = some u ↔ s.owner = some u)) : viewOf s' u = viewOf s u := by
  unfold viewOf
  by_cases hu : u ∈ s.inside
  · rw [if_pos hu, if_pos (hinside.mpr hu)]
    simp [hown hu]
  · rw [if_neg hu, if_neg (mt hinside.mp hu)]

theorem exec_holding {s s' : WaitWorld T} {e : CondWaitOp} {c : WaitChoice T} {r : CondWaitAns e}
    (hs : s.world.mutex.inited = true) (hok : Undisturbed P s t e c)
    (h : (clientCalls relock P).exec t e c s = some (r, s')) :
    s'.world.mutex.inited = true ∧ holding.after (viewOf s t) e r (viewOf s' t) ∧
      ∀ u, u ≠ t → viewOf s' u = viewOf s u := by
  obtain ⟨⟨r', w⟩, hw, heq⟩ := Option.map_eq_some_iff.mp h
  cases heq
  rcases e with e | e
  · obtain ⟨x, -, heq⟩ := Option.map_eq_some_iff.mp hw
    cases heq
    exact ⟨hs, rfl, fun _ _ => rfl⟩
  · obtain ⟨⟨r', m⟩, hm, heq⟩ := Option.map_eq_some_iff.mp hw
    cases heq
    refine ⟨(mutexExec_inited hm).trans hs, ?_, fun u hu => viewOf_of_owner Iff.rfl fun hin => ?_⟩
    · cases e with
      | inited =>
        cases hm
        exact ⟨hs, rfl⟩
      | ownIsCur =>
        cases hm
        refine ⟨fun b hb => ?_, rfl⟩
        unfold viewOf at hb
        split_ifs at hb
        exact Option.some.inj hb
      | mutLock ticks =>
        obtain ⟨⟨got, mux⟩, hx, heq⟩ := Option.map_eq_some_iff.mp hm
        cases heq
        by_cases hin : t ∈ s.inside
        · have hown : mux.own = some t := mutLock_takes (hok hin) hx
          simp [holding, viewOf, hin, WaitWorld.owner, hown]
        · simp [holding, viewOf, hin]
      | mutUnlock =>
        cases hm
        by_cases hin : t ∈ s.inside
        · simp [holding, viewOf, hin]
        · simp [holding, viewOf, hin]
      | _ =>
        cases hm
        exact rfl
    · rcases mutexExec_own hm with hsame | ⟨hnone, hown⟩ | ⟨rfl, hnone⟩
      · simp [WaitWorld.owner, hsame]
      · simp [WaitWorld.owner, hnone, hown, hu.symm]
      · have hnot : s.world.mutex.mux.own ≠ some u := hok u hin hu
        simp [WaitWorld.owner, hnone, hnot]

def waitDiscipline (relock : Bool) (P : Platform) :
    Discipline (clientCalls (T := T) relock P) (Option Bool) where
  toProtocol := holding
  view := viewOf
  inv s := s.world.mutex.inited = true
  allowed := Undisturbed P
  between _ l := l = none
  post _ k _ l := Ends k l
  enter_step := by
    intro s s' t k hs hb h
    have hcode := clientCode_holding P k
    simp only [clientCalls] at h
    split_ifs at h with hk hmux
    · cases h
      refine ⟨hs, ?_, fun u hu => viewOf_of_owner (by simp [hu]) fun _ => Iff.rfl⟩
      have hview : viewOf { s with inside := insert t s.inside } t = some true := by
        simp [viewOf, WaitWorld.owner, hmux]
      rw [if_pos hk] at hcode
      rw [hview]
      exact hcode
    · cases h
      rw [if_neg hk] at hcode
      rw [hb]
      exact ⟨hs, hcode, fun _ _ => rfl⟩
  exec_step hs _ hok h := exec_holding hs hok h
  leave_step := by
    intro s t k v hs hp
    simp only [clientCalls]
    split_ifs with hk
    · refine ⟨hs, by simp [viewOf], fun u hu => viewOf_of_owner (by simp [hu]) fun _ => Iff.rfl⟩
    · rw [Ends, if_neg hk] at hp
      exact ⟨hs, hp, fun _ _ => rfl⟩

end Steps

/-- Every wait that has come to its end has left its caller the owner of the mutex. -/
def ReturnsOwning (p : Pool T CondWaitOp CondWaitAns (WaitWorld T) ClientCall Status) : Prop :=
  ∀ t k v, p.outcome t = some (k, v) → k.waits = true → p.shared.owner = some t

/-- In every run of any threads on an initialised mutex in which a lock inside a wait has the
timeout `WAIT` or returns when no other thread owns the mutex, and nobody unlocks a mutex that
another thread owns inside its wait, every wait returns with the mutex owned by its caller. -/
theorem wait_returnsOwning (relock : Bool) (P : Platform) {s : CondWorld T}
    (hm : s.mutex.inited = true) {as : List (Action T (WaitChoice T) ClientCall)}
    (hok : Meets (step (clientCalls relock P)) (Allowed (Undisturbed P))
      (idlePool ⟨s, ∅⟩) as) :
    Throughout (step (clientCalls relock P)) ReturnsOwning (idlePool ⟨s, ∅⟩) as := by
  have h0 : (waitDiscipline (T := T) relock P).Inv (idlePool ⟨s, ∅⟩) :=
    Discipline.idle_inv _ hm fun _ => by simp [waitDiscipline, viewOf]
  refine h0.throughout hok fun p hp t k v hout hk => ?_
  have hf := hp.threads t
  rw [Pool.outcome_eq.mp hout] at hf
  have hview : viewOf p.shared t = if k.waits = true then some true else none := hf
  rw [if_pos hk] at hview
  unfold viewOf at hview
  split_ifs at hview
  exact of_decide_eq_true (Option.some.inj hview)

def ownedWorld : CondWorld Bool := ⟨idleWorld, ⟨true, ⟨some false, 1⟩, .normal⟩⟩

def hurried : WaitChoice Bool := ⟨⟨0, true, {false}, .ok⟩, ⟨0, 0, true⟩⟩

def otherCall (k : ClientCall) (n : ℕ) : List (Action Bool (WaitChoice Bool) ClientCall) :=
  .enter true k :: List.replicate n (.run true hurried) ++ [.leave true]

/-- The thread `false` waits, `true` makes some calls, and `false` is woken and locks the mutex
again. -/
def waitSteps (others : List (Action Bool (WaitChoice Bool) ClientCall)) :
    List (Action Bool (WaitChoice Bool) ClientCall) :=
  .enter false (.cond .wait) :: List.replicate 8 (.run false hurried) ++ others ++
    List.replicate 5 (.run false hurried)

/-- The other thread only signals, so that the mutex is free when the waiter wakes up. -/
theorem wait_returnsOwning_signalled :
    (execute (step (clientCalls true platform1000)) (idlePool ⟨ownedWorld, ∅⟩)
      (waitSteps (otherCall (.cond .signal) 7))).map (·.outcome false) =
        some (some (.cond .wait, .ok)) ∧
    Throughout (step (clientCalls true platform1000)) ReturnsOwning (idlePool ⟨ownedWorld, ∅⟩)
      (waitSteps (otherCall (.cond .signal) 7)) :=
  ⟨by decide +kernel, wait_returnsOwning true platform1000 rfl (by decide +kernel)⟩

/-- The other thread locks the mutex and signals; the waiter's lock runs out after the 0 ticks that
were on its stack, and its wait returns 0. -/
theorem pthreadCondWait_loses_mutex : ∃ p,
    execute (step (clientCalls true platform1000)) (idlePool ⟨ownedWorld, ∅⟩)
      (waitSteps (otherCall (.mutex .lock) 4 ++ otherCall (.cond .signal) 7)) = some p ∧
    p.outcome false = some (.cond .wait, .ok) ∧ p.shared.owner = some true ∧
    ¬ Throughout (step (clientCalls true platform1000)) ReturnsOwning (idlePool ⟨ownedWorld, ∅⟩)
      (waitSteps (otherCall (.mutex .lock) 4 ++ otherCall (.cond .signal) 7)) := by
  have hrun : ((execute (step (clientCalls true platform1000)) (idlePool ⟨ownedWorld, ∅⟩)
      (waitSteps (otherCall (.mutex .lock) 4 ++ otherCall (.cond .signal) 7))).map fun p =>
        (p.outcome false, p.shared.owner)) = some (some (.cond .wait, .ok), some true) := by
    decide +kernel
  obtain ⟨p, hp, hends⟩ := Option.map_eq_some_iff.mp hrun
  obtain ⟨hout, hown⟩ := Prod.mk.inj hends
  refine ⟨p, hp, hout, hown, fun h => ?_⟩
  have hmine := h.last hp false _ _ hout rfl
  rw [hown] at hmine
  cases hmine

end LibPosix.WaitOwnership
