import LibPosix.Cond
import LibPosix.ThreadPool

/-! The accounts of a condition variable: how the counter `waiting`, the count of the
semaphore and the threads that wait belong together, over every interleaving of waits,
signals and broadcasts. -/
namespace LibPosix.CondAccounting
open Program ThreadPool Transition Kernel TimeUtils MachineInt Cond
variable {T : Type} [DecidableEq T]

/-- The condition variable and, as ghosts, the threads that have counted themselves and have
neither got a unit nor timed out (`pre`), those whose wait has timed out and that are still
counted (`late`), those of `pre` that were waiting at the last broadcast (`owed`) and, oldest
first, for each signal since then that no thread has been set against, those of `pre` that were
waiting at it and not owed a unit by the broadcast. -/
structure World (T : Type) where
  cond : PthreadCond T
  pre : Finset T
  late : Finset T
  owed : Finset T
  signals : List (Finset T)

def idleWorld : World T := ⟨pthreadCondInit, ∅, ∅, ∅, []⟩

/-- The threads of `A` have got units: they are set against the oldest signal one of them was
waiting at, and no later signal can count on them. -/
def fulfil (A : Finset T) : List (Finset T) → List (Finset T)
  | [] => []
  | S :: Ss => if (S ∩ A).Nonempty then Ss.map (· \ A) else S :: fulfil A Ss

namespace World

@[simps] def setMux (m : Mut T) (s : World T) : World T :=
  { s with cond := { s.cond with mux := m } }

@[simps] def setSem (q : Sem T) (s : World T) : World T :=
  { s with cond := { s.cond with cond := q } }

@[simps] def setWaiting (w : ℤ) (s : World T) : World T :=
  { s with cond := { s.cond with waiting := signed 32 w } }

@[simps] def countIn (t : T) (s : World T) : World T := { s with pre := insert t s.pre }

@[simps] def giveUp (t : T) (s : World T) : World T :=
  { s with pre := s.pre.erase t, late := insert t s.late }

@[simps] def countOut (t : T) (s : World T) : World T := { s with late := s.late.erase t }

@[simps] def serve (A : Finset T) (s : World T) : World T :=
  { s with
    pre := s.pre \ A
    owed := s.owed \ A
    signals := fulfil A s.signals }

/-- A signal is for one of the threads that no broadcast has provided for. -/
@[simps] def noteSignal (s : World T) : World T :=
  { s with signals := s.signals ++ [s.pre \ s.owed] }

/-- A broadcast is for every thread that waits, and so for those of earlier signals too. -/
@[simps] def noteBroadcast (s : World T) : World T := { s with owed := s.pre, signals := [] }

end World

structure Choice (T : Type) where
  tick : ℕ
  expire : Bool
  woken : Finset T
  relock : Status

/-- One request of thread `t`. Every waiter holds its mutex, so that unlocking it succeeds. -/
def condExec (relock : Bool) (P : Platform) (t : T) :
    (e : CondOp) → Choice T → World T → Option (CondAns e × World T)
  | .inited, _, s => some (s.cond.inited, s)
  | .tmrTicks, c, s => some (c.tick, s)
  | .muxLock, _, s =>
    (mutLock relock P.WAIT t P.WAIT false s.cond.mux).map fun r => ((), s.setMux r.2)
  | .muxUnlock, _, s => some ((), s.setMux (mutUnlock s.cond.mux))
  | .loadWaiting, _, s => some (s.cond.waiting, s)
  | .incWaiting, _, s => some ((), (s.setWaiting (s.cond.waiting + 1)).countIn t)
  | .decWaiting, _, s => some ((), (s.setWaiting (s.cond.waiting - 1)).countOut t)
  | .clearWaiting, _, s => some ((), s.setWaiting 0)
  | .semPost, c, s =>
    (semPostN 1 c.woken s.cond.cond).map fun q =>
      ((), (s.noteSignal.setSem q).serve c.woken)
  | .semPostN n, c, s =>
    (semPostN n c.woken s.cond.cond).map fun q =>
      ((), (s.noteBroadcast.setSem q).serve c.woken)
  | .semGet _, _, s =>
    let r := semGet t s.cond.cond
    some (r.1, if r.1 = true then (s.setSem r.2).serve {t} else s.setSem r.2)
  | .semResult ticks, c, s =>
    (semResult P.WAIT t ticks c.expire s.cond.cond).map fun r =>
      (r.1, if r.1 = true then s.setSem r.2 else (s.setSem r.2).giveUp t)
  | .mutexUnlock, _, s => some (.ok, s)
  | .mutexLock, c, s => some (c.relock, s)

def condSystem {K : Type} (code : K → Prog CondOp CondAns Status) (relock : Bool)
    (P : Platform) : System T CondOp CondAns (Choice T) (World T) K Status where
  code _ k := code k
  exec := condExec relock P
  enter _ _ s := some s
  leave _ _ _ s := s

inductive Phase where
  | out
  | counted
  | queued
  | late
  deriving DecidableEq, Repr

def phase (s : World T) (t : T) : Phase :=
  if t ∈ s.late then .late
  else if t ∈ s.cond.cond.blocked ∪ s.cond.cond.granted then .queued
  else if t ∈ s.pre then .counted
  else .out

/-- By how much `waiting` is ahead of the threads that are not provided for: the units a
section has posted and not subtracted yet. -/
def debt (s : World T) : ℤ :=
  s.cond.waiting + s.cond.cond.count - s.pre.card - s.late.card

/-- What a thread knows: its phase and, inside a section, `waiting` and the debt. -/
structure View where
  phase : Phase
  inside : Option (ℤ × ℤ)

def view (s : World T) (t : T) : View :=
  ⟨phase s t, if s.cond.mux.own = some t then some (s.cond.waiting, debt s) else none⟩

def idle : View := ⟨.out, none⟩

/-- What `waiting` can be while nothing has gone wrong. -/
def InRange (w : ℤ) : Prop := 0 ≤ w ∧ w < 2147483648

def Quiet (l : View) : Prop := l.inside = none ∧ (l.phase = .out ∨ l.phase = .late)

/-- With `timed = false` there are no waits that can time out. -/
def bookkeeping (P : Platform) (timed : Bool) : Protocol CondOp CondAns View where
  safe
    | l, .muxLock => Quiet l
    | l, .muxUnlock => ∃ w, l.inside = some (w, 0)
    | l, .incWaiting => l.phase = .out ∧ ∃ w, l.inside = some (w, 0)
    | l, .decWaiting => ∃ w, (l.phase = .late ∧ l.inside = some (w, 0)) ∨
        (l.phase = .out ∧ l.inside = some (w, 1))
    | l, .clearWaiting => l.phase = .out ∧ ∃ w, l.inside = some (w, w)
    | l, .semPost => l.phase = .out ∧ ∃ w, 0 < w ∧ l.inside = some (w, 0)
    | l, .semPostN n => l = ⟨.out, some (n, 0)⟩
    | l, .semGet ticks => l = ⟨.counted, none⟩ ∧ (timed = false → ticks = P.WAIT)
    | l, .semResult ticks => l = ⟨.queued, none⟩ ∧ (timed = false → ticks = P.WAIT)
    | l, .mutexLock => Quiet l
    | _, _ => True
  after
    | l, .inited, r, l' => r = true ∧ l' = l
    | l, .muxLock, _, l' => ∃ w, InRange w ∧ l' = ⟨l.phase, some (w, 0)⟩
    | l, .muxUnlock, _, l' => l' = ⟨l.phase, none⟩
    | l, .loadWaiting, r, l' => (∀ w d, l.inside = some (w, d) → r = w) ∧ l' = l
    | _, .incWaiting, _, l' => ∃ w, l' = ⟨.counted, some (w, 0)⟩
    | _, .decWaiting, _, l' => ∃ w, l' = ⟨.out, some (w, 0)⟩
    | _, .clearWaiting, _, l' => ∃ w, l' = ⟨.out, some (w, 0)⟩
    | _, .semPost, _, l' => ∃ w, l' = ⟨.out, some (w, 1)⟩
    | _, .semPostN n, _, l' => l' = ⟨.out, some (n, n)⟩
    | _, .semGet _, r, l' => l' = ⟨if r = true then .out else .queued, none⟩
    | _, .semResult _, r, l' => l' = ⟨if r = true then .out else .late, none⟩
    | l, .mutexUnlock, r, l' => r = .ok ∧ l' = l
    | l, _, _, l' => l' = l

theorem pthreadCondSignal_obeys (P : Platform) (timed : Bool) :
    pthreadCondSignal.Obeys (bookkeeping P timed) idle fun _ l => l = idle := by
  simp [pthreadCondSignal, bookkeeping, Quiet, idle]
  intro _ _ l w _ hl r hr
  have hrw : r = w := hr w 0 (by rw [hl])
  simp [hl, hrw]

theorem pthreadCondBroadcast_obeys (P : Platform) (timed : Bool) :
    pthreadCondBroadcast.Obeys (bookkeeping P timed) idle fun _ l => l = idle := by
  simp [pthreadCondBroadcast, bookkeeping, Quiet, idle]
  intro l w hw hl r hr
  have hrw : r = w := hr w 0 (by rw [hl])
  have hlt : w < 2 ^ 32 := hw.2.trans (by norm_num)
  rw [hl, hrw, unsigned_of_nonneg hw.1 hlt, Int.toNat_of_nonneg hw.1]

theorem pthreadCondTimedwait_obeys (P : Platform) {timed : Bool} (abstime : Option Timespec)
    (h : timed = false → abstime = none) :
    (pthreadCondTimedwait P abstime).Obeys (bookkeeping P timed) idle fun _ l => l = idle := by
  cases abstime with
  | none =>
    simp [pthreadCondTimedwait, getUnit, bookkeeping, Quiet, idle]
    intro l w _ hl
    refine ⟨by simp [hl], fun _ l' w' _ hl' => ⟨w', by simp [hl']⟩⟩
  | some abstime =>
    have ht : timed = true := by
      by_contra hf
      cases h (by simpa using hf)
    simp [pthreadCondTimedwait, getUnit, bookkeeping, Quiet, idle, ht]
    intro _ _ l w _ hl
    refine ⟨by simp [hl], fun _ l' w' _ hl' => ⟨w', by simp [hl']⟩⟩

structure Accounts (timed : Bool) (s : World T) : Prop where
  inited : s.cond.inited = true
  depth_le : s.cond.mux.depth ≤ 1
  sem : s.cond.cond.Valid
  blocked_pre : s.cond.cond.blocked ⊆ s.pre
  granted_pre : Disjoint s.cond.cond.granted s.pre
  late_pre : Disjoint s.late s.pre
  late_granted : Disjoint s.late s.cond.cond.granted
  count_le : s.cond.cond.count ≤ s.pre.card
  free : s.cond.mux.own = none → debt s = 0
  debt_nonneg : 0 ≤ debt s
  waiting_lt : s.cond.waiting < 2147483648
  untimed : timed = false → s.late = ∅

omit [DecidableEq T] in
theorem Accounts.inRange {timed : Bool} {s : World T} (h : Accounts timed s) :
    InRange s.cond.waiting := by
  refine ⟨?_, h.waiting_lt⟩
  have hc := h.count_le
  have hd := h.debt_nonneg
  unfold debt at hd
  omega

theorem signed_inRange {w : ℤ} (h : InRange w) : signed 32 w = w := by
  obtain ⟨h0, h1⟩ := h
  apply signed_of_fits (by norm_num)
  norm_num [Fits]
  omega

section Phase
variable {s s' : World T} {t u : T}

theorem phase_late : phase s t = .late ↔ t ∈ s.late := by
  unfold phase
  split_ifs <;> simp_all

theorem phase_queued : phase s t = .queued ↔
    t ∉ s.late ∧ (t ∈ s.cond.cond.blocked ∨ t ∈ s.cond.cond.granted) := by
  unfold phase
  split_ifs <;> simp_all

theorem phase_counted : phase s t = .counted ↔
    t ∉ s.late ∧ t ∉ s.cond.cond.blocked ∧ t ∉ s.cond.cond.granted ∧ t ∈ s.pre := by
  unfold phase
  grind

theorem phase_out : phase s t = .out ↔
    t ∉ s.late ∧ t ∉ s.cond.cond.blocked ∧ t ∉ s.cond.cond.granted ∧ t ∉ s.pre := by
  unfold phase
  grind

theorem inside_some {w d : ℤ} : (view s t).inside = some (w, d) ↔
    s.cond.mux.own = some t ∧ s.cond.waiting = w ∧ debt s = d := by
  unfold view
  split_ifs with h <;> simp [h]

theorem inside_none : (view s t).inside = none ↔ s.cond.mux.own ≠ some t := by
  unfold view
  split_ifs with h <;> simp [h]

/-- A thread's view depends on the sets only through its own membership, and on `pre` only
while the thread is not queued. -/
theorem view_congr (hl : t ∈ s'.late ↔ t ∈ s.late)
    (hq : t ∈ s'.cond.cond.blocked ∪ s'.cond.cond.granted ↔
      t ∈ s.cond.cond.blocked ∪ s.cond.cond.granted)
    (hp : t ∉ s.cond.cond.blocked ∪ s.cond.cond.granted → (t ∈ s'.pre ↔ t ∈ s.pre))
    (hi : (view s' t).inside = (view s t).inside) : view s' t = view s t := by
  have hph : phase s' t = phase s t := by
    unfold phase
    simp only [hl, hq]
    split_ifs with h1 h2 h3 h4 h4
    · rfl
    · rfl
    · rfl
    · exact absurd ((hp h2).mp h3) h4
    · exact absurd ((hp h2).mpr h4) h3
    · rfl
  have hs : view s' t = ⟨phase s' t, (view s' t).inside⟩ := rfl
  rw [hs, hph, hi]
  rfl

theorem view_own (h : s.cond.mux.own = some t) :
    view s t = ⟨phase s t, some (s.cond.waiting, debt s)⟩ := by
  simp [view, h]

theorem view_ne (h : s.cond.mux.own ≠ some t) : view s t = ⟨phase s t, none⟩ := by
  simp [view, h]

theorem view_outside {p : Phase} (h : s.cond.mux.own ≠ some t) (hp : phase s t = p) :
    view s t = ⟨p, none⟩ := by
  rw [view_ne h, hp]

end Phase

def Keeps (P : Platform) (timed : Bool) (s : World T) (t : T) (e : CondOp) (r : CondAns e)
    (s' : World T) : Prop :=
  Accounts timed s' ∧ (bookkeeping P timed).after (view s t) e r (view s' t) ∧
    ∀ u, u ≠ t → view s' u = view s u

section Requests
variable {relock timed : Bool} {P : Platform} {s s' : World T} {t : T} {c : Choice T}

theorem keeps_refl {e : CondOp} {r : CondAns e} (h : Accounts timed s)
    (ha : (bookkeeping P timed).after (view s t) e r (view s t)) :
    Keeps P timed s t e r s := ⟨h, ha, fun _ _ => rfl⟩

theorem keeps_muxLock (h : Accounts timed s) (hq : Quiet (view s t))
    (hs : condExec relock P t .muxLock c s = some ((), s')) :
    Keeps P timed s t .muxLock () s' := by
  obtain ⟨r, hr, heq⟩ := Option.map_eq_some_iff.mp hs
  obtain rfl : s.setMux r.2 = s' := (Prod.mk.inj heq).2
  obtain ⟨hown, rfl⟩ := mutLock_forever (inside_none.mp hq.1) hr
  refine ⟨{ h with depth_le := le_rfl, free := by simp [World.setMux] }, ?_, fun u hu => ?_⟩
  · refine ⟨s.cond.waiting, h.inRange, ?_⟩
    rw [view_own rfl, view_ne (by simp [hown]), ← h.free hown]
    rfl
  · rw [view_ne (by simp [World.setMux, hu.symm]), view_ne (by simp [hown])]
    rfl

theorem keeps_muxUnlock {w : ℤ} (h : Accounts timed s)
    (hi : (view s t).inside = some (w, 0))
    (hs : condExec relock P t .muxUnlock c s = some ((), s')) :
    Keeps P timed s t .muxUnlock () s' := by
  cases hs
  obtain ⟨hown, -, hd⟩ := inside_some.mp hi
  have hm : mutUnlock s.cond.mux = ⟨none, 0⟩ := by simp [mutUnlock, h.depth_le]
  rw [hm]
  have hfree (u : T) : (s.setMux ⟨none, 0⟩).cond.mux.own ≠ some u := by simp [World.setMux]
  refine ⟨{ h with depth_le := by simp [World.setMux], free := fun _ => hd }, ?_, fun u hu => ?_⟩
  · rw [view_ne (hfree t)]
    rfl
  · rw [view_ne (hfree u), view_ne (by simp [hown, hu.symm])]
    rfl

theorem keeps_incWaiting {w : ℤ} (h : Accounts timed s) (hp : (view s t).phase = .out)
    (hi : (view s t).inside = some (w, 0)) (hok : s.cond.waiting < 2147483647)
    (hs : condExec relock P t .incWaiting c s = some ((), s')) :
    Keeps P timed s t .incWaiting () s' := by
  obtain rfl : (s.setWaiting (s.cond.waiting + 1)).countIn t = s' :=
    (Prod.mk.inj (Option.some.inj hs)).2
  obtain ⟨hown, -, hd⟩ := inside_some.mp hi
  obtain ⟨hl, hb, hg, hpre⟩ := phase_out.mp hp
  have hr := h.inRange
  have hc := h.count_le
  have hw : signed 32 (s.cond.waiting + 1) = s.cond.waiting + 1 :=
    signed_inRange ⟨by linarith [hr.1], by linarith⟩
  have hcard : (insert t s.pre).card = s.pre.card + 1 := Finset.card_insert_of_notMem hpre
  have hd' : debt ((s.setWaiting (s.cond.waiting + 1)).countIn t) = 0 := by
    rw [← hd]
    simp only [debt, World.setWaiting_cond_waiting, World.countIn_cond, World.countIn_pre,
      World.setWaiting_pre, hw, hcard]
    simp
    ring
  refine ⟨{ h with
    blocked_pre := h.blocked_pre.trans (Finset.subset_insert t s.pre)
    granted_pre := by simp [h.granted_pre, hg]
    late_pre := by simp [h.late_pre, hl]
    count_le := by simp [hcard]; omega
    free := fun _ => hd'
    debt_nonneg := hd'.ge
    waiting_lt := by simp [hw]; linarith }, ?_, fun u hu => ?_⟩
  · refine ⟨s.cond.waiting + 1, ?_⟩
    have hph : phase ((s.setWaiting (s.cond.waiting + 1)).countIn t) t = .counted :=
      phase_counted.mpr (by simp [hl, hb, hg])
    rw [view_own (by simpa using hown), hph, hd']
    simp [hw]
  · apply view_congr
    · simp
    · simp
    · simp [hu]
    · simp [view, hown, hu.symm]

theorem keeps_decWaiting_late {w : ℤ} (h : Accounts timed s) (hp : (view s t).phase = .late)
    (hi : (view s t).inside = some (w, 0))
    (hs : condExec relock P t .decWaiting c s = some ((), s')) :
    Keeps P timed s t .decWaiting () s' := by
  obtain rfl : (s.setWaiting (s.cond.waiting - 1)).countOut t = s' :=
    (Prod.mk.inj (Option.some.inj hs)).2
  obtain ⟨hown, -, hd⟩ := inside_some.mp hi
  have hl := phase_late.mp hp
  have hc := h.count_le
  have hr := h.inRange
  have hcard : (s.late.erase t).card + 1 = s.late.card := Finset.card_erase_add_one hl
  have hpos : 0 < s.cond.waiting := by
    unfold debt at hd
    omega
  have hw : signed 32 (s.cond.waiting - 1) = s.cond.waiting - 1 :=
    signed_inRange ⟨by omega, by have := hr.2; omega⟩
  have hd' : debt ((s.setWaiting (s.cond.waiting - 1)).countOut t) = 0 := by
    rw [← hd]
    simp only [debt, World.setWaiting_cond_waiting, World.countOut_cond, World.countOut_late,
      World.countOut_pre, World.setWaiting_late, World.setWaiting_pre,
      World.setWaiting_cond_cond, hw, ← hcard]
    push_cast
    ring
  have hlp : t ∉ s.pre := Finset.disjoint_left.mp h.late_pre hl
  have hlg : t ∉ s.cond.cond.granted := Finset.disjoint_left.mp h.late_granted hl
  have hlb : t ∉ s.cond.cond.blocked := fun hb => hlp (h.blocked_pre hb)
  refine ⟨{ h with
    late_pre := h.late_pre.mono_left (Finset.erase_subset t s.late)
    late_granted := h.late_granted.mono_left (Finset.erase_subset t s.late)
    free := fun _ => hd'
    debt_nonneg := hd'.ge
    waiting_lt := by simp [hw]; linarith [hr.2]
    untimed := fun hf => by simp [h.untimed hf] }, ?_, fun u hu => ?_⟩
  · refine ⟨s.cond.waiting - 1, ?_⟩
    have hph : phase ((s.setWaiting (s.cond.waiting - 1)).countOut t) t = .out :=
      phase_out.mpr (by simp [hlb, hlg, hlp])
    rw [view_own (by simpa using hown), hph, hd']
    simp [hw]
  · apply view_congr
    · simp [hu]
    · simp
    · simp
    · simp [view, hown, hu.symm]

theorem setWaiting_accounts {w : ℤ} (h : Accounts timed s) (hown : s.cond.mux.own = some t)
    (hw : InRange w) (hd : 0 ≤ debt s + w - s.cond.waiting) :
    Accounts timed (s.setWaiting w) ∧
      view (s.setWaiting w) t = ⟨phase s t, some (w, debt s + w - s.cond.waiting)⟩ ∧
      ∀ u, u ≠ t → view (s.setWaiting w) u = view s u := by
  have hs := signed_inRange hw
  have hd' : debt (s.setWaiting w) = debt s + w - s.cond.waiting := by
    simp only [debt, World.setWaiting_cond_waiting, World.setWaiting_pre, World.setWaiting_late,
      World.setWaiting_cond_cond, hs]
    ring
  refine ⟨{ h with
    free := fun hn => by simp [hown] at hn
    debt_nonneg := hd'.ge.trans' hd
    waiting_lt := by simpa [hs] using hw.2 }, ?_, fun u hu => ?_⟩
  · rw [view_own (by simpa using hown), hd']
    simp only [World.setWaiting_cond_waiting, hs]
    rfl
  · apply view_congr
    · simp
    · simp
    · simp
    · simp [view, hown, hu.symm]

theorem keeps_decWaiting_out {w : ℤ} (h : Accounts timed s) (hp : (view s t).phase = .out)
    (hi : (view s t).inside = some (w, 1))
    (hs : condExec relock P t .decWaiting c s = some ((), s')) :
    Keeps P timed s t .decWaiting () s' := by
  obtain ⟨hown, -, hd⟩ := inside_some.mp hi
  have hl : t ∉ s.late := (phase_out.mp hp).1
  obtain rfl : s.setWaiting (s.cond.waiting - 1) = s' := by
    obtain rfl := (Prod.mk.inj (Option.some.inj hs)).2
    simp [World.countOut, World.setWaiting, hl]
  have hc := h.count_le
  have hr := h.inRange
  have hpos : 0 < s.cond.waiting := by
    unfold debt at hd
    omega
  have hw : InRange (s.cond.waiting - 1) := ⟨by omega, by have := hr.2; omega⟩
  obtain ⟨ha, hv, hu⟩ := setWaiting_accounts h hown hw (by omega)
  refine ⟨ha, ⟨s.cond.waiting - 1, ?_⟩, hu⟩
  rw [hv, hd]
  have hph : phase s t = .out := hp
  rw [hph]
  simp

theorem keeps_clearWaiting {w : ℤ} (h : Accounts timed s) (hp : (view s t).phase = .out)
    (hi : (view s t).inside = some (w, w))
    (hs : condExec relock P t .clearWaiting c s = some ((), s')) :
    Keeps P timed s t .clearWaiting () s' := by
  obtain ⟨hown, hw, hd⟩ := inside_some.mp hi
  obtain rfl : s.setWaiting 0 = s' := (Prod.mk.inj (Option.some.inj hs)).2
  obtain ⟨ha, hv, hu⟩ := setWaiting_accounts h hown ⟨le_rfl, by norm_num⟩ (by omega)
  refine ⟨ha, ⟨0, ?_⟩, hu⟩
  rw [hv, hd, hw]
  have hph : phase s t = .out := hp
  rw [hph]
  simp

/-- A section that posts `n` units, not more than threads are left without one, owes `n`
more to the counter. -/
theorem post_accounts {n : ℕ} {woken : Finset T} {q : Sem T} (h : Accounts timed s)
    (hown : s.cond.mux.own = some t) (hp : phase s t = .out)
    (hok : s.cond.cond.count + n ≤ s.pre.card) (hq : semPostN n woken s.cond.cond = some q) :
    Accounts timed ((s.setSem q).serve woken) ∧
      view ((s.setSem q).serve woken) t = ⟨.out, some (s.cond.waiting, debt s + n)⟩ ∧
      ∀ u, u ≠ t → view ((s.setSem q).serve woken) u = view s u := by
  have hqv := semPostN_valid h.sem hq
  obtain ⟨hsub, hcard, rfl⟩ := semPostN_some hq
  have hpre : woken ⊆ s.pre := hsub.trans h.blocked_pre
  have hle : woken.card ≤ n := hcard ▸ min_le_left _ _
  have hsd : (s.pre \ woken).card = s.pre.card - woken.card := Finset.card_sdiff_of_subset hpre
  have hwp : woken.card ≤ s.pre.card := Finset.card_le_card hpre
  have hd' : debt ((s.setSem ⟨s.cond.cond.count + (n - woken.card), s.cond.cond.blocked \ woken,
      s.cond.cond.granted ∪ woken⟩).serve woken) = debt s + n := by
    simp only [debt, World.serve_cond, World.serve_pre, World.serve_late, World.setSem_pre,
      World.setSem_late, World.setSem_cond_waiting, World.setSem_cond_cond, hsd]
    omega
  obtain ⟨hl, hb, hg, htp⟩ := phase_out.mp hp
  have htw : t ∉ woken := fun hw => hb (hsub hw)
  refine ⟨{ h with
    sem := hqv
    blocked_pre := Finset.sdiff_subset_sdiff h.blocked_pre le_rfl
    granted_pre := ?_
    late_pre := h.late_pre.mono_right Finset.sdiff_subset
    late_granted := ?_
    count_le := ?_
    free := fun hn => by simp [hown] at hn
    debt_nonneg := by rw [hd']; have := h.debt_nonneg; omega }, ?_, fun u hu => ?_⟩
  · refine Finset.disjoint_union_left.mpr ⟨?_, Finset.disjoint_sdiff⟩
    exact h.granted_pre.mono_right Finset.sdiff_subset
  · refine Finset.disjoint_union_right.mpr ⟨h.late_granted, ?_⟩
    exact h.late_pre.mono_right hpre
  · simp only [World.serve_cond, World.setSem_cond_cond, World.serve_pre, World.setSem_pre, hsd]
    omega
  · have hph : phase ((s.setSem ⟨s.cond.cond.count + (n - woken.card),
        s.cond.cond.blocked \ woken, s.cond.cond.granted ∪ woken⟩).serve woken) t = .out :=
      phase_out.mpr (by simp [hl, hb, hg, htp, htw])
    rw [view_own (by simpa using hown), hph, hd']
    simp
  · apply view_congr
    · simp
    · have hiff : u ∈ woken → u ∈ s.cond.cond.blocked := fun hw => hsub hw
      simp
      tauto
    · intro hn
      have hw : u ∉ woken := fun hw => hn (Finset.mem_union_left _ (hsub hw))
      simp [hw]
    · simp [view, hown, hu.symm]

theorem semPost_room (hsafe : (bookkeeping P timed).safe (view s t) .semPost) :
    s.cond.cond.count + 1 ≤ s.pre.card ↔ (s.late.card : ℤ) < s.cond.waiting := by
  obtain ⟨-, w, -, hi⟩ := hsafe
  obtain ⟨-, -, hd⟩ := inside_some.mp hi
  unfold debt at hd
  omega

/-- A broadcast posts as many units as are counted, which is too many by those who have
given up. -/
theorem semPostN_room {n : ℕ} (hsafe : (bookkeeping P timed).safe (view s t) (.semPostN n)) :
    s.cond.cond.count + n ≤ s.pre.card ↔ s.late = ∅ := by
  have hi : (view s t).inside = some ((n : ℤ), 0) := congrArg View.inside hsafe
  obtain ⟨-, hw, hd⟩ := inside_some.mp hi
  unfold debt at hd
  rw [← Finset.card_eq_zero]
  omega

theorem keeps_semPost {w : ℤ} (h : Accounts timed s) (hp : (view s t).phase = .out)
    (hi : (view s t).inside = some (w, 0)) (hok : s.cond.cond.count + 1 ≤ s.pre.card)
    (hs : condExec relock P t .semPost c s = some ((), s')) :
    Keeps P timed s t .semPost () s' := by
  obtain ⟨q, hq, heq⟩ := Option.map_eq_some_iff.mp hs
  obtain rfl := (Prod.mk.inj heq).2
  obtain ⟨hown, -, hd⟩ := inside_some.mp hi
  have hn : Accounts timed s.noteSignal := { h with }
  obtain ⟨ha, hv, hu⟩ := post_accounts hn hown hp hok hq
  refine ⟨ha, ⟨s.cond.waiting, ?_⟩, hu⟩
  have hd' : debt s.noteSignal = 0 := hd
  rw [hv, hd']
  simp

theorem keeps_semPostN {n : ℕ} (h : Accounts timed s) (hl : view s t = ⟨.out, some (n, 0)⟩)
    (hok : s.cond.cond.count + n ≤ s.pre.card)
    (hs : condExec relock P t (.semPostN n) c s = some ((), s')) :
    Keeps P timed s t (.semPostN n) () s' := by
  obtain ⟨q, hq, heq⟩ := Option.map_eq_some_iff.mp hs
  obtain rfl := (Prod.mk.inj heq).2
  have hi : (view s t).inside = some ((n : ℤ), 0) := by rw [hl]
  have hp : phase s t = .out := congrArg View.phase hl
  obtain ⟨hown, hw, hd⟩ := inside_some.mp hi
  have hn : Accounts timed s.noteBroadcast := { h with }
  obtain ⟨ha, hv, hu⟩ := post_accounts hn hown hp hok hq
  refine ⟨ha, ?_, hu⟩
  have hd' : debt s.noteBroadcast = 0 := hd
  rw [hv, hd']
  simp [bookkeeping, hw]

theorem take_accounts (h : Accounts timed s) (hl : view s t = ⟨.counted, none⟩)
    (hpos : 0 < s.cond.cond.count) :
    let s' := (s.setSem ⟨s.cond.cond.count - 1, s.cond.cond.blocked,
      s.cond.cond.granted⟩).serve {t}
    Accounts timed s' ∧ view s' t = idle ∧ ∀ u, u ≠ t → view s' u = view s u := by
  intro s'
  obtain ⟨hlate, hb, hg, hpre⟩ := phase_counted.mp (congrArg View.phase hl)
  have hown := inside_none.mp (congrArg View.inside hl)
  have hc := h.count_le
  have hcard : (s.pre \ {t}).card + 1 = s.pre.card := by
    rw [Finset.sdiff_singleton_eq_erase]
    exact Finset.card_erase_add_one hpre
  have hd' : debt s' = debt s := by
    simp only [debt, s', World.serve_cond, World.serve_pre, World.serve_late, World.setSem_pre,
      World.setSem_late, World.setSem_cond_waiting, World.setSem_cond_cond]
    omega
  refine ⟨{ h with
    sem := ⟨fun hne => by simp [s', h.sem.no_idle (by simpa [s'] using hne)], h.sem.disjoint⟩
    blocked_pre := ?_
    granted_pre := h.granted_pre.mono_right Finset.sdiff_subset
    late_pre := h.late_pre.mono_right Finset.sdiff_subset
    count_le := by simp [s']; omega
    free := fun hn => hd'.trans (h.free hn)
    debt_nonneg := hd' ▸ h.debt_nonneg }, ?_, fun u hu => ?_⟩
  · intro u hu
    have hut : u ≠ t := fun heq => hb (heq ▸ hu)
    simpa [s', hut] using h.blocked_pre hu
  · have hph : phase s' t = .out := phase_out.mpr (by simp [s', hlate, hb, hg])
    rw [view_ne (by simpa [s'] using hown), hph]
    rfl
  · apply view_congr
    · simp [s']
    · simp [s']
    · simp [s', hu]
    · simp [view, s', hd']

theorem keeps_semGet {ticks : ℕ} {r : Bool} (h : Accounts timed s)
    (hl : view s t = ⟨.counted, none⟩)
    (hs : condExec relock P t (.semGet ticks) c s = some (r, s')) :
    Keeps P timed s t (.semGet ticks) r s' := by
  obtain ⟨rfl, rfl⟩ := Prod.mk.inj (Option.some.inj hs)
  by_cases hpos : 0 < s.cond.cond.count
  · simp only [Kernel.semGet, hpos, if_true]
    exact take_accounts h hl hpos
  · obtain ⟨hlate, hb, hg, hpre⟩ := phase_counted.mp (congrArg View.phase hl)
    have hown := inside_none.mp (congrArg View.inside hl)
    simp only [Kernel.semGet, hpos, if_false, Bool.false_eq_true]
    refine ⟨{ h with
      sem := ⟨fun _ => by simpa using hpos, by simp [h.sem.disjoint, hg]⟩
      blocked_pre := by simp [Finset.insert_subset_iff, hpre, h.blocked_pre] }, ?_, fun u hu => ?_⟩
    · have hph : phase (s.setSem ⟨s.cond.cond.count, insert t s.cond.cond.blocked,
          s.cond.cond.granted⟩) t = .queued := phase_queued.mpr (by simp [hlate])
      exact view_outside hown hph
    · apply view_congr
      · simp
      · simp [hu]
      · simp
      · simp [view, debt]

theorem keeps_semResult {ticks : ℕ} {r : Bool} (h : Accounts timed s)
    (hl : view s t = ⟨.queued, none⟩) (ht : timed = false → ticks = P.WAIT)
    (hs : condExec relock P t (.semResult ticks) c s = some (r, s')) :
    Keeps P timed s t (.semResult ticks) r s' := by
  obtain ⟨hlate, hq⟩ := phase_queued.mp (congrArg View.phase hl)
  have hown := inside_none.mp (congrArg View.inside hl)
  obtain ⟨⟨a, q⟩, hr, heq⟩ := Option.map_eq_some_iff.mp hs
  obtain ⟨rfl, rfl⟩ := Prod.mk.inj heq
  unfold Kernel.semResult at hr
  split_ifs at hr with hg he
  · cases hr
    have htp : t ∉ s.pre := Finset.disjoint_left.mp h.granted_pre hg
    have htb : t ∉ s.cond.cond.blocked := fun hb => htp (h.blocked_pre hb)
    simp only [if_true]
    refine ⟨{ h with
      sem := ⟨h.sem.no_idle, h.sem.disjoint.mono_right (Finset.erase_subset _ _)⟩
      granted_pre := h.granted_pre.mono_left (Finset.erase_subset _ _)
      late_granted := h.late_granted.mono_right (Finset.erase_subset _ _) }, ?_, fun u hu => ?_⟩
    · have hph : phase (s.setSem ⟨s.cond.cond.count, s.cond.cond.blocked,
          s.cond.cond.granted.erase t⟩) t = .out := phase_out.mpr (by simp [hlate, htb, htp])
      exact view_outside hown hph
    · apply view_congr
      · simp
      · simp [hu]
      · simp
      · simp [view, debt]
  · cases hr
    have htb : t ∈ s.cond.cond.blocked := hq.resolve_right hg
    have htp : t ∈ s.pre := h.blocked_pre htb
    have hcount : s.cond.cond.count = 0 := h.sem.no_idle ⟨t, htb⟩
    have hcard : (s.pre.erase t).card + 1 = s.pre.card := Finset.card_erase_add_one htp
    have hcard' : (insert t s.late).card = s.late.card + 1 := Finset.card_insert_of_notMem hlate
    simp only [Bool.false_eq_true, if_false]
    have hd' : debt ((s.setSem ⟨s.cond.cond.count, s.cond.cond.blocked.erase t,
        s.cond.cond.granted⟩).giveUp t) = debt s := by
      simp only [debt, World.giveUp_cond, World.giveUp_pre, World.giveUp_late, World.setSem_pre,
        World.setSem_late, World.setSem_cond_waiting, World.setSem_cond_cond]
      omega
    refine ⟨{ h with
      sem := ⟨fun _ => hcount, h.sem.disjoint.mono_left (Finset.erase_subset _ _)⟩
      blocked_pre := Finset.erase_subset_erase t h.blocked_pre
      granted_pre := h.granted_pre.mono_right (Finset.erase_subset _ _)
      late_pre := ?_
      late_granted := by simp [h.late_granted, hg]
      count_le := by simp [hcount]
      free := fun hn => hd'.trans (h.free hn)
      debt_nonneg := hd' ▸ h.debt_nonneg
      untimed := fun hf => absurd (ht hf) he.2 }, ?_, fun u hu => ?_⟩
    · simp [h.late_pre.mono_right (Finset.erase_subset t s.pre)]
    · have hph : phase ((s.setSem ⟨s.cond.cond.count, s.cond.cond.blocked.erase t,
          s.cond.cond.granted⟩).giveUp t) t = .late := phase_late.mpr (by simp)
      exact view_outside hown hph
    · apply view_congr
      · simp [hu]
      · simp [hu]
      · simp [hu]
      · simp [view, hd']

/-- The counter does not overflow, and no wake-up slips in between the timeout of a wait and
the decrement that belongs to it: a signal may find such threads counted only if there are
others, a broadcast not at all. -/
def NoSlip (s : World T) (_ : T) (e : CondOp) (_ : Choice T) : Prop :=
  match e with
  | .incWaiting => s.cond.waiting < 2147483647
  | .semPost => (s.late.card : ℤ) < s.cond.waiting
  | .semPostN _ => s.late = ∅
  | _ => True

instance (s : World T) (t : T) (e : CondOp) (c : Choice T) : Decidable (NoSlip s t e c) :=
  match e with
  | .incWaiting => inferInstanceAs (Decidable (s.cond.waiting < 2147483647))
  | .semPost => inferInstanceAs (Decidable ((s.late.card : ℤ) < s.cond.waiting))
  | .semPostN _ => inferInstanceAs (Decidable (s.late = ∅))
  | .inited | .tmrTicks | .muxLock | .muxUnlock | .loadWaiting | .decWaiting | .clearWaiting
  | .semGet _ | .semResult _ | .mutexUnlock | .mutexLock => .isTrue trivial

theorem keeps_exec {e : CondOp} {r : CondAns e} (h : Accounts timed s)
    (hsafe : (bookkeeping P timed).safe (view s t) e) (hok : NoSlip s t e c)
    (hs : condExec relock P t e c s = some (r, s')) : Keeps P timed s t e r s' := by
  cases e with
  | inited =>
    cases hs
    exact keeps_refl h ⟨h.inited, rfl⟩
  | tmrTicks =>
    cases hs
    exact keeps_refl h rfl
  | muxLock => exact keeps_muxLock h hsafe hs
  | muxUnlock =>
    obtain ⟨w, hi⟩ := hsafe
    exact keeps_muxUnlock h hi hs
  | loadWaiting =>
    cases hs
    exact keeps_refl h ⟨fun w d hi => (inside_some.mp hi).2.1, rfl⟩
  | incWaiting =>
    obtain ⟨hp, w, hi⟩ := hsafe
    exact keeps_incWaiting h hp hi hok hs
  | decWaiting =>
    rcases hsafe with ⟨w, ⟨hp, hi⟩ | ⟨hp, hi⟩⟩
    · exact keeps_decWaiting_late h hp hi hs
    · exact keeps_decWaiting_out h hp hi hs
  | clearWaiting =>
    obtain ⟨hp, w, hi⟩ := hsafe
    exact keeps_clearWaiting h hp hi hs
  | semPost =>
    have hroom := (semPost_room hsafe).mpr hok
    obtain ⟨hp, w, -, hi⟩ := hsafe
    exact keeps_semPost h hp hi hroom hs
  | semPostN n => exact keeps_semPostN h hsafe ((semPostN_room hsafe).mpr hok) hs
  | semGet ticks => exact keeps_semGet h hsafe.1 hs
  | semResult ticks => exact keeps_semResult h hsafe.1 hsafe.2 hs
  | mutexUnlock =>
    cases hs
    exact keeps_refl h ⟨rfl, rfl⟩
  | mutexLock =>
    cases hs
    exact keeps_refl h rfl

end Requests

def accounting {K : Type} (code : K → Prog CondOp CondAns Status) (relock timed : Bool)
    (P : Platform)
    (hcode : ∀ k, (code k).Obeys (bookkeeping P timed) idle fun _ l => l = idle) :
    Discipline (condSystem (T := T) code relock P) View where
  toProtocol := bookkeeping P timed
  view := view
  inv := Accounts timed
  allowed := NoSlip
  between _ l := l = idle
  post _ _ _ l := l = idle
  enter_step {s s' t k} h hb hs := by
    obtain rfl : s = s' := Option.some.inj hs
    refine ⟨h, ?_, fun _ _ => rfl⟩
    rw [hb]
    exact hcode k
  exec_step h hsafe hok hs := keeps_exec h hsafe hok hs
  leave_step h hp := ⟨h, hp, fun _ _ => rfl⟩

omit [DecidableEq T] in
theorem idleWorld_accounts (timed : Bool) : Accounts timed (idleWorld : World T) := by
  constructor <;> simp [idleWorld, pthreadCondInit, mutInit, semInit, debt]
  exact semInit_valid 0

theorem idleWorld_view (t : T) : view (idleWorld : World T) t = idle := rfl

/-- The counter is never negative and there are never more units than threads waiting for
one: none is left over, and a thread that is blocked is never passed over by a signal. -/
structure Balanced (s : World T) : Prop where
  waiting_nonneg : 0 ≤ s.cond.waiting
  count_le : s.cond.cond.count ≤ s.pre.card
  no_leftover : s.pre = ∅ → s.cond.cond.count = 0
  not_dropped : s.cond.cond.blocked.Nonempty → 0 < s.cond.waiting

omit [DecidableEq T] in
theorem Accounts.balanced {timed : Bool} {s : World T} (h : Accounts timed s) : Balanced s := by
  have hc := h.count_le
  refine ⟨h.inRange.1, hc, fun hp => ?_, fun hb => ?_⟩
  · rw [hp] at hc
    simpa using hc
  · have h0 := h.sem.no_idle hb
    have hd := h.debt_nonneg
    have hpre : 0 < s.pre.card := Finset.card_pos.mpr (hb.mono h.blocked_pre)
    unfold debt at hd
    omega

inductive CondCall where
  | wait
  | timedwait (abstime : Option Timespec)
  | signal
  | broadcast
  deriving DecidableEq, Repr

def condCode (P : Platform) : CondCall → Prog CondOp CondAns Status
  | .wait => pthreadCondWait P
  | .timedwait abstime => pthreadCondTimedwait P abstime
  | .signal => pthreadCondSignal
  | .broadcast => pthreadCondBroadcast

theorem condCode_obeys (P : Platform) (k : CondCall) :
    (condCode P k).Obeys (bookkeeping P true) idle fun _ l => l = idle := by
  cases k with
  | wait => exact pthreadCondTimedwait_obeys P none (by simp)
  | timedwait abstime => exact pthreadCondTimedwait_obeys P abstime (by simp)
  | signal => exact pthreadCondSignal_obeys P true
  | broadcast => exact pthreadCondBroadcast_obeys P true

theorem post_unbalanced {timed : Bool} {s : World T} {n : ℕ} {woken : Finset T} {q : Sem T}
    (h : Accounts timed s) (hn : ¬ s.cond.cond.count + n ≤ s.pre.card)
    (hq : semPostN n woken s.cond.cond = some q) : ¬ q.count ≤ (s.pre \ woken).card := by
  obtain ⟨hsub, hcard, rfl⟩ := semPostN_some hq
  have hpre : woken ⊆ s.pre := hsub.trans h.blocked_pre
  have hle : woken.card ≤ n := hcard ▸ min_le_left _ _
  have hwp : woken.card ≤ s.pre.card := Finset.card_le_card hpre
  rw [Finset.card_sdiff_of_subset hpre]
  simp only
  omega

/-- A request that misses the condition upsets the balance at once. -/
theorem slip_unbalanced {relock timed : Bool} {P : Platform} {s s' : World T} {t : T}
    {c : Choice T} {e : CondOp} {r : CondAns e} (h : Accounts timed s)
    (hsafe : (bookkeeping P timed).safe (view s t) e) (hn : ¬ NoSlip s t e c)
    (hs : condExec relock P t e c s = some (r, s')) : ¬ Balanced s' := by
  intro hb
  cases e with
  | incWaiting =>
    cases hs
    have hw : s.cond.waiting = 2147483647 := by
      have hlt := h.waiting_lt
      simp only [NoSlip] at hn
      omega
    have hneg := hb.waiting_nonneg
    simp [hw, signed] at hneg
  | semPost =>
    obtain ⟨q, hq, heq⟩ := Option.map_eq_some_iff.mp hs
    obtain rfl := (Prod.mk.inj heq).2
    exact post_unbalanced h (fun hroom => hn ((semPost_room hsafe).mp hroom)) hq hb.count_le
  | semPostN n =>
    obtain ⟨q, hq, heq⟩ := Option.map_eq_some_iff.mp hs
    obtain rfl := (Prod.mk.inj heq).2
    exact post_unbalanced h (fun hroom => hn ((semPostN_room hsafe).mp hroom)) hq hb.count_le
  | _ => exact hn trivial

/-- The accounts are in order in every state of a run exactly when no wake-up of the run slips
in after a timeout and the counter does not overflow. -/
theorem pthreadCond_balanced_iff (relock : Bool) (P : Platform)
    (as : List (Action T (Choice T) CondCall))
    (p : Pool T CondOp CondAns (World T) CondCall Status)
    (hrun : execute (step (condSystem (condCode P) relock P)) (idlePool idleWorld) as = some p) :
    Throughout (step (condSystem (condCode P) relock P)) (fun p => Balanced p.shared)
        (idlePool idleWorld) as ↔
      Meets (step (condSystem (condCode P) relock P)) (Allowed NoSlip)
        (idlePool idleWorld) as := by
  have h0 : (accounting (condCode P) relock true P (condCode_obeys P)).Inv
      (idlePool (idleWorld : World T)) :=
    Discipline.idle_inv _ (idleWorld_accounts true) idleWorld_view
  refine throughout_iff_meets (fun _ _ _ hi ha hs => hi.step ha hs)
    (fun _ hi => hi.shared.balanced) (fun p a p' hi hn hs => ?_) h0 hrun
  cases a with
  | enter t k => exact absurd trivial hn
  | leave t => exact absurd trivial hn
  | run t c =>
    obtain ⟨k, e, f, ht, r, s, hx, rfl⟩ := step_run.mp hs
    have hf := hi.threads t
    rw [ht] at hf
    refine slip_unbalanced hi.shared hf.1 (fun hok => hn fun k' e' f' ht' => ?_) hx
    rw [ht] at ht'
    cases ht'
    exact hok

def callSteps (t : T) (k : CondCall) (cs : List (Choice T)) : List (Action T (Choice T) CondCall) :=
  .enter t k :: cs.map (.run t)

def plain : Choice T := ⟨0, false, ∅, .ok⟩

def expired : Choice T := { (plain : Choice T) with expire := true }

/-- The wait of thread 0 times out and thread 2 signals before thread 0 has taken itself off
the counter, but thread 1 is queued and gets the unit; then thread 0 waits again and gets the
unit of a broadcast. -/
def timeoutRun : List (Action (Fin 3) (Choice (Fin 3)) CondCall) :=
  callSteps 0 (.timedwait (some ⟨0, 1000000⟩)) (List.replicate 9 expired) ++
    callSteps 1 .wait (List.replicate 6 plain) ++
    callSteps 2 .signal [plain, plain, plain, plain, ⟨0, false, {1}, .ok⟩, plain, plain] ++
    [.leave 2, .run 0 plain, .run 0 plain, .run 0 plain, .leave 0] ++
    callSteps 0 .wait (List.replicate 5 plain) ++
    callSteps 2 .broadcast (List.replicate 6 plain) ++ [.run 0 plain, .run 1 plain]

theorem pthreadCond_balanced_timeout :
    Throughout (step (condSystem (condCode platform1000) true platform1000))
      (fun p => Balanced p.shared) (idlePool idleWorld) timeoutRun := by
  have hrun : (execute (step (condSystem (condCode platform1000) true platform1000))
      (idlePool idleWorld) timeoutRun).isSome = true := by
    decide +kernel
  obtain ⟨p, hp⟩ := Option.isSome_iff_exists.mp hrun
  refine (pthreadCond_balanced_iff true platform1000 timeoutRun p hp).mpr ?_
  decide +kernel

/-- A wait of one millisecond by `false` times out; `true` signals before the waiter gets to
take itself off the counter. -/
def slipRun : List (Action Bool (Choice Bool) CondCall) :=
  callSteps false (.timedwait (some ⟨0, 1000000⟩)) (List.replicate 9 expired) ++
    callSteps true .signal (List.replicate 7 plain) ++
    [.leave true, .run false plain, .run false plain]

theorem pthreadCond_signal_slips_in : ∃ p,
    execute (step (condSystem (condCode platform1000) true platform1000))
      (idlePool (idleWorld : World Bool)) slipRun = some p ∧
    p.shared.cond.waiting = -1 ∧ p.shared.cond.cond.count = 1 ∧ p.shared.pre = ∅ ∧
    ¬ Balanced p.shared := by
  have hrun : ((execute (step (condSystem (condCode platform1000) true platform1000))
      (idlePool (idleWorld : World Bool)) slipRun).map fun p =>
        (p.shared.cond.waiting, p.shared.cond.cond.count, p.shared.pre)) = some (-1, 1, ∅) := by
    decide +kernel
  obtain ⟨p, hp, hv⟩ := Option.map_eq_some_iff.mp hrun
  simp only [Prod.mk.injEq] at hv
  obtain ⟨hw, hc, hpre⟩ := hv
  refine ⟨p, hp, hw, hc, hpre, fun hb => ?_⟩
  have h0 := hb.waiting_nonneg
  omega

end LibPosix.CondAccounting
