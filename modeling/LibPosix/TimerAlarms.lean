import LibPosix.TimerSchedule
import LibPosix.TimerSetting
import LibPosix.Simulation

/-! All timers of `posix_timer.c` under one tick counter, and what their users take them for:
alarms that are set once, to a first tick and a period. A timer knows only its next tick, and
finds it anew each time it runs; an alarm knows the whole of its schedule from the beginning. -/
namespace LibPosix.TimerAlarms
open Program MachineInt TimeUtils Deadline Timer TimerSetting Simulation
open TimerSchedule (Due exactExpire due_first due_le due_next due_once timerDo_event)

/-- The address of a timer is its `timer_t`. -/
abbrev Ptr := ℕ

inductive Event where
  | tick
  | timerCreate (evp : Option Sigevent) (block : Option Ptr)
  | timerDelete (timerid : Ptr)
  | timerSettime (timerid : Ptr) (flags : ℕ) (value : Itimerspec) (wantsOld : Bool)
  | timerGettime (timerid : Ptr)
  | timerGetoverrun (timerid : Ptr)
  deriving DecidableEq, Repr

/-- What is seen of an event: the notifications of each timer at a tick, and what a call returns
and notifies. -/
inductive Answer where
  | notified (notices : Ptr → List (ℕ × Notification))
  | created (ret : CallRet) (timerid : Option Ptr)
  | deleted
  | set (ret : CallRet) (ovalue : Option Itimerspec) (notices : List (ℕ × Notification))
  | value (value : Itimerspec)
  | overrun (n : ℕ)

structure Table (α : Type) where
  now : ℕ
  timer : Ptr → Option α

namespace Table
variable {α : Type}

def set (q : Ptr) (x : Option α) (s : Table α) : Table α :=
  { s with timer := Function.update s.timer q x }

def empty (now : ℕ) : Table α := ⟨now, fun _ => none⟩

end Table

/-- The answers of an allocator that is there. Clearing a block that it could not give is a
write through a null pointer, and not answered. -/
def allocating (block : Option Ptr) : (e : CreateOp) → Unit → Option (CreateAns e × Unit)
  | .allocHook, u => some (true, u)
  | .alloc, u => some (block.isSome, u)
  | .memset true, u => some ((), u)
  | .memset false, _ => none

/-- The kernel disarms a timer before it runs it. -/
def timerTick (now : ℕ) (timer : TimerInternal) : TimerInternal × List (ℕ × Notification) :=
  if timer.ost = some now then timerDo now timer.tmrOf else (timer, [])

def timerGetoverrun : ℕ := 0

/-- A timer that does not exist is not used, and a block in use is not handed out. -/
def timers (P : Platform) : Machine (Table TimerInternal) Event Answer
  | s, .tick =>
    let now := s.now + 1
    some (⟨now, fun q => (s.timer q).map fun timer => (timerTick now timer).1⟩,
      .notified fun q => ((s.timer q).map fun timer => (timerTick now timer).2).getD [])
  | s, .timerCreate evp block =>
    if block.any fun p => (s.timer p).isSome then none
    else ((timerCreate evp).eval (allocating block) ()).map fun r =>
      match r.1.2, block with
      | some timer, some p => (s.set p (some timer), .created r.1.1 (some p))
      | _, _ => (s, .created r.1.1 none)
  | s, .timerDelete q => (s.timer q).map fun _ => (s.set q none, .deleted)
  | s, .timerSettime q flags value wantsOld => (s.timer q).map fun timer =>
    let r := timerSettime P s.now flags value wantsOld timer
    (s.set q (some r.timer), .set r.ret r.ovalue r.notices)
  | s, .timerGettime q => (s.timer q).map fun timer => (s, .value (timerGettime P s.now timer))
  | s, .timerGetoverrun q => (s.timer q).map fun _ => (s, .overrun timerGetoverrun)

/-- The schedule is `first`, `first + period`, `first + 2 * period` and so on; with no period it
ends with the first tick. -/
structure Alarm where
  event : Sigevent
  first : Option ℕ
  period : ℕ
  deriving DecidableEq, Repr

namespace Alarm

def Rings (a : Alarm) (m : ℕ) : Prop := ∃ f, a.first = some f ∧ Due f a.period m

instance decidableRings (a : Alarm) (m : ℕ) : Decidable (a.Rings m) :=
  match h : a.first with
  | none => .isFalse (by simp [Rings, h])
  | some f => decidable_of_iff (Due f a.period m) (by simp [Rings, h])

/-- The ticks until the alarm goes off again, 0 if it does not. -/
def left (a : Alarm) (now : ℕ) : ℕ :=
  match a.first with
  | none => 0
  | some f =>
    if now < f then f - now
    else if a.period = 0 then 0
    else a.period - (now - f) % a.period

def notices (a : Alarm) (m : ℕ) : List (ℕ × Notification) :=
  if a.Rings m ∧ a.event.sigevNotify = .SIGEV_THREAD then [(m, notification a.event)] else []

def value (P : Platform) (a : Alarm) (now : ℕ) : Itimerspec :=
  ⟨spanOf P a.period, spanOf P (a.left now)⟩

/-- Set from `now` on: to exact numbers of ticks. -/
def start (P : Platform) (now flags : ℕ) (value : Itimerspec) (a : Alarm) : Alarm :=
  { a with
    first := some (now + (exactExpire P now flags value.itValue).toNat)
    period := (exactTicks P value.itInterval).toNat }

end Alarm

/-- Setting an alarm. One that is turned off keeps its period. -/
def alarmSettime (P : Platform) (now flags : ℕ) (value : Itimerspec) (a : Alarm) :
    CallRet × Alarm × List (ℕ × Notification) :=
  if timespecIsZero value.itValue = true then (.ret .ok, { a with first := none }, [])
  else if validateTimespec value.itInterval = true ∧ validateTimespec value.itValue = true then
    let b := a.start P now flags value
    (.ret .ok, b, b.notices now)
  else (.fail .EINVAL, a, [])

def alarms (P : Platform) : Machine (Table Alarm) Event Answer
  | s, .tick => some (⟨s.now + 1, s.timer⟩,
      .notified fun q => ((s.timer q).map fun a => a.notices (s.now + 1)).getD [])
  | s, .timerCreate evp block =>
    if block.any fun p => (s.timer p).isSome then none
    else
      match evp with
      | none => some (s, .created (.fail .ENOTSUP) none)
      | some event =>
        if event.sigevNotify = .SIGEV_SIGNAL then some (s, .created (.fail .ENOTSUP) none)
        else block.map fun p => (s.set p (some ⟨event, none, 0⟩), .created (.ret .ok) (some p))
  | s, .timerDelete q => (s.timer q).map fun _ => (s.set q none, .deleted)
  | s, .timerSettime q flags value wantsOld => (s.timer q).map fun a =>
    let r := alarmSettime P s.now flags value a
    (s.set q (some r.2.1), .set r.1 (if wantsOld = true then some (a.value P s.now) else none) r.2.2)
  | s, .timerGettime q => (s.timer q).map fun a => (s, .value (a.value P s.now))
  | s, .timerGetoverrun q => (s.timer q).map fun _ => (s, .overrun 0)

/-- The times of a setting are numbers of ticks that fit in 32 bits, a deadline counted from tick
0. -/
structure Expressible (P : Platform) (flags : ℕ) (value : Itimerspec) : Prop where
  value_nonneg : flags &&& TIMER_ABSTIME ≠ TIMER_ABSTIME → 0 ≤ exactTicks P value.itValue
  value_lt : exactTicks P value.itValue < 2 ^ 32
  interval_nonneg : 0 ≤ exactTicks P value.itInterval
  interval_lt : exactTicks P value.itInterval < 2 ^ 32

instance decidableExpressible (P : Platform) (flags : ℕ) (value : Itimerspec) :
    Decidable (Expressible P flags value) :=
  decidable_of_iff ((flags &&& TIMER_ABSTIME ≠ TIMER_ABSTIME → 0 ≤ exactTicks P value.itValue) ∧
      exactTicks P value.itValue < 2 ^ 32 ∧ 0 ≤ exactTicks P value.itInterval ∧
      exactTicks P value.itInterval < 2 ^ 32)
    ⟨fun ⟨h0, h1, h2, h3⟩ => ⟨h0, h1, h2, h3⟩,
      fun h => ⟨h.value_nonneg, h.value_lt, h.interval_nonneg, h.interval_lt⟩⟩

/-- Settings that are accepted and do not turn the timer off are expressible. -/
def InRange (P : Platform) : Event → Prop
  | .timerSettime _ flags value _ => validateTimespec value.itInterval = true →
      validateTimespec value.itValue = true → timespecIsZero value.itValue = false →
      Expressible P flags value
  | _ => True

instance decidableInRange (P : Platform) : ∀ e, Decidable (InRange P e)
  | .timerSettime _ flags value _ => inferInstanceAs (Decidable (_ → _ → _ →
      Expressible P flags value))
  | .tick | .timerCreate .. | .timerDelete _ | .timerGettime _ | .timerGetoverrun _ =>
    .isTrue trivial

section Schedule
variable {a : Alarm} {now m : ℕ}

def Alarm.next (a : Alarm) (now : ℕ) : Option ℕ :=
  if a.left now = 0 then none else some (now + a.left now)

/-- Every tick of the schedule after the first lies a multiple of the period after it. -/
theorem left_pos_isLeast {f p : ℕ} (hp : 0 < p) (hle : f ≤ now) :
    IsLeast {k | now < k ∧ Due f p k} (now + (p - (now - f) % p)) := by
  have hmod : (now - f) % p < p := Nat.mod_lt _ hp
  have hdiv := Nat.div_add_mod (now - f) p
  have hp0 : p ≠ 0 := hp.ne'
  constructor
  · refine ⟨by omega, ?_⟩
    rw [Due, if_neg hp0]
    refine ⟨by omega, (now - f) / p + 1, ?_⟩
    rw [Nat.mul_add, Nat.mul_one]
    omega
  · intro k hk
    obtain ⟨hlt, hdue⟩ := hk
    rw [Due, if_neg hp0] at hdue
    obtain ⟨hfk, c, hc⟩ := hdue
    by_contra hsmall
    have hupper : p * c < p * ((now - f) / p + 1) := by
      rw [Nat.mul_add, Nat.mul_one]
      omega
    have hlower : p * ((now - f) / p) < p * c := by omega
    have h1 := Nat.lt_of_mul_lt_mul_left hupper
    have h2 := Nat.lt_of_mul_lt_mul_left hlower
    omega

theorem next_eq_some : a.next now = some m ↔ IsLeast {k | now < k ∧ a.Rings k} m := by
  unfold Alarm.next Alarm.left Alarm.Rings
  cases hf : a.first with
  | none =>
    refine iff_of_false (by simp) fun h => ?_
    obtain ⟨-, f, hf', -⟩ := h.1
    cases hf'
  | some f =>
    have hset : {k | now < k ∧ ∃ g, some f = some g ∧ Due g a.period k} =
        {k | now < k ∧ Due f a.period k} := by
      ext k
      simp
    rw [hset]
    by_cases hlt : now < f
    · have hleast : IsLeast {k | now < k ∧ Due f a.period k} f :=
        ⟨⟨hlt, due_first f _⟩, fun k hk => due_le hk.2⟩
      have hne : f - now ≠ 0 := by omega
      have hsum : now + (f - now) = f := by omega
      simp only [if_pos hlt, if_neg hne, hsum, Option.some.injEq]
      exact ⟨fun h => h ▸ hleast, fun h => hleast.unique h⟩
    · by_cases hp : a.period = 0
      · simp only [if_neg hlt, if_pos hp, if_true]
        refine iff_of_false (by simp) fun h => ?_
        have hdue := h.1.2
        rw [hp] at hdue
        have hle : m = f := by simpa [Due] using hdue
        have := h.1.1
        omega
      · have hpos : 0 < a.period := by omega
        have hmod : (now - f) % a.period < a.period := Nat.mod_lt _ hpos
        have hleast : IsLeast {k | now < k ∧ Due f a.period k} _ := left_pos_isLeast hpos (by omega)
        have hne : a.period - (now - f) % a.period ≠ 0 := by omega
        simp only [if_neg hlt, if_neg hp, if_neg hne, Option.some.injEq]
        exact ⟨fun h => h ▸ hleast, fun h => hleast.unique h⟩

theorem next_succ_iff : a.next now = some (now + 1) ↔ a.Rings (now + 1) := by
  rw [next_eq_some]
  constructor
  · exact fun h => h.1.2
  · exact fun h => ⟨⟨Nat.lt_succ_self _, h⟩, fun k hk => hk.1⟩

theorem next_quiet (h : ¬ a.Rings (now + 1)) : a.next (now + 1) = a.next now := by
  have hset : {k | now + 1 < k ∧ a.Rings k} = {k | now < k ∧ a.Rings k} := by
    ext k
    constructor
    · intro hk
      exact ⟨(Nat.lt_succ_self now).trans hk.1, hk.2⟩
    · intro hk
      have hne : k ≠ now + 1 := fun heq => h (heq ▸ hk.2)
      have := hk.1
      exact ⟨by omega, hk.2⟩
  ext m
  rw [next_eq_some, next_eq_some, hset]

theorem next_ringing (h : a.Rings now) :
    a.next now = if a.period > 0 then some (now + a.period) else none := by
  obtain ⟨f, hf, hdue⟩ := id h
  have hset : {k | now < k ∧ a.Rings k} = {k | now < k ∧ Due f a.period k} := by
    ext k
    simp [Alarm.Rings, hf]
  split_ifs with hp
  · rw [next_eq_some, hset]
    exact due_next hp hdue
  · rw [Option.eq_none_iff_forall_ne_some]
    intro m hm
    rw [next_eq_some, hset] at hm
    have hzero : a.period = 0 := by omega
    rw [hzero] at hdue hm
    exact due_once hdue hm.1.1 hm.1.2

theorem left_succ_lt {n : ℕ} (h : a.left now < n) (hp : a.period < n) :
    a.left (now + 1) < n := by
  unfold Alarm.left at h ⊢
  cases hf : a.first with
  | none => simpa [hf] using h
  | some f =>
    simp only [hf] at h ⊢
    split_ifs at h ⊢
    all_goals omega

end Schedule

structure Tracks (now : ℕ) (timer : TimerInternal) (a : Alarm) : Prop where
  event : timer.event = a.event
  period : timer.period = a.period
  period_lt : a.period < 2 ^ 32
  ost : timer.ost = a.next now
  left_lt : a.left now < 2 ^ 32

section Timers
variable {P : Platform} {now : ℕ} {timer : TimerInternal} {a : Alarm}

theorem next_off (a : Alarm) (now : ℕ) : ({ a with first := none } : Alarm).next now = none := by
  simp [Alarm.next, Alarm.left]

theorem timerDo_notices (now : ℕ) (timer : TimerInternal) : (timerDo now timer).2 =
    if timer.event.sigevNotify = .SIGEV_THREAD then [(now, notification timer.event)] else [] := by
  by_cases h0 : timer.period > 0
  · simp [timerDo, h0]
  · simp [timerDo, h0]

/-- A timer that runs when its alarm goes off. -/
theorem timerDo_tracks (he : timer.event = a.event) (hp : timer.period = a.period)
    (hp32 : a.period < 2 ^ 32) (hoff : timer.ost = none) (hr : a.Rings now)
    (hleft : a.left now < 2 ^ 32) :
    Tracks now (timerDo now timer).1 a ∧ (timerDo now timer).2 = a.notices now := by
  have hnotices : (timerDo now timer).2 = a.notices now := by
    rw [timerDo_notices, he]
    simp [Alarm.notices, hr]
  have hnext := next_ringing hr
  refine ⟨?_, hnotices⟩
  by_cases h0 : a.period > 0
  · rw [if_pos h0] at hnext
    refine ⟨(timerDo_event now timer).trans he, (timerDo_period now timer).trans hp, hp32, ?_,
      hleft⟩
    simp [timerDo, hp, h0, hnext]
  · rw [if_neg h0] at hnext
    refine ⟨(timerDo_event now timer).trans he, (timerDo_period now timer).trans hp, hp32, ?_,
      hleft⟩
    simp [timerDo, hp, h0, hnext, hoff]

theorem Tracks.tick (h : Tracks now timer a) :
    Tracks (now + 1) (timerTick (now + 1) timer).1 a ∧
      (timerTick (now + 1) timer).2 = a.notices (now + 1) := by
  have hleft := left_succ_lt h.left_lt h.period_lt
  by_cases hr : a.Rings (now + 1)
  · have harmed : timer.ost = some (now + 1) := h.ost.trans (next_succ_iff.mpr hr)
    rw [timerTick, if_pos harmed]
    exact timerDo_tracks h.event h.period h.period_lt rfl hr hleft
  · have hother : timer.ost ≠ some (now + 1) := by
      rw [h.ost]
      exact fun heq => hr (next_succ_iff.mp heq)
    rw [timerTick, if_neg hother]
    refine ⟨⟨h.event, h.period, h.period_lt, h.ost.trans (next_quiet hr).symm, hleft⟩, ?_⟩
    simp [Alarm.notices, hr]

theorem Tracks.gettime (h : Tracks now timer a) : timerGettime P now timer = a.value P now := by
  have hperiod : timer.period < 2 ^ 32 := h.period.trans_lt h.period_lt
  have hinterval := timerGettime_interval (P := P) now hperiod
  have hvalue : (timerGettime P now timer).itValue = spanOf P (a.left now) := by
    by_cases h0 : a.left now = 0
    · have hoff : timer.ost = none := by simp [h.ost, Alarm.next, h0]
      rw [timerGettime_off now hoff, h0]
      simp [spanOf]
    · have harmed : timer.ost = some (now + a.left now) := by simp [h.ost, Alarm.next, h0]
      exact timerGettime_armed harmed h.left_lt
  rw [Alarm.value, ← hvalue, ← h.period, ← hinterval]

theorem Tracks.start (h : Tracks now timer a) (hdvd : P.tmrHz ∣ 1000000000) {flags : ℕ}
    {value : Itimerspec} (hi : validateTimespec value.itInterval = true)
    (hd : validateTimespec value.itValue = true) (hnz : timespecIsZero value.itValue = false)
    (he : Expressible P flags value) (wantsOld : Bool) :
    let r := timerSettime P now flags value wantsOld timer
    r.ret = .ret .ok ∧ Tracks now r.timer (a.start P now flags value) ∧
      r.notices = (a.start P now flags value).notices now := by
  have ht : tmrTicks now < 2 ^ 32 := Nat.mod_lt _ (by norm_num)
  have hexp0 : 0 ≤ exactExpire P now flags value.itValue := by
    unfold exactExpire
    split_ifs with hf
    · exact le_max_left _ _
    · exact he.value_nonneg hf
  have hexp32 : exactExpire P now flags value.itValue < 2 ^ 32 := by
    have := he.value_lt
    unfold exactExpire
    split_ifs
    · exact max_lt (by norm_num) (by omega)
    · exact this
  obtain ⟨v, hv⟩ := Int.eq_ofNat_of_zero_le hexp0
  obtain ⟨p, hp⟩ := Int.eq_ofNat_of_zero_le he.interval_nonneg
  have hv32 : v < 2 ^ 32 := by omega
  have hp32 : p < 2 ^ 32 := by
    have := he.interval_lt
    omega
  have hperiod : periodOf P value.itInterval = p :=
    TimerSchedule.period_exact hdvd hi hp hp32
  have hnext := TimerSchedule.nextExpire_exact hdvd hd hv hv32
  have hstart : a.start P now flags value = ⟨a.event, some (now + v), p⟩ := by
    simp [Alarm.start, hv, hp]
  rw [timerSettime_valid now flags wantsOld timer hi hd hnz, hstart, hperiod, hnext]
  by_cases h0 : v = 0
  · have hr : (⟨a.event, some (now + v), p⟩ : Alarm).Rings now :=
      ⟨now, by simp [h0], due_first now p⟩
    have hleft : (⟨a.event, some (now + v), p⟩ : Alarm).left now < 2 ^ 32 := by
      unfold Alarm.left
      simp only
      split_ifs <;> omega
    have he : (timer.tmrOf.setPeriod p).event = a.event := h.event
    obtain ⟨htracks, hnotices⟩ := timerDo_tracks (a := ⟨a.event, some (now + v), p⟩) he rfl hp32
      rfl hr hleft
    simp only [h0, if_true] at htracks hnotices ⊢
    exact ⟨trivial, htracks, hnotices⟩
  · have hlt : now < now + v := by omega
    have hleft : (⟨a.event, some (now + v), p⟩ : Alarm).left now = v := by
      simp [Alarm.left, hlt]
    have hquiet : ¬ (⟨a.event, some (now + v), p⟩ : Alarm).Rings now := by
      rintro ⟨f, hf, hdue⟩
      cases hf
      have := due_le hdue
      omega
    simp only [if_neg h0]
    refine ⟨trivial, ⟨h.event, rfl, hp32, ?_, ?_⟩, ?_⟩
    · simp [Alarm.next, hleft, h0]
    · omega
    · simp [Alarm.notices, hquiet]

theorem Tracks.settime (h : Tracks now timer a) (hdvd : P.tmrHz ∣ 1000000000) {flags : ℕ}
    {value : Itimerspec} (hok : validateTimespec value.itInterval = true →
      validateTimespec value.itValue = true → timespecIsZero value.itValue = false →
      Expressible P flags value) (wantsOld : Bool) :
    let r := timerSettime P now flags value wantsOld timer
    let r' := alarmSettime P now flags value a
    r.ret = r'.1 ∧ Tracks now r.timer r'.2.1 ∧ r.notices = r'.2.2 := by
  cases hz : timespecIsZero value.itValue with
  | true =>
    have hoff : Tracks now timer.tmrOf { a with first := none } :=
      ⟨h.event, h.period, h.period_lt, (next_off a now).symm, by simp [Alarm.left]⟩
    simp [timerSettime, alarmSettime, hz, hoff]
  | false =>
    by_cases hvalid : validateTimespec value.itInterval = true ∧
        validateTimespec value.itValue = true
    · obtain ⟨hi, hd⟩ := hvalid
      have hstart := h.start hdvd hi hd hz (hok hi hd hz) wantsOld
      simpa [alarmSettime, hz, hi, hd] using hstart
    · have hinvalid : validateTimespec value.itInterval = false ∨
          validateTimespec value.itValue = false := by
        rwa [not_and_or, Bool.not_eq_true, Bool.not_eq_true] at hvalid
      simp only [timerSettime, alarmSettime, hz, hinvalid, and_true, if_true,
        Bool.false_eq_true, if_false, if_neg hvalid, true_and]
      exact h

end Timers

structure Follows (s : Table TimerInternal) (t : Table Alarm) : Prop where
  now : s.now = t.now
  timer : ∀ q, Option.Rel (Tracks s.now) (s.timer q) (t.timer q)

section Tables
variable {P : Platform} {s : Table TimerInternal} {t : Table Alarm}

theorem Follows.set (h : Follows s t) (q : Ptr) {x : Option TimerInternal} {y : Option Alarm}
    (hx : Option.Rel (Tracks s.now) x y) : Follows (s.set q x) (t.set q y) :=
  ⟨h.now, pointwise_update h.timer q hx⟩

theorem Follows.tick (h : Follows s t) : Agree Follows (timers P s .tick) (alarms P t .tick) := by
  have hnext : Follows ⟨s.now + 1, fun q => (s.timer q).map fun timer =>
      (timerTick (s.now + 1) timer).1⟩ ⟨t.now + 1, t.timer⟩ := by
    refine ⟨congrArg (· + 1) h.now, ?_⟩
    intro q
    have hq := h.timer q
    simp only
    generalize s.timer q = x at hq ⊢
    generalize t.timer q = y at hq ⊢
    cases hq with
    | none => exact .none
    | some htracks => exact .some htracks.tick.1
  have hanswer : (fun q => ((s.timer q).map fun timer => (timerTick (s.now + 1) timer).2).getD []) =
      fun q => ((t.timer q).map fun a => a.notices (t.now + 1)).getD [] := by
    funext q
    have hq := h.timer q
    rw [← h.now]
    generalize s.timer q = x at hq ⊢
    generalize t.timer q = y at hq ⊢
    cases hq with
    | none => rfl
    | some htracks => simp [htracks.tick.2]
  simp only [timers, alarms, hanswer]
  exact .answered hnext

theorem Follows.create (h : Follows s t) (evp : Option Sigevent) (block : Option Ptr) :
    Agree Follows (timers P s (.timerCreate evp block)) (alarms P t (.timerCreate evp block)) := by
  have huse : (block.any fun p => (s.timer p).isSome) = block.any fun p => (t.timer p).isSome := by
    cases block with
    | none => rfl
    | some p => exact isSome_eq (h.timer p)
  simp only [timers, alarms, huse]
  split_ifs
  · exact .refused
  · cases evp with
    | none => exact .answered h
    | some event =>
      by_cases hsig : event.sigevNotify = .SIGEV_SIGNAL
      · simp [timerCreate, allocating, hsig]
        exact .answered h
      · cases block with
        | none =>
          simp [timerCreate, allocating, hsig]
          exact .refused
        | some p =>
          have hnew : Tracks s.now ⟨none, event, 0⟩ ⟨event, none, 0⟩ :=
            ⟨rfl, rfl, by norm_num, by simp [Alarm.next, Alarm.left], by simp [Alarm.left]⟩
          simp [timerCreate, allocating, hsig]
          exact .answered (h.set p (.some hnew))

theorem Follows.step (hdvd : P.tmrHz ∣ 1000000000) (h : Follows s t) {e : Event}
    (hok : InRange P e) : Agree Follows (timers P s e) (alarms P t e) := by
  have hnow := h.now
  cases e with
  | tick => exact h.tick
  | timerCreate evp block => exact h.create evp block
  | timerDelete q => exact .map (h.timer q) fun _ _ _ => ⟨h.set q .none, rfl⟩
  | timerSettime q flags value wantsOld =>
    refine .map (h.timer q) ?_
    intro timer a htracks
    obtain ⟨hret, hset, hnotices⟩ := htracks.settime hdvd hok wantsOld
    simp only [hret, hnotices, timerSettime_ovalue, htracks.gettime, ← hnow]
    exact ⟨h.set q (.some hset), trivial⟩
  | timerGettime q =>
    refine .map (h.timer q) ?_
    intro timer a htracks
    simp only [htracks.gettime, ← hnow]
    exact ⟨h, trivial⟩
  | timerGetoverrun q => exact .map (h.timer q) fun _ _ _ => ⟨h, rfl⟩

end Tables

/-- Whatever is done with any number of timers, and however long it takes, they cannot be told
from alarms on exact schedules, as long as a second is a whole number of ticks and the times
they are set to are in range. -/
theorem timers_answer_as_alarms (P : Platform) (hdvd : P.tmrHz ∣ 1000000000) (now : ℕ)
    {es : List Event} (hok : ∀ e ∈ es, InRange P e) :
    (timers P).answers (.empty now) es = (alarms P).answers (.empty now) es := by
  have hstep : ∀ s t e, Follows s t → InRange P e → Agree Follows (timers P s e) (alarms P t e) :=
    fun _ _ _ h he => h.step hdvd he
  exact answers_eq hstep hok ⟨rfl, fun _ => .none⟩

/-- A timer that goes off every 2 ms while the tick counter starts again from 0, and one that is
set to a deadline that has passed, and then turned off. -/
def wrappingEvents : List Event :=
  [.timerCreate (some TimerSchedule.callEvent) (some 1),
    .timerCreate (some TimerSchedule.callEvent) (some 2),
    .timerSettime 1 0 ⟨⟨0, 2000000⟩, ⟨0, 3000000⟩⟩ false, .tick, .timerGettime 1, .tick, .tick,
    .timerSettime 2 1 ⟨⟨0, 0⟩, ⟨0, 1000000⟩⟩ true, .tick, .tick, .timerDelete 1, .tick,
    .timerSettime 2 0 ⟨⟨0, 0⟩, ⟨0, 0⟩⟩ true, .tick]

theorem timers_answer_as_alarms_wrapping :
    ((timers platform1000).answers (.empty 4294967294) wrappingEvents).isSome = true ∧
    (timers platform1000).answers (.empty 4294967294) wrappingEvents =
      (alarms platform1000).answers (.empty 4294967294) wrappingEvents := by
  have hok : ∀ e ∈ wrappingEvents, InRange platform1000 e := by decide +kernel
  exact ⟨by decide +kernel, timers_answer_as_alarms platform1000 (by decide) 4294967294 hok⟩

end LibPosix.TimerAlarms
