import LibPosix.Timer

/-! The schedule of a timer. What is armed is always the next tick of the schedule, so that
each tick either is on it and delivers one notification, or is not and delivers none; nothing
of an earlier setting is left after `tmr_of`. -/
namespace LibPosix.TimerSchedule
open Program MachineInt TimeUtils Deadline Transition Timer

/-- The ticks from now to the first expiration: a time span rounded up, or what is left of the
way to a deadline. -/
def exactExpire (P : Platform) (now flags : ℕ) (itValue : Timespec) : ℤ :=
  if flags &&& TIMER_ABSTIME = TIMER_ABSTIME then
    max 0 (exactTicks P itValue - tmrTicks now)
  else exactTicks P itValue

def Due (first period m : ℕ) : Prop :=
  if period = 0 then m = first else first ≤ m ∧ period ∣ m - first

instance (first period m : ℕ) : Decidable (Due first period m) :=
  inferInstanceAs (Decidable (ite _ _ _))

/-- The ticks of the schedule from `now` to `now + n`. -/
def schedule (first period now n : ℕ) : List ℕ :=
  (List.range' now (n + 1)).filter fun m => Due first period m

/-- First after 3 ticks, then every 2 ticks. -/
example : schedule 44 2 41 8 = [44, 46, 48] := by decide

theorem schedule_succ (first period now n : ℕ) :
    schedule first period now (n + 1) = schedule first period now n ++
      if Due first period (now + (n + 1)) then [now + (n + 1)] else [] := by
  rw [schedule, List.range'_1_concat, List.filter_append]
  by_cases h : Due first period (now + (n + 1))
  · simp [schedule, h]
  · simp [schedule, h]

theorem due_first (first period : ℕ) : Due first period first := by
  unfold Due
  split_ifs
  · rfl
  · simp

theorem due_le {first period m : ℕ} (h : Due first period m) : first ≤ m := by
  unfold Due at h
  split_ifs at h
  · exact h.ge
  · exact h.1

/-- `timer_do` arms the timer for the next tick of the schedule. -/
theorem due_next {first period m : ℕ} (hp : 0 < period) (h : Due first period m) :
    IsLeast {k | m < k ∧ Due first period k} (m + period) := by
  have hp0 : period ≠ 0 := hp.ne'
  simp only [Due, if_neg hp0] at h ⊢
  obtain ⟨hle, hdvd⟩ := h
  constructor
  · refine ⟨by omega, by omega, ?_⟩
    have hsub : m + period - first = m - first + period := by omega
    rw [hsub]
    exact dvd_add hdvd dvd_rfl
  · rintro k ⟨hk, -, hkdvd⟩
    have hsub : k - first - (m - first) = k - m := by omega
    have hdiff := Nat.dvd_sub hkdvd hdvd
    rw [hsub] at hdiff
    have hle := Nat.le_of_dvd (by omega) hdiff
    omega

theorem due_once {first m k : ℕ} (h : Due first 0 m) (hk : m < k) : ¬ Due first 0 k := by
  simp only [Due, if_true] at *
  omega

section conversion
variable {P : Platform} (hdvd : P.tmrHz ∣ 1000000000)
include hdvd

theorem period_exact {itInterval : Timespec} (hd : validateTimespec itInterval = true) {p : ℕ}
    (hp : exactTicks P itInterval = p) (h32 : p < 2 ^ 32) :
    (if timespecIsZero itInterval then 0 else (timespec2ticks P itInterval 0).2) = p := by
  split_ifs with hz
  · obtain ⟨sec, nsec⟩ := itInterval
    simp only [timespecIsZero, decide_eq_true_eq] at hz
    obtain ⟨rfl, rfl⟩ := hz
    simp [exactTicks, nanos] at hp
    omega
  · rw [timespec2ticks_exact P hdvd hd (by omega) (by omega), hp]
    rfl

theorem nextExpire_exact {now flags : ℕ} {itValue : Timespec}
    (hd : validateTimespec itValue = true) {v : ℕ}
    (hv : exactExpire P now flags itValue = v) (h32 : v < 2 ^ 32) :
    nextExpire P now flags itValue = (.ok, v) := by
  have ht : tmrTicks now < 2 ^ 32 := Nat.mod_lt _ (by norm_num)
  by_cases hf : flags &&& TIMER_ABSTIME = TIMER_ABSTIME
  · rw [exactExpire, if_pos hf] at hv
    rw [nextExpire, if_pos hf]
    by_cases hpast : nanos itValue < nanos (clockGettime P (tmrTicks now))
    · have hle : exactTicks P itValue ≤ tmrTicks now := by
        rw [exactTicks_le_iff, ← clockGettime_nanos P ht]
        exact hpast.le
      have hconv := (absTimespec2ticks_past P ht hd 0 hpast).1
      simp only [hconv]
      simp
      omega
    · have hle : (tmrTicks now : ℤ) ≤ exactTicks P itValue := by
        by_contra hlt
        have hmul := (exactTicks_le_iff P itValue (tmrTicks now - 1)).mp (by omega)
        have htick := tick_pos P
        rw [clockGettime_nanos P ht] at hpast
        rw [sub_mul] at hmul
        omega
      have hconv := absTimespec2ticks_near hdvd ht hd (not_lt.mp hpast)
        (exactTicks_isLeast P itValue (tmrTicks now) hle) (by omega) 0
      simp only [hconv]
      simp
      omega
  · rw [exactExpire, if_neg hf] at hv
    rw [nextExpire, if_neg hf, timespec2ticks_exact P hdvd hd (by omega) (by omega), hv]
    rfl

end conversion

/-- The calls and ticks that do not set or delete the timer. -/
def Quiet (a : Action) : Prop := a = .tick ∨ a = .gettime

/-- An armed timer that runs on a schedule which began at tick `t0`, when `old` had been
delivered. -/
structure Running (event : Sigevent) (first period t0 : ℕ) (old : List (ℕ × Notification))
    (w : World) : Prop where
  armed : ∃ timer, w.timer = some timer ∧ timer.event = event ∧ timer.period = period ∧
    ∀ m, timer.ost = some m ↔ IsLeast {k | w.now < k ∧ Due first period k} m
  started : t0 ≤ w.now
  notices : w.notices = old ++
    (schedule first period t0 (w.now - t0)).map fun m => (m, notification event)

theorem timerDo_due (timer : TimerInternal) {event : Sigevent} {first period now : ℕ}
    (hthread : event.sigevNotify = .SIGEV_THREAD) (he : timer.event = event)
    (hp : timer.period = period) (hoff : timer.ost = none) (hdue : Due first period now) :
    (timerDo now timer).2 = [(now, notification event)] ∧
      (timerDo now timer).1.event = event ∧ (timerDo now timer).1.period = period ∧
      ∀ m, (timerDo now timer).1.ost = some m ↔ IsLeast {k | now < k ∧ Due first period k} m := by
  by_cases h0 : 0 < period
  · have hleast := due_next h0 hdue
    simp only [timerDo, hp, gt_iff_lt, h0, if_true, TimerInternal.tmrOn_event, he, hthread,
      TimerInternal.tmrOn_period, TimerInternal.tmrOn_ost, Option.some.injEq, true_and]
    exact fun m => ⟨fun hm => hm ▸ hleast, fun hm => hleast.unique hm⟩
  · have hzero : period = 0 := by omega
    simp only [timerDo, hp, gt_iff_lt, h0, if_false, he, hthread, if_true, hoff, true_and]
    intro m
    constructor
    · intro hm
      cases hm
    · intro hm
      rw [hzero] at hdue hm
      exact absurd hm.1.2 (due_once hdue hm.1.1)

theorem Running.tick {P : Platform} {event : Sigevent} {first period t0 : ℕ}
    {old : List (ℕ × Notification)} {w w' : World}
    (hthread : event.sigevNotify = .SIGEV_THREAD)
    (h : Running event first period t0 old w) (hs : step P w .tick = some w') :
    Running event first period t0 old w' := by
  obtain ⟨timer, htimer, he, hp, hnext⟩ := h.armed
  have hstart := h.started
  have hsucc : w.now + 1 - t0 = w.now - t0 + 1 := by omega
  have hnow : t0 + (w.now - t0 + 1) = w.now + 1 := by omega
  simp only [step, htimer] at hs
  split_ifs at hs with hdue
  · cases hs
    have hmem := ((hnext (w.now + 1)).mp hdue).1.2
    obtain ⟨hout, he', hp', hnext'⟩ := timerDo_due timer.tmrOf hthread he hp rfl hmem
    refine ⟨⟨_, rfl, he', hp', hnext'⟩, by simp only; omega, ?_⟩
    simp only [hout, h.notices, hsucc, schedule_succ, hnow, if_pos hmem, List.map_append,
      List.append_assoc]
    rfl
  · cases hs
    have hnot : ¬ Due first period (w.now + 1) := by
      intro hmem
      refine hdue ((hnext _).mpr ⟨⟨Nat.lt_succ_self _, hmem⟩, fun k hk => hk.1⟩)
    have hset : {k | w.now + 1 < k ∧ Due first period k} =
        {k | w.now < k ∧ Due first period k} := by
      ext k
      constructor
      · rintro ⟨hlt, hk⟩
        exact ⟨by omega, hk⟩
      · rintro ⟨hlt, hk⟩
        have hne : k ≠ w.now + 1 := fun heq => hnot (heq ▸ hk)
        exact ⟨by omega, hk⟩
    refine ⟨⟨timer, rfl, he, hp, fun m => ?_⟩, by simp only; omega, ?_⟩
    · rw [hset]
      exact hnext m
    · simp only [h.notices, hsucc, schedule_succ, hnow, if_neg hnot, List.append_nil]

/-- What a timer on a schedule does until it is set or deleted. -/
theorem Running.run {P : Platform} {event : Sigevent} {first period t0 : ℕ}
    {old : List (ℕ × Notification)} {w w' : World} {as : List Action}
    (hthread : event.sigevNotify = .SIGEV_THREAD)
    (h : Running event first period t0 old w) (hq : ∀ a ∈ as, Quiet a)
    (hrun : execute (step P) w as = some w') : Running event first period t0 old w' := by
  induction as generalizing w with
  | nil =>
    cases hrun
    exact h
  | cons a as ih =>
    obtain ⟨u, hu, hrest⟩ := execute_cons.mp hrun
    refine ih ?_ (fun b hb => hq b (List.mem_cons_of_mem a hb)) hrest
    rcases hq a List.mem_cons_self with rfl | rfl
    · exact h.tick hthread hu
    · obtain ⟨timer, -, rfl⟩ := Option.map_eq_some_iff.mp hu
      exact h

theorem timerSettime_exact {P : Platform} (hdvd : P.tmrHz ∣ 1000000000) {now flags v p : ℕ}
    {value : Itimerspec} (hi : validateTimespec value.itInterval = true)
    (hd : validateTimespec value.itValue = true) (hnz : timespecIsZero value.itValue = false)
    (hv : exactExpire P now flags value.itValue = v) (hv32 : v < 2 ^ 32)
    (hp : exactTicks P value.itInterval = p) (hp32 : p < 2 ^ 32) (wantsOld : Bool)
    (timer : TimerInternal) :
    (timerSettime P now flags value wantsOld timer).timer =
        (if v = 0 then (timerDo now (timer.tmrOf.setPeriod p)).1
          else (timer.tmrOf.setPeriod p).tmrOn now v) ∧
      (timerSettime P now flags value wantsOld timer).notices =
        if v = 0 then (timerDo now (timer.tmrOf.setPeriod p)).2 else [] := by
  have hperiod := period_exact hdvd hi hp hp32
  have hnext := nextExpire_exact hdvd hd hv hv32
  simp only [timerSettime, hnz, hi, hd, hperiod, hnext, Bool.true_eq_false, or_self, and_false,
    if_false, Bool.false_eq_true]
  by_cases h0 : v = 0
  · simp [h0]
  · simp [h0]

theorem settime_running {P : Platform} (hdvd : P.tmrHz ∣ 1000000000) {event : Sigevent}
    (hthread : event.sigevNotify = .SIGEV_THREAD) {w w' : World} {timer : TimerInternal}
    (htimer : w.timer = some timer) (he : timer.event = event) {flags v p : ℕ}
    {value : Itimerspec} {wantsOld : Bool} (hi : validateTimespec value.itInterval = true)
    (hd : validateTimespec value.itValue = true) (hnz : timespecIsZero value.itValue = false)
    (hv : exactExpire P w.now flags value.itValue = v) (hv32 : v < 2 ^ 32)
    (hp : exactTicks P value.itInterval = p) (hp32 : p < 2 ^ 32)
    (hs : step P w (.settime flags value wantsOld) = some w') :
    Running event (w.now + v) p w.now w.notices w' := by
  obtain ⟨hset, hout⟩ := timerSettime_exact hdvd hi hd hnz hv hv32 hp hp32 wantsOld timer
  simp only [step, htimer, Option.map_some, Option.some.injEq, hset, hout] at hs
  subst w'
  by_cases h0 : v = 0
  · have hdue : Due w.now p w.now := due_first w.now p
    obtain ⟨hone, he', hp', hnext⟩ := timerDo_due (timer.tmrOf.setPeriod p) hthread he
      rfl rfl hdue
    simp only [h0, if_true, add_zero]
    refine ⟨⟨_, rfl, he', hp', hnext⟩, le_rfl, ?_⟩
    simp [hone, schedule, hdue]
  · have hnot : ¬ Due (w.now + v) p w.now := by
      intro hdue
      have hle := due_le hdue
      omega
    simp only [if_neg h0]
    refine ⟨⟨_, rfl, he, rfl, fun m => ?_⟩, le_rfl, ?_⟩
    · have hleast : IsLeast {k | w.now < k ∧ Due (w.now + v) p k} (w.now + v) :=
        ⟨⟨by omega, due_first _ p⟩, fun k hk => due_le hk.2⟩
      rw [TimerInternal.tmrOn_ost, Option.some.injEq]
      exact ⟨fun hm => hm ▸ hleast, fun hm => hleast.unique hm⟩
    · simp [schedule, hnot]

/-- A timer that is off, or gone, delivers nothing. -/
def Off (old : List (ℕ × Notification)) (w : World) : Prop :=
  (∀ timer, w.timer = some timer → timer.ost = none) ∧ w.notices = old

theorem Off.run {P : Platform} {old : List (ℕ × Notification)} {w w' : World}
    {as : List Action} (h : Off old w) (hq : ∀ a ∈ as, Quiet a)
    (hrun : execute (step P) w as = some w') : Off old w' := by
  induction as generalizing w with
  | nil =>
    cases hrun
    exact h
  | cons a as ih =>
    obtain ⟨u, hu, hrest⟩ := execute_cons.mp hrun
    refine ih ?_ (fun b hb => hq b (List.mem_cons_of_mem a hb)) hrest
    rcases hq a List.mem_cons_self with rfl | rfl
    · obtain ⟨hoff, hold⟩ := h
      cases ht : w.timer with
      | none =>
        simp only [step, ht, Option.some.injEq] at hu
        subst u
        exact ⟨by simp, hold⟩
      | some timer =>
        simp only [step, ht, hoff timer ht, reduceCtorEq, if_false, Option.some.injEq] at hu
        subst u
        exact ⟨by simpa using hoff timer ht, hold⟩
    · obtain ⟨timer, -, rfl⟩ := Option.map_eq_some_iff.mp hu
      exact h

/-- The notifications of a timer from any state on: those of its schedule after it has been
set, and none after it has been disarmed or deleted. -/
structure Scheduled (P : Platform) (note : Notification) (w : World) : Prop where
  armed : ∀ flags value wantsOld (v p : ℕ) w1 as w2,
    validateTimespec value.itInterval = true → validateTimespec value.itValue = true →
    timespecIsZero value.itValue = false →
    exactExpire P w.now flags value.itValue = v → v < 2 ^ 32 →
    exactTicks P value.itInterval = p → p < 2 ^ 32 →
    step P w (.settime flags value wantsOld) = some w1 → (∀ a ∈ as, Quiet a) →
    execute (step P) w1 as = some w2 →
    w2.notices = w.notices ++
      (schedule (w.now + v) p w.now (w2.now - w.now)).map fun m => (m, note)
  disarmed : ∀ flags value wantsOld w1 as w2, timespecIsZero value.itValue = true →
    step P w (.settime flags value wantsOld) = some w1 → (∀ a ∈ as, Quiet a) →
    execute (step P) w1 as = some w2 → w2.notices = w.notices
  deleted : ∀ w1 as w2, step P w .delete = some w1 → (∀ a ∈ as, Quiet a) →
    execute (step P) w1 as = some w2 → w2.notices = w.notices

/-- A timer keeps the event it was created with. -/
def KeepsEvent (event : Sigevent) (w : World) : Prop :=
  ∀ timer, w.timer = some timer → timer.event = event

theorem timerDo_event (now : ℕ) (timer : TimerInternal) :
    (timerDo now timer).1.event = timer.event := by
  simp only [timerDo]
  split_ifs
  · rfl
  · rfl

theorem timerSettime_event (P : Platform) (now flags : ℕ) (value : Itimerspec) (wantsOld : Bool)
    (timer : TimerInternal) :
    (timerSettime P now flags value wantsOld timer).timer.event = timer.event := by
  simp only [timerSettime]
  split_ifs <;> simp [timerDo_event]

theorem step_keepsEvent {P : Platform} {event : Sigevent} {w w' : World} {a : Action}
    (h : KeepsEvent event w) (hs : step P w a = some w') : KeepsEvent event w' := by
  cases a with
  | tick =>
    cases ht : w.timer with
    | none =>
      simp only [step, ht, Option.some.injEq] at hs
      subst w'
      exact fun timer hnone => by simp at hnone
    | some timer =>
      simp only [step, ht] at hs
      split_ifs at hs
      · cases hs
        rintro _ ⟨⟩
        rw [timerDo_event]
        exact h timer ht
      · cases hs
        rintro _ ⟨⟩
        exact h timer ht
  | settime flags value wantsOld =>
    obtain ⟨timer, ht, rfl⟩ := Option.map_eq_some_iff.mp hs
    rintro _ ⟨⟩
    rw [timerSettime_event]
    exact h timer ht
  | gettime =>
    obtain ⟨timer, -, rfl⟩ := Option.map_eq_some_iff.mp hs
    exact h
  | delete =>
    obtain ⟨timer, -, rfl⟩ := Option.map_eq_some_iff.mp hs
    rintro _ ⟨⟩

def anyAllocator : Protocol CreateOp CreateAns Unit where
  safe _ _ := True
  after _ _ _ _ := True

theorem timerCreate_obeys (event : Sigevent) :
    (timerCreate (some event)).Obeys anyAllocator () fun r _ =>
      ∀ timer, r.2 = some timer → timer = ⟨none, event, 0⟩ := by
  simp only [timerCreate, Prog.obeys_bind, Prog.obeys_request, Prog.obeys_ite, Prog.pure_eq,
    Prog.obeys_ret]
  refine ⟨trivial, fun hook _ _ => ⟨fun _ => ⟨trivial, fun block _ _ => ⟨trivial, fun _ _ _ => ?_⟩⟩, ?_⟩⟩
  · simp [eq_comm]
  · simp

theorem timerCreate_some {σ : Type} {exec : (e : CreateOp) → σ → Option (CreateAns e × σ)}
    {event : Sigevent} {s s' : σ} {ret : CallRet} {timer : TimerInternal}
    (h : (timerCreate (some event)).eval exec s = some ((ret, some timer), s')) :
    timer = ⟨none, event, 0⟩ :=
  ((timerCreate_obeys event).eval (v := fun _ => ()) (I := fun _ => True)
    (fun _ _ _ _ _ _ _ => ⟨trivial, trivial⟩) trivial h).2 timer rfl

theorem timer_scheduled (P : Platform) (hdvd : P.tmrHz ∣ 1000000000) {σ : Type}
    {exec : (e : CreateOp) → σ → Option (CreateAns e × σ)} {event : Sigevent} {s s' : σ}
    {timer : TimerInternal} (hthread : event.sigevNotify = .SIGEV_THREAD)
    (hcreate : (timerCreate (some event)).eval exec s = some ((.ret .ok, some timer), s'))
    (now : ℕ) (as : List Action) {w : World}
    (hrun : execute (step P) ⟨now, some timer, []⟩ as = some w) :
    Scheduled P (notification event) w := by
  have hnew : KeepsEvent event ⟨now, some timer, []⟩ := by
    rw [timerCreate_some hcreate]
    rintro _ ⟨⟩
    rfl
  have hkeep : KeepsEvent event w :=
    execute_always (fun _ _ _ h hs => step_keepsEvent h hs) hnew hrun
  constructor
  · intro flags value wantsOld v p w1 bs w2 hi hd hnz hv hv32 hp hp32 hs hq hrest
    obtain ⟨old, ht, -⟩ := Option.map_eq_some_iff.mp hs
    have hstart := settime_running hdvd hthread ht (hkeep old ht) hi hd hnz hv hv32 hp hp32 hs
    exact (hstart.run hthread hq hrest).notices
  · intro flags value wantsOld w1 bs w2 hz hs hq hrest
    obtain ⟨old, ht, rfl⟩ := Option.map_eq_some_iff.mp hs
    have hoff : Off w.notices
        { w with
          timer := some (timerSettime P w.now flags value wantsOld old).timer
          notices := w.notices ++ (timerSettime P w.now flags value wantsOld old).notices } := by
      simp [Off, timerSettime, hz]
    exact (hoff.run hq hrest).2
  · intro w1 bs w2 hs hq hrest
    obtain ⟨old, ht, rfl⟩ := Option.map_eq_some_iff.mp hs
    have hoff : Off w.notices { w with timer := none } := ⟨by simp, rfl⟩
    exact (hoff.run hq hrest).2

def willing : (e : CreateOp) → Unit → Option (CreateAns e × Unit)
  | .allocHook, s => some (true, s)
  | .alloc, s => some (true, s)
  | .memset _, s => some ((), s)

def callEvent : Sigevent := ⟨.SIGEV_THREAD, 7, 4096, none⟩

def armedSteps : List Action :=
  [.settime 0 ⟨⟨0, 2000000⟩, ⟨0, 3000000⟩⟩ false, .tick, .tick, .tick, .tick]

theorem timer_scheduled_call : ∃ w,
    execute (step platform1000) ⟨41, some ⟨none, callEvent, 0⟩, []⟩ armedSteps = some w ∧
    w.notices = [(44, .call 4096 7)] ∧ Scheduled platform1000 (.call 4096 7) w := by
  have hrun : ((execute (step platform1000) ⟨41, some ⟨none, callEvent, 0⟩, []⟩
      armedSteps).map fun w => w.notices) = some [(44, .call 4096 7)] := by
    decide +kernel
  obtain ⟨w, hw, hnotices⟩ := Option.map_eq_some_iff.mp hrun
  have hcreate : (timerCreate (some callEvent)).eval willing () =
      some ((.ret .ok, some ⟨none, callEvent, 0⟩), ()) := rfl
  exact ⟨w, hw, hnotices, timer_scheduled platform1000 (by decide) rfl hcreate 41 armedSteps hw⟩

end LibPosix.TimerSchedule
