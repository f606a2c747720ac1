import LibPosix.MqueueMessages
import LibPosix.Deadline
import LibPosix.Semaphore
import LibPosix.Mutex

/-! Timed calls whose deadline has passed. Every call turns such a deadline into a timeout in its
own way; here they are compared with the attempts that do not wait. -/
namespace LibPosix.ExpiredDeadlines
open Program TimeUtils Kernel Deadline Mqueue MqueueCalls MqueueMessages Semaphore Mutex
variable {T : Type} [DecidableEq T]

/-- The semaphore is known by its count; of the waits on an empty one only those end here that do
not block. -/
def semExec (tick : ℕ) : (e : SemOp) → ℕ → Option (SemAns e × ℕ)
  | .tmrTicks, n => some (tick, n)
  | .semGet ticks, n =>
    if 0 < n then some (true, n - 1) else if ticks = 0 then some (false, n) else none

structure Idle (mq : Ptr) (flags : OFlag) (s : Registry T) : Prop where
  free : s.mux = mutInit
  linked : mq ∈ s.allq
  flags : (s.obj mq).flags = flags

/-- A call with a deadline and a call that does not wait end in the same state, and both succeed
with the same value or both fail. -/
def SameOutcome {σ α β γ : Type} (f : α → Option γ) (g : β → Option γ) (timed : Option (α × σ))
    (prompt : Option (β × σ)) : Prop :=
  ∃ a b s, timed = some (a, s) ∧ prompt = some (b, s) ∧ f a = g b

def value (s : Status) : Option Unit := if s = .ok then some () else none

section Conversion
variable {P : Platform} {tick : ℕ} {D : Timespec}

/-- A deadline of right now is no ticks away, an earlier one has no ticks. -/
theorem absTimespec2ticks_expired (ht : tick < 2 ^ 32) (hD : validateTimespec D = true)
    (hpast : nanos D ≤ nanos (clockGettime P tick)) (r : ℕ) :
    absTimespec2ticks P D (clockGettime P tick) r =
      if nanos D = nanos (clockGettime P tick) then (.ok, 0) else (.ETIMEDOUT, r) := by
  split_ifs with heq
  · have hcmp : timespecCmp D (clockGettime P tick) = 0 := by
      rcases timespecCmp_cases hD (clockGettime_valid P ht) with ⟨_, h⟩ | ⟨_, h⟩ | ⟨h, _⟩
      · omega
      · omega
      · exact h
    have hcount : tickCount P ⟨0, 0⟩ = 0 := by simp [tickCount, ticksOfNsec]
    have hzero := timespec2ticks_count P (d := ⟨0, 0⟩) (by decide) hcount.ge
      (by rw [hcount]; norm_num) r
    simp [absTimespec2ticks, timespecSub, hcmp, hzero, hcount]
  · exact (absTimespec2ticks_past P ht hD r (by omega)).1

/-- Only a queue that never waits, or a deadline of right now, leads to an attempt. -/
theorem tickTimeout_expired (ht : tick < 2 ^ 32) (hD : validateTimespec D = true)
    (hpast : nanos D ≤ nanos (clockGettime P tick)) (flags : OFlag) :
    tickTimeout P flags (some D) tick =
      if flags.O_NONBLOCK = true ∨ nanos D = nanos (clockGettime P tick) then (.ok, 0)
      else (.ETIMEDOUT, 0) := by
  have hconv := absTimespec2ticks_expired ht hD hpast 0
  by_cases hn : flags.O_NONBLOCK = true
  · simp [tickTimeout, hn]
  · by_cases heq : nanos D = nanos (clockGettime P tick)
    · rw [if_pos heq] at hconv
      simp [tickTimeout, hn, hD, hconv, heq]
    · rw [if_neg heq] at hconv
      simp [tickTimeout, hn, hD, hconv, heq]

end Conversion

section Queues
variable {relock : Bool} {P : Platform} {t : T} {c : Env} {mq msgPtr : Ptr} {msgLen : ℕ}
  {abstime : Option Timespec} {flags : OFlag} {s : Registry T}

theorem mqPrepare_idle (hs : Idle mq flags s) (ha : msgPtr % 4 = 0) {badLen : ℕ → Bool}
    (hb : badLen (s.obj mq).q.isz = false) :
    (mqPrepare P mq msgPtr badLen abstime).eval (mqExec relock P t c) s =
      some (tickTimeout P flags abstime c.tick, s) := by
  have hback := withMux_back (t := t) hs.free
  have hlinked : mq ∈ (s.withMux ⟨some t, 1⟩).allq := hs.linked
  simp only [mqPrepare, Prog.eval_bind, Prog.eval_request, muxLock_free hs.free, Option.bind_some,
    mqExtractLocked_eval, if_pos hlinked]
  simp [ha, mqExec, hb, hs.flags, Prog.eval_bind, getTickTimeout_eval, hback]

section Receive
variable (hs : Idle mq flags s) (ha : msgPtr % 4 = 0) (hlen : (s.obj mq).q.isz ≤ msgLen)
include hs ha hlen

theorem mqTimedreceive_refused (htt : tickTimeout P flags abstime c.tick = (.ETIMEDOUT, 0)) :
    (mqTimedreceive P mq msgPtr msgLen abstime).eval (mqExec relock P t c) s =
      some (.error .ETIMEDOUT, s) := by
  have hprep : (mqPrepare P mq msgPtr (fun isz => decide (msgLen < isz)) abstime).eval
      (mqExec relock P t c) s = some (tickTimeout P flags abstime c.tick, s) :=
    mqPrepare_idle hs ha (by simpa using hlen)
  rw [htt] at hprep
  simp [mqTimedreceive, Prog.eval_bind, hprep]

/-- With no ticks to wait the call is the attempt itself. -/
theorem mqTimedreceive_attempt (htt : tickTimeout P flags abstime c.tick = (.ok, 0)) :
    (c.accept = true → ∃ s',
      (mqTimedreceive P mq msgPtr msgLen abstime).eval (mqExec relock P t c) s =
        some (.ok (s.obj mq).q.isz, s')) ∧
    SameOutcome Except.toOption (fun b : Bool => if b = true then some (s.obj mq).q.isz else none)
      ((mqTimedreceive P mq msgPtr msgLen abstime).eval (mqExec relock P t c) s)
      ((ask (.mqGet mq msgPtr 0)).eval (mqExec relock P t c) s) := by
  have hprep : (mqPrepare P mq msgPtr (fun isz => decide (msgLen < isz)) abstime).eval
      (mqExec relock P t c) s = some (tickTimeout P flags abstime c.tick, s) :=
    mqPrepare_idle hs ha (by simpa using hlen)
  rw [htt] at hprep
  cases hacc : c.accept with
  | true =>
    have hrun : (mqTimedreceive P mq msgPtr msgLen abstime).eval (mqExec relock P t c) s =
        some (.ok (s.obj mq).q.isz,
          s.modify mq fun o => { o with q := { o.q with n := o.q.n - 1 } }) := by
      simp [mqTimedreceive, Prog.eval_bind, hprep, mqExec, hacc]
    refine ⟨fun _ => ⟨_, hrun⟩, _, true, _, hrun, ?_, ?_⟩
    · simp [mqExec, hacc]
    · rfl
  | false =>
    obtain ⟨e, -, hfail⟩ := mqFailure_eval relock P t c s mq
    have hrun : (mqTimedreceive P mq msgPtr msgLen abstime).eval (mqExec relock P t c) s =
        some (.error e, s) := by
      simp [mqTimedreceive, Prog.eval_bind, hprep, mqExec, hacc, hfail]
    refine ⟨by simp, _, false, _, hrun, ?_, ?_⟩
    · simp [mqExec, hacc]
    · rfl

end Receive

section Send
variable (hs : Idle mq flags s) (ha : msgPtr % 4 = 0) (hlen : msgLen ≤ (s.obj mq).q.isz)
include hs ha hlen

theorem mqTimedsend_attempt (htt : tickTimeout P flags abstime c.tick = (.ok, 0)) :
    (c.accept = true → ∃ s',
      (mqTimedsend P mq msgPtr msgLen abstime).eval (mqExec relock P t c) s = some (.ok, s')) ∧
    SameOutcome value (fun b : Bool => if b = true then some () else none)
      ((mqTimedsend P mq msgPtr msgLen abstime).eval (mqExec relock P t c) s)
      ((ask (.mqPut mq msgPtr 0)).eval (mqExec relock P t c) s) := by
  have hprep : (mqPrepare P mq msgPtr (fun isz => decide (msgLen > isz)) abstime).eval
      (mqExec relock P t c) s = some (tickTimeout P flags abstime c.tick, s) :=
    mqPrepare_idle hs ha (by simpa using hlen)
  rw [htt] at hprep
  cases hacc : c.accept with
  | true =>
    have hrun : (mqTimedsend P mq msgPtr msgLen abstime).eval (mqExec relock P t c) s =
        some (.ok, s.modify mq fun o => { o with q := { o.q with n := o.q.n + 1 } }) := by
      simp [mqTimedsend, Prog.eval_bind, hprep, mqExec, hacc]
    refine ⟨fun _ => ⟨_, hrun⟩, _, true, _, hrun, ?_, ?_⟩
    · simp [mqExec, hacc]
    · rfl
  | false =>
    obtain ⟨e, he, hfail⟩ := mqFailure_eval relock P t c s mq
    have hrun : (mqTimedsend P mq msgPtr msgLen abstime).eval (mqExec relock P t c) s =
        some (e, s) := by
      simp [mqTimedsend, Prog.eval_bind, hprep, mqExec, hacc, hfail]
    refine ⟨by simp, _, false, _, hrun, ?_, ?_⟩
    · simp [mqExec, hacc]
    · simp [value, he]

end Send

end Queues

section Semaphores
variable {P : Platform} {tick : ℕ} {D : Timespec}

theorem semTimedwait_expired (ht : tick < 2 ^ 32) (hD : validateTimespec D = true)
    (hpast : nanos D ≤ nanos (clockGettime P tick)) (n : ℕ) :
    (semTimedwait P (some D)).eval (semExec tick) n =
      some (if 0 < n then .ok else .ETIMEDOUT, n - 1) := by
  have hconv := absTimespec2ticks_expired ht hD hpast P.WAIT
  by_cases heq : nanos D = nanos (clockGettime P tick)
  · rw [if_pos heq] at hconv
    by_cases hn : 0 < n
    · simp [semTimedwait, semTicks, hD, semExec, hconv, hn]
    · obtain rfl : n = 0 := by omega
      simp [semTimedwait, semTicks, hD, semExec, hconv]
  · rw [if_neg heq] at hconv
    by_cases hn : 0 < n
    · simp [semTimedwait, semTicks, hD, semExec, hconv, hn]
    · obtain rfl : n = 0 := by omega
      simp [semTimedwait, semTicks, hD, semExec, hconv]

theorem epoch_expired (P : Platform) (ht : tick < 2 ^ 32) :
    nanos ⟨0, 0⟩ ≤ nanos (clockGettime P tick) := by
  have hnow := (tick_count_bounds P ht).1
  rw [clockGettime_nanos P ht]
  exact hnow

end Semaphores

section Mutexes
variable {relock : Bool} {P : Platform} {t : T} {c : Outcome} {D : Timespec} {m : PthreadMutex T}

theorem pthreadMutexTimedlock_expired (ht : c.tick < 2 ^ 32) (hD : validateTimespec D = true)
    (hpast : nanos D ≤ nanos (clockGettime P c.tick)) (hm : m.inited = true) :
    (pthreadMutexTimedlock P (some D)).eval (fun e => mutexExec relock P t e c) m =
      (lockWithin .ok 0).eval (fun e => mutexExec relock P t e c) m := by
  have hconv := absTimespec2ticks_expired ht hD hpast c.garbage
  by_cases heq : nanos D = nanos (clockGettime P c.tick)
  · rw [if_pos heq] at hconv
    simp [pthreadMutexTimedlock, lockTicks, mutexExec, hm, hconv]
  · rw [if_neg heq] at hconv
    simp [pthreadMutexTimedlock, lockTicks, mutexExec, hm, hconv]

theorem lockWithin_status {r : Status} {ticks : ℕ} {m' : PthreadMutex T}
    (h : (lockWithin .ok ticks).eval (fun e => mutexExec relock P t e c) m = some (r, m')) :
    r = .ok ∨ r = .EDEADLK := by
  by_cases hown : m.type = .errorcheck ∧ m.mux.own = some t
  · simp [lockWithin, mutexExec, hown.1, hown.2] at h
    simp [← h.1]
  · have hlock : (lockWithin .ok ticks).eval (fun e => mutexExec relock P t e c) m =
        (mutexExec relock P t (.mutLock ticks) c m).bind fun x => some (.ok, x.2) := by
      by_cases htype : m.type = .errorcheck
      · have hne : ¬ m.mux.own = some t := fun heq => hown ⟨htype, heq⟩
        simp [lockWithin, mutexExec, htype, hne]
      · simp [lockWithin, mutexExec, htype]
    rw [hlock] at h
    obtain ⟨x, -, hx⟩ := Option.bind_eq_some_iff.mp h
    cases hx
    simp

theorem lockWithin_free (ticks : ℕ) (hfree : m.mux.own = none) :
    (lockWithin .ok ticks).eval (fun e => mutexExec relock P t e c) m =
      some (.ok, { m with mux := ⟨some t, 1⟩ }) := by
  by_cases htype : m.type = .errorcheck
  · simp [lockWithin, mutexExec, htype, hfree, mutLock]
  · simp [lockWithin, mutexExec, htype, hfree, mutLock]

end Mutexes

/-- A deadline that has passed refuses nothing that is to be had at once, and every call makes of
it what the attempt that does not wait makes. The kernel's `accept` is whether a queue has a
message to give, or room for one. -/
structure Prompt (T : Type) [DecidableEq T] (P : Platform) (tick : ℕ) (D : Timespec)
    (flags : OFlag) : Prop where
  receive : ∀ (relock : Bool) (t : T) (c : Env) (s : Registry T) (mq msgPtr : Ptr) (msgLen : ℕ),
    c.tick = tick → (c.accept = true ↔ 0 < (s.obj mq).q.n) → Idle mq flags s →
    msgPtr % 4 = 0 → (s.obj mq).q.isz ≤ msgLen →
      (0 < (s.obj mq).q.n → ∃ s', (mqTimedreceive P mq msgPtr msgLen (some D)).eval
        (mqExec relock P t c) s = some (.ok (s.obj mq).q.isz, s')) ∧
      SameOutcome Except.toOption
        (fun b : Bool => if b = true then some (s.obj mq).q.isz else none)
        ((mqTimedreceive P mq msgPtr msgLen (some D)).eval (mqExec relock P t c) s)
        ((Mqueue.ask (.mqGet mq msgPtr 0)).eval (mqExec relock P t c) s)
  send : ∀ (relock : Bool) (t : T) (c : Env) (s : Registry T) (mq msgPtr : Ptr) (msgLen : ℕ),
    c.tick = tick → Idle mq flags s → msgPtr % 4 = 0 → msgLen ≤ (s.obj mq).q.isz →
      (c.accept = true → ∃ s', (mqTimedsend P mq msgPtr msgLen (some D)).eval
        (mqExec relock P t c) s = some (.ok, s')) ∧
      SameOutcome value (fun b : Bool => if b = true then some () else none)
        ((mqTimedsend P mq msgPtr msgLen (some D)).eval (mqExec relock P t c) s)
        ((Mqueue.ask (.mqPut mq msgPtr 0)).eval (mqExec relock P t c) s)
  sem : ∀ n : ℕ,
    (0 < n → (semTimedwait P (some D)).eval (semExec tick) n = some (.ok, n - 1)) ∧
      SameOutcome value value ((semTimedwait P (some D)).eval (semExec tick) n)
        ((semTrywait P).eval (semExec tick) n)
  mutex : ∀ (relock : Bool) (t : T) (c : Outcome) (m : PthreadMutex T), c.tick = tick →
    m.inited = true →
      (m.mux.own = none →
        (pthreadMutexTimedlock P (some D)).eval (fun e => mutexExec relock P t e c) m =
          some (.ok, { m with mux := ⟨some t, 1⟩ })) ∧
      (pthreadMutexTimedlock P (some D)).eval (fun e => mutexExec relock P t e c) m =
        (pthreadMutexTrylock P).eval (fun e => mutexExec relock P t e c) m

section Results
variable {P : Platform} {tick : ℕ} {D : Timespec}

theorem semTrywait_eval (ht : tick < 2 ^ 32) (n : ℕ) :
    (semTrywait P).eval (semExec tick) n = some (if 0 < n then .ok else .EAGAIN, n - 1) := by
  rw [semTrywait, Prog.eval_bind,
    semTimedwait_expired ht (D := ⟨0, 0⟩) (by decide) (epoch_expired P ht)]
  split_ifs
  · rfl
  · rfl

theorem pthreadMutexTrylock_eval {relock : Bool} {t : T} {c : Outcome} {m : PthreadMutex T}
    (ht : c.tick < 2 ^ 32) (hm : m.inited = true) :
    (pthreadMutexTrylock P).eval (fun e => mutexExec relock P t e c) m =
      (lockWithin .ok 0).eval (fun e => mutexExec relock P t e c) m := by
  rw [pthreadMutexTrylock, Prog.eval_bind,
    pthreadMutexTimedlock_expired ht (D := ⟨0, 0⟩) (by decide) (epoch_expired P ht) hm]
  cases hrun : (lockWithin .ok 0).eval (fun e => mutexExec relock P t e c) m with
  | none => rfl
  | some r =>
    obtain ⟨r, m'⟩ := r
    rcases lockWithin_status hrun with rfl | rfl
    · rfl
    · rfl

def flagged (T : Type) (flags : OFlag) : Registry T :=
  ⟨true, mutInit, [1], fun _ => { zeroQueue with q := ⟨0, 4, 1⟩, flags := flags }, ∅⟩

omit [DecidableEq T] in
theorem flagged_idle (flags : OFlag) : Idle 1 flags (flagged T flags) :=
  ⟨rfl, List.mem_singleton_self 1, rfl⟩

/-- The calls are prompt for a deadline that has passed exactly if the queues never wait or the
deadline is the reading of the clock itself. -/
theorem expired_prompt_iff (t : T) (P : Platform) {tick : ℕ} (ht : tick < 2 ^ 32) {D : Timespec}
    (hD : validateTimespec D = true) (hpast : nanos D ≤ nanos (clockGettime P tick))
    (flags : OFlag) :
    Prompt T P tick D flags ↔
      flags.O_NONBLOCK = true ∨ nanos D = nanos (clockGettime P tick) := by
  have htimeout := tickTimeout_expired ht hD hpast flags
  constructor
  · intro h
    by_contra hn
    rw [if_neg hn] at htimeout
    have hrefused : (mqTimedreceive P 1 0 0 (some D)).eval
        (mqExec true P t ⟨none, none, tick, true⟩) (flagged T flags) =
          some (.error .ETIMEDOUT, flagged T flags) :=
      mqTimedreceive_refused (flagged_idle flags) rfl le_rfl htimeout
    have hmessage : 0 < ((flagged T flags).obj 1).q.n := Nat.one_pos
    obtain ⟨s', hok⟩ := (h.receive true t ⟨none, none, tick, true⟩ _ 1 0 0 rfl
      (iff_of_true rfl hmessage) (flagged_idle flags) rfl le_rfl).1 hmessage
    rw [hrefused] at hok
    cases hok
  · intro hok
    rw [if_pos hok] at htimeout
    constructor
    · intro relock t c s mq msgPtr msgLen hc hacc hs ha hlen
      subst hc
      rw [← hacc]
      exact mqTimedreceive_attempt hs ha hlen htimeout
    · intro relock t c s mq msgPtr msgLen hc hs ha hlen
      subst hc
      exact mqTimedsend_attempt hs ha hlen htimeout
    · intro n
      have htimed := semTimedwait_expired ht hD hpast n
      refine ⟨fun hn => by rw [htimed, if_pos hn], _, _, _, htimed, semTrywait_eval ht n, ?_⟩
      split_ifs
      · rfl
      · rfl
    · intro relock t c m hc hm
      subst hc
      rw [pthreadMutexTimedlock_expired ht hD hpast hm, pthreadMutexTrylock_eval ht hm]
      exact ⟨fun hfree => lockWithin_free 0 hfree, rfl⟩

/-- A deadline of one second at that second. -/
theorem expired_prompt_now : Prompt Unit platform1000 1000 ⟨1, 0⟩ ⟨false, false, false⟩ := by
  have ht : 1000 < 2 ^ 32 := by norm_num
  have hD : validateTimespec ⟨1, 0⟩ = true := by decide
  have hpast : nanos ⟨1, 0⟩ ≤ nanos (clockGettime platform1000 1000) := by decide
  exact (expired_prompt_iff () platform1000 ht hD hpast _).mpr (.inr (by decide))

/-- Two seconds after the start a message is waiting, and `mq_timedreceive` with a deadline one
second earlier gives up on it; `sem_timedwait` with the same deadline takes its unit. -/
theorem mqTimedreceive_gives_up :
    let c : Env := ⟨none, none, 2000, true⟩
    ((mqTimedreceive platform1000 1 0 0 (some ⟨1, 0⟩)).eval (mqExec true platform1000 () c)
        (flagged Unit ⟨false, false, false⟩)).map (·.1.toOption) = some none ∧
      ((Mqueue.ask (.mqGet 1 0 0)).eval (mqExec true platform1000 () c)
        (flagged Unit ⟨false, false, false⟩)).map (·.1) = some true ∧
      (semTimedwait platform1000 (some ⟨1, 0⟩)).eval (semExec 2000) 1 = some (.ok, 0) ∧
      ¬ Prompt Unit platform1000 2000 ⟨1, 0⟩ ⟨false, false, false⟩ := by
  intro c
  have hrefused : ((mqTimedreceive platform1000 1 0 0 (some ⟨1, 0⟩)).eval
      (mqExec true platform1000 () c) (flagged Unit ⟨false, false, false⟩)).map (·.1.toOption) =
        some none := by
    decide +kernel
  refine ⟨hrefused, by decide +kernel, by decide +kernel, fun h => ?_⟩
  have hmessage : 0 < ((flagged Unit ⟨false, false, false⟩).obj 1).q.n := Nat.one_pos
  obtain ⟨s', hok⟩ := (h.receive true () c _ 1 0 0 rfl (iff_of_true rfl hmessage)
    (flagged_idle _) rfl le_rfl).1 hmessage
  rw [hok] at hrefused
  cases hrefused

end Results

end LibPosix.ExpiredDeadlines
