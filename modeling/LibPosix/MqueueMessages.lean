import LibPosix.MqueueCalls
import LibPosix.Memory
import LibPosix.Fifo

/-! What a message queue carries: calls of `mq_send` and `mq_receive` on one queue, one after
another, with the memory the messages are read from and written to. The kernel moves whole items
of `isz` words, first in first out. -/
namespace LibPosix.MqueueMessages
open Program Transition TimeUtils Kernel MachineInt Mqueue MqueueCalls Memory Fifo
variable {T : Type} [DecidableEq T]

/-- A message as `mq_send` is given it: `msg_len` and the bytes at `msg_ptr`. -/
structure Message where
  len : ℕ
  bytes : List UInt8
  deriving DecidableEq, Repr

/-- What `mq_receive` hands out: the length it returns and the caller's buffer after it. -/
structure Delivery where
  ret : ℕ
  buf : List UInt8
  deriving DecidableEq, Repr

/-- The registry, the memory, the items in each kernel queue, and the messages of the successful
calls so far. -/
structure Exchange (T : Type) where
  reg : Registry T
  mem : ℕ → UInt8
  items : Ptr → List (List UInt8)
  sent : List Message
  received : List Delivery

namespace Exchange

@[simps] def withReg (r : Registry T) (x : Exchange T) : Exchange T := { x with reg := r }

@[simps] def withMem (m : ℕ → UInt8) (x : Exchange T) : Exchange T := { x with mem := m }

@[simps] def setItems (mq : Ptr) (items : List (List UInt8)) (x : Exchange T) : Exchange T :=
  { x with items := Function.update x.items mq items }

@[simps] def logSent (m : Message) (x : Exchange T) : Exchange T :=
  { x with sent := x.sent ++ [m] }

@[simps] def logReceived (d : Delivery) (x : Exchange T) : Exchange T :=
  { x with received := x.received ++ [d] }

def isz (mq : Ptr) (x : Exchange T) : ℕ := (x.reg.obj mq).q.isz

/-- What a kernel call that succeeded has moved. A queue without items has nothing to give. -/
def transfer : (e : MqOp) → MqAns e → Exchange T → Option (Exchange T)
  | .mqPut mq msg _, true, x =>
    some (x.setItems mq (x.items mq ++ [load x.mem msg (4 * x.isz mq)]))
  | .mqGet mq msg _, true, x =>
    match x.items mq with
    | [] => none
    | item :: items => some ((x.setItems mq items).withMem (store x.mem msg item))
  | _, _, x => some x

end Exchange

def msgExec (relock : Bool) (P : Platform) (t : T) (c : Env) (e : MqOp) (x : Exchange T) :
    Option (MqAns e × Exchange T) :=
  (mqExec relock P t c e x.reg).bind fun r =>
    (x.transfer e r.1).map fun x' => (r.1, x'.withReg r.2)

/-- Between the calls the memory is written as the callers like. -/
inductive MsgStep (T : Type) where
  | write (p : Ptr) (bytes : List UInt8)
  | mqSend (t : T) (c : Env) (msgPtr : Ptr) (msgLen : ℕ)
  | mqTimedsend (t : T) (c : Env) (msgPtr : Ptr) (msgLen : ℕ) (abstime : Option Timespec)
  | mqReceive (t : T) (c : Env) (msgPtr : Ptr) (msgLen : ℕ)
  | mqTimedreceive (t : T) (c : Env) (msgPtr : Ptr) (msgLen : ℕ) (abstime : Option Timespec)
  deriving DecidableEq, Repr

def finishSend (msgPtr : Ptr) (msgLen : ℕ) (x : Exchange T) (r : Status × Exchange T) :
    Exchange T :=
  if r.1 = .ok then r.2.logSent ⟨msgLen, load x.mem msgPtr msgLen⟩ else r.2

def finishReceive (msgPtr : Ptr) (msgLen : ℕ) (r : Except Status ℕ × Exchange T) : Exchange T :=
  match r.1 with
  | .ok ret => r.2.logReceived ⟨ret, load r.2.mem msgPtr msgLen⟩
  | .error _ => r.2

section Steps
variable (relock : Bool) (P : Platform) (mq : Ptr)

def msgStep (x : Exchange T) : MsgStep T → Option (Exchange T)
  | .write p bytes => some (x.withMem (store x.mem p bytes))
  | .mqSend t c msgPtr msgLen =>
    ((mqSend P mq msgPtr msgLen).eval (msgExec relock P t c) x).map
      (finishSend msgPtr msgLen x)
  | .mqTimedsend t c msgPtr msgLen abstime =>
    ((mqTimedsend P mq msgPtr msgLen abstime).eval (msgExec relock P t c) x).map
      (finishSend msgPtr msgLen x)
  | .mqReceive t c msgPtr msgLen =>
    ((mqReceive P mq msgPtr msgLen).eval (msgExec relock P t c) x).map
      (finishReceive msgPtr msgLen)
  | .mqTimedreceive t c msgPtr msgLen abstime =>
    ((mqTimedreceive P mq msgPtr msgLen abstime).eval (msgExec relock P t c) x).map
      (finishReceive msgPtr msgLen)

def tickTimeout (flags : OFlag) (timeout : Option Timespec) (tick : ℕ) : Status × ℕ :=
  if flags.O_NONBLOCK = true then (.ok, 0)
  else
    match timeout with
    | none => (.ok, P.WAIT)
    | some timeout =>
      if validateTimespec timeout = false then (.EINVAL, 0)
      else
        let conv := absTimespec2ticks P timeout (clockGettime P tick) 0
        if conv.1 ≠ .ok then (.ETIMEDOUT, conv.2) else conv

structure Ready (msgPtr : Ptr) (badLen : ℕ → Bool) (abstime : Option Timespec) (tick : ℕ)
    (s : Registry T) : Prop where
  found : mq ∈ s.allq
  aligned : msgPtr % 4 = 0
  fits : badLen (s.obj mq).q.isz = false
  timely : (tickTimeout P (s.obj mq).flags abstime tick).1 = .ok

instance decidableReady (msgPtr : Ptr) (badLen : ℕ → Bool) (abstime : Option Timespec) (tick : ℕ)
    (s : Registry T) : Decidable (Ready P mq msgPtr badLen abstime tick s) :=
  decidable_of_iff (mq ∈ s.allq ∧ msgPtr % 4 = 0 ∧ badLen (s.obj mq).q.isz = false ∧
      (tickTimeout P (s.obj mq).flags abstime tick).1 = .ok)
    ⟨fun ⟨hf, ha, hl, ht⟩ => ⟨hf, ha, hl, ht⟩, fun h => ⟨h.found, h.aligned, h.fits, h.timely⟩⟩

end Steps

/-- The requests that neither move a message nor change a queue. -/
def Checking : MqOp → Prop
  | .muxLock | .muxUnlock | .allq | .load _ | .tmrTicks => True
  | _ => False

section Checks
variable {relock : Bool} {P : Platform} {t : T} {c : Env} {mq msgPtr : Ptr}
  {abstime : Option Timespec} {s s' : Registry T}

theorem mqExtractLocked_checking : (mqExtractLocked mq).Asks Checking :=
  Prog.asks_request (e := MqOp.allq) trivial fun _ => Prog.asks_ret _

theorem getTickTimeout_checking (flags : OFlag) (timeout : Option Timespec) :
    (getTickTimeout P flags timeout 0).Asks Checking := by
  unfold getTickTimeout
  apply Prog.asks_ite (Prog.asks_ret _)
  cases timeout with
  | none => exact Prog.asks_ret _
  | some D =>
    apply Prog.asks_ite (Prog.asks_ret _)
    exact Prog.asks_request (e := MqOp.tmrTicks) trivial fun _ => Prog.asks_ret _

theorem mqPrepare_checking (badLen : ℕ → Bool) (abstime : Option Timespec) :
    (mqPrepare P mq msgPtr badLen abstime).Asks Checking := by
  have hunlock (conv : Status × ℕ) : Prog.Asks Checking (do
      ask .muxUnlock
      return conv : Prog MqOp MqAns (Status × ℕ)) :=
    Prog.asks_request (e := MqOp.muxUnlock) trivial fun _ => Prog.asks_ret conv
  have hconv (ret : Status) : Prog.Asks Checking (do
      let conv ←
        if ret = .ok then do
          getTickTimeout P (← ask (.load mq)).flags abstime 0
        else pure (ret, 0)
      ask .muxUnlock
      return conv : Prog MqOp MqAns (Status × ℕ)) := by
    apply Prog.asks_ite _ (hunlock _)
    exact Prog.asks_request (e := MqOp.load mq) trivial fun o =>
      (getTickTimeout_checking o.flags abstime).bind hunlock
  refine Prog.asks_request (e := MqOp.muxLock) trivial fun _ => ?_
  apply mqExtractLocked_checking.bind
  intro found
  apply Prog.asks_ite _ (hconv _)
  exact Prog.asks_request (e := MqOp.load mq) trivial fun _ => hconv _

theorem mqFailure_checking : (mqFailure mq).Asks Checking :=
  Prog.asks_request (e := MqOp.load mq) trivial fun _ => Prog.asks_ret _

theorem getTickTimeout_eval (flags : OFlag) :
    (getTickTimeout P flags abstime 0).eval (mqExec relock P t c) s =
      some (tickTimeout P flags abstime c.tick, s) := by
  by_cases hn : flags.O_NONBLOCK = true
  · simp [getTickTimeout, tickTimeout, hn]
  · cases abstime with
    | none => simp [getTickTimeout, tickTimeout, hn]
    | some timeout =>
      by_cases hv : validateTimespec timeout = false
      · simp [getTickTimeout, tickTimeout, hn, hv]
      · simp [getTickTimeout, tickTimeout, hn, hv, mqExec]

theorem mqPrepare_spec {badLen : ℕ → Bool} {conv : Status × ℕ}
    (h : (mqPrepare P mq msgPtr badLen abstime).eval (mqExec relock P t c) s = some (conv, s')) :
    (conv.1 = .ok ↔ Ready P mq msgPtr badLen abstime c.tick s) ∧ ∃ m, s' = s.withMux m := by
  rw [mqPrepare, Prog.eval_bind] at h
  obtain ⟨⟨u, s1⟩, hlock, h⟩ := Option.bind_eq_some_iff.mp h
  obtain ⟨m, rfl⟩ := muxLock_eval hlock
  simp only [Prog.eval_bind, mqExtractLocked_eval, Option.bind_some] at h
  by_cases ha : msgPtr % 4 = 0
  · by_cases hq : mq ∈ s.allq
    · by_cases hb : badLen (s.obj mq).q.isz = true
      · simp [ha, hq, hb, mqExec, Registry.withMux] at h
        obtain ⟨rfl, rfl⟩ := h
        refine ⟨iff_of_false (by simp) fun hr => ?_, _, rfl⟩
        simpa [hb] using hr.fits
      · simp [ha, hq, hb, mqExec, Registry.withMux, Prog.eval_bind, getTickTimeout_eval] at h
        obtain ⟨rfl, rfl⟩ := h
        exact ⟨⟨fun ht => ⟨hq, ha, by simpa using hb, ht⟩, fun hr => hr.timely⟩, _, rfl⟩
    · simp [ha, hq, mqExec, Registry.withMux] at h
      obtain ⟨rfl, rfl⟩ := h
      exact ⟨iff_of_false (by simp) fun hr => hq hr.found, _, rfl⟩
  · simp [ha, mqExec, Registry.withMux] at h
    obtain ⟨rfl, rfl⟩ := h
    exact ⟨iff_of_false (by simp) fun hr => ha hr.aligned, _, rfl⟩

theorem mqFailure_eval (relock : Bool) (P : Platform) (t : T) (c : Env) (s : Registry T)
    (mq : Ptr) : ∃ e, e ≠ .ok ∧ (mqFailure mq).eval (mqExec relock P t c) s = some (e, s) := by
  by_cases hn : (s.obj mq).flags.O_NONBLOCK = true
  · exact ⟨.EAGAIN, by simp, by simp [mqFailure, mqExec, hn]⟩
  · exact ⟨.ETIMEDOUT, by simp, by simp [mqFailure, mqExec, hn]⟩

end Checks

section Calls
variable {relock : Bool} {P : Platform} {t : T} {c : Env} {mq msgPtr : Ptr} {msgLen : ℕ}
  {abstime : Option Timespec} {x x' : Exchange T}

@[simp] theorem msgExec_load (q : Ptr) :
    msgExec relock P t c (.load q) x = some (x.reg.obj q, x) := rfl

theorem msgExec_checking {e : MqOp} (he : Checking e) (x : Exchange T) :
    msgExec relock P t c e x =
      (mqExec relock P t c e x.reg).map fun r => (r.1, x.withReg r.2) := by
  cases e with
  | muxLock =>
    simp only [msgExec, Exchange.transfer, Option.map_some]
    exact Option.map_eq_bind.symm
  | muxUnlock => rfl
  | allq => rfl
  | load mq => rfl
  | tmrTicks => rfl
  | _ => cases he

theorem msgExec_muxLock {u : Unit} (h : msgExec relock P t c .muxLock x = some (u, x')) :
    ∃ m, x' = x.withReg (x.reg.withMux m) := by
  have hlock : Checking .muxLock := trivial
  rw [msgExec_checking hlock] at h
  obtain ⟨⟨v, s⟩, hs, heq⟩ := Option.map_eq_some_iff.mp h
  cases heq
  obtain ⟨m, rfl⟩ := muxLock_some hs
  exact ⟨m, rfl⟩

/-- What asks for checks only does the same to the registry, and nothing else. -/
theorem eval_checking {α : Type} {q : Prog MqOp MqAns α} (hq : q.Asks Checking) (x : Exchange T) :
    q.eval (msgExec relock P t c) x =
      (q.eval (mqExec relock P t c) x.reg).map fun r => (r.1, x.withReg r.2) :=
  hq.eval_part Exchange.reg Exchange.withReg (fun _ _ => rfl) (fun _ _ _ => rfl) (fun _ => rfl)
    (fun _ x he => msgExec_checking he x) x

theorem mqPrepare_msg {badLen : ℕ → Bool} {conv : Status × ℕ}
    (h : (mqPrepare P mq msgPtr badLen abstime).eval (msgExec relock P t c) x = some (conv, x')) :
    (conv.1 = .ok ↔ Ready P mq msgPtr badLen abstime c.tick x.reg) ∧
      ∃ m, x' = x.withReg (x.reg.withMux m) := by
  rw [eval_checking (mqPrepare_checking badLen abstime)] at h
  obtain ⟨⟨r, s⟩, hr, heq⟩ := Option.map_eq_some_iff.mp h
  cases heq
  obtain ⟨hready, m, rfl⟩ := mqPrepare_spec hr
  exact ⟨hready, m, rfl⟩

section KernelCalls
variable (relock : Bool) (P : Platform) (t : T) (c : Env) (x : Exchange T)
  (mq msg : Ptr) (ticks : ℕ)

theorem mqFailure_msg : ∃ e, e ≠ .ok ∧
    (mqFailure mq).eval (msgExec relock P t c) x = some (e, x) := by
  obtain ⟨e, he, hrun⟩ := mqFailure_eval relock P t c x.reg mq
  refine ⟨e, he, ?_⟩
  rw [eval_checking mqFailure_checking, hrun]
  rfl

theorem mqPut_outcome :
    (∃ reg, (reg.obj mq).q.isz = x.isz mq ∧ msgExec relock P t c (.mqPut mq msg ticks) x =
      some (true, (x.setItems mq (x.items mq ++ [load x.mem msg (4 * x.isz mq)])).withReg reg)) ∨
    msgExec relock P t c (.mqPut mq msg ticks) x = some (false, x) := by
  cases hacc : c.accept with
  | true =>
    left
    refine ⟨x.reg.modify mq fun o => { o with q := { o.q with n := o.q.n + 1 } }, ?_, ?_⟩
    · simp [Exchange.isz]
    · simp [msgExec, mqExec, hacc, Exchange.transfer]
  | false =>
    right
    simp [msgExec, mqExec, hacc, Exchange.transfer]
    rfl

variable {relock P t c x mq msg ticks} in
theorem mqGet_outcome {r : Bool} {x' : Exchange T}
    (h : msgExec relock P t c (.mqGet mq msg ticks) x = some (r, x')) :
    (c.accept = true ∧ r = true ∧ ∃ item items reg, x.items mq = item :: items ∧
      (reg.obj mq).q.isz = x.isz mq ∧
      x' = ((x.setItems mq items).withMem (store x.mem msg item)).withReg reg) ∨
    (c.accept = false ∧ r = false ∧ x' = x) := by
  cases hacc : c.accept with
  | true =>
    simp only [msgExec, mqExec, hacc, if_true, Option.bind_some, Exchange.transfer] at h
    cases hitems : x.items mq with
    | nil => simp [hitems] at h
    | cons item items =>
      simp only [hitems, Option.map_some] at h
      cases h
      exact .inl ⟨rfl, rfl, item, items, _, rfl, by simp [Exchange.isz], rfl⟩
  | false =>
    simp only [msgExec, mqExec, hacc, Bool.false_eq_true, if_false, Option.bind_some,
      Exchange.transfer, Option.map_some] at h
    cases h
    exact .inr ⟨rfl, rfl, rfl⟩

end KernelCalls

/-- A call of `mq_timedsend` either puts one item, and returns 0, or moves nothing. -/
theorem mqTimedsend_spec {r : Status}
    (h : (mqTimedsend P mq msgPtr msgLen abstime).eval (msgExec relock P t c) x = some (r, x')) :
    (r = .ok ∧ msgLen ≤ x.isz mq ∧ ∃ reg, (reg.obj mq).q.isz = x.isz mq ∧
      x' = (x.setItems mq (x.items mq ++ [load x.mem msgPtr (4 * x.isz mq)])).withReg reg) ∨
    (r ≠ .ok ∧ ∃ reg, (reg.obj mq).q.isz = x.isz mq ∧ x' = x.withReg reg) := by
  rw [mqTimedsend, Prog.eval_bind] at h
  obtain ⟨⟨conv, x1⟩, hprep, h⟩ := Option.bind_eq_some_iff.mp h
  obtain ⟨hready, m, rfl⟩ := mqPrepare_msg hprep
  by_cases hok : conv.1 = .ok
  · have hfit : msgLen ≤ x.isz mq := by simpa [Exchange.isz] using (hready.mp hok).fits
    simp only [if_pos hok, Prog.eval_bind, Prog.eval_request] at h
    rcases mqPut_outcome relock P t c (x.withReg (x.reg.withMux m)) mq msgPtr conv.2 with
      ⟨reg, hreg, hput⟩ | hput
    · simp only [hput, Option.bind_some, if_true] at h
      cases h
      exact .inl ⟨rfl, hfit, reg, hreg, rfl⟩
    · obtain ⟨e, he, hfail⟩ := mqFailure_msg relock P t c (x.withReg (x.reg.withMux m)) mq
      simp only [hput, Option.bind_some, Bool.false_eq_true, if_false, hfail] at h
      cases h
      exact .inr ⟨he, x.reg.withMux m, rfl, rfl⟩
  · rw [if_neg hok] at h
    cases h
    exact .inr ⟨hok, x.reg.withMux m, rfl, rfl⟩

structure Takes (P : Platform) (mq msgPtr : Ptr) (msgLen : ℕ) (abstime : Option Timespec)
    (c : Env) (s : Registry T) : Prop where
  ready : Ready P mq msgPtr (fun isz => decide (msgLen < isz)) abstime c.tick s
  accept : c.accept = true

instance decidableTakes (s : Registry T) : Decidable (Takes P mq msgPtr msgLen abstime c s) :=
  decidable_of_iff (Ready P mq msgPtr (fun isz => decide (msgLen < isz)) abstime c.tick s ∧
      c.accept = true)
    ⟨fun ⟨hr, ha⟩ => ⟨hr, ha⟩, fun h => ⟨h.ready, h.accept⟩⟩

/-- A call of `mq_timedreceive` either takes the first item, and returns the item size, or moves
nothing. -/
theorem mqTimedreceive_spec {r : Except Status ℕ}
    (h : (mqTimedreceive P mq msgPtr msgLen abstime).eval (msgExec relock P t c) x =
      some (r, x')) :
    (Takes P mq msgPtr msgLen abstime c x.reg ∧ r = .ok (x.isz mq) ∧ ∃ item items reg,
      x.items mq = item :: items ∧ (reg.obj mq).q.isz = x.isz mq ∧
      x' = ((x.setItems mq items).withMem (store x.mem msgPtr item)).withReg reg) ∨
    (¬ Takes P mq msgPtr msgLen abstime c x.reg ∧ ∃ e reg, r = .error e ∧
      (reg.obj mq).q.isz = x.isz mq ∧ x' = x.withReg reg) := by
  rw [mqTimedreceive, Prog.eval_bind] at h
  obtain ⟨⟨conv, x1⟩, hprep, h⟩ := Option.bind_eq_some_iff.mp h
  obtain ⟨hready, m, rfl⟩ := mqPrepare_msg hprep
  by_cases hok : conv.1 = .ok
  · simp only [if_pos hok, Prog.eval_bind, Prog.eval_request] at h
    obtain ⟨⟨b, y⟩, hget, h⟩ := Option.bind_eq_some_iff.mp h
    rcases mqGet_outcome hget with
      ⟨hacc, rfl, item, items, reg, hitems, hreg, rfl⟩ | ⟨hacc, rfl, rfl⟩
    · simp only [if_true, Prog.eval_bind, Prog.eval_request, msgExec_load, Option.bind_some] at h
      cases h
      exact .inl ⟨⟨hready.mp hok, hacc⟩, congrArg _ hreg, item, items, reg, hitems, hreg, rfl⟩
    · obtain ⟨e, -, hfail⟩ := mqFailure_msg relock P t c (x.withReg (x.reg.withMux m)) mq
      simp only [Bool.false_eq_true, if_false, Prog.eval_bind, hfail, Option.bind_some] at h
      cases h
      exact .inr ⟨fun ht => by simpa [hacc] using ht.accept, e, x.reg.withMux m, rfl, rfl, rfl⟩
  · rw [if_neg hok] at h
    cases h
    exact .inr ⟨fun ht => hok (hready.mpr ht.ready), _, x.reg.withMux m, rfl, rfl, rfl⟩

end Calls

/-- The item carries the message: the kernel has copied `isz` words from its buffer. -/
structure Carries (isz : ℕ) (m : Message) (item : List UInt8) : Prop where
  fits : m.len ≤ isz
  length : item.length = 4 * isz
  bytes : m.bytes = item.take m.len

/-- What every delivery has to do with the message it delivers: it starts with the bytes of the
message, and its length is the item size. -/
structure Answers (isz : ℕ) (m : Message) (d : Delivery) : Prop where
  ret : d.ret = isz
  bytes : m.bytes <+: d.buf

/-- The kernel queue and the calls that returned stand for a channel of messages. -/
structure Sound (isz : ℕ) (mq : Ptr) (x : Exchange T) : Prop where
  size : x.isz mq = isz
  stands : ∃ ch, Stands (Carries isz) (Answers isz) ch x.sent (x.items mq) x.received

/-- The k-th successful receive returned the length passed to the k-th successful send, and its
buffer starts with exactly the bytes of that send. -/
def InOrder (x : Exchange T) : Prop :=
  ∀ (k : ℕ) (d : Delivery), x.received[k]? = some d →
    ∃ m, x.sent[k]? = some m ∧ d.ret = m.len ∧ m.bytes <+: d.buf

structure RoundTrips (isz : ℕ) (mq : Ptr) (x : Exchange T) : Prop where
  sound : Sound isz mq x
  inOrder : InOrder x

/-- The step is a call of `mq_receive` or `mq_timedreceive` that gets a message. -/
def Receives (P : Platform) (mq : Ptr) (x : Exchange T) : MsgStep T → Prop
  | .mqReceive _ c msgPtr msgLen => Takes P mq msgPtr msgLen none c x.reg
  | .mqTimedreceive _ c msgPtr msgLen abstime => Takes P mq msgPtr msgLen abstime c x.reg
  | _ => False

instance decidableReceives (P : Platform) (mq : Ptr) (x : Exchange T) :
    ∀ a, Decidable (Receives P mq x a)
  | .write .. | .mqSend .. | .mqTimedsend .. => .isFalse not_false
  | .mqReceive .. | .mqTimedreceive .. => decidableTakes x.reg

/-- The next message to be received was sent with a `msg_len` of the item size. -/
def FullNext (isz : ℕ) (x : Exchange T) : Prop :=
  ∀ m ∈ x.sent[x.received.length]?, m.len = isz

instance decidableFullNext (isz : ℕ) (x : Exchange T) : Decidable (FullNext isz x) :=
  inferInstanceAs (Decidable (∀ m ∈ x.sent[x.received.length]?, m.len = isz))

structure Moves (P : Platform) (isz : ℕ) (mq : Ptr) (x : Exchange T) (a : MsgStep T)
    (x' : Exchange T) : Prop where
  sound : Sound isz mq x'
  logs : (¬ Receives P mq x a ∧ x'.received = x.received ∧ x.sent <+: x'.sent) ∨
    (Receives P mq x a ∧ x'.sent = x.sent ∧ ∃ m d, x.sent[x.received.length]? = some m ∧
      d.ret = isz ∧ m.bytes <+: d.buf ∧ x'.received = x.received ++ [d])

section Runs
variable {relock : Bool} {P : Platform} {t : T} {c : Env} {mq msgPtr : Ptr} {msgLen isz : ℕ}
  {abstime : Option Timespec} {x x' : Exchange T} {a : MsgStep T}

theorem finishSend_moves (h : Sound isz mq x) {r : Status × Exchange T}
    (ha : ¬ Receives P mq x a)
    (hr : (mqTimedsend P mq msgPtr msgLen abstime).eval (msgExec relock P t c) x = some r) :
    Moves P isz mq x a (finishSend msgPtr msgLen x r) := by
  obtain ⟨ret, y⟩ := r
  obtain ⟨rfl, ch, hch⟩ := h
  rcases mqTimedsend_spec hr with ⟨rfl, hfit, reg, hreg, rfl⟩ | ⟨hne, reg, hreg, rfl⟩
  · have hcarry : Carries (x.isz mq) ⟨msgLen, load x.mem msgPtr msgLen⟩
        (load x.mem msgPtr (4 * x.isz mq)) :=
      ⟨hfit, length_load, (take_load (by omega)).symm⟩
    refine ⟨⟨hreg, ch.put ⟨msgLen, load x.mem msgPtr msgLen⟩, ?_⟩, .inl ⟨ha, rfl, ?_⟩⟩
    · simpa [finishSend] using hch.put hcarry
    · simp [finishSend]
  · rw [finishSend, if_neg hne]
    exact ⟨⟨hreg, ch, hch⟩, .inl ⟨ha, rfl, List.prefix_rfl⟩⟩

theorem finishReceive_moves (h : Sound isz mq x) {r : Except Status ℕ × Exchange T}
    (ha : Receives P mq x a ↔ Takes P mq msgPtr msgLen abstime c x.reg)
    (hr : (mqTimedreceive P mq msgPtr msgLen abstime).eval (msgExec relock P t c) x = some r) :
    Moves P isz mq x a (finishReceive msgPtr msgLen r) := by
  obtain ⟨ret, y⟩ := r
  obtain ⟨rfl, ch, hch⟩ := h
  rcases mqTimedreceive_spec hr with
    ⟨ht, rfl, item, items, reg, hitems, hreg, rfl⟩ | ⟨hn, e, reg, rfl, hreg, rfl⟩
  · rw [hitems] at hch
    obtain ⟨m, ch', -, hcarry, hm, hnext⟩ := hch.get
    have hlen : x.isz mq ≤ msgLen := by simpa [Exchange.isz] using ht.ready.fits
    have hbytes : m.bytes <+: load (store x.mem msgPtr item) msgPtr msgLen := by
      have hfit := hcarry.fits
      have hsize := hcarry.length
      have hback : load (store x.mem msgPtr item) msgPtr m.len = m.bytes := by
        rw [load_store (by omega), hcarry.bytes]
      rw [← hback, ← take_load (n := msgLen) (by omega)]
      exact List.take_prefix _ _
    refine ⟨⟨hreg, ch', ?_⟩, .inr ⟨ha.mpr ht, rfl, m, _, hm, rfl, hbytes, rfl⟩⟩
    simpa [finishReceive] using hnext _ ⟨rfl, hbytes⟩
  · exact ⟨⟨hreg, ch, hch⟩, .inl ⟨fun hra => hn (ha.mp hra), rfl, List.prefix_rfl⟩⟩

/-- One step: only a receive that gets a message adds to the deliveries, and it delivers the
oldest message that is left. -/
theorem msgStep_moves (h : Sound isz mq x)
    (hs : msgStep relock P mq x a = some x') : Moves P isz mq x a x' := by
  cases a with
  | write p bytes =>
    cases hs
    exact ⟨⟨h.size, h.stands⟩, .inl ⟨not_false, rfl, List.prefix_rfl⟩⟩
  | mqSend t c msgPtr msgLen =>
    obtain ⟨r, hr, rfl⟩ := Option.map_eq_some_iff.mp hs
    exact finishSend_moves h not_false hr
  | mqTimedsend t c msgPtr msgLen abstime =>
    obtain ⟨r, hr, rfl⟩ := Option.map_eq_some_iff.mp hs
    exact finishSend_moves h not_false hr
  | mqReceive t c msgPtr msgLen =>
    obtain ⟨r, hr, rfl⟩ := Option.map_eq_some_iff.mp hs
    exact finishReceive_moves h Iff.rfl hr
  | mqTimedreceive t c msgPtr msgLen abstime =>
    obtain ⟨r, hr, rfl⟩ := Option.map_eq_some_iff.mp hs
    exact finishReceive_moves h Iff.rfl hr

omit [DecidableEq T] in
theorem Moves.inOrder (h : Moves P isz mq x a x') (hx : InOrder x)
    (hfull : Receives P mq x a → FullNext isz x) : InOrder x' := by
  intro k d hd
  rcases h.logs with ⟨-, hrec, hsent⟩ | ⟨hr, hsent, m, d', hm, hret, hbytes, hrec⟩
  · rw [hrec] at hd
    obtain ⟨m, hm, hdm⟩ := hx k d hd
    obtain ⟨rest, hrest⟩ := hsent
    obtain ⟨hk, -⟩ := List.getElem?_eq_some_iff.mp hm
    exact ⟨m, by rw [← hrest, List.getElem?_append_left hk, hm], hdm⟩
  · rw [hrec] at hd
    rw [hsent]
    rcases lt_trichotomy k x.received.length with hk | rfl | hk
    · rw [List.getElem?_append_left hk] at hd
      exact hx k d hd
    · simp at hd
      subst hd
      exact ⟨m, hm, hret.trans (hfull hr m hm).symm, hbytes⟩
    · have hnone : (x.received ++ [d'])[k]? = none := List.getElem?_eq_none (by simpa using hk)
      simp [hnone] at hd

omit [DecidableEq T] in
theorem Moves.not_inOrder (h : Moves P isz mq x a x')
    (hn : ¬ (Receives P mq x a → FullNext isz x)) : ¬ InOrder x' := by
  intro hx
  rcases h.logs with ⟨hr, -⟩ | ⟨-, hsent, m, d, hm, hret, -, hrec⟩
  · exact hn fun hr' => absurd hr' hr
  · obtain ⟨m', hm', hlen, -⟩ := hx x.received.length d (by simp [hrec])
    rw [hsent, hm] at hm'
    cases hm'
    refine hn fun _ m' hm' => ?_
    rw [hm] at hm'
    cases hm'
    exact hlen.symm.trans hret

/-- Whatever lengths the messages have, no byte of them is lost or out of order, and every
receive returns the item size. -/
theorem sound_execute {as : List (MsgStep T)} (h : Sound isz mq x)
    (hrun : execute (msgStep relock P mq) x as = some x') : Sound isz mq x' :=
  execute_always (fun _ _ _ hy hs => (msgStep_moves hy hs).sound) h hrun

end Runs

section Opening
variable {relock : Bool} {P : Platform} {t : T} {c : Env} {mq : Ptr} {name : CString}
  {oflag : OFlag} {s s' : Registry T}

theorem mqOpen_queue {attr : Option MqAttr} (hi : s.inited = true) (hf : s.find name = none)
    (h : (mqOpen P name oflag attr).eval (mqExec relock P t c) s = some (.ok mq, s')) :
    (s'.obj mq).q = createdQueue P (attr.getD defAttr) := by
  by_cases hbad : validateName name = false ∨ validateAttr attr = false
  · rw [mqOpen_refused hi hbad] at h
    cases h
  simp only [not_or, Bool.not_eq_false] at hbad
  by_cases hc : oflag.O_CREAT = true
  · obtain ⟨-, ⟨-, hr⟩ | ⟨q, b, -, -, hr, -, -, hobj⟩⟩ := mqOpen_create hi hbad.1 hbad.2 hf hc h
    · cases hr
    · obtain rfl : mq = q := Except.ok.inj hr
      rw [hobj]
      rfl
  · obtain ⟨m, hr, -⟩ := mqOpen_missing hi hbad.1 hbad.2 hf (by simpa using hc) h
    cases hr

/-- A queue on the list as `mq_open` has created it, before its first message. -/
structure Opened (P : Platform) (attr : MqAttr) (mq : Ptr) (x : Exchange T) : Prop where
  linked : mq ∈ x.reg.allq
  queue : (x.reg.obj mq).q = createdQueue P attr
  items : x.items mq = []
  sent : x.sent = []
  received : x.received = []

def linkedExchange (mq : Ptr) (s : Registry T) : Exchange T where
  reg := { s with allq := mq :: s.allq }
  mem _ := 0
  items _ := []
  sent := []
  received := []

theorem opened_of_mqOpen {attr : Option MqAttr} (hi : s.inited = true) (hf : s.find name = none)
    (h : (mqOpen P name oflag attr).eval (mqExec relock P t c) s = some (.ok mq, s')) :
    Opened P (attr.getD defAttr) mq (linkedExchange mq s') where
  linked := List.mem_cons_self
  queue := by
    have hq : (s'.obj mq).q = createdQueue P (attr.getD defAttr) := mqOpen_queue hi hf h
    simpa [linkedExchange] using hq
  items := rfl
  sent := rfl
  received := rfl

end Opening

section RoundTrip
variable {relock : Bool} {P : Platform} {mq : Ptr} {attr : MqAttr} {x x' : Exchange T}

omit [DecidableEq T] in
theorem Opened.sound (h : Opened P attr mq x) : Sound (createdQueue P attr).isz mq x := by
  refine ⟨congrArg Mq.isz h.queue, Channel.empty, ?_⟩
  rw [h.items, h.sent, h.received]
  exact stands_empty

omit [DecidableEq T] in
theorem Opened.inOrder (h : Opened P attr mq x) : InOrder x := by
  intro k d hd
  simp [h.received] at hd

theorem received_bytes (hx : Opened P attr mq x) {as : List (MsgStep T)}
    (hrun : execute (msgStep relock P mq) x as = some x') {k : ℕ} {d : Delivery}
    (hd : x'.received[k]? = some d) :
    ∃ m, x'.sent[k]? = some m ∧ m.bytes <+: d.buf ∧ d.ret = (createdQueue P attr).isz := by
  obtain ⟨-, ch, hch⟩ := sound_execute hx.sound hrun
  obtain ⟨m, hm, hans⟩ := hch.answers hd
  exact ⟨m, hm, hans.bytes, hans.ret⟩

/-- In every run on a queue that has just been opened, all receives return the lengths and the
bytes of the sends in their order exactly as long as every message received was sent with the
full length of an item, counted in words. -/
theorem mqueue_inOrder_iff (relock : Bool) (P : Platform) {attr : MqAttr} {mq : Ptr}
    {x x' : Exchange T} (hx : Opened P attr mq x) {as : List (MsgStep T)}
    (hrun : execute (msgStep relock P mq) x as = some x') :
    Throughout (msgStep relock P mq) InOrder x as ↔
      Meets (msgStep relock P mq)
        (fun y a => Receives P mq y a → FullNext (createdQueue P attr).isz y) x as := by
  have hinOrder : ∀ y : Exchange T, RoundTrips (createdQueue P attr).isz mq y → InOrder y :=
    fun _ hy => hy.inOrder
  apply throughout_iff_meets ?_ hinOrder ?_ ⟨hx.sound, hx.inOrder⟩ hrun
  · intro y a y' hy hok hs
    have hmoves := msgStep_moves hy.sound hs
    exact ⟨hmoves.sound, hmoves.inOrder hy.inOrder hok⟩
  · intro y a y' hy hbad hs
    exact (msgStep_moves hy.sound hs).not_inOrder hbad

def attr16 : MqAttr := ⟨⟨false, false, false⟩, 1, 16, 0⟩

def freshExchange (P : Platform) (attr : MqAttr) (mq : Ptr) : Exchange Unit where
  reg := ⟨true, mutInit, [mq], fun _ => { zeroQueue with q := createdQueue P attr },
    {(.POSIX_MQUEUE, mq)}⟩
  mem _ := 0
  items _ := []
  sent := []
  received := []

theorem freshExchange_opened (P : Platform) (attr : MqAttr) (mq : Ptr) :
    Opened P attr mq (freshExchange P attr mq) :=
  ⟨List.mem_singleton_self mq, rfl, rfl, rfl, rfl⟩

/-- A queue of 2 messages of 16 bytes is created, and gets the pointer 1. -/
def createQueue : Option (Except Status Ptr × Registry Unit) :=
  (mqOpen platform1000 nameQ ⟨true, false, false⟩ (some { attr16 with mqMaxmsg := 2 })).eval
    (mqExec true platform1000 () ⟨some 1, some 2, 4, true⟩) emptyRegistry

/-- Two messages are waiting when the first is received, and a third is sent after that. -/
def threeMessages : List (MsgStep Unit) :=
  [.write 64 [7, 8, 9, 10], .mqSend () ⟨none, none, 5, true⟩ 64 4,
    .write 64 [1, 2, 3, 4], .mqTimedsend () ⟨none, none, 6, true⟩ 64 4 (some ⟨1, 0⟩),
    .mqReceive () ⟨none, none, 7, true⟩ 128 5,
    .write 64 [5, 5, 5, 5], .mqSend () ⟨none, none, 8, true⟩ 64 4,
    .mqTimedreceive () ⟨none, none, 9, true⟩ 128 4 (some ⟨1, 0⟩),
    .mqReceive () ⟨none, none, 9, true⟩ 192 6]

def roundTrip (bytes : List UInt8) : List (MsgStep Unit) :=
  [.write 64 bytes, .mqSend () ⟨none, none, 5, true⟩ 64 bytes.length,
    .mqReceive () ⟨none, none, 6, true⟩ 128 16]

theorem mqueue_inOrder_three : ∃ s x,
    createQueue = some (.ok 1, s) ∧
    execute (msgStep true platform1000 1) (linkedExchange 1 s) threeMessages = some x ∧
    x.received = [⟨4, [7, 8, 9, 10, 0]⟩, ⟨4, [1, 2, 3, 4]⟩, ⟨4, [5, 5, 5, 5, 0, 0]⟩] ∧
    Throughout (msgStep true platform1000 1) InOrder (linkedExchange 1 s) threeMessages := by
  have hout : (createQueue.map fun r => (r.1,
      (execute (msgStep true platform1000 1) (linkedExchange 1 r.2) threeMessages).map
        Exchange.received,
      decide (Meets (msgStep true platform1000 1)
        (fun y a => Receives platform1000 1 y a → FullNext 4 y) (linkedExchange 1 r.2)
        threeMessages))) =
      some (.ok 1,
        some [⟨4, [7, 8, 9, 10, 0]⟩, ⟨4, [1, 2, 3, 4]⟩, ⟨4, [5, 5, 5, 5, 0, 0]⟩], true) := by
    decide +kernel
  obtain ⟨⟨ret, s⟩, hopen, hr⟩ := Option.map_eq_some_iff.mp hout
  obtain ⟨rfl, hr⟩ := Prod.mk.inj hr
  obtain ⟨hruns, hmeets⟩ := Prod.mk.inj hr
  obtain ⟨x, hrun, hreceived⟩ := Option.map_eq_some_iff.mp hruns
  exact ⟨s, x, hopen, hrun, hreceived,
    (mqueue_inOrder_iff true platform1000 (opened_of_mqOpen rfl rfl hopen) hrun).mpr
      (of_decide_eq_true hmeets)⟩

/-- Of three bytes sent the receiver is told that they are four. -/
theorem mqReceive_returns_isz :
    Opened platform1000 attr16 1 (freshExchange platform1000 attr16 1) ∧ ∃ x,
    execute (msgStep true platform1000 1) (freshExchange platform1000 attr16 1)
      (roundTrip [7, 8, 9]) = some x ∧
    x.sent = [⟨3, [7, 8, 9]⟩] ∧
    x.received = [⟨4, [7, 8, 9, 0, 0, 0, 0, 0, 0, 0, 0, 0, 0, 0, 0, 0]⟩] ∧
    ¬ InOrder x := by
  have hout : ((execute (msgStep true platform1000 1) (freshExchange platform1000 attr16 1)
      (roundTrip [7, 8, 9])).map fun x => (x.sent, x.received)) =
        some ([⟨3, [7, 8, 9]⟩],
          [⟨4, [7, 8, 9, 0, 0, 0, 0, 0, 0, 0, 0, 0, 0, 0, 0, 0]⟩]) := by
    decide +kernel
  obtain ⟨x, hrun, hx⟩ := Option.map_eq_some_iff.mp hout
  obtain ⟨hsent, hreceived⟩ := Prod.mk.inj hx
  refine ⟨freshExchange_opened _ _ _, x, hrun, hsent, hreceived, fun hin => ?_⟩
  have hd : x.received[0]? =
      some ⟨4, [7, 8, 9, 0, 0, 0, 0, 0, 0, 0, 0, 0, 0, 0, 0, 0]⟩ := by
    rw [hreceived]
    rfl
  -- The length is the item size whatever was sent, so it cannot be the 3 of this message.
  obtain ⟨m, hm, hlen, -⟩ := hin 0 _ hd
  obtain ⟨-, -, -, hret⟩ := received_bytes (freshExchange_opened _ _ _) hrun hd
  have hthree : m = ⟨3, [7, 8, 9]⟩ := by simpa [hsent, eq_comm] using hm
  have hisz : m.len = (createdQueue platform1000 attr16).isz := hlen.symm.trans hret
  rw [hthree] at hisz
  exact absurd hisz (by decide)

end RoundTrip

end LibPosix.MqueueMessages
