import LibPosix.MqueueMessages
import LibPosix.MqueueRegistry
import LibPosix.Linearizability

/-! Messages that many threads send and receive at once, while no queue is opened, closed or
unlinked. The lock is free again when the kernel is called, so that a call may find the queue
other than its checks did; still every call acts at one moment on a set of bounded mailboxes. -/
namespace LibPosix.MqueueTransfers
open Program ThreadPool Transition TimeUtils Kernel MachineInt Mqueue MqueueCalls Memory
open MqueueMessages (Exchange msgExec)
open MqueueRegistry (MqRes mqCode)
open PoolHistory Linearizability
variable {T : Type} [DecidableEq T]

/-- What does not change about a queue while messages are moved. -/
structure Box where
  flags : OFlag
  isz : ℕ
  sz : ℕ
  deriving DecidableEq, Repr

def Box.ofObj (o : MqdInternal) : Box := ⟨o.flags, o.q.isz, o.q.sz⟩

/-- What a call reports that finds no room, or no item. -/
def Box.failure (b : Box) : Status := if b.flags.O_NONBLOCK = true then .EAGAIN else .ETIMEDOUT

def Box.attr (P : Platform) (n : ℕ) (b : Box) : MqAttr :=
  ⟨b.flags, signed P.longBits b.sz, signed P.longBits b.isz, signed P.longBits n⟩

def boxOf (s : Registry T) (q : Ptr) : Option Box :=
  if q ∈ s.allq then some (.ofObj (s.obj q)) else none

omit [DecidableEq T] in
theorem boxOf_some {s : Registry T} {q : Ptr} {b : Box} (h : boxOf s q = some b) :
    q ∈ s.allq ∧ b = .ofObj (s.obj q) := by
  rw [boxOf] at h
  split_ifs at h with hq
  exact ⟨hq, (Option.some.inj h).symm⟩

/-- The memory and the items in each mailbox, of which there are never too many. -/
@[ext] structure Mail (room : ℕ → ℕ → ℕ) (boxes : Ptr → Option Box) where
  mem : ℕ → UInt8
  items : Ptr → List (List UInt8)
  bounded : ∀ q b, boxes q = some b → (items q).length ≤ room b.isz b.sz
  sized : ∀ q b, boxes q = some b → ∀ item ∈ items q, item.length = 4 * b.isz

structure Transfer where
  mq : Ptr
  msgPtr : Ptr
  msgLen : ℕ
  abstime : Option Timespec
  deriving DecidableEq, Repr

inductive Job where
  | write (p : Ptr) (bytes : List UInt8)
  | getattr (mq : Ptr)
  | send (τ : Transfer)
  | receive (τ : Transfer)
  deriving DecidableEq, Repr

inductive MailCall where
  | write (p : Ptr) (bytes : List UInt8)
  | mqGetattr (mq : Ptr)
  | mqSend (mq msgPtr : Ptr) (msgLen : ℕ)
  | mqTimedsend (mq msgPtr : Ptr) (msgLen : ℕ) (abstime : Option Timespec)
  | mqReceive (mq msgPtr : Ptr) (msgLen : ℕ)
  | mqTimedreceive (mq msgPtr : Ptr) (msgLen : ℕ) (abstime : Option Timespec)
  deriving DecidableEq, Repr

def MailCall.job : MailCall → Job
  | .write p bytes => .write p bytes
  | .mqGetattr mq => .getattr mq
  | .mqSend mq msgPtr msgLen => .send ⟨mq, msgPtr, msgLen, none⟩
  | .mqTimedsend mq msgPtr msgLen abstime => .send ⟨mq, msgPtr, msgLen, abstime⟩
  | .mqReceive mq msgPtr msgLen => .receive ⟨mq, msgPtr, msgLen, none⟩
  | .mqTimedreceive mq msgPtr msgLen abstime => .receive ⟨mq, msgPtr, msgLen, abstime⟩

/-- The clock shows some time at which this deadline cannot be waited for. -/
def Hopeless (P : Platform) (D : Timespec) : Prop :=
  ∃ tick < 2 ^ 32, (absTimespec2ticks P D (clockGettime P tick) 0).1 ≠ .ok

structure Passes (b : Box) (badLen : ℕ → Bool) (τ : Transfer) : Prop where
  aligned : τ.msgPtr % 4 = 0
  fits : badLen b.isz = false
  timely : b.flags.O_NONBLOCK = false → ∀ D, τ.abstime = some D → validateTimespec D = true

inductive Refuses (P : Platform) (boxes : Ptr → Option Box) (badLen : ℕ → Bool) (τ : Transfer) :
    Status → Prop
  | misaligned (h : τ.msgPtr % 4 ≠ 0) : Refuses P boxes badLen τ .EINVAL
  | unknown (ha : τ.msgPtr % 4 = 0) (h : boxes τ.mq = none) : Refuses P boxes badLen τ .EBADF
  | length {b : Box} (ha : τ.msgPtr % 4 = 0) (hb : boxes τ.mq = some b)
      (h : badLen b.isz = true) : Refuses P boxes badLen τ .EMSGSIZE
  | malformed {b : Box} {D : Timespec} (ha : τ.msgPtr % 4 = 0) (hb : boxes τ.mq = some b)
      (hl : badLen b.isz = false) (hn : b.flags.O_NONBLOCK = false) (hD : τ.abstime = some D)
      (h : validateTimespec D = false) : Refuses P boxes badLen τ .EINVAL
  | hopeless {b : Box} {D : Timespec} (hb : boxes τ.mq = some b) (hp : Passes b badLen τ)
      (hn : b.flags.O_NONBLOCK = false) (hD : τ.abstime = some D) (h : Hopeless P D) :
      Refuses P boxes badLen τ .ETIMEDOUT

def badSend (τ : Transfer) (isz : ℕ) : Bool := decide (τ.msgLen > isz)

def badReceive (τ : Transfer) (isz : ℕ) : Bool := decide (τ.msgLen < isz)

section Mailboxes
variable {room : ℕ → ℕ → ℕ} {boxes : Ptr → Option Box}

/-- The call gives up: it may not wait, or not for ever. -/
def GivesUp (b : Box) (τ : Transfer) (v : MqRes) : Prop :=
  v = .status b.failure ∧ (b.flags.O_NONBLOCK = true ∨ τ.abstime ≠ none)

/-- Sending takes one item from the memory, as long as there is room. -/
inductive Sends (τ : Transfer) (b : Box) (a : Mail room boxes) : MqRes → Mail room boxes → Prop
  | put {a' : Mail room boxes} (h : (a.items τ.mq).length < room b.isz b.sz)
      (hm : a'.mem = a.mem) (hi : a'.items = Function.update a.items τ.mq
        (a.items τ.mq ++ [load a.mem τ.msgPtr (4 * b.isz)])) : Sends τ b a (.status .ok) a'
  | full {v : MqRes} (h : (a.items τ.mq).length = room b.isz b.sz) (hv : GivesUp b τ v) :
      Sends τ b a v a

/-- Receiving takes the item that has been there longest to the memory. -/
inductive Receives (τ : Transfer) (b : Box) (a : Mail room boxes) :
    MqRes → Mail room boxes → Prop
  | get {a' : Mail room boxes} {item : List UInt8} {items : List (List UInt8)}
      (h : a.items τ.mq = item :: items) (hm : a'.mem = store a.mem τ.msgPtr item)
      (hi : a'.items = Function.update a.items τ.mq items) :
      Receives τ b a (.length b.isz) a'
  | empty {v : MqRes} (h : a.items τ.mq = []) (hv : GivesUp b τ v) : Receives τ b a v a

def serve (P : Platform) : Job → Mail room boxes → MqRes → Mail room boxes → Prop
  | .write p bytes, a, v, a' =>
    v = .status .ok ∧ a'.mem = store a.mem p bytes ∧ a'.items = a.items
  | .getattr q, a, v, a' => a' = a ∧
    v = match boxes q with
      | none => .status .EBADF
      | some b => .attr (b.attr P (a.items q).length)
  | .send τ, a, v, a' =>
    (a' = a ∧ ∃ e, v = .status e ∧ Refuses P boxes (badSend τ) τ e) ∨
      ∃ b, boxes τ.mq = some b ∧ Passes b (badSend τ) τ ∧ Sends τ b a v a'
  | .receive τ, a, v, a' =>
    (a' = a ∧ ∃ e, v = .status e ∧ Refuses P boxes (badReceive τ) τ e) ∨
      ∃ b, boxes τ.mq = some b ∧ Passes b (badReceive τ) τ ∧ Receives τ b a v a'

def mailboxes (P : Platform) : Object (Mail room boxes) T MailCall MqRes :=
  fun _ k => serve P k.job

end Mailboxes

inductive MailOp where
  | mq (e : MqOp)
  | write (p : Ptr) (bytes : List UInt8)
  deriving DecidableEq, Repr

abbrev MailAns : MailOp → Type
  | .mq e => MqAns e
  | .write .. => Unit

def kernelCall (e : MqOp) : Prog MailOp MailAns (MqAns e) := Prog.request (R := MailAns) (.mq e)

def mailCode (P : Platform) : MailCall → Prog MailOp MailAns MqRes
  | .write p bytes => do
    Prog.request (R := MailAns) (.write p bytes)
    return .status .ok
  | .mqGetattr mq => (mqCode P (.mqGetattr mq)).interp kernelCall
  | .mqSend mq msgPtr msgLen => (mqCode P (.mqSend mq msgPtr msgLen)).interp kernelCall
  | .mqTimedsend mq msgPtr msgLen abstime =>
    (mqCode P (.mqTimedsend mq msgPtr msgLen abstime)).interp kernelCall
  | .mqReceive mq msgPtr msgLen => (mqCode P (.mqReceive mq msgPtr msgLen)).interp kernelCall
  | .mqTimedreceive mq msgPtr msgLen abstime =>
    (mqCode P (.mqTimedreceive mq msgPtr msgLen abstime)).interp kernelCall

/-- The tick counter, and whether a wait runs out now. -/
structure Choice where
  tick : Fin (2 ^ 32)
  expire : Bool
  deriving DecidableEq, Repr

/-- The kernel queue can serve the request at once. -/
def admits (room : ℕ → ℕ → ℕ) (x : Exchange T) : MqOp → Bool
  | .mqPut mq _ _ =>
    decide ((x.items mq).length < room (x.reg.obj mq).q.isz (x.reg.obj mq).q.sz)
  | .mqGet mq _ _ => !(x.items mq).isEmpty
  | _ => true

def expires (P : Platform) (c : Choice) : MqOp → Bool
  | .mqPut _ _ ticks | .mqGet _ _ ticks => decide (ticks ≠ P.WAIT) && c.expire
  | _ => false

/-- A request that the kernel queue cannot serve waits until it can, or until it runs out. -/
def mailExec (relock : Bool) (P : Platform) (room : ℕ → ℕ → ℕ) (t : T) :
    (e : MailOp) → Choice → Exchange T → Option (MailAns e × Exchange T)
  | .mq e, c, x =>
    if admits room x e = true then msgExec relock P t ⟨none, none, c.tick, true⟩ e x
    else if expires P c e = true then msgExec relock P t ⟨none, none, c.tick, false⟩ e x
    else none
  | .write p bytes, _, x => some ((), x.withMem (store x.mem p bytes))

def mailSystem (relock : Bool) (P : Platform) (room : ℕ → ℕ → ℕ) :
    System T MailOp MailAns Choice (Exchange T) MailCall MqRes where
  code _ k := mailCode P k
  exec := mailExec relock P room
  enter _ _ x := some x
  leave _ _ _ x := x

/-- What a thread knows of its call: the value it will return, once the call has taken effect. -/
structure Local where
  job : Job
  done : Option MqRes

/-- `mq_getattr` takes effect when it reads the object. -/
def Local.read (P : Platform) (o : MqdInternal) (l : Local) : Local :=
  match l.job with
  | .getattr _ => { l with done := some (.attr ((Box.ofObj o).attr P o.q.n)) }
  | _ => l

/-- All checks are passed; only a call that may wait for ever says so to the kernel. -/
def Asks (P : Platform) (boxes : Ptr → Option Box) (badLen : ℕ → Bool) (τ : Transfer)
    (ticks : ℕ) : Prop :=
  ∃ b, boxes τ.mq = some b ∧ Passes b badLen τ ∧
    (b.flags.O_NONBLOCK = false → τ.abstime = none → ticks = P.WAIT)

def moving (P : Platform) (boxes : Ptr → Option Box) : Protocol MqOp MqAns Local where
  safe
    | _, .loadInited | _, .muxLock | _, .muxUnlock | _, .allq | _, .tmrTicks => True
    | l, .load q => ∀ p, l.job = .getattr p → l.done = none ∧ q = p ∧ (boxes p).isSome
    | l, .mqPut q msg ticks => l.done = none ∧ ∃ τ, l.job = .send τ ∧ q = τ.mq ∧
        msg = τ.msgPtr ∧ Asks P boxes (badSend τ) τ ticks
    | l, .mqGet q msg ticks => l.done = none ∧ ∃ τ, l.job = .receive τ ∧ q = τ.mq ∧
        msg = τ.msgPtr ∧ Asks P boxes (badReceive τ) τ ticks
    | _, _ => False
  after
    | l, .loadInited, r, l' => r = true ∧ l' = l
    | l, .allq, r, l' => l' = l ∧ ∀ q, (boxes q).isSome = true ↔ q ∈ r
    | l, .tmrTicks, r, l' => l' = l ∧ r < 2 ^ 32
    | l, .load q, r, l' => (∀ b, boxes q = some b → Box.ofObj r = b) ∧ l' = l.read P r
    | l, .mqPut q _ _, r, l' => l' = { l with
        done := (boxes q).map fun b => .status (if r = true then .ok else b.failure) }
    | l, .mqGet q _ _, r, l' => l' = { l with
        done := (boxes q).map fun b => if r = true then .length b.isz else .status b.failure }
    | l, _, _, l' => l' = l

def posting (P : Platform) (boxes : Ptr → Option Box) : Protocol MailOp MailAns Local where
  safe
    | l, .mq e => (moving P boxes).safe l e
    | l, .write p bytes => l = ⟨.write p bytes, none⟩
  after
    | l, .mq e, r, l' => (moving P boxes).after l e r l'
    | l, .write .., _, l' => l' = { l with done := some (.status .ok) }

section Calls
variable {P : Platform} {boxes : Ptr → Option Box} {l : Local} {q : Ptr}

theorem read_eq (hk : ∀ p, l.job ≠ .getattr p) (o : MqdInternal) : l.read P o = l := by
  unfold Local.read
  split
  · next p hp => exact absurd hp (hk p)
  · rfl

theorem load_moving {post : MqdInternal → Local → Prop} {b : Box}
    (hk : ∀ p, l.job ≠ .getattr p) (hb : boxes q = some b)
    (h : ∀ o, Box.ofObj o = b → post o l) : (ask (.load q)).Obeys (moving P boxes) l post := by
  rw [Prog.obeys_request]
  refine ⟨fun p hp => absurd hp (hk p), ?_⟩
  intro o l' hl'
  obtain ⟨ho, rfl⟩ := hl'
  rw [read_eq hk]
  exact h o (ho b hb)

theorem mqExtractLocked_moving : (mqExtractLocked q).Obeys (moving P boxes) l fun r l' =>
    l' = l ∧ r = if (boxes q).isSome = true then some q else none := by
  rw [mqExtractLocked, Prog.obeys_bind, Prog.obeys_request]
  refine ⟨trivial, ?_⟩
  intro r l' hl'
  obtain ⟨rfl, hr⟩ := hl'
  simp [hr, find_self]

inductive Timed (P : Platform) (b : Box) (abstime : Option Timespec) : Status × ℕ → Prop
  | ok {ticks : ℕ}
      (hv : b.flags.O_NONBLOCK = false → ∀ D, abstime = some D → validateTimespec D = true)
      (h : b.flags.O_NONBLOCK = false → abstime = none → ticks = P.WAIT) :
      Timed P b abstime (.ok, ticks)
  | malformed {D : Timespec} {ticks : ℕ} (hn : b.flags.O_NONBLOCK = false)
      (hD : abstime = some D) (h : validateTimespec D = false) : Timed P b abstime (.EINVAL, ticks)
  | hopeless {D : Timespec} {ticks : ℕ} (hn : b.flags.O_NONBLOCK = false) (hD : abstime = some D)
      (hv : validateTimespec D = true) (h : Hopeless P D) : Timed P b abstime (.ETIMEDOUT, ticks)

theorem getTickTimeout_moving (b : Box) (abstime : Option Timespec) :
    (getTickTimeout P b.flags abstime 0).Obeys (moving P boxes) l fun conv l' =>
      l' = l ∧ Timed P b abstime conv := by
  unfold getTickTimeout
  by_cases hn : b.flags.O_NONBLOCK = true
  · rw [if_pos hn]
    exact ⟨rfl, .ok (by simp [hn]) (by simp [hn])⟩
  · have hn' : b.flags.O_NONBLOCK = false := by simpa using hn
    rw [if_neg hn]
    cases abstime with
    | none => exact ⟨rfl, .ok (by simp) fun _ _ => rfl⟩
    | some D =>
      dsimp only
      by_cases hv : validateTimespec D = false
      · rw [if_pos hv]
        exact ⟨rfl, .malformed hn' rfl hv⟩
      · have hv' : validateTimespec D = true := by simpa using hv
        rw [if_neg hv]
        refine ⟨trivial, ?_⟩
        intro tick l' hl'
        obtain ⟨rfl, htick⟩ := hl'
        refine ⟨rfl, ?_⟩
        split_ifs with hconv
        · exact .hopeless hn' rfl hv' ⟨tick, htick, hconv⟩
        · have hok : (absTimespec2ticks P D (clockGettime P tick) 0).1 = .ok := by
            simpa using hconv
          rw [← Prod.mk.eta (p := absTimespec2ticks P D (clockGettime P tick) 0), hok]
          refine .ok (fun _ D' hD' => ?_) (by simp)
          cases hD'
          exact hv'

structure Checked (P : Platform) (boxes : Ptr → Option Box) (badLen : ℕ → Bool) (τ : Transfer)
    (conv : Status × ℕ) : Prop where
  passed : conv.1 = .ok → Asks P boxes badLen τ conv.2
  refused : conv.1 ≠ .ok → Refuses P boxes badLen τ conv.1

theorem Timed.checked {badLen : ℕ → Bool} {τ : Transfer} {b : Box} {conv : Status × ℕ}
    (h : Timed P b τ.abstime conv) (ha : τ.msgPtr % 4 = 0) (hb : boxes τ.mq = some b)
    (hl : badLen b.isz = false) : Checked P boxes badLen τ conv := by
  cases h with
  | ok hv h => exact ⟨fun _ => ⟨b, hb, ⟨ha, hl, hv⟩, h⟩, fun hne => absurd rfl hne⟩
  | malformed hn hD h => exact ⟨by simp, fun _ => .malformed ha hb hl hn hD h⟩
  | hopeless hn hD hv h =>
    refine ⟨by simp, fun _ => .hopeless hb ⟨ha, hl, fun _ D' hD' => ?_⟩ hn hD h⟩
    obtain rfl := Option.some.inj (hD.symm.trans hD')
    exact hv

theorem unlock_moving {badLen : ℕ → Bool} {τ : Transfer} {conv : Status × ℕ}
    (h : Checked P boxes badLen τ conv) :
    (do
      ask .muxUnlock
      return conv : Prog MqOp MqAns (Status × ℕ)).Obeys (moving P boxes) l fun conv l' =>
        l' = l ∧ Checked P boxes badLen τ conv := by
  refine ⟨trivial, ?_⟩
  intro _ l' hl'
  cases hl'
  exact ⟨rfl, h⟩

theorem mqPrepare_moving (badLen : ℕ → Bool) {τ : Transfer} (hk : ∀ p, l.job ≠ .getattr p) :
    (mqPrepare P τ.mq τ.msgPtr badLen τ.abstime).Obeys (moving P boxes) l fun conv l' =>
      l' = l ∧ Checked P boxes badLen τ conv := by
  rw [mqPrepare, Prog.obeys_bind, Prog.obeys_request]
  refine ⟨trivial, ?_⟩
  intro _ l' hl'
  cases hl'
  rw [Prog.obeys_bind]
  apply mqExtractLocked_moving.mono
  intro found l' h
  obtain ⟨rfl, rfl⟩ := h
  by_cases ha : τ.msgPtr % 4 = 0
  · cases hb : boxes τ.mq with
    | none =>
      simp only [ha, ne_eq, not_true_eq_false, if_false, Option.isSome_none, Bool.false_eq_true,
        if_true, reduceCtorEq]
      exact unlock_moving ⟨by simp, fun _ => .unknown ha hb⟩
    | some b =>
      simp only [ha, ne_eq, not_true_eq_false, if_false, Option.isSome_some, if_true,
        reduceCtorEq, Prog.obeys_bind]
      refine load_moving hk hb ?_
      intro o ho
      have hisz : o.q.isz = b.isz := congrArg Box.isz ho
      rw [Prog.pure_eq, Prog.obeys_ret, hisz]
      by_cases hlen : badLen b.isz = true
      · rw [if_pos hlen]
        simp only [reduceCtorEq, if_false]
        exact unlock_moving ⟨by simp, fun _ => .length ha hb hlen⟩
      · have hfits : badLen b.isz = false := by simpa using hlen
        rw [if_neg hlen]
        simp only [if_true, Prog.obeys_bind]
        refine load_moving hk hb ?_
        intro o ho
        have hflags : o.flags = b.flags := congrArg Box.flags ho
        rw [hflags]
        apply (getTickTimeout_moving b τ.abstime).mono
        intro conv l' h
        obtain ⟨rfl, htimed⟩ := h
        exact unlock_moving (htimed.checked ha hb hfits)
  · simp only [ne_eq, ha, not_false_eq_true, if_true, reduceCtorEq, if_false]
    exact unlock_moving ⟨by simp, fun _ => .misaligned ha⟩

theorem mqFailure_moving {b : Box} (hk : ∀ p, l.job ≠ .getattr p) (hb : boxes q = some b) :
    (mqFailure q).Obeys (moving P boxes) l fun e l' => l' = l ∧ e = b.failure := by
  rw [mqFailure, Prog.obeys_bind]
  refine load_moving hk hb ?_
  intro o ho
  have hflags : o.flags = b.flags := congrArg Box.flags ho
  rw [Prog.pure_eq, Prog.obeys_ret, hflags]
  exact ⟨rfl, rfl⟩

/-- The call has taken effect, or it can do so now, whatever is in the mailboxes. -/
def Returned (P : Platform) (room : ℕ → ℕ → ℕ) (boxes : Ptr → Option Box) (job : Job) (v : MqRes)
    (l : Local) : Prop :=
  l.done = some v ∨ l.done = none ∧ ∀ a : Mail room boxes, serve P job a v a

theorem mqTimedsend_moving {room : ℕ → ℕ → ℕ} {τ : Transfer} :
    (mqTimedsend P τ.mq τ.msgPtr τ.msgLen τ.abstime).Obeys (moving P boxes) ⟨.send τ, none⟩
      fun v l' => Returned P room boxes (.send τ) (.status v) l' := by
  rw [mqTimedsend, Prog.obeys_bind]
  apply (mqPrepare_moving (badSend τ) (by simp)).mono
  intro conv l h
  obtain ⟨rfl, hchecked⟩ := h
  rw [Prog.obeys_ite]
  constructor
  · intro hok
    have hasks := hchecked.passed hok
    obtain ⟨b, hb, -, -⟩ := id hasks
    rw [Prog.obeys_bind, Prog.obeys_request]
    refine ⟨⟨rfl, τ, rfl, rfl, rfl, hasks⟩, ?_⟩
    intro r l hl
    obtain rfl : l = _ := hl
    cases r with
    | true => exact .inl (by simp [hb])
    | false =>
      apply (mqFailure_moving (by simp) hb).mono
      intro e l hl
      obtain ⟨rfl, rfl⟩ := hl
      exact .inl (by simp [hb])
  · intro hne
    exact .inr ⟨rfl, fun _ => .inl ⟨rfl, _, rfl, hchecked.refused hne⟩⟩

theorem mqTimedreceive_moving {room : ℕ → ℕ → ℕ} {τ : Transfer} :
    (mqTimedreceive P τ.mq τ.msgPtr τ.msgLen τ.abstime).Obeys (moving P boxes)
      ⟨.receive τ, none⟩
      fun v l' => Returned P room boxes (.receive τ) (.of .length v) l' := by
  rw [mqTimedreceive, Prog.obeys_bind]
  apply (mqPrepare_moving (badReceive τ) (by simp)).mono
  intro conv l h
  obtain ⟨rfl, hchecked⟩ := h
  rw [Prog.obeys_ite]
  constructor
  · intro hok
    have hasks := hchecked.passed hok
    obtain ⟨b, hb, -, -⟩ := id hasks
    rw [Prog.obeys_bind, Prog.obeys_request]
    refine ⟨⟨rfl, τ, rfl, rfl, rfl, hasks⟩, ?_⟩
    intro r l hl
    obtain rfl : l = _ := hl
    cases r with
    | true =>
      rw [if_pos rfl, Prog.obeys_bind]
      refine load_moving (by simp) hb ?_
      intro o ho
      have hisz : o.q.isz = b.isz := congrArg Box.isz ho
      rw [Prog.pure_eq, Prog.obeys_ret, hisz]
      exact .inl (by simp [hb, MqRes.of])
    | false =>
      simp only [Bool.false_eq_true, if_false, Prog.obeys_bind]
      apply (mqFailure_moving (by simp) hb).mono
      intro e l hl
      obtain ⟨rfl, rfl⟩ := hl
      exact .inl (by simp [hb, MqRes.of])
  · intro hne
    exact .inr ⟨rfl, fun _ => .inl ⟨rfl, _, rfl, hchecked.refused hne⟩⟩

theorem mqCheckInit_moving : mqCheckInit.Obeys (moving P boxes) l fun _ l' => l' = l := by
  refine ⟨trivial, ?_⟩
  intro r l' hl'
  obtain ⟨rfl, rfl⟩ := hl'
  rfl

theorem mqGetattr_moving {room : ℕ → ℕ → ℕ} :
    (mqGetattr P q).Obeys (moving P boxes) ⟨.getattr q, none⟩
      fun v l' => Returned P room boxes (.getattr q) (.of .attr v) l' := by
  rw [mqGetattr, Prog.obeys_bind]
  apply mqCheckInit_moving.mono
  intro _ l hl
  cases hl
  rw [Prog.obeys_bind, Prog.obeys_request]
  refine ⟨trivial, ?_⟩
  intro _ l hl
  cases hl
  rw [Prog.obeys_bind]
  apply mqExtractLocked_moving.mono
  intro found l h
  obtain ⟨rfl, rfl⟩ := h
  cases hb : boxes q with
  | none =>
    refine ⟨trivial, ?_⟩
    intro _ l hl
    cases hl
    exact .inr ⟨rfl, fun _ => ⟨rfl, by simp [MqRes.of, hb]⟩⟩
  | some b =>
    refine ⟨fun p hp => ?_, ?_⟩
    · obtain rfl := Job.getattr.inj hp
      exact ⟨rfl, rfl, by simp [hb]⟩
    · intro o l hl
      obtain ⟨-, rfl⟩ := hl
      refine ⟨trivial, ?_⟩
      intro _ l hl
      cases hl
      exact .inl rfl

theorem interp_posting {α : Type} {p : Prog MqOp MqAns α} {post : α → Local → Prop}
    (h : p.Obeys (moving P boxes) l post) :
    (p.interp kernelCall).Obeys (posting P boxes) l post := by
  refine h.interp ?_
  intro e l hsafe
  exact ⟨hsafe, fun _ _ hl => hl⟩

/-- Every call returns the value with which it has taken effect. -/
theorem mailCode_posting (P : Platform) (room : ℕ → ℕ → ℕ) (boxes : Ptr → Option Box)
    (k : MailCall) : (mailCode P k).Obeys (posting P boxes) ⟨k.job, none⟩
      (Returned P room boxes k.job) := by
  cases k with
  | write p bytes =>
    refine ⟨rfl, ?_⟩
    intro _ l hl
    cases hl
    exact .inl rfl
  | mqGetattr mq => exact interp_posting (Prog.obeys_bind.mpr mqGetattr_moving)
  | mqSend mq msgPtr msgLen =>
    exact interp_posting (Prog.obeys_bind.mpr
      (mqTimedsend_moving (τ := ⟨mq, msgPtr, msgLen, none⟩)))
  | mqTimedsend mq msgPtr msgLen abstime =>
    exact interp_posting (Prog.obeys_bind.mpr
      (mqTimedsend_moving (τ := ⟨mq, msgPtr, msgLen, abstime⟩)))
  | mqReceive mq msgPtr msgLen =>
    exact interp_posting (Prog.obeys_bind.mpr
      (mqTimedreceive_moving (τ := ⟨mq, msgPtr, msgLen, none⟩)))
  | mqTimedreceive mq msgPtr msgLen abstime =>
    exact interp_posting (Prog.obeys_bind.mpr
      (mqTimedreceive_moving (τ := ⟨mq, msgPtr, msgLen, abstime⟩)))

end Calls

section Steps
variable {relock : Bool} {P : Platform} {room : ℕ → ℕ → ℕ} {boxes : Ptr → Option Box}
  {x x' : Exchange T} {a a' : Mail room boxes} {f : T → Option (MailCall × Local)} {t : T}
  {k : MailCall} {l l' : Local}

/-- The kernel's queues, the registry and the memory stand for the mailboxes. -/
structure Holds (x : Exchange T) (a : Mail room boxes) : Prop where
  inited : x.reg.inited = true
  boxes : boxOf x.reg = boxes
  mem : a.mem = x.mem
  items : a.items = x.items
  counted : ∀ q ∈ x.reg.allq, (x.reg.obj q).q.n = (x.items q).length

structure Inv (x : Exchange T) (a : Mail room boxes) (f : T → Option (MailCall × Local)) :
    Prop where
  holds : Holds x a
  job : ∀ t k l, f t = some (k, l) → l.job = k.job

theorem Inv.set (h : Inv x a f) (hx : Holds x' a') {y : Option (MailCall × Local)}
    (hy : ∀ k l, y = some (k, l) → l.job = k.job) : Inv x' a' (Function.update f t y) := by
  refine ⟨hx, ?_⟩
  intro u k l hu
  by_cases hut : u = t
  · subst u
    rw [Function.update_self] at hu
    exact hy k l hu
  · rw [Function.update_of_ne hut] at hu
    exact h.job u k l hu

def Serves (P : Platform) (t : T) (k : MailCall) (a : Mail room boxes)
    (f : T → Option (MailCall × Local)) (x' : Exchange T) (l' : Local) : Prop :=
  ∃ a' : Mail room boxes, Inv x' a' (Function.update f t (some (k, l'))) ∧
    Commits (mailboxes P) ⟨a, phases (fun _ l => l.done) f⟩
      ⟨a', phases (fun _ l => l.done) (Function.update f t (some (k, l')))⟩

theorem Inv.quiet (h : Inv x a f) (ht : f t = some (k, l)) (hx : Holds x' a) :
    Serves P t k a f x' l := by
  refine ⟨a, h.set hx ?_, ?_⟩
  · rintro _ _ ⟨⟩
    exact h.job t k l ht
  · rw [phases_keep ht rfl fun _ _ _ _ _ => rfl]
    exact .refl _

theorem Inv.settles (h : Inv x a f) (ht : f t = some (k, l)) (hx : Holds x' a')
    (hd : l.done = none) {v : MqRes} (hserve : serve P l.job a v a') :
    Serves P t k a f x' { l with done := some v } := by
  have hjob := h.job t k l ht
  rw [hjob] at hserve
  refine ⟨a', h.set hx ?_, ?_⟩
  · rintro _ _ ⟨⟩
    exact hjob
  · exact commits_own ht hd rfl hserve fun _ _ _ _ _ => rfl

omit [DecidableEq T] in
theorem Holds.mem_iff (h : Holds x a) (q : Ptr) : (boxes q).isSome = true ↔ q ∈ x.reg.allq := by
  simp [← h.boxes, boxOf]

omit [DecidableEq T] in
theorem Holds.box (h : Holds x a) {q : Ptr} {b : Box} (hb : boxes q = some b) :
    q ∈ x.reg.allq ∧ b = .ofObj (x.reg.obj q) := by
  rw [← h.boxes] at hb
  exact boxOf_some hb

omit [DecidableEq T] in
theorem Holds.withReg (h : Holds x a) {r : Registry T} (hi : r.inited = x.reg.inited)
    (hq : r.allq = x.reg.allq) (ho : r.obj = x.reg.obj) : Holds (x.withReg r) a := by
  refine ⟨hi.trans h.inited, ?_, h.mem, h.items, ?_⟩
  · rw [← h.boxes]
    funext q
    simp [boxOf, hq, ho]
  · intro q hmem
    have hmem' : q ∈ x.reg.allq := hq ▸ hmem
    have := h.counted q hmem'
    simpa [ho] using this

omit [DecidableEq T] in
theorem boxOf_modify (s : Registry T) (q : Ptr) {g : MqdInternal → MqdInternal}
    (h : ∀ o, Box.ofObj (g o) = .ofObj o) : boxOf (s.modify q g) = boxOf s := by
  funext p
  by_cases hp : p = q
  · subst p
    simp [boxOf, h]
    rfl
  · simp [boxOf, Registry.modify, hp]

omit [DecidableEq T] in
theorem Holds.move (h : Holds x a) {q : Ptr} {b : Box} (hb : boxes q = some b) (m : ℕ → UInt8)
    (is : List (List UInt8)) (hlen : is.length ≤ room b.isz b.sz)
    (hsized : ∀ item ∈ is, item.length = 4 * b.isz) (e : ℕ → ℕ)
    (he : e (x.items q).length = is.length) :
    ∃ a' : Mail room boxes, a'.mem = m ∧ a'.items = Function.update a.items q is ∧
      Holds (((x.setItems q is).withMem m).withReg
        (x.reg.modify q fun o => { o with q := { o.q with n := e o.q.n } })) a' := by
  have hbounded : ∀ p b', boxes p = some b' →
      (Function.update a.items q is p).length ≤ room b'.isz b'.sz := by
    intro p b' hp
    by_cases hpq : p = q
    · subst p
      obtain rfl := Option.some.inj (hb.symm.trans hp)
      simpa using hlen
    · simpa [hpq] using a.bounded p b' hp
  have hitem : ∀ p b', boxes p = some b' →
      ∀ item ∈ Function.update a.items q is p, item.length = 4 * b'.isz := by
    intro p b' hp
    by_cases hpq : p = q
    · subst p
      obtain rfl := Option.some.inj (hb.symm.trans hp)
      simpa using hsized
    · simpa [hpq] using a.sized p b' hp
  refine ⟨⟨m, Function.update a.items q is, hbounded, hitem⟩, rfl, rfl, h.inited, ?_, rfl, ?_, ?_⟩
  · rw [← h.boxes]
    exact boxOf_modify x.reg q fun _ => rfl
  · change Function.update a.items q is = Function.update x.items q is
    rw [h.items]
  · intro p hp
    by_cases hpq : p = q
    · subst p
      have hcount := h.counted q hp
      simp [hcount, he]
    · simpa [Registry.modify, hpq] using h.counted p hp

/-- A call that is given up has found what it says, and is not to wait for ever. -/
theorem Asks.givesUp {badLen : ℕ → Bool} {τ : Transfer} {b : Box} {ticks : ℕ} {c : Choice}
    (h : Asks P boxes badLen τ ticks) (hb : boxes τ.mq = some b)
    (hW : (decide (ticks ≠ P.WAIT) && c.expire) = true) :
    Passes b badLen τ ∧ GivesUp b τ (.status b.failure) := by
  obtain ⟨b', hb', hp, hwait⟩ := h
  obtain rfl := Option.some.inj (hb.symm.trans hb')
  refine ⟨hp, rfl, ?_⟩
  by_contra hn
  rw [not_or, not_not] at hn
  have hne : ticks ≠ P.WAIT := by
    simp only [Bool.and_eq_true, decide_eq_true_eq] at hW
    exact hW.1
  exact hne (hwait (by simpa using hn.1) hn.2)

theorem Inv.put (h : Inv x a f) (ht : f t = some (k, l)) {q msg : Ptr} {ticks : ℕ} {c : Choice}
    {r : Bool} (hsafe : (moving P boxes).safe l (.mqPut q msg ticks))
    (hx : mailExec relock P room t (.mq (.mqPut q msg ticks)) c x = some (r, x')) :
    ∃ l', (moving P boxes).after l (.mqPut q msg ticks) r l' ∧ Serves P t k a f x' l' := by
  obtain ⟨hd, τ, hjob, rfl, rfl, hasks⟩ := hsafe
  obtain ⟨b, hb, hp, -⟩ := id hasks
  obtain ⟨-, hbox⟩ := h.holds.box hb
  have hisz : (x.reg.obj τ.mq).q.isz = b.isz := congrArg Box.isz hbox.symm
  have hsz : (x.reg.obj τ.mq).q.sz = b.sz := congrArg Box.sz hbox.symm
  have hmem := h.holds.mem
  have hitems := h.holds.items
  refine ⟨_, rfl, ?_⟩
  simp only [hb, Option.map_some]
  simp only [mailExec, admits, decide_eq_true_eq, hisz, hsz] at hx
  split_ifs at hx with hroom hexp
  · simp only [msgExec, mqExec, if_true, Option.bind_some, Exchange.transfer, Option.map_some,
      Exchange.isz, hisz] at hx
    cases hx
    have hsized : ∀ item ∈ x.items τ.mq ++ [load x.mem τ.msgPtr (4 * b.isz)],
        item.length = 4 * b.isz := by
      intro item hitem
      rcases List.mem_append.mp hitem with hold | hnew
      · rw [← hitems] at hold
        exact a.sized τ.mq b hb item hold
      · simp only [List.mem_singleton] at hnew
        simp [hnew]
    obtain ⟨a', hm, hi, hx'⟩ := h.holds.move hb x.mem _ (by simpa using hroom) hsized (· + 1)
      (by simp)
    refine h.settles ht hx' hd ?_
    rw [hjob]
    refine .inr ⟨b, hb, hp, ?_⟩
    rw [if_pos rfl]
    refine .put ?_ ?_ ?_
    · rw [hitems]
      exact hroom
    · rw [hm, hmem]
    · rw [hi, hmem, hitems]
  · simp only [msgExec, mqExec, Bool.false_eq_true, if_false, Option.bind_some, Exchange.transfer,
      Option.map_some] at hx
    cases hx
    obtain ⟨-, hgive⟩ := hasks.givesUp hb hexp
    refine h.settles ht h.holds hd ?_
    rw [hjob]
    refine .inr ⟨b, hb, hp, .full ?_ hgive⟩
    have := a.bounded τ.mq b hb
    rw [hitems] at this ⊢
    omega

theorem Inv.get (h : Inv x a f) (ht : f t = some (k, l)) {q msg : Ptr} {ticks : ℕ} {c : Choice}
    {r : Bool} (hsafe : (moving P boxes).safe l (.mqGet q msg ticks))
    (hx : mailExec relock P room t (.mq (.mqGet q msg ticks)) c x = some (r, x')) :
    ∃ l', (moving P boxes).after l (.mqGet q msg ticks) r l' ∧ Serves P t k a f x' l' := by
  obtain ⟨hd, τ, hjob, rfl, rfl, hasks⟩ := hsafe
  obtain ⟨b, hb, hp, -⟩ := id hasks
  have hmem := h.holds.mem
  have hitems := h.holds.items
  refine ⟨_, rfl, ?_⟩
  simp only [hb, Option.map_some]
  simp only [mailExec, admits] at hx
  cases hcontent : x.items τ.mq with
  | nil =>
    simp only [hcontent, List.isEmpty_nil, Bool.not_true, Bool.false_eq_true, if_false] at hx
    split_ifs at hx with hexp
    simp only [msgExec, mqExec, Bool.false_eq_true, if_false, Option.bind_some, Exchange.transfer,
      Option.map_some] at hx
    cases hx
    obtain ⟨-, hgive⟩ := hasks.givesUp hb hexp
    refine h.settles ht h.holds hd ?_
    rw [hjob]
    refine .inr ⟨b, hb, hp, .empty ?_ hgive⟩
    rw [hitems, hcontent]
  | cons item items =>
    simp only [hcontent, List.isEmpty_cons, Bool.not_false, if_true, msgExec, mqExec,
      Option.bind_some, Exchange.transfer, Option.map_some] at hx
    cases hx
    have hbounded := a.bounded τ.mq b hb
    have hsized := a.sized τ.mq b hb
    rw [hitems, hcontent] at hbounded hsized
    have hlen : items.length ≤ room b.isz b.sz := by
      simp only [List.length_cons] at hbounded
      omega
    obtain ⟨a', hm, hi, hx'⟩ := h.holds.move hb (store x.mem τ.msgPtr item) items hlen
      (fun i hi => hsized i (List.mem_cons_of_mem _ hi)) (· - 1) (by simp [hcontent])
    refine h.settles ht hx' hd ?_
    rw [hjob]
    refine .inr ⟨b, hb, hp, ?_⟩
    rw [if_pos rfl]
    refine .get (hitems ▸ hcontent) ?_ hi
    rw [hm, hmem]

theorem Inv.exec (h : Inv x a f) (ht : f t = some (k, l)) {e : MqOp} {c : Choice} {r : MqAns e}
    (hsafe : (moving P boxes).safe l e)
    (hx : mailExec relock P room t (.mq e) c x = some (r, x')) :
    ∃ l', (moving P boxes).after l e r l' ∧ Serves P t k a f x' l' := by
  cases e with
  | loadInited =>
    cases hx
    exact ⟨l, ⟨h.holds.inited, rfl⟩, h.quiet ht h.holds⟩
  | muxLock =>
    have hlock : msgExec relock P t ⟨none, none, c.tick, true⟩ .muxLock x = some (r, x') := hx
    obtain ⟨m, rfl⟩ := MqueueMessages.msgExec_muxLock hlock
    exact ⟨l, rfl, h.quiet ht (h.holds.withReg rfl rfl rfl)⟩
  | muxUnlock =>
    cases hx
    exact ⟨l, rfl, h.quiet ht (h.holds.withReg rfl rfl rfl)⟩
  | allq =>
    cases hx
    exact ⟨l, ⟨rfl, h.holds.mem_iff⟩, h.quiet ht h.holds⟩
  | tmrTicks =>
    cases hx
    exact ⟨l, ⟨rfl, c.tick.isLt⟩, h.quiet ht h.holds⟩
  | load q =>
    cases hx
    refine ⟨l.read P (x.reg.obj q), ⟨fun b hb => (h.holds.box hb).2.symm, rfl⟩, ?_⟩
    by_cases hj : ∃ p, l.job = .getattr p
    · obtain ⟨p, hp⟩ := hj
      obtain ⟨hd, rfl, hsome⟩ := hsafe p hp
      obtain ⟨b, hb⟩ := Option.isSome_iff_exists.mp hsome
      obtain ⟨hq, rfl⟩ := h.holds.box hb
      have hread : l.read P (x.reg.obj q) = { l with
          done := some (.attr ((Box.ofObj (x.reg.obj q)).attr P (x.reg.obj q).q.n)) } := by
        simp [Local.read, hp]
      rw [hread]
      refine h.settles ht h.holds hd ?_
      rw [hp]
      refine ⟨rfl, ?_⟩
      simp [hb, h.holds.items, h.holds.counted q hq]
    · rw [read_eq (not_exists.mp hj)]
      exact h.quiet ht h.holds
  | mqPut q msg ticks => exact h.put ht hsafe hx
  | mqGet q msg ticks => exact h.get ht hsafe hx
  | _ => exact hsafe.elim

theorem Inv.write (h : Inv x a f) (ht : f t = some (k, l)) {p : Ptr} {bytes : List UInt8}
    (hl : l = ⟨.write p bytes, none⟩) :
    Serves P t k a f (x.withMem (store x.mem p bytes))
      { l with done := some (.status .ok) } := by
  let a' : Mail room boxes := { a with mem := store a.mem p bytes }
  have hx : Holds (x.withMem (store x.mem p bytes)) a' :=
    ⟨h.holds.inited, h.holds.boxes, congrArg (store · p bytes) h.holds.mem, h.holds.items,
      h.holds.counted⟩
  have hd : l.done = none := by rw [hl]
  refine h.settles ht hx hd ?_
  rw [hl]
  exact ⟨rfl, rfl, rfl⟩

end Steps

def mailService (relock : Bool) (P : Platform) (room : ℕ → ℕ → ℕ) (boxes : Ptr → Option Box) :
    Linearizability.Service
      (mailSystem relock P room :
        System T MailOp MailAns Choice (Exchange T) MailCall MqRes)
      (mailboxes P : Object (Mail room boxes) T MailCall MqRes) Local where
  toProtocol := posting P boxes
  inv := Inv
  result _ _ l := l.done
  fits := Eq
  post k := Returned P room boxes k.job
  enter_step := by
    intro x x' a f t k h ht hx
    cases hx
    refine ⟨⟨k.job, none⟩, mailCode_posting P room boxes k, h.set h.holds ?_, ?_⟩
    · rintro _ _ ⟨⟩
      rfl
    · exact phases_update fun _ _ _ _ _ => rfl
  exec_step := by
    intro x x' a f t k l e c r h ht hsafe hx
    cases e with
    | mq e =>
      obtain ⟨l', hafter, a', ha'⟩ := h.exec ht hsafe hx
      exact ⟨l', a', hafter, ha'⟩
    | write p bytes =>
      cases hx
      obtain ⟨a', ha'⟩ := h.write ht hsafe
      exact ⟨_, a', rfl, ha'⟩
  leave_step := by
    intro x a f t k l v h ht hv
    have hinv : Inv x a (Function.update f t none) := h.set h.holds (by simp)
    have hphases : phases (fun _ l => l.done) (Function.update f t none) =
        Function.update (phases (fun _ l => l.done) f) t .idle :=
      phases_update fun _ _ _ _ _ => rfl
    rcases hv with hdone | ⟨hdone, hserve⟩
    · refine ⟨a, _, v, hinv, .refl _, ?_, rfl, hphases⟩
      simp [phases, ht, Phase.ofCall, hdone]
    · have hpending : phases (fun _ l => l.done) f t = .pending k := by
        simp [phases, ht, Phase.ofCall, hdone]
      exact ⟨a, _, v, hinv, .one hpending (hserve a), by simp, rfl, by simp [hphases]⟩

/-- The queues on the list hold what they can, and count it. -/
structure WellKept (room : ℕ → ℕ → ℕ) (x : Exchange T) : Prop where
  inited : x.reg.inited = true
  counted : ∀ q ∈ x.reg.allq, (x.reg.obj q).q.n = (x.items q).length
  bounded : ∀ q ∈ x.reg.allq, (x.items q).length ≤ room (x.reg.obj q).q.isz (x.reg.obj q).q.sz
  sized : ∀ q ∈ x.reg.allq, ∀ item ∈ x.items q, item.length = 4 * (x.reg.obj q).q.isz

def WellKept.mail {room : ℕ → ℕ → ℕ} {x : Exchange T} (h : WellKept room x) :
    Mail room (boxOf x.reg) where
  mem := x.mem
  items := x.items
  bounded := by
    intro q b hb
    obtain ⟨hq, rfl⟩ := boxOf_some hb
    exact h.bounded q hq
  sized := by
    intro q b hb
    obtain ⟨hq, rfl⟩ := boxOf_some hb
    exact h.sized q hq

/-- Every run of the calls that move messages, by any threads, is linearizable to the mailboxes;
at each moment these are the memory and the contents of the kernel's queues. -/
theorem transfers_linearize {relock : Bool} {P : Platform} {room : ℕ → ℕ → ℕ} {x : Exchange T}
    (hx : WellKept room x) {as : List (Action T Choice MailCall)}
    {p : Pool T MailOp MailAns (Exchange T) MailCall MqRes}
    (hrun : execute (step (mailSystem relock P room)) (idlePool x) as = some p) :
    ∃ a', Linearizes (mailboxes P) hx.mail (history (mailSystem relock P room) (idlePool x) as) a' ∧
      a'.mem = p.shared.mem ∧ a'.items = p.shared.items := by
  have hinit : (mailService relock P room (boxOf x.reg)).inv x hx.mail fun _ => none :=
    ⟨⟨hx.inited, rfl, rfl, rfl, hx.counted⟩, by simp⟩
  obtain ⟨a', f, hlin, hinv, -⟩ :=
    (mailService relock P room (boxOf x.reg)).linearizes rfl hinit hrun
  exact ⟨a', hlin, hinv.holds.mem, hinv.holds.items⟩

def smallQueue : Exchange Bool where
  reg :=
    { inited := true
      mux := mutInit
      allq := [1]
      obj := fun _ => { zeroQueue with q := ⟨1, 1, 0⟩, openCount := 1 }
      live := {(.POSIX_MQUEUE, 1), (.POSIX_MQUEUE_BUF, 2)} }
  mem := fun _ => 0
  items := fun _ => []
  sent := []
  received := []

theorem smallQueue_wellKept : WellKept (fun _ sz => sz) smallQueue :=
  ⟨rfl, by simp [smallQueue], by simp [smallQueue], by simp [smallQueue]⟩

def runs (t : Bool) (n : ℕ) : List (Action Bool Choice MailCall) :=
  List.replicate n (.run t ⟨⟨5, by decide⟩, false⟩)

/-- Both threads have passed their checks before one of them fills the queue; the other waits for
room, which the first one makes. -/
def crossingSteps : List (Action Bool Choice MailCall) :=
  [.enter false (.write 8 [7])] ++ runs false 1 ++ [.leave false,
    .enter false (.mqSend 1 8 1), .enter true (.mqSend 1 12 1)] ++ runs false 5 ++ runs true 5 ++
    runs true 1 ++ [.leave true, .enter true (.mqReceive 1 16 4)] ++ runs true 6 ++
    runs false 1 ++ runs true 1 ++ [.leave true, .leave false]

def crossingHistory : List (Event Bool MailCall MqRes) :=
  [.entered false (.write 8 [7]), .returned false (.status .ok), .entered false (.mqSend 1 8 1),
    .entered true (.mqSend 1 12 1), .returned true (.status .ok),
    .entered true (.mqReceive 1 16 4), .returned true (.length 1), .returned false (.status .ok)]

theorem transfers_linearize_crossing : ∃ p a',
    execute (step (mailSystem true platform1000 fun _ sz => sz)) (idlePool smallQueue)
      crossingSteps = some p ∧
    Linearizes (mailboxes platform1000) smallQueue_wellKept.mail crossingHistory a' ∧
    a'.items 1 = [[7, 0, 0, 0]] := by
  have hrun : (execute (step (mailSystem true platform1000 fun _ sz => sz)) (idlePool smallQueue)
      crossingSteps).map (fun p => p.shared.items 1) = some [[7, 0, 0, 0]] ∧
      history (mailSystem true platform1000 fun _ sz => sz) (idlePool smallQueue) crossingSteps =
        crossingHistory := by
    decide +kernel
  obtain ⟨hend, hhist⟩ := hrun
  obtain ⟨p, hp, hitems⟩ := Option.map_eq_some_iff.mp hend
  obtain ⟨a', hlin, -, ha'⟩ := transfers_linearize smallQueue_wellKept hp
  rw [hhist] at hlin
  refine ⟨p, a', hp, hlin, ?_⟩
  rw [ha', hitems]

end LibPosix.MqueueTransfers
