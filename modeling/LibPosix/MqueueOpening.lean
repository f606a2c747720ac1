import LibPosix.MqueueRegistry
import LibPosix.Trace

/-! What `mq_open` leaves behind when it fails, and what it asks the allocator for when it
succeeds. -/
namespace LibPosix.MqueueOpening
open Program Trace TimeUtils Kernel MachineInt Mqueue MqueueCalls MqueueRegistry
variable {T : Type} [DecidableEq T]

/-- The registry after the initialisation that the first call brings with it. -/
def start (s : Registry T) : Registry T :=
  if s.inited = true then s else ⟨true, mutInit, [], s.obj, s.live⟩

/-- No call is going on: the lock is free, and before the initialisation there are no queues. -/
structure Quiescent (s : Registry T) : Prop where
  free : s.mux = mutInit
  unused : s.inited = false → s.allq = []

structure Unchanged (s s' : Registry T) : Prop where
  allq : s'.allq = s.allq
  book : ∀ q, (s'.obj q).openCount = (s.obj q).openCount ∧
    (s'.obj q).pendingUnlink = (s.obj q).pendingUnlink
  live : s'.live = s.live
  mux : s'.mux = s.mux

structure Creating (name : CString) (oflag : OFlag) (attr : Option MqAttr) (s : Registry T) :
    Prop where
  valid : validateName name = true
  attr : validateAttr attr = true
  missing : s.find name = none
  creat : oflag.O_CREAT = true

section Failing
variable {relock : Bool} {P : Platform} {t : T} {c : Env} {s s' : Registry T} {name : CString}
  {oflag : OFlag} {attr : Option MqAttr} {r : Except Status Ptr}

omit [DecidableEq T] in
theorem start_of_inited (h : s.inited = true) : start s = s := if_pos h

omit [DecidableEq T] in
theorem start_inited (s : Registry T) : (start s).inited = true := by
  cases h : s.inited with
  | true => rw [start_of_inited h, h]
  | false => simp [start, h]

theorem mqCheckInit_start : mqCheckInit.eval (mqExec relock P t c) s = some ((), start s) := by
  cases h : s.inited with
  | true => rw [mqCheckInit_eval h, start_of_inited h]
  | false => simp [mqCheckInit, mqExec, h, start, Registry.withMux]

theorem mqOpen_start : (mqOpen P name oflag attr).eval (mqExec relock P t c) s =
    (mqOpen P name oflag attr).eval (mqExec relock P t c) (start s) := by
  rw [mqOpen, Prog.eval_bind, Prog.eval_bind, mqCheckInit_start, mqCheckInit_start,
    start_of_inited (start_inited s)]

omit [DecidableEq T] in
theorem Quiescent.start (h : Quiescent s) : Quiescent (start s) ∧ Unchanged s (start s) := by
  cases hi : s.inited with
  | true =>
    rw [start_of_inited hi]
    exact ⟨h, rfl, fun _ => ⟨rfl, rfl⟩, rfl, rfl⟩
  | false =>
    simp only [MqueueOpening.start, hi, Bool.false_eq_true, if_false]
    exact ⟨⟨rfl, fun hn => by simp at hn⟩, (h.unused hi).symm, fun _ => ⟨rfl, rfl⟩, rfl,
      h.free.symm⟩

omit [DecidableEq T] in
theorem Unchanged.trans {s₁ s₂ s₃ : Registry T} (h : Unchanged s₁ s₂) (h' : Unchanged s₂ s₃) :
    Unchanged s₁ s₃ :=
  ⟨h'.allq.trans h.allq,
    fun q => ⟨(h'.book q).1.trans (h.book q).1, (h'.book q).2.trans (h.book q).2⟩,
    h'.live.trans h.live, h'.mux.trans h.mux⟩

/-- With a free lock and its checks passed, `mq_open` is decided by what it finds. -/
theorem mqOpen_free (hi : s.inited = true) (hm : s.mux = mutInit)
    (hv : validateName name = true) (ha : validateAttr attr = true) :
    (mqOpen P name oflag attr).eval (mqExec relock P t c) s =
      match s.find name with
      | some q =>
        if oflag.O_EXCL = true ∧ oflag.O_CREAT = true then some (.error .EEXIST, s)
        else some (.ok q, opened q s)
      | none =>
        if oflag.O_CREAT = true then
          (mqCreateLocked P name oflag (attr.getD defAttr)).eval (mqExec relock P t c)
            (s.withMux ⟨some t, 1⟩)
        else some (.error .ENOENT, s) := by
  have hback := withMux_back (t := t) hm
  have hobj : (s.withMux ⟨some t, 1⟩).obj = s.obj := rfl
  have hfind : (s.withMux ⟨some t, 1⟩).find name = s.find name := rfl
  simp only [mqOpen, Prog.eval_bind, mqCheckInit_eval hi, Option.bind_some, hv, ha,
    Bool.true_eq_false, if_false, Prog.eval_request, muxLock_free hm, mqFindLocked_eval, hfind]
  cases s.find name with
  | some q =>
    by_cases hx : oflag.O_EXCL = true ∧ oflag.O_CREAT = true
    · simp only [if_pos hx, Prog.eval_bind, Prog.eval_request, mqExec, Option.bind_some,
        Prog.pure_eq, Prog.eval_ret]
      exact congrArg (fun u => some (Except.error Status.EEXIST, u)) hback
    · simp only [if_neg hx, Prog.eval_bind, Prog.eval_request, mqExec, Option.bind_some,
        Prog.pure_eq, Prog.eval_ret, hobj]
      have hopened : ((s.withMux ⟨some t, 1⟩).modify q fun o =>
          { o with openCount := unsigned 16 ((s.obj q).openCount + 1) }).withMux
            (mutUnlock ⟨some t, 1⟩) = opened q s := by
        conv_rhs => rw [← hback]
        rfl
      exact congrArg (fun u => some (Except.ok q, u)) hopened
  | none =>
    by_cases hc : oflag.O_CREAT = true
    · simp only [if_pos hc]
    · simp only [if_neg hc, Prog.eval_bind, Prog.eval_request, mqExec, Option.bind_some,
        Prog.pure_eq, Prog.eval_ret]
      exact congrArg (fun u => some (Except.error Status.ENOENT, u)) hback

/-- A creation that lacks one of its blocks returns with the lock held. -/
theorem mqCreateLocked_locked {attr : MqAttr} (hb : c.queueBlock = none ∨ c.bufBlock = none)
    (h : (mqCreateLocked P name oflag attr).eval (mqExec relock P t c) s = some (r, s')) :
    r = .error .ENOENT ∧ s'.mux = s.mux := by
  cases hq : c.queueBlock with
  | none =>
    simp only [mqCreateLocked, Prog.eval_bind, Prog.eval_request, mqExec, hq, allocate_none,
      Option.bind_some, Prog.pure_eq, Prog.eval_ret] at h
    cases h
    exact ⟨rfl, rfl⟩
  | some q =>
    simp only [mqCreateLocked, Prog.eval_bind, Prog.eval_request, mqExec, hq] at h
    obtain ⟨⟨_, s1⟩, halloc, h⟩ := Option.bind_eq_some_iff.mp h
    obtain ⟨-, rfl, rfl⟩ := allocate_some halloc
    have hbuf : c.bufBlock = none := hb.resolve_left (by simp [hq])
    simp only [Prog.eval_bind, Prog.eval_request, mqExec, Option.bind_some, hbuf, allocate_none,
      Prog.pure_eq, Prog.eval_ret] at h
    cases h
    exact ⟨rfl, rfl⟩

/-- A failed `mq_open` changes nothing exactly unless it fails for want of a block. -/
theorem mqOpen_unchanged_iff (hs : Quiescent s)
    (h : (mqOpen P name oflag attr).eval (mqExec relock P t c) s = some (r, s')) :
    ((∃ errno, r = .error errno) → Unchanged s s') ↔
      ¬ (Creating name oflag attr (start s) ∧ (c.queueBlock = none ∨ c.bufBlock = none)) := by
  obtain ⟨hs', hstart⟩ := hs.start
  have hi := start_inited s
  rw [mqOpen_start] at h
  by_cases hbad : validateName name = false ∨ validateAttr attr = false
  · rw [mqOpen_refused hi hbad] at h
    cases h
    refine iff_of_true (fun _ => hstart) fun hc => ?_
    simp [hc.1.valid, hc.1.attr] at hbad
  · simp only [not_or, Bool.not_eq_false] at hbad
    rw [mqOpen_free hi hs'.free hbad.1 hbad.2] at h
    cases hf : (start s).find name with
    | some q =>
      have hn : ¬ Creating name oflag attr (start s) := fun hc => by
        have hmissing := hc.missing
        simp [hf] at hmissing
      refine iff_of_true ?_ fun hc => hn hc.1
      simp only [hf] at h
      split_ifs at h with hx
      · cases h
        exact fun _ => hstart
      · cases h
        rintro ⟨errno, herr⟩
        cases herr
    | none =>
      simp only [hf] at h
      by_cases hc : oflag.O_CREAT = true
      · rw [if_pos hc] at h
        by_cases hb : c.queueBlock = none ∨ c.bufBlock = none
        · -- the call returns with the lock taken
          obtain ⟨rfl, hmux⟩ := mqCreateLocked_locked hb h
          refine iff_of_false (fun hu => ?_) fun hn => hn ⟨⟨hbad.1, hbad.2, hf, hc⟩, hb⟩
          have hfree := (hu ⟨_, rfl⟩).mux
          rw [hmux, hs.free] at hfree
          cases hfree
        · refine iff_of_true ?_ fun hn => hb hn.2
          obtain ⟨-, ⟨hnone, -⟩ | ⟨q, b, -, -, rfl, -⟩⟩ := mqCreateLocked_spec h
          · exact absurd hnone hb
          · rintro ⟨errno, herr⟩
            cases herr
      · rw [if_neg hc] at h
        cases h
        exact iff_of_true (fun _ => hstart) fun hn => hc hn.1.creat

end Failing

section Runs

/-- The static variables when the program starts. -/
def powerOn : Registry Unit := ⟨false, mutInit, [], fun _ => zeroQueue, ∅⟩

theorem powerOn_quiescent : Quiescent powerOn := ⟨rfl, fun _ => rfl⟩

/-- The first call of all asks for a queue that does not exist. -/
theorem mqOpen_unchanged_missing : ∃ s',
    (mqOpen platform1000 nameQ plainOpen none).eval
      (mqExec true platform1000 () ⟨none, none, 5, true⟩) powerOn = some (.error .ENOENT, s') ∧
    Unchanged powerOn s' := by
  have hrun : (mqOpen platform1000 nameQ plainOpen none).eval
      (mqExec true platform1000 () ⟨none, none, 5, true⟩) powerOn =
        some (.error .ENOENT, start powerOn) := by
    rw [mqOpen_start, mqOpen_free rfl rfl (by decide) rfl]
    rfl
  refine ⟨_, hrun, (mqOpen_unchanged_iff powerOn_quiescent hrun).mpr ?_ ⟨_, rfl⟩⟩
  exact fun h => absurd h.1.creat (by decide)

/-- There is memory for the queue object but not for its buffer: the object is not freed and the
lock is not released. -/
theorem mqOpen_locked : ∃ s',
    (mqOpen platform1000 nameQ ⟨true, false, false⟩ none).eval
      (mqExec true platform1000 () ⟨some 1, none, 5, true⟩) powerOn =
        some (.error .ENOENT, s') ∧
    s'.mux = ⟨some (), 1⟩ ∧ s'.live = {(.POSIX_MQUEUE, 1)} ∧ ¬ Unchanged powerOn s' := by
  have hrun : (mqOpen platform1000 nameQ ⟨true, false, false⟩ none).eval
      (mqExec true platform1000 () ⟨some 1, none, 5, true⟩) powerOn =
        some (.error .ENOENT, Registry.modify 1 (fun _ => zeroQueue)
          ⟨true, ⟨some (), 1⟩, [], fun _ => zeroQueue, insert (.POSIX_MQUEUE, 1) ∅⟩) := by
    rw [mqOpen_start, mqOpen_free rfl rfl (by decide) rfl]
    rfl
  refine ⟨_, hrun, rfl, rfl, fun hu => ?_⟩
  have hmux := hu.mux
  cases hmux

end Runs

section Requests

def bufRequests (log : List MqOp) : List ℕ :=
  log.filterMap fun
    | .allocBuf sz => some sz
    | _ => none

def nameWrites (log : List MqOp) : List (Ptr × CString) :=
  log.filterMap fun
    | .storeName mq name => some (mq, name)
    | _ => none

def Silent (l l' : List MqOp) : Prop :=
  bufRequests l' = bufRequests l ∧ nameWrites l' = nameWrites l

theorem Silent.trans {l₁ l₂ l₃ : List MqOp} (h : Silent l₁ l₂) (h' : Silent l₂ l₃) :
    Silent l₁ l₃ := ⟨h'.1.trans h.1, h'.2.trans h.2⟩

theorem silent_append {l es : List MqOp} (hb : bufRequests es = []) (hn : nameWrites es = []) :
    Silent l (l ++ es) := by
  unfold bufRequests at hb
  unfold nameWrites at hn
  simp [Silent, bufRequests, nameWrites, hb, hn]

variable {P : Platform} {l : List MqOp} {name : CString} {oflag : OFlag}

theorem mqCheckInit_silent :
    mqCheckInit.Obeys (recording MqOp MqAns) l fun _ l' => Silent l l' := by
  simp only [mqCheckInit, Prog.request_bind, Prog.obeys_call, recording_safe, recording_after]
  refine ⟨trivial, ?_⟩
  rintro inited l' rfl
  cases inited with
  | true => exact silent_append rfl rfl
  | false => simp [Silent, bufRequests, nameWrites]

theorem mqFindFrom_silent (ps : List Ptr) :
    (mqFindFrom name ps).Obeys (recording MqOp MqAns) l fun _ l' => Silent l l' := by
  induction ps generalizing l with
  | nil => exact ⟨rfl, rfl⟩
  | cons p ps ih =>
    simp only [mqFindFrom, Prog.request_bind, Prog.obeys_call, recording_safe, recording_after]
    refine ⟨trivial, ?_⟩
    rintro obj l' rfl
    have hload : Silent l (l ++ [.load p]) := silent_append rfl rfl
    by_cases hname : name = obj.name
    · rw [if_pos hname]
      exact hload
    · rw [if_neg hname]
      exact ih.mono fun _ _ h => hload.trans h

theorem mqFindLocked_silent :
    (mqFindLocked name).Obeys (recording MqOp MqAns) l fun _ l' => Silent l l' := by
  simp only [mqFindLocked, Prog.request_bind, Prog.obeys_call, recording_safe, recording_after]
  refine ⟨trivial, ?_⟩
  rintro ps l' rfl
  have hall : Silent l (l ++ [.allq]) := silent_append rfl rfl
  exact (mqFindFrom_silent ps).mono fun _ _ h => hall.trans h

/-- What a successful creation has asked for: one buffer, and one copy of the name. -/
structure Requested (P : Platform) (name : CString) (attr : MqAttr) (q : Ptr)
    (l l' : List MqOp) : Prop where
  buffer : bufRequests l' = bufRequests l ++ [(createdQueue P attr).sz]
  name : nameWrites l' = nameWrites l ++ [(q, name)]

theorem mqCreateLocked_requests (attr : MqAttr) :
    (mqCreateLocked P name oflag attr).Obeys (recording MqOp MqAns) l fun r l' =>
      ∀ q, r = .ok q → Requested P name attr q l l' := by
  simp only [mqCreateLocked, Prog.request_bind, Prog.obeys_call, recording_safe, recording_after]
  refine ⟨trivial, ?_⟩
  rintro block l' rfl
  cases block with
  | none => simp
  | some mq =>
    simp only [Prog.obeys_call, recording_safe, recording_after]
    refine ⟨trivial, ?_⟩
    rintro - l' rfl
    refine ⟨trivial, ?_⟩
    rintro buf l' rfl
    cases buf with
    | none => simp
    | some buf =>
      simp
      constructor
      · simp [bufRequests, createdQueue]
      · simp [nameWrites]

theorem mqOpen_requests (attr : Option MqAttr) :
    (mqOpen P name oflag attr).Obeys (recording MqOp MqAns) l fun r l' =>
      ∀ q, r = .ok q → Silent l l' ∨ Requested P name (attr.getD defAttr) q l l' := by
  rw [mqOpen, Prog.obeys_bind]
  apply mqCheckInit_silent.mono
  intro _ l₁ h₁
  by_cases hv : validateName name = false
  · simp [hv]
  by_cases ha : validateAttr attr = false
  · simp [hv, ha]
  simp only [if_neg hv, if_neg ha, Prog.request_bind, Prog.obeys_call, recording_safe,
    recording_after, Prog.obeys_bind]
  refine ⟨trivial, ?_⟩
  rintro - l' rfl
  apply mqFindLocked_silent.mono
  intro found l₂ h₂
  have hsilent : Silent l l₂ := (h₁.trans (silent_append rfl rfl)).trans h₂
  cases found with
  | some q =>
    by_cases hx : oflag.O_EXCL = true ∧ oflag.O_CREAT = true
    · simp [hx]
    · simp only [if_neg hx, Prog.obeys_call, recording_safe, recording_after]
      simp
      intro obj
      exact .inl (hsilent.trans (silent_append rfl rfl))
  | none =>
    by_cases hc : oflag.O_CREAT = true
    · simp only [if_pos hc]
      apply (mqCreateLocked_requests (attr.getD defAttr)).mono
      intro r l₃ h₃ q hr
      obtain ⟨hbuf, hname⟩ := h₃ q hr
      exact .inr ⟨by rw [hbuf, hsilent.1], by rw [hname, hsilent.2]⟩
    · simp [hc]

theorem mqOpen_creates (P : Platform) (t : T) (attr : Option MqAttr)
    (hv : validateName name = true) (ha : validateAttr attr = true) : ∃ s' log,
    (mqOpen P name ⟨true, false, false⟩ attr).eval
      (traced (mqExec true P t ⟨some 1, some 2, 5, true⟩)) (emptyRegistry, []) =
        some (.ok 1, s', log) ∧ Requested P name (attr.getD defAttr) 1 [] log := by
  simp [mqOpen, mqCheckInit, hv, ha, mqFindLocked, mqFindFrom, mqCreateLocked, traced, mqExec,
    emptyRegistry, mutLock, mutInit, Registry.allocate, Registry.withMux, Registry.modify]
  constructor
  · simp [bufRequests, createdQueue]
  · simp [nameWrites]

end Requests

section Buffer

/-- The bytes of `mq_maxmsg` items of whole words. -/
def bytesNeeded (attr : MqAttr) : ℤ := attr.mqMaxmsg * 4 * ((attr.mqMsgsize + 3) / 4)

/-- The buffer asked for holds all messages, and nothing on the way to its size is wrapped or
overflows. -/
structure Enough (P : Platform) (attr : MqAttr) (log : List MqOp) : Prop where
  room : ∃ sz ∈ bufRequests log, bytesNeeded attr ≤ sz
  sum : Fits P.longBits (attr.mqMsgsize + 3)
  product : attr.mqMaxmsg * (createdQueue P attr).isz < 2 ^ 32

/-- The item size is the message size in words, rounded up, unless it wraps. -/
theorem createdQueue_isz_le (P : Platform) {attr : MqAttr} (h0 : 0 ≤ attr.mqMsgsize)
    (hsum : Fits P.longBits (attr.mqMsgsize + 3)) :
    ((createdQueue P attr).isz : ℤ) ≤ (attr.mqMsgsize + 3) / 4 := by
  have hbits := P.longBits_ge
  have hshift : signed P.longBits (attr.mqMsgsize + 3) >>> 2 = (attr.mqMsgsize + 3) / 4 := by
    rw [signed_of_fits (by omega) hsum, shiftRight_two]
  simp only [createdQueue, hshift]
  exact unsigned_le (by omega)

/-- The size is counted in words but asked for in bytes. -/
theorem createdQueue_sz_lt (P : Platform) {attr : MqAttr} (hmax : 1 ≤ attr.mqMaxmsg)
    (hsize : 1 ≤ attr.mqMsgsize) (hsum : Fits P.longBits (attr.mqMsgsize + 3)) :
    ((createdQueue P attr).sz : ℤ) < bytesNeeded attr := by
  have hisz := createdQueue_isz_le P (by omega) hsum
  generalize hnwords : ((createdQueue P attr).isz : ℤ) = nwords at hisz
  have hnonneg : 0 ≤ nwords := by omega
  have hsz : ((createdQueue P attr).sz : ℤ) ≤ attr.mqMaxmsg * nwords := by
    have hle := unsigned_le (w := 32) (mul_nonneg (by omega : 0 ≤ attr.mqMaxmsg) hnonneg)
    rw [← hnwords] at hle ⊢
    exact hle
  calc ((createdQueue P attr).sz : ℤ)
      ≤ attr.mqMaxmsg * nwords := hsz
    _ ≤ attr.mqMaxmsg * ((attr.mqMsgsize + 3) / 4) :=
        mul_le_mul_of_nonneg_left hisz (by omega)
    _ < attr.mqMaxmsg * 4 * ((attr.mqMsgsize + 3) / 4) := by
        have hpos := mul_pos (by omega : 0 < attr.mqMaxmsg)
          (by omega : 0 < (attr.mqMsgsize + 3) / 4)
        linarith

theorem not_enough (P : Platform) {attr : MqAttr} (hmax : 1 ≤ attr.mqMaxmsg)
    (hsize : 1 ≤ attr.mqMsgsize) {name : CString} {q : Ptr} {log : List MqOp}
    (hlog : Silent [] log ∨ Requested P name attr q [] log) : ¬ Enough P attr log := by
  rintro ⟨⟨sz, hsz, hroom⟩, hsum, -⟩
  rcases hlog with ⟨hnone, -⟩ | ⟨hbuf, -⟩
  · rw [hnone] at hsz
    simp [bufRequests] at hsz
  · have hlt := createdQueue_sz_lt P hmax hsize hsum
    rw [hbuf] at hsz
    obtain rfl : sz = (createdQueue P attr).sz := by simpa [bufRequests] using hsz
    omega

/-- No `mq_open` that makes a queue asks for a buffer that is large enough; with memory to be
had every pair of attributes gives such a call. -/
theorem mqOpen_buffer_small (P : Platform) {attr : MqAttr} (hmax : 1 ≤ attr.mqMaxmsg)
    (hsize : 1 ≤ attr.mqMsgsize) :
    (∀ (relock : Bool) (t : T) (c : Env) (s s' : Registry T) (name : CString) (oflag : OFlag)
      (mq : Ptr) (log : List MqOp),
      (mqOpen P name oflag (some attr)).eval (traced (mqExec relock P t c)) (s, []) =
        some (.ok mq, s', log) → bufRequests log ≠ [] → ¬ Enough P attr log) ∧
    ∀ t : T, ∃ s' log,
      (mqOpen P nameQ ⟨true, false, false⟩ (some attr)).eval
        (traced (mqExec true P t ⟨some 1, some 2, 5, true⟩)) (emptyRegistry, []) =
          some (.ok 1, s', log) ∧ bufRequests log ≠ [] := by
  constructor
  · intro relock t c s s' name oflag mq log h _
    exact not_enough P hmax hsize (recorded (mqOpen_requests (some attr)) h mq rfl)
  · intro t
    have hvalid : validateName nameQ = true := by decide
    have ha : validateAttr (some attr) = true := by
      simp only [validateAttr]
      simp
      omega
    obtain ⟨s', log, hrun, hreq⟩ := mqOpen_creates P t (some attr) hvalid ha
    refine ⟨s', log, hrun, ?_⟩
    rw [hreq.buffer]
    simp [bufRequests]

def attr10 : MqAttr := ⟨⟨false, false, false⟩, 10, 16, 0⟩

theorem mqOpen_buffer_small_ten : ∃ s' log,
    (mqOpen platform1000 nameQ ⟨true, false, false⟩ (some attr10)).eval
      (traced (mqExec true platform1000 () ⟨some 1, some 2, 5, true⟩)) (emptyRegistry, []) =
        some (.ok 1, s', log) ∧ ¬ Enough platform1000 attr10 log := by
  have hmax : 1 ≤ attr10.mqMaxmsg := by decide
  have hsize : 1 ≤ attr10.mqMsgsize := by decide
  obtain ⟨hsmall, hcreates⟩ := mqOpen_buffer_small (T := Unit) platform1000 hmax hsize
  obtain ⟨s', log, hrun, hne⟩ := hcreates ()
  exact ⟨s', log, hrun, hsmall _ _ _ _ _ _ _ _ _ hrun hne⟩

/-- For 160 bytes of messages it asks for 40. -/
theorem mqOpen_asks_forty : ∃ s' log,
    (mqOpen platform1000 nameQ ⟨true, false, false⟩ (some attr10)).eval
      (traced (mqExec true platform1000 () ⟨some 1, some 2, 5, true⟩)) (emptyRegistry, []) =
        some (.ok 1, s', log) ∧
    bytesNeeded attr10 = 160 ∧ bufRequests log = [40] ∧ ¬ Enough platform1000 attr10 log := by
  obtain ⟨s', log, hrun, hreq⟩ :=
    mqOpen_creates platform1000 () (some attr10) (by decide : validateName nameQ = true) rfl
  have hbuf : bufRequests log = [40] := by
    rw [hreq.buffer]
    decide +kernel
  exact ⟨s', log, hrun, by decide, hbuf, not_enough _ (by decide) (by decide) (.inr hreq)⟩

end Buffer

end LibPosix.MqueueOpening
