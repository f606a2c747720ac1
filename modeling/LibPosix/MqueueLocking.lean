import LibPosix.MqueueDirectory
import LibPosix.Progress

/-! The lock of `posix_mqueue.c` is no source of deadlocks. As long as no allocation fails, a call
gives the lock back before it returns and before it waits for anything else; what can hold up the
calls of any number of threads for ever is then only what is in the kernel's queues. -/
namespace LibPosix.MqueueLocking
open Program ThreadPool Transition TimeUtils Kernel MachineInt Mqueue MqueueCalls
open MqueueRegistry (MqCall MqRes mqCode)
open MqueueCustody (closeCounted mqCloseLocked_eq)
open MqueueDirectory Progress
variable {T : Type} [DecidableEq T]

/-- The lock is not taken twice, given back only by its holder, not held while the kernel's queues
are used, and allocations succeed. The view is whether the thread holds it. -/
def locking : Protocol MqOp MqAns Bool where
  safe
    | _, .llInit | _, .mutInit | _, .storeInited => False
    | l, .muxLock => l = false
    | l, .muxUnlock => l = true
    | l, .mqPut .. => l = false
    | l, .mqGet .. => l = false
    | _, _ => True
  after
    | l, .loadInited, r, l' => r = true ∧ l' = l
    | _, .muxLock, _, l' => l' = true
    | _, .muxUnlock, _, l' => l' = false
    | l, .allocQueue, r, l' => r ≠ none ∧ l' = l
    | l, .allocBuf _, r, l' => r ≠ none ∧ l' = l
    | l, _, _, l' => l' = l

section Calls
variable {P : Platform} {l : Bool} {mq : Ptr} {name : CString}

theorem ask_quiet {α : Type} {e : MqOp} {f : MqAns e → Prog MqOp MqAns α}
    {post : α → Bool → Prop} (hsafe : locking.safe l e)
    (hafter : ∀ r l', locking.after l e r l' → l' = l) (h : ∀ r, (f r).Obeys locking l post) :
    (ask e >>= f).Obeys locking l post := by
  refine ⟨hsafe, ?_⟩
  intro r l' hl'
  rw [hafter r l' hl']
  exact h r

theorem mqCheckInit_locking : mqCheckInit.Obeys locking l fun _ l' => l' = l := by
  refine ⟨trivial, ?_⟩
  intro r l' hl'
  obtain ⟨rfl, rfl⟩ := hl'
  rfl

theorem mqExtractLocked_locking : (mqExtractLocked mq).Obeys locking l fun _ l' => l' = l :=
  ⟨trivial, fun _ _ hl => hl⟩

theorem mqFindFrom_locking (ps : List Ptr) :
    (mqFindFrom name ps).Obeys locking l fun _ l' => l' = l := by
  induction ps with
  | nil => rfl
  | cons p ps ih =>
    rw [mqFindFrom]
    refine ask_quiet trivial (fun _ _ hl => hl) ?_
    intro o
    rw [Prog.obeys_ite]
    exact ⟨fun _ => rfl, fun _ => ih⟩

theorem mqFindLocked_locking : (mqFindLocked name).Obeys locking l fun _ l' => l' = l := by
  rw [mqFindLocked]
  exact ask_quiet trivial (fun _ _ hl => hl) mqFindFrom_locking

theorem mqFree_locking : (mqFree mq).Obeys locking l fun _ l' => l' = l := by
  rw [mqFree]
  refine ask_quiet trivial (fun _ _ hl => hl) ?_
  intro o
  refine ask_quiet trivial (fun _ _ hl => hl) ?_
  intro _
  exact ⟨trivial, fun _ _ hl => hl⟩

theorem closeCounted_locking : (closeCounted mq).Obeys locking l fun _ l' => l' = l := by
  rw [closeCounted]
  refine ask_quiet trivial (fun _ _ hl => hl) ?_
  intro o
  rw [Prog.obeys_ite, Prog.obeys_ite]
  refine ⟨fun _ => ⟨fun _ => ?_, fun _ => ?_⟩, fun _ => rfl⟩
  · exact ⟨trivial, fun _ _ hl => hl⟩
  · exact ⟨trivial, fun _ _ hl => hl⟩

theorem mqCloseLocked_locking : (mqCloseLocked mq).Obeys locking l fun _ l' => l' = l := by
  rw [mqCloseLocked_eq]
  refine ask_quiet trivial (fun _ _ hl => hl) ?_
  intro o
  dsimp only
  split_ifs
  · exact ask_quiet trivial (fun _ _ hl => hl) fun _ => closeCounted_locking
  · exact closeCounted_locking

theorem mqUnlinkLocked_locking : (mqUnlinkLocked mq).Obeys locking l fun _ l' => l' = l := by
  rw [mqUnlinkLocked]
  refine ask_quiet trivial (fun _ _ hl => hl) ?_
  intro o
  rw [Prog.obeys_ite]
  constructor
  · intro _
    exact ⟨trivial, fun _ _ hl => hl⟩
  · intro _
    exact ⟨trivial, fun _ _ hl => hl⟩

theorem unlockFree_locking (removed : Bool) :
    (do
      ask .muxUnlock
      if removed = true then
        mqFree mq
      return Status.ok : Prog MqOp MqAns Status).Obeys locking true fun _ l' => l' = false := by
  refine ⟨rfl, ?_⟩
  intro _ l' hl'
  cases hl'
  cases removed with
  | false => rfl
  | true => exact Prog.obeys_bind.mpr mqFree_locking

theorem locked {α : Type} {q : Prog MqOp MqAns α} {post : α → Bool → Prop}
    (h : q.Obeys locking true post) :
    (do
      mqCheckInit
      ask .muxLock
      q : Prog MqOp MqAns α).Obeys locking false post := by
  rw [Prog.obeys_bind]
  apply mqCheckInit_locking.mono
  intro _ l hl
  cases hl
  rw [Prog.obeys_bind, Prog.obeys_request]
  refine ⟨rfl, ?_⟩
  intro _ l hl
  cases hl
  exact h

theorem mqClose_locking : (mqClose mq).Obeys locking false fun _ l => l = false := by
  apply locked
  rw [Prog.obeys_bind]
  apply mqExtractLocked_locking.mono
  intro r l hl
  cases hl
  cases r with
  | some mq =>
    rw [Prog.obeys_bind]
    apply mqCloseLocked_locking.mono
    intro removed l hl
    cases hl
    exact unlockFree_locking removed
  | none => exact ⟨rfl, fun _ _ hl => hl⟩

theorem mqUnlink_locking : (mqUnlink name).Obeys locking false fun _ l => l = false := by
  unfold mqUnlink
  by_cases hv : validateName name = false
  · simp only [if_pos hv]
    exact Prog.obeys_bind.mpr mqCheckInit_locking
  · simp only [if_neg hv]
    apply locked
    rw [Prog.obeys_bind]
    apply mqFindLocked_locking.mono
    intro r l hl
    cases hl
    cases r with
    | some mq =>
      rw [Prog.obeys_bind]
      apply mqUnlinkLocked_locking.mono
      intro removed l hl
      cases hl
      exact unlockFree_locking removed
    | none => exact ⟨rfl, fun _ _ hl => hl⟩

theorem mqGetattr_locking : (mqGetattr P mq).Obeys locking false fun _ l => l = false := by
  apply locked
  rw [Prog.obeys_bind]
  apply mqExtractLocked_locking.mono
  intro r l hl
  cases hl
  cases r with
  | some mq =>
    refine ask_quiet trivial (fun _ _ hl => hl) ?_
    intro o
    exact ⟨rfl, fun _ _ hl => hl⟩
  | none => exact ⟨rfl, fun _ _ hl => hl⟩

/-- With memory for both blocks, the creating branch comes to its unlock. -/
theorem mqCreateLocked_locking (oflag : OFlag) (attr : MqAttr) :
    (mqCreateLocked P name oflag attr).Obeys locking true fun _ l => l = false := by
  rw [mqCreateLocked, Prog.obeys_bind]
  refine ⟨trivial, ?_⟩
  intro r l hl
  obtain ⟨hq, rfl⟩ := hl
  cases r with
  | none => exact absurd rfl hq
  | some q =>
    refine ⟨trivial, ?_⟩
    intro _ l hl
    cases hl
    refine ⟨trivial, ?_⟩
    intro r l hl
    obtain ⟨hb, rfl⟩ := hl
    cases r with
    | none => exact absurd rfl hb
    | some buf =>
      apply ask_quiet (e := .storeBuf q buf) trivial fun _ _ hl => hl
      intro _
      apply ask_quiet (e := .clearBuf buf _) trivial fun _ _ hl => hl
      intro _
      apply ask_quiet (e := .storeName q name) trivial fun _ _ hl => hl
      intro _
      apply ask_quiet (e := .storeFlags q oflag) trivial fun _ _ hl => hl
      intro _
      apply ask_quiet (e := .lleInit q) trivial fun _ _ hl => hl
      intro _
      apply ask_quiet (e := .storeOpenCount q 0) trivial fun _ _ hl => hl
      intro _
      apply ask_quiet (e := .mqInit q _ buf _) trivial fun _ _ hl => hl
      intro _
      exact ⟨rfl, fun _ _ hl => hl⟩

theorem mqOpen_locking (oflag : OFlag) (attr : Option MqAttr) :
    (mqOpen P name oflag attr).Obeys locking false fun _ l => l = false := by
  unfold mqOpen
  by_cases hv : validateName name = false
  · simp only [if_pos hv]
    exact Prog.obeys_bind.mpr mqCheckInit_locking
  by_cases ha : validateAttr attr = false
  · simp only [if_neg hv, if_pos ha]
    exact Prog.obeys_bind.mpr mqCheckInit_locking
  simp only [if_neg hv, if_neg ha]
  apply locked
  rw [Prog.obeys_bind]
  apply mqFindLocked_locking.mono
  intro r l hl
  cases hl
  cases r with
  | some mq =>
    rw [Prog.obeys_ite]
    constructor
    · intro _
      exact ⟨rfl, fun _ _ hl => hl⟩
    · intro _
      refine ask_quiet trivial (fun _ _ hl => hl) ?_
      intro o
      refine ask_quiet trivial (fun _ _ hl => hl) ?_
      intro _
      exact ⟨rfl, fun _ _ hl => hl⟩
  | none =>
    rw [Prog.obeys_ite]
    refine ⟨fun _ => mqCreateLocked_locking oflag _, fun _ => ?_⟩
    exact ⟨rfl, fun _ _ hl => hl⟩

theorem getTickTimeout_locking (flags : OFlag) (timeout : Option Timespec) (ptimeout : ℕ) :
    (getTickTimeout P flags timeout ptimeout).Obeys locking l fun _ l' => l' = l := by
  unfold getTickTimeout
  split_ifs
  · rfl
  · cases timeout with
    | none => rfl
    | some timeout =>
      simp only
      split_ifs
      · rfl
      · exact ⟨trivial, fun _ _ hl => hl⟩

theorem mqPrepare_locking (msgPtr : Ptr) (badLen : ℕ → Bool) (abstime : Option Timespec) :
    (mqPrepare P mq msgPtr badLen abstime).Obeys locking false fun _ l => l = false := by
  have hunlock (conv : Status × ℕ) : (do
      ask .muxUnlock
      return conv : Prog MqOp MqAns (Status × ℕ)).Obeys locking true fun _ l => l = false :=
    ⟨rfl, fun _ _ hl => hl⟩
  rw [mqPrepare, Prog.obeys_bind, Prog.obeys_request]
  refine ⟨rfl, ?_⟩
  intro _ l hl
  cases hl
  rw [Prog.obeys_bind]
  apply mqExtractLocked_locking.mono
  intro found l hl
  cases hl
  by_cases hok : (if msgPtr % 4 ≠ 0 then Status.EINVAL else
      if found = none then .EBADF else .ok) = .ok
  · simp only [hok, if_true, Prog.obeys_bind, Prog.obeys_request]
    refine ⟨trivial, ?_⟩
    intro o l hl
    cases hl
    simp only [Prog.pure_eq, Prog.obeys_ret]
    by_cases hlen : badLen o.q.isz = true
    · simpa [hlen] using hunlock (.EMSGSIZE, 0)
    · simp only [if_neg hlen, if_true, Prog.obeys_bind, Prog.obeys_request]
      refine ⟨trivial, ?_⟩
      intro o l hl
      cases hl
      apply (getTickTimeout_locking _ _ _).mono
      intro conv l hl
      cases hl
      exact hunlock conv
  · simp only [if_neg hok, Prog.pure_eq, Prog.ret_bind]
    exact hunlock _

theorem mqFailure_locking : (mqFailure mq).Obeys locking l fun _ l' => l' = l :=
  ⟨trivial, fun _ _ hl => hl⟩

theorem mqTimedsend_locking (msgPtr : Ptr) (msgLen : ℕ) (abstime : Option Timespec) :
    (mqTimedsend P mq msgPtr msgLen abstime).Obeys locking false fun _ l => l = false := by
  rw [mqTimedsend, Prog.obeys_bind]
  apply (mqPrepare_locking msgPtr _ abstime).mono
  intro conv l hl
  cases hl
  by_cases hok : conv.1 = .ok
  · simp only [if_pos hok, Prog.obeys_bind, Prog.obeys_request, Prog.obeys_ite]
    refine ⟨rfl, ?_⟩
    intro accepted l hl
    cases hl
    exact ⟨fun _ => rfl, fun _ => mqFailure_locking⟩
  · rw [if_neg hok]
    rfl

theorem mqTimedreceive_locking (msgPtr : Ptr) (msgLen : ℕ) (abstime : Option Timespec) :
    (mqTimedreceive P mq msgPtr msgLen abstime).Obeys locking false fun _ l => l = false := by
  rw [mqTimedreceive, Prog.obeys_bind]
  apply (mqPrepare_locking msgPtr _ abstime).mono
  intro conv l hl
  cases hl
  by_cases hok : conv.1 = .ok
  · simp only [if_pos hok, Prog.obeys_bind, Prog.obeys_request, Prog.obeys_ite]
    refine ⟨rfl, ?_⟩
    intro accepted l hl
    cases hl
    refine ⟨fun _ => ⟨trivial, fun _ _ hl => hl⟩, fun _ => ?_⟩
    exact mqFailure_locking.mono fun _ _ hl => hl
  · rw [if_neg hok]
    rfl

theorem mqCode_locking (k : MqCall) : (mqCode P k).Obeys locking false fun _ l => l = false := by
  cases k with
  | mqOpen name oflag attr =>
    rw [mqCode, Prog.obeys_bind]
    exact (mqOpen_locking oflag attr).mono fun _ _ hl => hl
  | mqClose mq =>
    rw [mqCode, Prog.obeys_bind]
    exact mqClose_locking.mono fun _ _ hl => hl
  | mqUnlink name =>
    rw [mqCode, Prog.obeys_bind]
    exact mqUnlink_locking.mono fun _ _ hl => hl
  | mqGetattr mq =>
    rw [mqCode, Prog.obeys_bind]
    exact mqGetattr_locking.mono fun _ _ hl => hl
  | mqTimedsend mq msgPtr msgLen abstime =>
    rw [mqCode, Prog.obeys_bind]
    exact (mqTimedsend_locking msgPtr msgLen abstime).mono fun _ _ hl => hl
  | mqTimedreceive mq msgPtr msgLen abstime =>
    rw [mqCode, Prog.obeys_bind]
    exact (mqTimedreceive_locking msgPtr msgLen abstime).mono fun _ _ hl => hl
  | mqSend mq msgPtr msgLen =>
    rw [mqCode, Prog.obeys_bind]
    exact (mqTimedsend_locking msgPtr msgLen none).mono fun _ _ hl => hl
  | mqReceive mq msgPtr msgLen =>
    rw [mqCode, Prog.obeys_bind]
    exact (mqTimedreceive_locking msgPtr msgLen none).mono fun _ _ hl => hl

end Calls

def supplies (c : Env) : MqOp → Bool
  | .allocQueue => c.queueBlock.isSome
  | .allocBuf _ => c.bufBlock.isSome
  | _ => true

def Supplied (_ : Registry T) (_ : T) (e : MqOp) (c : Env) : Prop := supplies c e = true

/-- The kernel queue has room for the item, or an item. -/
def admits (room : ℕ → ℕ → ℕ) (s : Registry T) : MqOp → Bool
  | .mqPut mq _ _ => decide ((s.obj mq).q.n < room (s.obj mq).q.isz (s.obj mq).q.sz)
  | .mqGet mq _ _ => decide (0 < (s.obj mq).q.n)
  | _ => true

/-- What the kernel answers when a call has to wait for room or for an item: nothing until there
is, unless the time runs out, which it does not with the timeout `WAIT`. -/
def timely (P : Platform) (room : ℕ → ℕ → ℕ) (s : Registry T) (c : Env) : MqOp → Bool
  | .mqPut mq msg ticks => if admits room s (.mqPut mq msg ticks) = true then c.accept
    else !c.accept && decide (ticks ≠ P.WAIT)
  | .mqGet mq msg ticks => if admits room s (.mqGet mq msg ticks) = true then c.accept
    else !c.accept && decide (ticks ≠ P.WAIT)
  | _ => true

/-- Threads whose allocations succeed, and that wait at the kernel's queues. -/
def blockingSystem (relock : Bool) (P : Platform) (room : ℕ → ℕ → ℕ) :
    System T MqOp MqAns Env (Registry T) MqCall MqRes where
  code _ k := mqCode P k
  exec t e c s :=
    if supplies c e = true ∧ timely P room s c e = true then mqExec relock P t c e s else none
  enter _ _ s := some s
  leave _ _ _ s := s

/-- The call waits for ever, to send to a full queue or to receive from an empty one. -/
inductive HeldUp (P : Platform) (room : ℕ → ℕ → ℕ) (s : Registry T) : MqOp → Prop
  | full {mq msg : Ptr} (h : room (s.obj mq).q.isz (s.obj mq).q.sz ≤ (s.obj mq).q.n) :
      HeldUp P room s (.mqPut mq msg P.WAIT)
  | empty {mq msg : Ptr} (h : (s.obj mq).q.n = 0) : HeldUp P room s (.mqGet mq msg P.WAIT)

section Requests
variable {relock : Bool} {P : Platform} {room : ℕ → ℕ → ℕ} {t : T} {e : MqOp} {c : Env}
  {s s' : Registry T}

theorem mqExec_mux {r : MqAns e} (he : e ≠ .mutInit ∧ e ≠ .storeInited)
    (hlock : e ≠ .muxLock ∧ e ≠ .muxUnlock) (hx : mqExec relock P t c e s = some (r, s')) :
    s'.inited = s.inited ∧ s'.mux = s.mux := by
  cases e with
  | muxLock => exact absurd rfl hlock.1
  | muxUnlock => exact absurd rfl hlock.2
  | mutInit => exact absurd rfl he.1
  | storeInited => exact absurd rfl he.2
  | allocQueue =>
    obtain ⟨live, -, rfl⟩ := allocate_grows hx
    exact ⟨rfl, rfl⟩
  | allocBuf sz =>
    obtain ⟨live, -, rfl⟩ := allocate_grows hx
    exact ⟨rfl, rfl⟩
  | mqPut mq msg ticks =>
    obtain ⟨g, rfl⟩ := mqPut_some hx
    exact ⟨rfl, rfl⟩
  | mqGet mq msg ticks =>
    obtain ⟨g, rfl⟩ := mqGet_some hx
    exact ⟨rfl, rfl⟩
  | _ =>
    cases hx
    exact ⟨rfl, rfl⟩

theorem HeldUp.unanswered (h : HeldUp P room s e) (c : Env) :
    (blockingSystem relock P room).exec t e c s = none := by
  cases h with
  | full h => simp [blockingSystem, supplies, timely, admits, h]
  | empty h => simp [blockingSystem, supplies, timely, admits, h]

/-- There is always a block to allocate, and every time but `WAIT` runs out. -/
theorem heldUp_of_none (h : ∀ c, (blockingSystem relock P room).exec t e c s = none) :
    (e = .muxLock ∧ s.mux.own ≠ none) ∨ HeldUp P room s e := by
  obtain ⟨p, hp⟩ := Infinite.exists_notMem_finset (s.live.image Prod.snd)
  have hfresh (type : PosixObj) : (type, p) ∉ s.live := by
    intro hmem
    exact hp (Finset.mem_image.mpr ⟨_, hmem, rfl⟩)
  have hyes := h ⟨some p, some p, 0, true⟩
  have hno := h ⟨some p, some p, 0, false⟩
  cases e with
  | muxLock =>
    refine .inl ⟨rfl, fun hown => ?_⟩
    simp [blockingSystem, supplies, timely, mqExec, mutLock, hown] at hyes
  | allocQueue =>
    simp [blockingSystem, supplies, timely, mqExec, Registry.allocate, hfresh] at hyes
  | allocBuf sz =>
    simp [blockingSystem, supplies, timely, mqExec, Registry.allocate, hfresh] at hyes
  | mqPut mq msg ticks =>
    by_cases hroom : (s.obj mq).q.n < room (s.obj mq).q.isz (s.obj mq).q.sz
    · simp [blockingSystem, supplies, timely, admits, hroom, mqExec] at hyes
    · by_cases hticks : ticks = P.WAIT
      · subst ticks
        exact .inr (.full (not_lt.mp hroom))
      · simp [blockingSystem, supplies, timely, admits, hroom, hticks, mqExec] at hno
  | mqGet mq msg ticks =>
    by_cases hitem : 0 < (s.obj mq).q.n
    · simp [blockingSystem, supplies, timely, admits, hitem, mqExec] at hyes
    · by_cases hticks : ticks = P.WAIT
      · subst ticks
        exact .inr (.empty (Nat.eq_zero_of_not_pos hitem))
      · simp [blockingSystem, supplies, timely, admits, hitem, hticks, mqExec] at hno
  | _ => cases hyes

structure Sane (s : Registry T) : Prop where
  inited : s.inited = true
  depth : s.mux.depth ≤ 1

theorem exec_locking {r : MqAns e} (h : Sane s)
    (hsafe : locking.safe (decide (s.mux.own = some t)) e) (hok : Supplied s t e c)
    (hx : mqExec relock P t c e s = some (r, s')) :
    Sane s' ∧ locking.after (decide (s.mux.own = some t)) e r (decide (s'.mux.own = some t)) ∧
      ∀ u, u ≠ t → (s'.mux.own = some u ↔ s.mux.own = some u) := by
  cases e with
  | muxLock =>
    obtain ⟨x, hlock, heq⟩ := Option.map_eq_some_iff.mp hx
    obtain ⟨hfree, rfl⟩ := mutLock_forever (of_decide_eq_false hsafe) hlock
    cases heq
    refine ⟨⟨h.inited, le_rfl⟩, by simp [locking], fun u hu => ?_⟩
    simp [hfree, Ne.symm hu]
  | muxUnlock =>
    cases hx
    have hown : s.mux.own = some t := of_decide_eq_true hsafe
    have hmux : mutUnlock s.mux = ⟨none, 0⟩ := if_pos h.depth
    refine ⟨⟨h.inited, ?_⟩, by simp [locking, hmux], fun u hu => ?_⟩
    · simp [hmux]
    · simp [hmux, hown, Ne.symm hu]
  | llInit => exact hsafe.elim
  | mutInit => exact hsafe.elim
  | storeInited => exact hsafe.elim
  | loadInited =>
    cases hx
    exact ⟨h, ⟨h.inited, rfl⟩, fun _ _ => Iff.rfl⟩
  | allocQueue =>
    obtain ⟨b, hb⟩ := Option.isSome_iff_exists.mp hok
    rw [mqExec, hb] at hx
    obtain ⟨-, rfl, rfl⟩ := allocate_some hx
    exact ⟨⟨h.inited, h.depth⟩, ⟨by simp, rfl⟩, fun _ _ => Iff.rfl⟩
  | allocBuf sz =>
    obtain ⟨b, hb⟩ := Option.isSome_iff_exists.mp hok
    rw [mqExec, hb] at hx
    obtain ⟨-, rfl, rfl⟩ := allocate_some hx
    exact ⟨⟨h.inited, h.depth⟩, ⟨by simp, rfl⟩, fun _ _ => Iff.rfl⟩
  | _ =>
    obtain ⟨hi, hm⟩ := mqExec_mux (by simp) (by simp) hx
    rw [hm]
    exact ⟨⟨hi.trans h.inited, hm ▸ h.depth⟩, rfl, fun _ _ => Iff.rfl⟩

end Requests

def lockDiscipline (relock : Bool) (P : Platform) (room : ℕ → ℕ → ℕ) :
    Discipline (blockingSystem relock P room :
      System T MqOp MqAns Env (Registry T) MqCall MqRes) Bool where
  toProtocol := locking
  view s t := decide (s.mux.own = some t)
  inv := Sane
  allowed _ _ _ _ := True
  between _ l := l = false
  post _ _ _ l := l = false
  enter_step := by
    intro s s' t k h hb hs
    cases hs
    refine ⟨h, ?_, fun _ _ => rfl⟩
    rw [hb]
    exact mqCode_locking k
  exec_step := by
    intro s s' t e c r h hsafe _ hx
    simp only [blockingSystem] at hx
    split_ifs at hx with hserved
    obtain ⟨hs', hafter, hothers⟩ := exec_locking h hsafe hserved.1 hx
    exact ⟨hs', hafter, fun u hu => decide_eq_decide.mpr (hothers u hu)⟩
  leave_step h hp := ⟨h, hp, fun _ _ => rfl⟩

section Runs
variable {relock : Bool} {P : Platform} {room : ℕ → ℕ → ℕ}
  {p p' : Pool T MqOp MqAns (Registry T) MqCall MqRes}

theorem unlocked_of_idle (h : (lockDiscipline relock P room).Inv p)
    (hidle : ∀ t, p.thread t = none) : p.shared.mux.own = none := by
  rw [Option.eq_none_iff_forall_ne_some]
  intro t
  have hfollows := h.threads t
  rw [hidle t] at hfollows
  exact of_decide_eq_false hfollows

/-- Whoever holds the lock is not held up. -/
theorem unlocked_of_stuck (h : (lockDiscipline relock P room).Inv p)
    (hstuck : ¬ Moves (blockingSystem relock P room) p) : p.shared.mux.own = none := by
  rw [Option.eq_none_iff_forall_ne_some]
  intro t
  refine of_decide_eq_false (view_of_stuck h hstuck (fun _ _ hl => hl) ?_ t)
  intro t e hblocked l hsafe
  rcases heldUp_of_none hblocked with ⟨rfl, -⟩ | hheld
  · exact hsafe
  · cases hheld with
    | full _ => exact hsafe
    | empty _ => exact hsafe

/-- The lock is free, and every call that has not returned is held up by a kernel queue. -/
structure AtRest (P : Platform) (room : ℕ → ℕ → ℕ)
    (p : Pool T MqOp MqAns (Registry T) MqCall MqRes) : Prop where
  unlocked : p.shared.mux.own = none
  heldUp : ∀ t, p.thread t = none ∨
    ∃ k e f, p.thread t = some (k, .call e f) ∧ HeldUp P room p.shared e

theorem atRest_of_stuck (h : (lockDiscipline relock P room).Inv p)
    (hstuck : ¬ Moves (blockingSystem relock P room) p) : AtRest P room p := by
  have hown := unlocked_of_stuck h hstuck
  refine ⟨hown, fun t => ?_⟩
  rcases stuck hstuck t with hnone | ⟨k, e, f, hcall, hblocked⟩
  · exact .inl hnone
  · refine .inr ⟨k, e, f, hcall, ?_⟩
    exact (heldUp_of_none hblocked).resolve_left fun hlock => hlock.2 hown

theorem AtRest.not_moves (h : AtRest P room p) : ¬ Moves (blockingSystem relock P room) p := by
  intro hmoves
  obtain ⟨a, p', ha, hs⟩ := hmoves
  cases a with
  | enter t k => exact ha t k rfl
  | run t c =>
    obtain ⟨k, e, f, ht, r, s, hx, -⟩ := step_run.mp hs
    rcases h.heldUp t with hnone | ⟨k', e', f', ht', hheld⟩
    · rw [hnone] at ht
      cases ht
    · rw [ht] at ht'
      cases ht'
      rw [hheld.unanswered c] at hx
      cases hx
  | leave t =>
    obtain ⟨k, v, ht, -⟩ := step_leave.mp hs
    rcases h.heldUp t with hnone | ⟨k', e', f', ht', -⟩
    · rw [hnone] at ht
      cases ht
    · rw [ht] at ht'
      cases ht'

/-- The lock of `posix_mqueue.c` deadlocks no run in which every allocation succeeds: it is free
when no call is in progress, calls are stuck only where each of them waits for ever at a full or
an empty queue with the lock free, and every run can be carried on to that without a new call. -/
theorem mqueue_no_deadlock [Finite T] {s : Registry T} (hi : s.inited = true)
    (hfree : s.mux = mutInit) {as : List (ThreadPool.Action T Env MqCall)}
    (hrun : execute (step (blockingSystem relock P room)) (idlePool s) as = some p) :
    ((∀ t, p.thread t = none) → p.shared.mux.own = none) ∧
      (¬ Moves (blockingSystem relock P room) p ↔ AtRest P room p) ∧
      ∃ bs q, (∀ b ∈ bs, Continues b) ∧
        execute (step (blockingSystem relock P room)) p bs = some q ∧ AtRest P room q := by
  have hidle : (lockDiscipline relock P room).Inv
      (idlePool s : Pool T MqOp MqAns (Registry T) MqCall MqRes) := by
    apply Discipline.idle_inv
    · exact ⟨hi, by simp [hfree, mutInit]⟩
    · intro t
      simp [lockDiscipline, hfree, mutInit]
  have hinv (as : List (ThreadPool.Action T Env MqCall))
      (q : Pool T MqOp MqAns (Registry T) MqCall MqRes)
      (hq : execute (step (blockingSystem relock P room)) (idlePool s) as = some q) :
      (lockDiscipline relock P room).Inv q :=
    hidle.execute_all (fun _ _ _ _ => trivial) hq
  refine ⟨unlocked_of_idle (hinv as p hrun),
    ⟨atRest_of_stuck (hinv as p hrun), AtRest.not_moves⟩, ?_⟩
  obtain ⟨bs, q, hbs, hq, hstuck⟩ := settles (blockingSystem relock P room) p
  have hall := hinv (as ++ bs) q (execute_append.mpr ⟨p, hrun, hq⟩)
  exact ⟨bs, q, hbs, hq, atRest_of_stuck hall hstuck⟩

end Runs

/-- A thread waits to receive from an empty queue, another one closes the queue and holds the lock
for that. -/
def waitingSteps : List (ThreadPool.Action Bool Env MqCall) :=
  [.enter false (.mqReceive 1 16 4)] ++ runs false 5 ++ [.enter true (.mqClose 1)] ++ runs true 2

theorem mqueue_no_deadlock_waiting : ∃ p,
    execute (step (blockingSystem true platform1000 fun _ sz => sz)) (idlePool linkedRegistry)
      waitingSteps = some p ∧
    p.request false = some (.mqGet 1 16 platform1000.WAIT) ∧ p.shared.mux.own = some true ∧
    Moves (blockingSystem true platform1000 fun _ sz => sz) p ∧
    ∃ bs q, (∀ b ∈ bs, Continues b) ∧
      execute (step (blockingSystem true platform1000 fun _ sz => sz)) p bs = some q ∧
      AtRest platform1000 (fun _ sz => sz) q := by
  have hend : (execute (step (blockingSystem true platform1000 fun _ sz => sz))
      (idlePool linkedRegistry) waitingSteps).map (fun p => (p.request false, p.shared.mux.own)) =
        some (some (.mqGet 1 16 platform1000.WAIT), some true) := by
    decide +kernel
  obtain ⟨p, hp, hvalues⟩ := Option.map_eq_some_iff.mp hend
  obtain ⟨hrequest, hown⟩ := Prod.mk.inj hvalues
  obtain ⟨-, hiff, hrest⟩ := mqueue_no_deadlock rfl rfl hp
  have hmoves : Moves (blockingSystem true platform1000 fun _ sz => sz) p := by
    by_contra hstuck
    have hfree := (hiff.mp hstuck).unlocked
    rw [hown] at hfree
    cases hfree
  exact ⟨p, hp, hrequest, hown, hmoves, hrest⟩

end LibPosix.MqueueLocking
