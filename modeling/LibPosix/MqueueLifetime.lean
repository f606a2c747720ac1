import LibPosix.MqueueFreeing

/-! The life of a queue under `mq_timedsend` and `mq_timedreceive`, which use it after they have
given the lock back. What keeps it alive is the descriptor the caller holds: a queue is freed
only when its count is 0, and the count is the number of open descriptors until it overflows. -/
namespace LibPosix.MqueueLifetime
open Program ThreadPool Transition TimeUtils Kernel MachineInt Mqueue MqueueCalls MqueueCustody
open MqueueFreeing
open MqueueRegistry (MqCall MqRes mqCode plainOpen)
variable {T : Type} [DecidableEq T]

/-- A thread uses the descriptors that it has opened and not closed. -/
def ownDescriptors (s : Custody T) (t : T) (k : MqCall) : Bool :=
  k.queue.all fun mq => (t, mq) ∈ s.descs

def transfers : MqCall → Bool
  | .mqTimedsend .. => true
  | .mqTimedreceive .. => true
  | .mqSend .. => true
  | .mqReceive .. => true
  | _ => false

def uses : MqOp → Option Ptr
  | .load mq => some mq
  | .mqPut mq _ _ => some mq
  | .mqGet mq _ _ => some mq
  | _ => none

/-- No thread stands in a transfer before a request on a queue that has been freed or that is
about to be, whether it has still to issue the request or is blocked in it. -/
def Unharmed (p : Pool T MqOp MqAns (Custody T) MqCall MqRes) : Prop :=
  ∀ t k e f q, p.thread t = some (k, .call e f) → transfers k = true → uses e = some q →
    q ∉ p.shared.freed ∧ ∀ u, p.shared.doomed u ≠ some q

def descriptors (descs : List (T × Ptr)) (mq : Ptr) : ℕ := descs.countP fun d => d.2 = mq

structure Accurate (r : Registry T) (descs : List (T × Ptr)) : Prop where
  inited : r.inited = true
  mux : r.mux.Valid
  nodup : r.allq.Nodup
  live : ∀ q ∈ r.allq, (PosixObj.POSIX_MQUEUE, q) ∈ r.live
  count : ∀ q ∈ r.allq, (r.obj q).openCount = descriptors descs q
  range : ∀ q ∈ r.allq, (r.obj q).openCount < 65536

/-- A store that takes the count of a queue from its largest value back to 0. -/
def overflows (s : Custody T) : MqOp → Bool
  | .storeOpenCount mq n => n = 0 && (s.reg.obj mq).openCount = 65535
  | _ => false

def recounts : MqOp → Option Ptr
  | .storeOpenCount mq _ => some mq
  | _ => none

/-- What a thread relies on: its own descriptors, and that those on the list stay there. -/
structure Stake where
  call : Option MqCall
  held : Ptr → Prop
  sure : Ptr → Prop

def stake : Protocol MqOp MqAns Stake where
  safe l e :=
    (∀ q k, uses e = some q → l.call = some k → transfers k = true → l.sure q) ∧
    ∀ q d, recounts e = some q → l.call = some (.mqClose d) → l.held q
  after l e r l' := l'.call = l.call ∧ (recounts e = none → l' = l) ∧
    match e, r with
    | .allq, r => ∀ q, l.held q → q ∈ r → l.sure q
    | _, _ => True

section Calls
variable {P : Platform} {l : Stake} {k : MqCall} {mq : Ptr} {e : MqOp}

/-- A call that neither closes a descriptor nor transfers a message may do what it likes. -/
theorem free_stake {α : Type} (p : Prog MqOp MqAns α) (hk : l.call = some k)
    (ht : transfers k = false) (hc : ∀ d, k ≠ .mqClose d) :
    p.Obeys stake l fun _ _ => True := by
  induction p generalizing l with
  | ret a => trivial
  | call e f ih =>
    refine ⟨⟨fun q k' _ hk' htrans => ?_, fun q d _ hd => ?_⟩, fun r l' h => ?_⟩
    · rw [Option.some.inj (hk.symm.trans hk'), htrans] at ht
      cases ht
    · exact absurd (Option.some.inj (hk.symm.trans hd)) (hc d)
    · exact ih r (h.1.trans hk)

theorem safe_of_idle (hu : uses e = none) (hr : recounts e = none) : stake.safe l e := by
  refine ⟨fun q k he => ?_, fun q d he => ?_⟩
  · rw [hu] at he
    cases he
  · rw [hr] at he
    cases he

theorem safe_of_sure (hs : l.sure mq) (hu : uses e = some mq) (hr : recounts e = none) :
    stake.safe l e := by
  refine ⟨fun q k he _ _ => ?_, fun q d he => ?_⟩
  · rw [hu] at he
    cases he
    exact hs
  · rw [hr] at he
    cases he

def noCount : Protocol MqOp MqAns Unit where
  safe _ e := recounts e = none
  after _ _ _ _ := True

theorem close_stake {α : Type} {p : Prog MqOp MqAns α}
    (hp : p.Obeys noCount () fun _ _ => True) (hk : l.call = some (.mqClose mq)) :
    p.Obeys stake l fun _ l' => l'.call = some (.mqClose mq) := by
  induction p generalizing l with
  | ret a => exact hk
  | call e f ih =>
    refine ⟨⟨fun q k _ hk' ht => ?_, fun q d he => ?_⟩, fun r l' h => ?_⟩
    · obtain rfl := Option.some.inj (hk.symm.trans hk')
      cases ht
    · rw [hp.1] at he
      cases he
    · exact ih r (hp.2 r () trivial) (h.1.trans hk)

theorem mqExtractLocked_stake (hh : l.held mq) :
    (mqExtractLocked mq).Obeys stake l
      fun r l' => l' = l ∧ ∀ p, r = some p → p = mq ∧ l.sure mq := by
  rw [mqExtractLocked, Prog.obeys_bind]
  refine ⟨safe_of_idle rfl rfl, fun r l' h => ?_⟩
  obtain rfl := h.2.1 rfl
  refine ⟨rfl, fun p hp => ?_⟩
  rw [find_self] at hp
  split_ifs at hp with hm
  exact ⟨(Option.some.inj hp).symm, h.2.2 mq hh hm⟩

theorem mqCloseLocked_stake (hk : l.call = some (.mqClose mq)) (hh : l.held mq) :
    (mqCloseLocked mq).Obeys stake l fun _ l' => l'.call = some (.mqClose mq) := by
  have hload : stake.safe l (.load mq) := by
    refine ⟨fun q k _ hk' ht => ?_, fun q d he => by cases he⟩
    obtain rfl := Option.some.inj (hk.symm.trans hk')
    cases ht
  have hrest (l₁ : Stake) (h₁ : l₁.call = some (.mqClose mq)) :
      (closeCounted mq).Obeys stake l₁ fun _ l' => l'.call = some (.mqClose mq) :=
    close_stake (by simp [closeCounted, noCount, recounts]) h₁
  rw [mqCloseLocked_eq, Prog.obeys_bind]
  refine ⟨hload, fun obj l' h => ?_⟩
  obtain rfl := h.2.1 rfl
  by_cases hpc : obj.openCount > 0
  · simp only [Prog.obeys_ret, if_pos hpc]
    have hstore : stake.safe l' (.storeOpenCount mq (obj.openCount - 1)) := by
      refine ⟨fun q k hu => ?_, fun q d he _ => ?_⟩
      · cases hu
      · cases he
        exact hh
    exact ⟨hstore, fun _ l₁ h₁ => hrest l₁ (h₁.1.trans hk)⟩
  · simp only [Prog.obeys_ret, if_neg hpc]
    exact hrest l' hk

theorem mqClose_stake (hk : l.call = some (.mqClose mq)) (hh : l.held mq) :
    (mqClose mq).Obeys stake l fun _ _ => True := by
  have hcheck : mqCheckInit.Obeys stake l fun _ l' => l' = l := by
    simp only [mqCheckInit, Prog.obeys_bind, Prog.obeys_request, Prog.obeys_ite, Prog.pure_eq,
      Prog.obeys_ret]
    refine ⟨safe_of_idle rfl rfl, fun r l' h => ?_⟩
    obtain rfl := h.2.1 rfl
    refine ⟨fun _ => ⟨safe_of_idle rfl rfl, fun _ l₁ h₁ => ?_⟩, fun _ => rfl⟩
    obtain rfl := h₁.2.1 rfl
    refine ⟨safe_of_idle rfl rfl, fun _ l₂ h₂ => ?_⟩
    obtain rfl := h₂.2.1 rfl
    exact ⟨safe_of_idle rfl rfl, fun _ l₃ h₃ => h₃.2.1 rfl⟩
  rw [mqClose, Prog.obeys_bind]
  apply hcheck.mono
  rintro - l' rfl
  rw [Prog.obeys_bind, Prog.obeys_request]
  refine ⟨safe_of_idle rfl rfl, fun _ l₁ h₁ => ?_⟩
  obtain rfl := h₁.2.1 rfl
  rw [Prog.obeys_bind]
  apply (mqExtractLocked_stake hh).mono
  rintro r l ⟨rfl, hr⟩
  cases r with
  | none =>
    exact ⟨safe_of_idle rfl rfl, fun _ _ _ => trivial⟩
  | some p =>
    obtain ⟨rfl, -⟩ := hr p rfl
    rw [Prog.obeys_bind]
    refine (mqCloseLocked_stake hk hh).mono fun removed l' hl' => ?_
    have hfree : (do
        ask .muxUnlock
        if removed = true then
          mqFree p
        return .ok : Prog MqOp MqAns Status).Obeys noCount () fun _ _ => True := by
      simp [mqFree, noCount, recounts]
    exact (close_stake hfree hl').mono fun _ _ _ => trivial

theorem getTickTimeout_stake (flags : OFlag) (timeout : Option Timespec) (ptimeout : ℕ) :
    (getTickTimeout P flags timeout ptimeout).Obeys stake l fun _ l' => l' = l := by
  cases timeout with
  | none => simp [getTickTimeout]
  | some timeout =>
    simp only [getTickTimeout, Prog.obeys_bind, Prog.obeys_request, Prog.obeys_ite, Prog.pure_eq,
      Prog.obeys_ret, implies_true, true_and]
    exact fun _ _ => ⟨safe_of_idle rfl rfl, fun r l' h => h.2.1 rfl⟩

theorem mqPrepare_stake (hh : l.held mq) (msgPtr : Ptr) (badLen : ℕ → Bool)
    (abstime : Option Timespec) :
    (mqPrepare P mq msgPtr badLen abstime).Obeys stake l
      fun conv l' => l' = l ∧ (conv.1 = .ok → l.sure mq) := by
  have hunlock (ret : Status) (hs : ret = .ok → l.sure mq) :
      stake.safe l .muxUnlock ∧ ∀ (r : Unit) (l' : Stake),
        stake.after l .muxUnlock r l' → l' = l ∧ (ret = .ok → l.sure mq) :=
    ⟨safe_of_idle rfl rfl, fun _ _ h => ⟨h.2.1 rfl, hs⟩⟩
  simp only [mqPrepare, Prog.obeys_bind, Prog.obeys_request, Prog.obeys_ite, Prog.pure_eq,
    Prog.obeys_ret]
  refine ⟨safe_of_idle rfl rfl, fun r l' h => ?_⟩
  obtain rfl := h.2.1 rfl
  apply (mqExtractLocked_stake hh).mono
  rintro found l ⟨rfl, hfound⟩
  have hok (hret : (if msgPtr % 4 ≠ 0 then Status.EINVAL
      else if found = none then Status.EBADF else Status.ok) = .ok) : l.sure mq := by
    cases found with
    | none =>
      split_ifs at hret with h₁ h₂
      exact absurd rfl h₂
    | some p => exact (hfound p rfl).2
  refine ⟨fun hret => ⟨safe_of_sure (hok hret) rfl rfl, fun obj l' h => ?_⟩,
    fun hret => ⟨fun h => absurd h hret, fun _ => hunlock _ hok⟩⟩
  obtain rfl := h.2.1 rfl
  refine ⟨fun _ => ⟨safe_of_sure (hok hret) rfl rfl, fun obj' l₁ h => ?_⟩,
    fun _ => hunlock _ fun _ => hok hret⟩
  obtain rfl := h.2.1 rfl
  apply (getTickTimeout_stake obj'.flags abstime 0).mono
  rintro conv l₁ rfl
  exact hunlock conv.1 fun _ => hok hret

theorem mqFailure_stake (hs : l.sure mq) : (mqFailure mq).Obeys stake l fun _ _ => True := by
  rw [mqFailure, Prog.obeys_bind]
  exact ⟨safe_of_sure hs rfl rfl, fun _ _ _ => trivial⟩

theorem mqTimedsend_stake (hh : l.held mq) (msgPtr : Ptr) (msgLen : ℕ)
    (abstime : Option Timespec) :
    (mqTimedsend P mq msgPtr msgLen abstime).Obeys stake l fun _ _ => True := by
  rw [mqTimedsend, Prog.obeys_bind]
  apply (mqPrepare_stake hh msgPtr _ abstime).mono
  rintro conv l' ⟨rfl, hsure⟩
  simp only [Prog.obeys_bind, Prog.obeys_request, Prog.obeys_ite, Prog.pure_eq, Prog.obeys_ret,
    implies_true, and_true, true_and]
  refine fun hok => ⟨safe_of_sure (hsure hok) rfl rfl, fun r l h => ?_⟩
  obtain rfl := h.2.1 rfl
  exact fun _ => mqFailure_stake (hsure hok)

theorem mqTimedreceive_stake (hh : l.held mq) (msgPtr : Ptr) (msgLen : ℕ)
    (abstime : Option Timespec) :
    (mqTimedreceive P mq msgPtr msgLen abstime).Obeys stake l fun _ _ => True := by
  rw [mqTimedreceive, Prog.obeys_bind]
  apply (mqPrepare_stake hh msgPtr _ abstime).mono
  rintro conv l' ⟨rfl, hsure⟩
  simp only [Prog.obeys_bind, Prog.obeys_request, Prog.obeys_ite, Prog.pure_eq, Prog.obeys_ret,
    implies_true, and_true]
  refine fun hok => ⟨safe_of_sure (hsure hok) rfl rfl, fun r l h => ?_⟩
  obtain rfl := h.2.1 rfl
  exact ⟨fun _ => safe_of_sure (hsure hok) rfl rfl, fun _ => mqFailure_stake (hsure hok)⟩

/-- A call on a descriptor of the thread uses its queue only while that is on the list. -/
theorem mqCode_stake (hk : l.call = some k) (hh : ∀ q, k.queue = some q → l.held q) :
    (mqCode P k).Obeys stake l fun _ _ => True := by
  cases k with
  | mqOpen name oflag attr => exact free_stake _ hk rfl nofun
  | mqUnlink name => exact free_stake _ hk rfl nofun
  | mqGetattr mq => exact free_stake _ hk rfl nofun
  | mqClose mq =>
    rw [mqCode, Prog.obeys_bind]
    exact mqClose_stake hk (hh mq rfl)
  | mqTimedsend mq msgPtr msgLen abstime =>
    rw [mqCode, Prog.obeys_bind]
    exact mqTimedsend_stake (hh mq rfl) msgPtr msgLen abstime
  | mqTimedreceive mq msgPtr msgLen abstime =>
    rw [mqCode, Prog.obeys_bind]
    exact mqTimedreceive_stake (hh mq rfl) msgPtr msgLen abstime
  | mqSend mq msgPtr msgLen =>
    rw [mqCode, Prog.obeys_bind]
    exact mqTimedsend_stake (hh mq rfl) msgPtr msgLen none
  | mqReceive mq msgPtr msgLen =>
    rw [mqCode, Prog.obeys_bind]
    exact mqTimedreceive_stake (hh mq rfl) msgPtr msgLen none

end Calls

def stakeOf (s : Custody T) (t : T) : Stake :=
  ⟨s.call t, fun q => (t, q) ∈ s.descs, fun q => (t, q) ∈ s.descs ∧ q ∈ s.reg.allq⟩

structure Counted (s : Custody T) : Prop where
  count : ∀ q ∈ s.reg.allq, (s.reg.obj q).openCount = descriptors s.descs q
  range : ∀ q ∈ s.reg.allq, (s.reg.obj q).openCount < 65536

section Steps
variable {cr : Prop} {origin : List Ptr} {s s' : Custody T} {t : T} {mq : Ptr}
  {relock : Bool} {P : Platform} {c : Env} {e : MqOp} {a : MqAns e}

omit [DecidableEq T] in
theorem descriptors_cons (descs : List (T × Ptr)) (t : T) (q : Ptr) :
    descriptors ((t, mq) :: descs) q = descriptors descs q + if q = mq then 1 else 0 := by
  simp [descriptors, List.countP_cons, eq_comm]

theorem descriptors_erase {descs : List (T × Ptr)} (h : (t, mq) ∈ descs) (q : Ptr) :
    descriptors (descs.erase (t, mq)) q = descriptors descs q - if q = mq then 1 else 0 := by
  simp [descriptors, List.countP_erase, h, eq_comm]

omit [DecidableEq T] in
theorem descriptors_pos {descs : List (T × Ptr)} (h : (t, mq) ∈ descs) :
    0 < descriptors descs mq := by
  rw [descriptors, List.countP_pos_iff]
  exact ⟨(t, mq), h, by simp⟩

theorem track_descs (h : recounts e = none) : (s.track t e a).descs = s.descs := by
  cases e with
  | storeOpenCount mq n => cases h
  | free type p => cases type <;> rfl
  | _ => rfl

/-- A request that writes to no queue of the list leaves all that a thread relies on. -/
theorem exec_unwritten (h : Kept cr origin s) (hc : Counted s)
    (hsafe : (custody cr).safe (localOf s t) e)
    (hs : custodyExec relock P t e c s = some (a, s')) (hw : writes e = none) :
    Counted s' ∧ ∀ u, stakeOf s' u = stakeOf s u := by
  have hr : recounts e = none := by
    cases e <;> first | rfl | cases hw
  have hframe := custodyExec_frame h hsafe hs
  obtain ⟨r, -, rfl⟩ := custodyExec_some hs
  rw [hw] at hframe
  have hq : r.allq = s.reg.allq := by simpa using hframe.allq
  have hdescs : ((s.track t e a).withReg r).descs = s.descs := track_descs hr
  have hcount (q : Ptr) (hm : q ∈ s.reg.allq) :
      (r.obj q).openCount = (s.reg.obj q).openCount := (hframe.obj q hm nofun).2.2
  refine ⟨⟨fun q hm => ?_, fun q hm => ?_⟩, fun u => ?_⟩
  · have hm : q ∈ s.reg.allq := hq ▸ hm
    rw [hdescs, Custody.withReg_reg, hcount q hm]
    exact hc.count q hm
  · have hm : q ∈ s.reg.allq := hq ▸ hm
    rw [Custody.withReg_reg, hcount q hm]
    exact hc.range q hm
  · simp only [stakeOf, hdescs, Custody.withReg_reg, Custody.withReg_call, track_call, hq]

theorem unlink_counted (hc : Counted s) (hzero : (s.reg.obj mq).openCount = 0)
    (hm : mq ∈ s.reg.allq) :
    Counted ((s.doom t mq).withReg (s.reg.unlink mq)) ∧
      ∀ u, stakeOf ((s.doom t mq).withReg (s.reg.unlink mq)) u = stakeOf s u := by
  have hsub (q : Ptr) (hq : q ∈ s.reg.allq.erase mq) : q ∈ s.reg.allq := List.mem_of_mem_erase hq
  refine ⟨⟨fun q hq => hc.count q (hsub q hq), fun q hq => hc.range q (hsub q hq)⟩, fun u => ?_⟩
  -- nobody has a descriptor of the queue that goes
  have hnone : (u, mq) ∉ s.descs := by
    intro hmem
    have hpos := descriptors_pos hmem
    rw [← hc.count mq hm] at hpos
    omega
  simp only [stakeOf, Stake.mk.injEq]
  refine ⟨rfl, rfl, ?_⟩
  funext q
  refine propext (and_congr_right fun hd => ?_)
  have hne : q ≠ mq := by
    rintro rfl
    exact hnone hd
  exact List.mem_erase_of_ne hne

omit [DecidableEq T] in
theorem store_counted (hc : Counted s) {n : ℕ} {d : List (T × Ptr)}
    (hother : ∀ q, q ≠ mq → descriptors d q = descriptors s.descs q)
    (hself : mq ∈ s.reg.allq → n = descriptors d mq ∧ n < 65536) :
    Counted ((s.setDescs d).withReg (s.reg.modify mq fun o => { o with openCount := n })) := by
  constructor
  · intro q hq
    by_cases hqm : q = mq
    · subst hqm
      simpa using (hself hq).1
    · simpa [Registry.modify, Function.update_of_ne hqm, hother q hqm] using hc.count q hq
  · intro q hq
    by_cases hqm : q = mq
    · subst hqm
      simpa using (hself hq).2
    · simpa [Registry.modify, Function.update_of_ne hqm] using hc.range q hq

theorem stakeOf_store {n : ℕ} {u : T} (hu : u ≠ t) :
    stakeOf ((s.setDescs (s.recount t mq)).withReg
      (s.reg.modify mq fun o => { o with openCount := n })) u = stakeOf s u := by
  have hmem (q : Ptr) : (u, q) ∈ s.recount t mq ↔ (u, q) ∈ s.descs := by
    have hne : (u, q) ≠ (t, mq) := fun heq => hu (congrArg Prod.fst heq)
    unfold Custody.recount
    split
    · exact List.mem_erase_of_ne hne
    · simp [hne]
  simp only [stakeOf, Custody.withReg_descs, Custody.setDescs_descs, hmem]
  rfl

theorem opens_recount {k : MqCall} (hk : s.call t = some k) (ho : opens k = true) :
    s.recount t mq = (t, mq) :: s.descs := by
  cases k with
  | mqOpen name oflag attr => simp [Custody.recount, hk]
  | _ => cases ho

theorem exec_store {n : ℕ} (h : Kept cr origin s) (hc : Counted s)
    (hsafe : (custody cr).safe (localOf s t) (.storeOpenCount mq n))
    (hstake : stake.safe (stakeOf s t) (.storeOpenCount mq n))
    (ho : overflows s (.storeOpenCount mq n) = false) :
    Counted ((s.setDescs (s.recount t mq)).withReg
      (s.reg.modify mq fun o => { o with openCount := n })) := by
  rcases hsafe with ⟨b, k, ha, hm, hnew⟩ | ⟨hb, k, hk, hopen⟩
  · have hcall : s.call t = some k := ha.2.1
    have haddr := ha.2.2
    obtain rfl := (localOf_book ha.1).2
    have hcount := hc.count mq hm
    have hrange := hc.range mq hm
    cases k with
    | mqOpen name oflag attr =>
      have hne : (s.reg.obj mq).openCount ≠ 65535 := by
        intro heq
        have hwrap : n = unsigned 16 ((s.reg.obj mq).openCount + 1) := hnew
        simp [overflows, heq, hwrap, unsigned] at ho
      have hval : n = (s.reg.obj mq).openCount + 1 := by
        rw [show n = unsigned 16 ((s.reg.obj mq).openCount + 1) from hnew,
          unsigned_of_nonneg (by omega) (by omega)]
        omega
      rw [opens_recount hcall rfl]
      refine store_counted hc (fun q hq => ?_) fun _ => ⟨?_, by omega⟩
      · simp [descriptors_cons, hq]
      · simp [descriptors_cons, hval, hcount]
    | mqClose d =>
      obtain rfl : d = mq := Option.some.inj haddr
      have hheld : (t, d) ∈ s.descs := hstake.2 d d rfl hcall
      have hval : (s.reg.obj d).openCount = n + 1 := hnew
      have hrec : s.recount t d = s.descs.erase (t, d) := by
        simp [Custody.recount, hcall]
      rw [hrec]
      refine store_counted hc (fun q hq => ?_) fun _ => ⟨?_, by omega⟩
      · simp [descriptors_erase hheld, hq]
      · simp [descriptors_erase hheld, ← hcount, hval]
    | _ => exact hnew.elim
  · rw [opens_recount hk hopen]
    refine store_counted hc (fun q hq => ?_) fun hm => absurd hm (h.fresh t mq hb.2)
    simp [descriptors_cons, hq]

theorem exec_counted (h : Kept cr origin s) (hc : Counted s)
    (hsafe : (custody cr).safe (localOf s t) e) (hstake : stake.safe (stakeOf s t) e)
    (ho : overflows s e = false) (hs : custodyExec relock P t e c s = some (a, s')) :
    Counted s' ∧ stake.after (stakeOf s t) e a (stakeOf s' t) ∧
      ∀ u, u ≠ t → stakeOf s' u = stakeOf s u := by
  by_cases hw : writes e = none
  · obtain ⟨hc', hview⟩ := exec_unwritten h hc hsafe hs hw
    refine ⟨hc', ?_, fun u _ => hview u⟩
    rw [hview t]
    refine ⟨rfl, fun _ => rfl, ?_⟩
    cases e with
    | allq =>
      cases hs
      exact fun q hd hq => ⟨hd, hq⟩
    | _ => trivial
  · cases e with
    | storeOpenCount mq n =>
      cases hs
      exact ⟨exec_store h hc hsafe hstake ho, ⟨rfl, nofun, trivial⟩, fun u hu => stakeOf_store hu⟩
    | lleDel mq =>
      cases hs
      obtain ⟨b, k, ha, hm, hzero⟩ := hsafe
      obtain rfl := (localOf_book ha.1).2
      obtain ⟨hc', hview⟩ := unlink_counted (t := t) hc hzero hm
      exact ⟨hc', ⟨rfl, fun _ => hview t, trivial⟩, fun u _ => hview u⟩
    | _ => exact absurd rfl hw

end Steps

/-- Every call on an own descriptor keeps the counts right, unless a count overflows. -/
def lifetimeDiscipline (relock : Bool) (P : Platform) (origin : List Ptr) :
    Discipline (mqThreads (T := T) relock P ownDescriptors) (Local × Stake) where
  toProtocol := (custody True).prod stake
  view s t := (localOf s t, stakeOf s t)
  inv s := Kept True origin s ∧ Counted s
  allowed s _ e _ := overflows s e = false
  between _ l := l.1.doomed = none
  post _ _ _ l := l.1.doomed = none
  enter_step := by
    intro s s' t k h hd hs
    obtain ⟨ha, rfl⟩ := enter_admits hs
    have hcall : (s.setCall t (some k)).call t = some k := Function.update_self _ _ _
    have hheld (q : Ptr) (hq : k.queue = some q) : (t, q) ∈ s.descs := by
      simpa [ownDescriptors, hq] using ha
    have hcustody : (mqCode P k).Obeys (custody True) (localOf (s.setCall t (some k)) t)
        fun _ l => l.doomed = none := mqCode_custody (fun _ => trivial) hcall hd
    have hstake : (mqCode P k).Obeys stake (stakeOf (s.setCall t (some k)) t) fun _ _ => True :=
      mqCode_stake hcall hheld
    refine ⟨⟨h.1.setCall t _, h.2.count, h.2.range⟩,
      (hcustody.prod hstake).mono fun _ _ hp => hp.1, fun u hu => Prod.ext (setCall_localOf hu _) ?_⟩
    simp only [stakeOf, Custody.setCall_call, Function.update_of_ne hu]
    rfl
  exec_step := by
    intro s s' t e c a h hsafe ho hs
    obtain ⟨hk, hafter, hview⟩ := custodyExec_kept h.1 hsafe.1 hs
    obtain ⟨hc, hstake, hstay⟩ := exec_counted h.1 h.2 hsafe.1 hsafe.2 ho hs
    exact ⟨⟨hk, hc⟩, ⟨hafter, hstake⟩, fun u hu => Prod.ext (hview u hu) (hstay u hu)⟩
  leave_step := by
    intro s t k v h hd
    refine ⟨⟨h.1.setCall t _, h.2.count, h.2.range⟩, hd,
      fun u hu => Prod.ext (setCall_localOf hu _) ?_⟩
    simp only [stakeOf, mqThreads, Custody.setCall_call, Function.update_of_ne hu]
    rfl

section Lifetime
variable {relock : Bool} {P : Platform} {origin : List Ptr}

theorem unharmed_of_inv {p : Pool T MqOp MqAns (Custody T) MqCall MqRes}
    (h : (lifetimeDiscipline relock P origin).Inv p) (htracked : Tracked p) : Unharmed p := by
  intro t k e f q ht htrans hu
  have hobeys := h.threads t
  rw [ht] at hobeys
  have hsure := hobeys.1.2.1 q k hu (htracked t k _ ht) htrans
  refine ⟨fun hf => (h.shared.1.freed q hf).2 hsure.2, fun u hdoom => ?_⟩
  exact (h.shared.1.doomed u q hdoom).2.1 hsure.2

omit [DecidableEq T] in
theorem Accurate.counted {r : Registry T} {descs : List (T × Ptr)} (h : Accurate r descs) :
    Kept True r.allq (idleCustody r descs) ∧ Counted (idleCustody r descs) :=
  ⟨idleCustody_kept h.inited h.mux h.nodup (fun _ => h.live) descs, h.count, h.range⟩

/-- From a registry with accurate counts, in a run whose threads use their own descriptors and in
which no `mq_open` reopens a queue that has 65535 of them, no transfer ever uses a queue that
has been freed. -/
theorem mqueue_unharmed (relock : Bool) (P : Platform) (r : Registry T) (descs : List (T × Ptr))
    (h : Accurate r descs) (as : List (Action T Env MqCall))
    (hok : Meets (step (mqThreads relock P ownDescriptors))
      (Allowed fun s _ e _ => overflows s e = false) (idlePool (idleCustody r descs)) as) :
    Throughout (step (mqThreads relock P ownDescriptors)) Unharmed
      (idlePool (idleCustody r descs)) as := by
  have hstart : (lifetimeDiscipline relock P r.allq).Inv (idlePool (idleCustody r descs)) :=
    Discipline.idle_inv _ h.counted fun _ => rfl
  have hstep (p : Pool T MqOp MqAns (Custody T) MqCall MqRes) (a : Action T Env MqCall)
      (p' : Pool T MqOp MqAns (Custody T) MqCall MqRes)
      (hp : (lifetimeDiscipline relock P r.allq).Inv p ∧ Tracked p)
      (ha : Allowed (fun s _ e _ => overflows s e = false) p a)
      (hs : step (mqThreads relock P ownDescriptors) p a = some p') :
      (lifetimeDiscipline relock P r.allq).Inv p' ∧ Tracked p' :=
    ⟨hp.1.step ha hs, hp.2.step hs⟩
  exact throughout_of_invariant hstep (fun _ hp => unharmed_of_inv hp.1 hp.2)
    ⟨hstart, idle_tracked _⟩ hok

end Lifetime

section Runs

def crowded (n : ℕ) : Registry Bool where
  inited := true
  mux := mutInit
  allq := [1]
  obj _ := { zeroQueue with buf := 2, name := nameQ, openCount := n }
  live := {(.POSIX_MQUEUE, 1), (.POSIX_MQUEUE_BUF, 2)}

theorem crowded_accurate {n : ℕ} (hn : n < 65536) :
    Accurate (crowded n) (List.replicate n (false, 1)) where
  inited := rfl
  mux := mutInit_valid
  nodup := by simp [crowded]
  live := by simp [crowded]
  count := by simp [crowded, descriptors, List.countP_replicate]
  range := by simpa [crowded] using hn

/-- One thread sends; before it gets to `mq_put`, another one opens the queue and unlinks it,
which takes `n` requests. -/
def sendSteps (n : ℕ) : List (Action Bool Env MqCall) :=
  .enter false (.mqSend 1 0 0) :: List.replicate 5 (.run false someEnv) ++
    .enter true (.mqOpen nameQ plainOpen none) :: List.replicate 7 (.run true someEnv) ++
      .leave true :: .enter true (.mqUnlink nameQ) :: List.replicate n (.run true someEnv)

def nextOp (p : Pool Bool MqOp MqAns (Custody Bool) MqCall MqRes) (t : Bool) :
    Option (MqCall × MqOp) :=
  match p.thread t with
  | some (k, .call e _) => some (k, e)
  | _ => none

def sendPool (n : ℕ) : Pool Bool MqOp MqAns (Custody Bool) MqCall MqRes :=
  idlePool (idleCustody (crowded n) (List.replicate n (false, 1)))

theorem mqueue_unharmed_two : ∃ p,
    execute (step (mqThreads true platform1000 ownDescriptors)) (sendPool 2) (sendSteps 7) = some p ∧
    nextOp p false = some (.mqSend 1 0 0, .mqPut 1 0 platform1000.WAIT) ∧
    Throughout (step (mqThreads true platform1000 ownDescriptors)) Unharmed (sendPool 2)
      (sendSteps 7) := by
  have hnext : ((execute (step (mqThreads true platform1000 ownDescriptors)) (sendPool 2)
      (sendSteps 7)).map fun p => nextOp p false) =
        some (some (.mqSend 1 0 0, .mqPut 1 0 platform1000.WAIT)) := by
    decide +kernel
  obtain ⟨p, hrun, hp⟩ := Option.map_eq_some_iff.mp hnext
  exact ⟨p, hrun, hp, mqueue_unharmed true platform1000 _ _ (crowded_accurate (by decide))
    (sendSteps 7) (by decide +kernel)⟩

/-- With 65535 descriptors the `mq_open` leaves a count of 0, and `mq_unlink` frees the queue that
the other thread is about to use. -/
theorem mqSend_uses_freed :
    Accurate (crowded 65535) (List.replicate 65535 (false, 1)) ∧ ∃ p,
      execute (step (mqThreads true platform1000 ownDescriptors)) (sendPool 65535) (sendSteps 10) =
        some p ∧
      nextOp p false = some (.mqSend 1 0 0, .mqPut 1 0 platform1000.WAIT) ∧
      p.shared.freed = [1] ∧
      ¬ Throughout (step (mqThreads true platform1000 ownDescriptors)) Unharmed (sendPool 65535)
        (sendSteps 10) := by
  have hout : ((execute (step (mqThreads true platform1000 ownDescriptors)) (sendPool 65535)
      (sendSteps 10)).map fun p => (nextOp p false, p.shared.freed)) =
        some (some (.mqSend 1 0 0, .mqPut 1 0 platform1000.WAIT), [1]) := by
    decide +kernel
  obtain ⟨p, hrun, hp⟩ := Option.map_eq_some_iff.mp hout
  obtain ⟨hnext, hfreed⟩ := Prod.mk.inj hp
  refine ⟨crowded_accurate (by decide), p, hrun, hnext, hfreed, fun hall => ?_⟩
  have hunharmed := hall.last hrun
  cases hthread : p.thread false with
  | none => simp [nextOp, hthread] at hnext
  | some x =>
    obtain ⟨k, v | ⟨e, f⟩⟩ := x
    · simp [nextOp, hthread] at hnext
    · obtain ⟨rfl, rfl⟩ : k = .mqSend 1 0 0 ∧ e = .mqPut 1 0 platform1000.WAIT := by
        simpa [nextOp, hthread] using hnext
      have hnot := (hunharmed false _ _ f 1 hthread rfl rfl).1
      simp [hfreed] at hnot

end Runs

end LibPosix.MqueueLifetime
