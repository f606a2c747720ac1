import LibPosix.MqueueTransfers
import LibPosix.MqueueLocking

/-! Where messages come to rest. Of the calls that move messages none is held up but by what is in
its queue: every run can be carried on until each call that has not returned waits for ever to
send to a full queue, or to receive from an empty one. -/
namespace LibPosix.MqueueProgress
open Program ThreadPool Transition TimeUtils Kernel Mqueue MqueueCalls
open MqueueMessages (Exchange msgExec Checking mqExtractLocked_checking mqPrepare_checking
  mqFailure_checking)
open MqueueRegistry (MqCall MqRes mqCode)
open MqueueLocking (locking Sane exec_locking mqCode_locking)
open MqueueTransfers Progress
variable {T : Type} [DecidableEq T]

abbrev MailPool (T : Type) := Pool T MailOp MailAns (Exchange T) MailCall MqRes

/-- Moving messages allocates nothing. -/
def Transferring : MqOp → Prop
  | .allocQueue => False
  | .allocBuf _ => False
  | _ => True

/-- The lock in the calls that move messages; the view is whether the thread holds it. -/
def holding : Protocol MailOp MailAns Bool where
  safe
    | l, .mq e => locking.safe l e ∧ Transferring e
    | _, .write .. => True
  after
    | l, .mq e, r, l' => locking.after l e r l'
    | l, .write .., _, l' => l' = l

section Calls
variable {P : Platform} {α : Type} {mq msgPtr : Ptr}

abbrev MovesOnly (q : Prog MqOp MqAns α) : Prop := q.Asks Transferring

theorem Checking.transferring (e : MqOp) (he : Checking e) : Transferring e := by
  cases e with
  | allocQueue => cases he
  | allocBuf sz => cases he
  | _ => trivial

theorem mqExtractLocked_movesOnly : MovesOnly (mqExtractLocked mq) :=
  mqExtractLocked_checking.mono Checking.transferring

theorem mqPrepare_movesOnly (badLen : ℕ → Bool) (abstime : Option Timespec) :
    MovesOnly (mqPrepare P mq msgPtr badLen abstime) :=
  (mqPrepare_checking badLen abstime).mono Checking.transferring

theorem mqFailure_movesOnly : MovesOnly (mqFailure mq) :=
  mqFailure_checking.mono Checking.transferring

theorem mqTimedsend_movesOnly (msgLen : ℕ) (abstime : Option Timespec) :
    MovesOnly (mqTimedsend P mq msgPtr msgLen abstime) := by
  apply (mqPrepare_movesOnly _ abstime).bind
  intro conv
  apply Prog.asks_ite _ (Prog.asks_ret _)
  refine Prog.asks_request (e := MqOp.mqPut mq msgPtr conv.2) trivial fun accepted => ?_
  exact Prog.asks_ite (Prog.asks_ret _) mqFailure_movesOnly

theorem mqTimedreceive_movesOnly (msgLen : ℕ) (abstime : Option Timespec) :
    MovesOnly (mqTimedreceive P mq msgPtr msgLen abstime) := by
  apply (mqPrepare_movesOnly _ abstime).bind
  intro conv
  apply Prog.asks_ite _ (Prog.asks_ret _)
  refine Prog.asks_request (e := MqOp.mqGet mq msgPtr conv.2) trivial fun accepted => ?_
  apply Prog.asks_ite
  · exact Prog.asks_request (e := MqOp.load mq) trivial fun _ => Prog.asks_ret _
  · exact mqFailure_movesOnly.bind fun _ => Prog.asks_ret _

theorem mqCheckInit_movesOnly : MovesOnly mqCheckInit := by
  refine Prog.asks_request (e := MqOp.loadInited) trivial fun inited => ?_
  refine Prog.asks_ite ?_ (Prog.asks_ret _)
  refine Prog.asks_request (e := MqOp.llInit) trivial fun _ => ?_
  exact Prog.asks_request (e := MqOp.mutInit) trivial fun _ => ⟨trivial, fun _ _ _ => trivial⟩

theorem mqGetattr_movesOnly : MovesOnly (mqGetattr P mq) := by
  refine mqCheckInit_movesOnly.bind fun _ => ?_
  refine Prog.asks_request (e := MqOp.muxLock) trivial fun _ => ?_
  apply mqExtractLocked_movesOnly.bind
  intro found
  cases found with
  | some mq =>
    refine Prog.asks_request (e := MqOp.load mq) trivial fun obj => ?_
    exact Prog.asks_request (e := MqOp.muxUnlock) trivial fun _ => Prog.asks_ret _
  | none => exact Prog.asks_request (e := MqOp.muxUnlock) trivial fun _ => Prog.asks_ret _

theorem interp_holding {k : MqCall} (h : MovesOnly (mqCode P k)) :
    ((mqCode P k).interp kernelCall).Obeys holding false fun _ l => l = false := by
  refine Prog.Obeys.interp ?_ (obeys_both (mqCode_locking k) (obeys_of_requesting h false))
  intro e l hsafe
  exact ⟨hsafe, fun _ _ hl => hl⟩

theorem mailCode_holding (k : MailCall) :
    (mailCode P k).Obeys holding false fun _ l => l = false := by
  cases k with
  | write p bytes => exact ⟨trivial, fun _ _ hl => hl⟩
  | mqGetattr mq => exact interp_holding (mqGetattr_movesOnly.bind fun _ => Prog.asks_ret _)
  | mqSend mq msgPtr msgLen =>
    exact interp_holding ((mqTimedsend_movesOnly msgLen none).bind fun _ => Prog.asks_ret _)
  | mqTimedsend mq msgPtr msgLen abstime =>
    exact interp_holding ((mqTimedsend_movesOnly msgLen abstime).bind fun _ => Prog.asks_ret _)
  | mqReceive mq msgPtr msgLen =>
    exact interp_holding ((mqTimedreceive_movesOnly msgLen none).bind fun _ => Prog.asks_ret _)
  | mqTimedreceive mq msgPtr msgLen abstime =>
    exact interp_holding ((mqTimedreceive_movesOnly msgLen abstime).bind fun _ => Prog.asks_ret _)

end Calls

section Requests
variable {relock : Bool} {P : Platform} {room : ℕ → ℕ → ℕ} {t : T} {x x' : Exchange T}

/-- To the registry an answered request is one of `posix_mqueue.c` alone, without memory to
allocate. -/
theorem mailExec_some {e : MqOp} {c : Choice} {r : MqAns e}
    (h : mailExec relock P room t (.mq e) c x = some (r, x')) :
    ∃ accept s', mqExec relock P t ⟨none, none, c.tick, accept⟩ e x.reg = some (r, s') ∧
      x'.reg = s' := by
  have hmsg : ∃ accept, msgExec relock P t ⟨none, none, c.tick, accept⟩ e x = some (r, x') := by
    simp only [mailExec] at h
    split_ifs at h
    · exact ⟨true, h⟩
    · exact ⟨false, h⟩
  obtain ⟨accept, hmsg⟩ := hmsg
  obtain ⟨⟨r', s'⟩, hx, hrest⟩ := Option.bind_eq_some_iff.mp hmsg
  obtain ⟨y, -, heq⟩ := Option.map_eq_some_iff.mp hrest
  cases heq
  exact ⟨accept, s', hx, rfl⟩

omit [DecidableEq T] in
theorem supplied_of_transferring {e : MqOp} (h : Transferring e) (s : Registry T) (t : T)
    (c : Env) : MqueueLocking.Supplied s t e c := by
  cases e with
  | allocQueue => exact h.elim
  | allocBuf sz => exact h.elim
  | _ => rfl

theorem exec_holding {e : MailOp} {c : Choice} {r : MailAns e} (h : Sane x.reg)
    (hsafe : holding.safe (decide (x.reg.mux.own = some t)) e)
    (hx : mailExec relock P room t e c x = some (r, x')) :
    Sane x'.reg ∧
      holding.after (decide (x.reg.mux.own = some t)) e r (decide (x'.reg.mux.own = some t)) ∧
      ∀ u, u ≠ t → (x'.reg.mux.own = some u ↔ x.reg.mux.own = some u) := by
  cases e with
  | mq e =>
    obtain ⟨accept, s', hexec, rfl⟩ := mailExec_some hx
    obtain ⟨hsafe, hmoves⟩ := hsafe
    exact exec_locking h hsafe (supplied_of_transferring hmoves _ _ _) hexec
  | write p bytes =>
    cases hx
    exact ⟨h, rfl, fun _ _ => Iff.rfl⟩

/-- What a request waits for if it is not answered whatever the kernel does. -/
inductive Blocked (P : Platform) (room : ℕ → ℕ → ℕ) (x : Exchange T) : MailOp → Prop
  | muxLock (h : x.reg.mux.own ≠ none) : Blocked P room x (.mq .muxLock)
  | mqPut {mq msg : Ptr}
      (h : room (x.reg.obj mq).q.isz (x.reg.obj mq).q.sz ≤ (x.items mq).length) :
      Blocked P room x (.mq (.mqPut mq msg P.WAIT))
  | mqGet {mq msg : Ptr} (h : x.items mq = []) : Blocked P room x (.mq (.mqGet mq msg P.WAIT))

theorem blocked_of_none {e : MailOp} (h : ∀ c, mailExec relock P room t e c x = none) :
    Blocked P room x e := by
  cases e with
  | write p bytes => cases h ⟨0, false⟩
  | mq e =>
    cases e with
    | muxLock =>
      apply Blocked.muxLock
      intro hown
      have hnone := h ⟨0, false⟩
      simp [mailExec, admits, msgExec, mqExec, mutLock, hown, Exchange.transfer] at hnone
    | mqPut mq msg ticks =>
      have hnone := h ⟨0, true⟩
      by_cases hroom : (x.items mq).length < room (x.reg.obj mq).q.isz (x.reg.obj mq).q.sz
      · simp [mailExec, admits, hroom, msgExec, mqExec, Exchange.transfer] at hnone
      · by_cases hticks : ticks = P.WAIT
        · subst ticks
          exact .mqPut (not_lt.mp hroom)
        · simp [mailExec, admits, expires, hroom, hticks, msgExec, mqExec, Exchange.transfer]
            at hnone
    | mqGet mq msg ticks =>
      have hnone := h ⟨0, true⟩
      cases hitems : x.items mq with
      | nil =>
        by_cases hticks : ticks = P.WAIT
        · subst ticks
          exact .mqGet hitems
        · simp [mailExec, admits, expires, hitems, hticks, msgExec, mqExec, Exchange.transfer]
            at hnone
      | cons item items =>
        simp [mailExec, admits, hitems, msgExec, mqExec, Exchange.transfer] at hnone
    | _ => cases h ⟨0, false⟩

/-- The request of a call that waits for ever, for room in a full queue or for an item. -/
inductive HeldUp (P : Platform) (room : ℕ → ℕ → ℕ) (x : Exchange T) : Job → MailOp → Prop
  | full {τ : Transfer} (hq : τ.mq ∈ x.reg.allq)
      (h : (x.items τ.mq).length = room (x.reg.obj τ.mq).q.isz (x.reg.obj τ.mq).q.sz) :
      HeldUp P room x (.send τ) (.mq (.mqPut τ.mq τ.msgPtr P.WAIT))
  | empty {τ : Transfer} (hq : τ.mq ∈ x.reg.allq) (h : x.items τ.mq = []) :
      HeldUp P room x (.receive τ) (.mq (.mqGet τ.mq τ.msgPtr P.WAIT))

theorem HeldUp.unanswered {j : Job} {e : MailOp} (h : HeldUp P room x j e) (c : Choice) :
    mailExec relock P room t e c x = none := by
  cases h with
  | full hq h => simp [mailExec, admits, expires, h]
  | empty hq h => simp [mailExec, admits, expires, h]

end Requests

def holdDiscipline (relock : Bool) (P : Platform) (room : ℕ → ℕ → ℕ) :
    Discipline (mailSystem relock P room :
      System T MailOp MailAns Choice (Exchange T) MailCall MqRes) Bool where
  toProtocol := holding
  view x t := decide (x.reg.mux.own = some t)
  inv x := Sane x.reg
  allowed _ _ _ _ := True
  between _ l := l = false
  post _ _ _ l := l = false
  enter_step := by
    intro x x' t k h hb hx
    cases hx
    refine ⟨h, ?_, fun _ _ => rfl⟩
    rw [hb]
    exact mailCode_holding k
  exec_step := by
    intro x x' t e c r h hsafe _ hx
    obtain ⟨hx', hafter, hothers⟩ := exec_holding h hsafe hx
    exact ⟨hx', hafter, fun u hu => decide_eq_decide.mpr (hothers u hu)⟩
  leave_step h hp := ⟨h, hp, fun _ _ => rfl⟩

section Runs
variable {relock : Bool} {P : Platform} {room : ℕ → ℕ → ℕ} {p : MailPool T}

theorem unlocked_of_stuck (h : (holdDiscipline relock P room).Inv p)
    (hstuck : ¬ Moves (mailSystem relock P room) p) : p.shared.reg.mux.own = none := by
  rw [Option.eq_none_iff_forall_ne_some]
  intro t
  refine of_decide_eq_false (view_of_stuck h hstuck (fun _ _ hl => hl) ?_ t)
  intro t e hblocked l hsafe
  cases blocked_of_none hblocked with
  | muxLock _ => exact hsafe.1
  | mqPut _ => exact hsafe.1
  | mqGet _ => exact hsafe.1

/-- The lock is free, and every call that has not returned is held up. -/
structure AtRest (P : Platform) (room : ℕ → ℕ → ℕ) (p : MailPool T) : Prop where
  unlocked : p.shared.reg.mux.own = none
  heldUp : ∀ t, p.thread t = none ∨
    ∃ k e q, p.thread t = some (k, .call e q) ∧ HeldUp P room p.shared k.job e

theorem AtRest.not_moves (h : AtRest P room p) : ¬ Moves (mailSystem relock P room) p := by
  intro hmoves
  obtain ⟨a, p', ha, hs⟩ := hmoves
  cases a with
  | enter t k => exact ha t k rfl
  | run t c =>
    obtain ⟨k, e, q, ht, r, x, hx, -⟩ := step_run.mp hs
    rcases h.heldUp t with hnone | ⟨k', e', q', ht', hheld⟩
    · rw [hnone] at ht
      cases ht
    · rw [ht] at ht'
      cases ht'
      have hsome : mailExec relock P room t e c p.shared = some (r, x) := hx
      rw [hheld.unanswered c] at hsome
      cases hsome
  | leave t =>
    obtain ⟨k, v, ht, -⟩ := step_leave.mp hs
    rcases h.heldUp t with hnone | ⟨k', e', q', ht', -⟩
    · rw [hnone] at ht
      cases ht
    · rw [ht] at ht'
      cases ht'

variable {boxes : Ptr → Option Box} {a : Mail room boxes} {f : T → Option (MailCall × Local)}

theorem atRest_of_stuck (hinv : Inv p.shared a f)
    (hstands : ∀ t, (mailService (T := T) relock P room boxes).Stands (p.thread t) (f t))
    (hown : p.shared.reg.mux.own = none) (hstuck : ¬ Moves (mailSystem relock P room) p) :
    AtRest P room p := by
  refine ⟨hown, ?_⟩
  intro t
  rcases stuck hstuck t with hnone | ⟨k, e, q, hcall, hblocked⟩
  · exact .inl hnone
  · right
    refine ⟨k, e, q, hcall, ?_⟩
    have hthread := hstands t
    rw [hcall] at hthread
    obtain ⟨l, hl, hobeys⟩ := Linearizability.Service.stands_some hthread
    have hjob := hinv.job t k l hl
    have hsafe := hobeys.1
    cases blocked_of_none hblocked with
    | muxLock h => exact absurd hown h
    | mqPut hfull =>
      obtain ⟨-, τ, hτ, rfl, rfl, b, hb, -, -⟩ := hsafe
      obtain ⟨hq, rfl⟩ := hinv.holds.box hb
      have hbound := a.bounded τ.mq _ hb
      rw [hinv.holds.items] at hbound
      rw [← hjob, hτ]
      exact .full hq (le_antisymm hbound hfull)
    | mqGet hempty =>
      obtain ⟨-, τ, hτ, rfl, rfl, b, hb, -, -⟩ := hsafe
      obtain ⟨hq, -⟩ := hinv.holds.box hb
      rw [← hjob, hτ]
      exact .empty hq hempty

/-- Of the calls that move messages one can always go on, until the lock is free and each of those
that have not returned waits for ever, to send to a full queue or to receive from an empty one; and
every run can be carried on to such a state without any new call. -/
theorem transfers_settle [Finite T] {x : Exchange T} (hx : WellKept room x)
    (hfree : x.reg.mux = mutInit) {as : List (ThreadPool.Action T Choice MailCall)}
    (hrun : execute (step (mailSystem relock P room)) (idlePool x) as = some p) :
    (¬ Moves (mailSystem relock P room) p ↔ AtRest P room p) ∧
      ∃ bs q, (∀ b ∈ bs, Continues b) ∧
        execute (step (mailSystem relock P room)) p bs = some q ∧ AtRest P room q := by
  have hrest (as : List (ThreadPool.Action T Choice MailCall)) (p : MailPool T)
      (hrun : execute (step (mailSystem relock P room)) (idlePool x) as = some p)
      (hstuck : ¬ Moves (mailSystem relock P room) p) : AtRest P room p := by
    have hidle : (holdDiscipline relock P room).Inv (idlePool x : MailPool T) := by
      apply Discipline.idle_inv
      · exact ⟨hx.inited, by simp [hfree, mutInit]⟩
      · intro t
        simp [holdDiscipline, hfree, mutInit]
    have hlock := hidle.execute_all (fun _ _ _ _ => trivial) hrun
    have hinit : (mailService relock P room (boxOf x.reg)).inv x hx.mail fun _ => none :=
      ⟨⟨hx.inited, rfl, rfl, rfl, hx.counted⟩, by simp⟩
    obtain ⟨a, f, -, hinv, hstands⟩ :=
      (mailService relock P room (boxOf x.reg)).linearizes rfl hinit hrun
    exact atRest_of_stuck hinv hstands (unlocked_of_stuck hlock hstuck) hstuck
  refine ⟨⟨hrest as p hrun, AtRest.not_moves⟩, ?_⟩
  obtain ⟨bs, q, hbs, hq, hstuck⟩ := settles (mailSystem relock P room) p
  exact ⟨bs, q, hbs, hq, hrest (as ++ bs) q (execute_append.mpr ⟨p, hrun, hq⟩) hstuck⟩

end Runs

/-- A thread waits for ever to receive from an empty queue, another one has the lock in order to
send. -/
def emptySteps : List (ThreadPool.Action Bool Choice MailCall) :=
  [.enter false (.mqReceive 1 16 4)] ++ runs false 5 ++ [.enter true (.mqSend 1 8 1)] ++
    runs true 1

theorem transfers_settle_empty : ∃ p,
    execute (step (mailSystem true platform1000 fun _ sz => sz)) (idlePool smallQueue)
      emptySteps = some p ∧
    p.request false = some (.mq (.mqGet 1 16 platform1000.WAIT)) ∧
    p.shared.reg.mux.own = some true ∧
    Moves (mailSystem true platform1000 fun _ sz => sz) p ∧
    ∃ bs q, (∀ b ∈ bs, Continues b) ∧
      execute (step (mailSystem true platform1000 fun _ sz => sz)) p bs = some q ∧
      AtRest platform1000 (fun _ sz => sz) q := by
  have hrun : (execute (step (mailSystem true platform1000 fun _ sz => sz)) (idlePool smallQueue)
      emptySteps).map (fun p => (p.request false, p.shared.reg.mux.own)) =
        some (some (.mq (.mqGet 1 16 platform1000.WAIT)), some true) := by
    decide +kernel
  obtain ⟨p, hp, hvalues⟩ := Option.map_eq_some_iff.mp hrun
  obtain ⟨hrequest, hown⟩ := Prod.mk.inj hvalues
  obtain ⟨hiff, hsettles⟩ := transfers_settle smallQueue_wellKept rfl hp
  have hmoves : Moves (mailSystem true platform1000 fun _ sz => sz) p := by
    by_contra hstuck
    have hfree := (hiff.mp hstuck).unlocked
    rw [hown] at hfree
    cases hfree
  exact ⟨p, hp, hrequest, hown, hmoves, hsettles⟩

end LibPosix.MqueueProgress
