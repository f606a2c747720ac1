import LibPosix.PthreadJoin

/-! Calls of `pthread_exit`. The thread ends in `exit_thread`, which is documented not to return; its
requests are written down to see what comes after its result has been set. -/
namespace LibPosix.ExitFinality
open Program ThreadPool Transition Kernel Pthread PthreadRun
open PthreadJoin (twoTasks ready newThread newThread_created)
variable {T : Type} [DecidableEq T]

structure Logged (T : Type) where
  world : World T
  log : List ThreadOp

def Logged.record (s : Logged T) (K : Tasks T) (t : T) (e : ThreadOp) (w : World T) : Logged T :=
  ⟨w, if t = K.target then s.log ++ [e] else s.log⟩

def exitSystem (relock : Bool) (P : Platform) (K : Tasks T) (mayJoin : World T → Bool)
    (text : Ptr → Ptr → Routine) :
    System T ThreadOp ThreadAns Env (Logged T) ThreadCall (Status × Option Ptr) where
  code _ k := threadCode K text k
  exec t e c s := (threadExec relock P K t e c s.world).map fun r =>
    (r.1, s.record K t e r.2)
  enter t k s := (threadEnter K mayJoin t k s.world).map fun w => { s with world := w }
  leave t k v s := { s with world := threadLeave K t k v s.world }

abbrev ExitPool (T : Type) :=
  Pool T ThreadOp ThreadAns (Logged T) ThreadCall (Status × Option Ptr)

def isStore : ThreadOp → Bool
  | .storeRet _ => true
  | _ => false

/-- The requests after the one that has set `thread->ret` first. -/
def afterRet : List ThreadOp → List ThreadOp
  | [] => []
  | e :: log => if isStore e = true then log else afterRet log

/-- One run of `exit_thread`, and the returns from it and from the function that called it. -/
def exitRequests (K : Tasks T) (w : World T) : List ThreadOp :=
  if statusJoinable w.obj.attr.status = true then
    [.self, .loadAttr, .semPost .barrier, .semGet .joined, .popFrame, .popFrame]
  else
    [.self, .loadAttr, .loadStack, .free .POSIX_STACK w.obj.stack,
      .free .POSIX_THREAD (some K.thread), .popFrame, .popFrame]

/-- Once the result has been set the thread runs `exit_thread` and does nothing else. -/
def Final (K : Tasks T) (s : Logged T) : Prop := afterRet s.log <+: exitRequests K s.world

def afterRoutine (ret : Ptr) : Prog ThreadOp ThreadAns (Status × Option Ptr) := do
  ask (.storeRet ret)
  exitThread
  return (.ok, none)

/-- The routine of the thread stands at a call `pthread_exit(valuePtr)`; `k` is the rest of it. -/
def AtExit (K : Tasks T) (p : ExitPool T) (valuePtr : Ptr) : Prop :=
  ∃ k : Unit → Routine, p.thread K.target =
    some (.runThread, (Prog.call (.exit valuePtr) k).interp onThread >>= afterRoutine)

def stores (log : List ThreadOp) : ℕ := log.countP isStore

section Logs
variable {log m : List ThreadOp} {e : ThreadOp}

theorem stores_concat : stores (log ++ [e]) = stores log + if isStore e = true then 1 else 0 := by
  simp [stores, List.countP_append, List.countP_singleton]

theorem afterRet_append (h : stores log = 0) (he : isStore e = true) :
    afterRet (log ++ e :: m) = m := by
  induction log with
  | nil => simp [afterRet, he]
  | cons d log ih =>
    have hd : ¬ isStore d = true := fun hd => by simp [stores, hd] at h
    have hrest : stores log = 0 := by simpa [stores, hd] using h
    simp [afterRet, hd, ih hrest]

theorem afterRet_store (h : 2 ≤ stores log) : ∃ e ∈ afterRet log, isStore e = true := by
  induction log with
  | nil => simp [stores] at h
  | cons d log ih =>
    by_cases hd : isStore d = true
    · have hrest : 0 < log.countP isStore := by
        simp only [stores, List.countP_cons, hd, if_true] at h
        omega
      simpa [afterRet, hd] using List.countP_pos_iff.mp hrest
    · have hrest : 2 ≤ stores log := by simpa [stores, hd] using h
      simpa [afterRet, hd] using ih hrest

end Logs

section Finality
variable {K : Tasks T} {s : Logged T}

omit [DecidableEq T] in
theorem exitRequests_not_store {w : World T} {e : ThreadOp} (he : e ∈ exitRequests K w) :
    isStore e = false := by
  unfold exitRequests at he
  split_ifs at he
  · simp only [List.mem_cons, List.not_mem_nil, or_false] at he
    rcases he with rfl | rfl | rfl | rfl | rfl | rfl <;> rfl
  · simp only [List.mem_cons, List.not_mem_nil, or_false] at he
    rcases he with rfl | rfl | rfl | rfl | rfl | rfl | rfl <;> rfl

omit [DecidableEq T] in
theorem not_final_of_stores (h : 2 ≤ stores s.log) : ¬ Final K s := by
  intro hf
  obtain ⟨e, he, hstore⟩ := afterRet_store h
  rw [exitRequests_not_store (hf.subset he)] at hstore
  cases hstore

omit [DecidableEq T] in
theorem not_final_of_more {log : List ThreadOp} {d e : ThreadOp} (hlog : stores log = 0)
    (hd : isStore d = true) (hs : s.log = log ++ d :: (exitRequests K s.world ++ [e])) :
    ¬ Final K s := by
  intro hf
  rw [Final, hs, afterRet_append hlog hd] at hf
  have hlen := hf.length_le
  simp at hlen

end Finality

/-- The thread itself knows how often it has set its result. It takes a unit of `joined` only after
it has done so. -/
def exitCounting : Protocol ThreadOp ThreadAns (Option ℕ) where
  safe
    | _, .clearThread _ => False
    | _, .storeAttr _ => False
    | _, .semInit .. => False
    | l, .semGet .joined => ∃ n, l = some (n + 1)
    | l, .storeRet _ => l ≠ none
    | _, _ => True
  after
    | l, .storeRet _, _, l' => l' = l.map (· + 1)
    | l, _, _, l' => l' = l

def AtLeast (n : ℕ) (l : Option ℕ) : Prop := ∃ m, n ≤ m ∧ l = some m

section Programs
variable {n : ℕ} {l : Option ℕ}

theorem exitThread_counts :
    exitThread.Obeys exitCounting (some (n + 1)) fun _ l => l = some (n + 1) := by
  simp [exitThread, exitCounting]

theorem pthreadExit_counts (valuePtr : Ptr) (hl : AtLeast n l) :
    (pthreadExit valuePtr).Obeys exitCounting l fun _ l' => AtLeast (n + 1) l' := by
  obtain ⟨m, hm, rfl⟩ := hl
  simp [pthreadExit, exitCounting]
  apply exitThread_counts.mono
  intro _ l hl
  exact ⟨m + 1, by omega, hl⟩

theorem pthreadJoin_counts (thread : Ptr) (retval : Bool) :
    (pthreadJoin thread retval).Obeys exitCounting l fun _ l' => l' = l := by
  cases retval with
  | false => simp [pthreadJoin, joinWait, exitCounting]
  | true => simp [pthreadJoin, joinWait, exitCounting]

theorem onThread_counts (e : RoutineOp) (hl : AtLeast n l) :
    (onThread e).Obeys exitCounting l fun _ l' => AtLeast n l' := by
  cases e with
  | work =>
    simp [onThread, exitCounting]
    exact hl
  | exit valuePtr =>
    apply (pthreadExit_counts valuePtr hl).mono
    intro _ l' hl'
    obtain ⟨m, hm, rfl⟩ := hl'
    exact ⟨m, by omega, rfl⟩
  | joinSelf retval =>
    simp only [onThread, Prog.obeys_bind, Prog.obeys_request]
    refine ⟨trivial, fun self l' hl' => ?_⟩
    obtain rfl : l' = l := hl'
    apply (pthreadJoin_counts self retval).mono
    intro _ l'' hl''
    rw [hl'']
    exact hl

theorem afterRoutine_counts (r : Routine) (hl : AtLeast n l) :
    (r.interp onThread >>= afterRoutine).Obeys exitCounting l fun _ l' => AtLeast (n + 1) l' := by
  rw [Prog.obeys_bind]
  apply (Prog.obeys_interp (fun e l hl => onThread_counts e hl) r hl).mono
  intro ret l' hl'
  obtain ⟨m, hm, rfl⟩ := hl'
  simp [afterRoutine, exitCounting]
  apply exitThread_counts.mono
  intro _ l hl
  exact ⟨m + 1, by omega, hl⟩

theorem atExit_counts (valuePtr : Ptr) (k : Unit → Routine) (hl : AtLeast n l) :
    ((Prog.call (.exit valuePtr) k).interp onThread >>= afterRoutine).Obeys exitCounting l
      fun _ l' => AtLeast (n + 2) l' := by
  rw [Prog.interp_call, Prog.bind_assoc, Prog.obeys_bind]
  apply (pthreadExit_counts valuePtr hl).mono
  intro r l' hl'
  exact afterRoutine_counts (k r) hl'

omit [DecidableEq T] in
theorem threadCode_runThread (K : Tasks T) (text : Ptr → Ptr → Routine) :
    threadCode K text .runThread = (do
      let routine := text (← ask .loadFun) (← ask .loadFunArg)
      routine.interp onThread >>= afterRoutine) := by
  simp [threadCode, runThread, Prog.bind_assoc]
  rfl

end Programs

/-- Until the thread has set its result the unit that `joined` starts with is there. -/
def Unwaited (s : Logged T) : Prop :=
  statusJoinable s.world.obj.attr.status = true → stores s.log = 0 → 0 < s.world.obj.sem .joined

def steady : ThreadOp → Bool
  | .clearThread _ => false
  | .storeAttr _ => false
  | .semInit .. => false
  | .semGet .joined => false
  | _ => true

section Steps
variable {relock : Bool} {P : Platform} {K : Tasks T} {s s' : Logged T} {w w' : World T} {t : T}
  {c : Env}

def counted (K : Tasks T) (s : Logged T) (t : T) : Option ℕ :=
  if t = K.target then some (stores s.log) else none

theorem answer_steady {e : ThreadOp} {r : ThreadAns e} (he : steady e = true)
    (hx : answer relock P K t c e w = some (r, w')) :
    w'.obj.attr = w.obj.attr ∧ w.obj.sem .joined ≤ w'.obj.sem .joined := by
  cases e with
  | clearThread thread => cases he
  | storeAttr attr => cases he
  | semInit sem value => cases he
  | semGet sem =>
    cases sem with
    | joined => cases he
    | barrier =>
      simp only [answer] at hx
      split_ifs at hx
      cases hx
      exact ⟨rfl, le_rfl⟩
  | semPost sem =>
    cases sem with
    | joined =>
      cases hx
      exact ⟨rfl, by simp [World.setSem]⟩
    | barrier =>
      cases hx
      exact ⟨rfl, le_rfl⟩
  | muxLock ticks =>
    obtain ⟨q, -, heq⟩ := Option.map_eq_some_iff.mp hx
    cases heq
    exact ⟨rfl, le_rfl⟩
  | _ =>
    cases hx
    exact ⟨rfl, le_rfl⟩

theorem counted_record (s : Logged T) (e : ThreadOp) (w : World T) :
    counted K (s.record K t e w) t =
      (counted K s t).map (· + if isStore e = true then 1 else 0) := by
  by_cases ht : t = K.target
  · simp [counted, Logged.record, ht, stores_concat]
  · simp [counted, ht]

theorem counted_of_ne {u : T} (s : Logged T) (e : ThreadOp) (w : World T) (hu : u ≠ t) :
    counted K (s.record K t e w) u = counted K s u := by
  by_cases ht : t = K.target
  · have hut : u ≠ K.target := fun h => hu (h.trans ht.symm)
    simp [counted, hut]
  · simp [counted, Logged.record, ht]

theorem record_stores {e : ThreadOp} (s : Logged T) (w : World T) (he : isStore e = false) :
    stores (s.record K t e w).log = stores s.log := by
  by_cases ht : t = K.target
  · simp [Logged.record, ht, stores_concat, he]
  · simp [Logged.record, ht]

theorem exec_counts {mayJoin : World T → Bool} {text : Ptr → Ptr → Routine} {e : ThreadOp}
    {r : ThreadAns e} (h : Unwaited s) (hsafe : exitCounting.safe (counted K s t) e)
    (hs : (exitSystem relock P K mayJoin text).exec t e c s = some (r, s')) :
    Unwaited s' ∧ exitCounting.after (counted K s t) e r (counted K s' t) ∧
      ∀ u, u ≠ t → counted K s' u = counted K s u := by
  obtain ⟨⟨r', w⟩, hx, heq⟩ := Option.map_eq_some_iff.mp hs
  cases heq
  have hx : answer relock P K t c e (s.world.mark K t (touches e)) = some (r', w) := hx
  have hview := counted_record (K := K) (t := t) s e w
  have hother (u : T) (hu : u ≠ t) := counted_of_ne (K := K) s e w hu
  have hsteady (hstore : isStore e = false) (hst : steady e = true) :
      Unwaited (s.record K t e w) ∧ counted K (s.record K t e w) t = counted K s t := by
    obtain ⟨hattr, hjoined⟩ := answer_steady hst hx
    constructor
    · intro hj hzero
      rw [record_stores s w hstore] at hzero
      have hj : statusJoinable w.obj.attr.status = true := hj
      rw [hattr] at hj
      exact (h hj hzero).trans_le hjoined
    · simpa [hstore] using hview
  cases e with
  | clearThread thread => exact hsafe.elim
  | storeAttr attr => exact hsafe.elim
  | semInit sem value => exact hsafe.elim
  | storeRet ret =>
    have hstored : counted K (s.record K t (.storeRet ret) w) t = (counted K s t).map (· + 1) := by
      simpa [isStore] using hview
    refine ⟨?_, hstored, hother⟩
    obtain ⟨n, hn⟩ := Option.ne_none_iff_exists'.mp hsafe
    intro _ hzero
    have ht : t = K.target := by
      by_contra ht
      simp [counted, ht] at hn
    simp [Logged.record, ht, stores_concat, isStore] at hzero
  | semGet sem =>
    cases sem with
    | joined =>
      obtain ⟨n, hn⟩ := hsafe
      have hkept : counted K (s.record K t (.semGet .joined) w) t = counted K s t := by
        simpa [isStore] using hview
      refine ⟨?_, hkept, hother⟩
      intro _ hzero
      rw [record_stores s w rfl] at hzero
      by_cases ht : t = K.target
      · simp [counted, ht, hzero] at hn
      · simp [counted, ht] at hn
    | barrier =>
      obtain ⟨hu, hv⟩ := hsteady rfl rfl
      exact ⟨hu, hv, hother⟩
  | _ =>
    obtain ⟨hu, hv⟩ := hsteady rfl rfl
    exact ⟨hu, hv, hother⟩

theorem enter_counts {n : ℕ} {mayJoin : World T → Bool} {text : Ptr → Ptr → Routine}
    {k : ThreadCall} (h : Unwaited s) (hb : t = K.target → AtLeast n (counted K s t))
    (hs : (exitSystem relock P K mayJoin text).enter t k s = some s') :
    Unwaited s' ∧ (threadCode K text k).Obeys exitCounting (counted K s' t)
        (fun _ l => t = K.target → AtLeast n l) ∧
      ∀ u, u ≠ t → counted K s' u = counted K s u := by
  obtain ⟨w, hx, heq⟩ := Option.map_eq_some_iff.mp hs
  cases heq
  cases k with
  | runThread =>
    simp only [threadEnter] at hx
    split_ifs at hx with ht
    cases hx
    refine ⟨h, ?_, fun _ _ => rfl⟩
    rw [threadCode_runThread]
    have hl : AtLeast n (counted K s t) := hb ht.1
    have hafter (func arg : Ptr) :
        ((text func arg).interp onThread >>= afterRoutine).Obeys exitCounting (counted K s t)
          (fun _ l => t = K.target → AtLeast n l) := by
      apply (afterRoutine_counts (text func arg) hl).mono
      intro _ l hl' _
      obtain ⟨m, hm, rfl⟩ := hl'
      exact ⟨m, by omega, rfl⟩
    simp only [Prog.request_bind, Prog.obeys_call]
    refine ⟨trivial, fun func l hl => ⟨trivial, fun arg l' hl' => ?_⟩⟩
    obtain rfl : l' = counted K s t := hl'.trans hl
    exact hafter func arg
  | pthreadJoin retval =>
    simp only [threadEnter] at hx
    split_ifs at hx with ht
    cases hx
    refine ⟨h, ?_, fun _ _ => rfl⟩
    apply (pthreadJoin_counts K.thread retval).mono
    intro _ _ _ heq
    exact absurd heq ht.1

end Steps

section Runs
variable {relock : Bool} {P : Platform} {K : Tasks T} {mayJoin : World T → Bool}
  {text : Ptr → Ptr → Routine}

/-- When the thread is between calls it has set its result `n` times or more. -/
def exitDiscipline (n : ℕ) (relock : Bool) (P : Platform) (K : Tasks T)
    (mayJoin : World T → Bool) (text : Ptr → Ptr → Routine) :
    Discipline (exitSystem relock P K mayJoin text) (Option ℕ) where
  toProtocol := exitCounting
  view := counted K
  inv := Unwaited
  allowed _ _ _ _ := True
  between t l := t = K.target → AtLeast n l
  post t _ _ l := t = K.target → AtLeast n l
  enter_step h hb hs := enter_counts h hb hs
  exec_step h hsafe _ hs := exec_counts h hsafe hs
  leave_step {_ _ k _} h hp := by
    cases k with
    | runThread => exact ⟨h, hp, fun _ _ => rfl⟩
    | pthreadJoin retval => exact ⟨h, hp, fun _ _ => rfl⟩

theorem created_unwaited (mayJoin : World T → Bool) (text : Ptr → Ptr → Routine)
    {attr : Option PthreadAttr} {func arg : Ptr} {w : World T}
    (hw : Created relock P K attr func arg w) :
    (exitDiscipline 0 relock P K mayJoin text).Inv (idlePool ⟨w, []⟩) := by
  obtain ⟨stack, -, rfl⟩ := created_world hw
  apply Discipline.idle_inv
  · intro hj _
    have hj : statusJoinable (attr.getD (pthreadAttrDefault P)).status = true := hj
    simp [rawWorld, createdThread, hj]
  · intro t ht
    exact ⟨0, le_rfl, by simp [exitDiscipline, counted, ht, stores]⟩

theorem atExit_inv {p : ExitPool T} {valuePtr : Ptr}
    (h : (exitDiscipline 0 relock P K mayJoin text).Inv p) (hexit : AtExit K p valuePtr) :
    (exitDiscipline 2 relock P K mayJoin text).Inv p := by
  obtain ⟨k, hk⟩ := hexit
  refine ⟨h.shared, fun t => ?_⟩
  by_cases ht : t = K.target
  · subst ht
    rw [hk]
    have hl : AtLeast 0 (counted K p.shared K.target) := ⟨_, Nat.zero_le _, by simp [counted]; rfl⟩
    apply (atExit_counts valuePtr k hl).mono
    intro _ l hl' _
    exact hl'
  · have hfollows := h.threads t
    cases hp : p.thread t with
    | none => exact fun heq => absurd heq ht
    | some x =>
      rw [hp] at hfollows
      apply Prog.Obeys.mono hfollows
      intro _ _ _ heq
      exact absurd heq ht

theorem pthreadExit_returns (relock : Bool) (P : Platform) (mayJoin : World T → Bool)
    (text : Ptr → Ptr → Routine) (c : Env) (valuePtr : Ptr) {s : Logged T}
    (hu : statusJoinable s.world.obj.attr.status = true → 0 < s.world.obj.sem .joined) :
    ∃ s', (pthreadExit valuePtr).eval
        (fun e => (exitSystem relock P K mayJoin text).exec K.target e c) s = some ((), s') ∧
      s'.log = s.log ++ .self :: .storeRet valuePtr :: exitRequests K s.world ∧
      exitRequests K s'.world = exitRequests K s.world := by
  have hself : K.priv K.target = K.thread := (K.priv_iff K.target).mpr rfl
  by_cases hj : statusJoinable s.world.obj.attr.status = true
  · have hpos := hu hj
    simp [pthreadExit, exitThread, exitSystem, threadExec, answer, Logged.record, World.setSem, hj,
      hpos, exitRequests]
  · simp [pthreadExit, exitThread, exitSystem, threadExec, answer, Logged.record, hj, hself,
      exitRequests]

def immediate : ThreadOp → Bool
  | .self => true
  | .work => true
  | .storeRet _ => true
  | _ => false

theorem afterRoutine_request (r : Routine) :
    ∃ e f, r.interp onThread >>= afterRoutine = .call e f ∧ immediate e = true := by
  cases r with
  | ret v => exact ⟨.storeRet v, _, rfl, rfl⟩
  | call e k =>
    cases e with
    | work => exact ⟨.work, _, rfl, rfl⟩
    | exit valuePtr => exact ⟨.self, _, rfl, rfl⟩
    | joinSelf retval => exact ⟨.self, _, rfl, rfl⟩

theorem immediate_exec (relock : Bool) (P : Platform) (K : Tasks T) (mayJoin : World T → Bool)
    (text : Ptr → Ptr → Routine) (c : Env) {e : ThreadOp} (he : immediate e = true) (s : Logged T) :
    ∃ r s', (exitSystem relock P K mayJoin text).exec K.target e c s = some (r, s') ∧
      s'.log = s.log ++ [e] ∧ exitRequests K s'.world = exitRequests K s.world := by
  cases e with
  | self => exact ⟨_, _, rfl, if_pos rfl, rfl⟩
  | work => exact ⟨_, _, rfl, if_pos rfl, rfl⟩
  | storeRet ret => exact ⟨_, _, rfl, if_pos rfl, rfl⟩
  | _ => cases he

/-- From every call of `pthread_exit` the thread can run on: either the result had been set before,
or `exit_thread` returns and the thread takes one more step. -/
theorem exited_runs_on (c : Env) {p : ExitPool T} {valuePtr : Ptr}
    (h : (exitDiscipline 0 relock P K mayJoin text).Inv p) (hexit : AtExit K p valuePtr) :
    ∃ bs p', execute (step (exitSystem relock P K mayJoin text)) p bs = some p' ∧
      ¬ Final K p'.shared := by
  obtain ⟨k, hk⟩ := hexit
  rw [Prog.interp_call, Prog.bind_assoc] at hk
  by_cases hzero : stores p.shared.log = 0
  · have hu : statusJoinable p.shared.world.obj.attr.status = true →
        0 < p.shared.world.obj.sem .joined := fun hj => h.shared hj hzero
    obtain ⟨s, hrun, hlog, hrequests⟩ := pthreadExit_returns relock P mayJoin text c valuePtr hu
    obtain ⟨n, hn⟩ := execute_alone_bind (S := exitSystem relock P K mayJoin text) hk hrun
    obtain ⟨e, f, hnext, he⟩ := afterRoutine_request (k ())
    obtain ⟨r, s', hexec, hlog', hrequests'⟩ := immediate_exec relock P K mayJoin text c he s
    rw [hnext] at hn
    have hall := execute_append.mpr
      ⟨_, hn, execute_run (Pool.set_thread_self _ _ _ _) hexec (execute_nil _)⟩
    refine ⟨_, _, hall, ?_⟩
    have hself : stores (p.shared.log ++ [.self]) = 0 := by
      simp [stores_concat, hzero, isStore]
    apply not_final_of_more hself (d := .storeRet valuePtr) (e := e) rfl
    simp only [Pool.set_shared]
    rw [hlog', hlog, hrequests', hrequests]
    simp
  · let q : Prog ThreadOp ThreadAns Unit := do
      let _thread ← ask .self
      ask (.storeRet valuePtr)
    have hrun : ∃ s, q.eval (fun e => (exitSystem relock P K mayJoin text).exec K.target e c)
        p.shared = some ((), s) ∧ s.log = p.shared.log ++ [.self, .storeRet valuePtr] := by
      simp [q, exitSystem, threadExec, answer, Logged.record]
    obtain ⟨s, hrun, hlog⟩ := hrun
    obtain ⟨n, hn⟩ := execute_alone_bind (S := exitSystem relock P K mayJoin text) (q := q)
      (f := fun _ => (exitThread >>= fun _ => ask .popFrame) >>= fun r =>
        (k r).interp onThread >>= afterRoutine) hk hrun
    refine ⟨_, _, hn, not_final_of_stores ?_⟩
    have htwo : stores s.log = stores p.shared.log + 1 := by
      simp [hlog, stores, isStore]
    simp only [Pool.set_shared]
    omega

/-- Once the thread has come to its end after the call the result has been overwritten. -/
theorem exited_not_final {p p' : ExitPool T} {valuePtr : Ptr}
    (h : (exitDiscipline 0 relock P K mayJoin text).Inv p) (hexit : AtExit K p valuePtr)
    {bs : List (Action T Env ThreadCall)}
    (hrun : execute (step (exitSystem relock P K mayJoin text)) p bs = some p')
    (hend : p'.thread K.target = none) : ¬ Final K p'.shared := by
  have hinv := (atExit_inv h hexit).execute_all (fun _ _ _ _ => trivial) hrun
  have hfollows := hinv.threads K.target
  rw [hend] at hfollows
  obtain ⟨m, hm, heq⟩ := hfollows rfl
  have hstores : stores p'.shared.log = m := by simpa [exitDiscipline, counted] using heq
  exact not_final_of_stores (hstores ▸ hm)

/-- The routine starts with the third step of the thread. -/
theorem runThread_starts (relock : Bool) (P : Platform) (mayJoin : World T → Bool)
    (text : Ptr → Ptr → Routine) (c : Env) {p : ExitPool T} (ht : p.thread K.target = none)
    (hs : p.shared.world.started = false) :
    ∃ p', execute (step (exitSystem relock P K mayJoin text)) p
        (.enter K.target .runThread :: List.replicate 2 (.run K.target c)) = some p' ∧
      p'.thread K.target = some (.runThread,
        (text p.shared.world.obj.func p.shared.world.obj.funArg).interp onThread >>=
          afterRoutine) := by
  have hadmit : (exitSystem relock P K mayJoin text).enter K.target .runThread p.shared =
      some ⟨p.shared.world.enterRun, p.shared.log⟩ := by
    simp [exitSystem, threadEnter, hs]
  have henter := step_enter.mpr ⟨ht, _, hadmit, rfl⟩
  have hfirst : (exitSystem relock P K mayJoin text).code K.target .runThread =
      .call .loadFun fun func => .call .loadFunArg fun arg =>
        (text func arg).interp onThread >>= afterRoutine := threadCode_runThread K text
  rw [hfirst] at henter
  refine ⟨_, execute_cons.mpr ⟨_, henter, execute_run (Pool.set_thread_self _ _ _ _) rfl
    (execute_run (Pool.set_thread_self _ _ _ _) rfl (execute_nil _))⟩, ?_⟩
  exact Pool.set_thread_self _ _ _ _

/-- `pthread_exit` is final for no thread at no call: from there the thread can take a step that
it should not take, and in every run to its end it sets its result again. -/
theorem pthreadExit_never_final {attr : Option PthreadAttr} {func arg : Ptr} {w : World T}
    (hw : Created relock P K attr func arg w) {as : List (Action T Env ThreadCall)}
    {p : ExitPool T} {valuePtr : Ptr}
    (hrun : execute (step (exitSystem relock P K mayJoin text)) (idlePool ⟨w, []⟩) as = some p)
    (hexit : AtExit K p valuePtr) :
    (∃ bs p', execute (step (exitSystem relock P K mayJoin text)) p bs = some p' ∧
      ¬ Final K p'.shared) ∧
    ∀ bs p', execute (step (exitSystem relock P K mayJoin text)) p bs = some p' →
      p'.thread K.target = none → ¬ Final K p'.shared := by
  have hinv := (created_unwaited mayJoin text hw).execute_all (fun _ _ _ _ => trivial) hrun
  constructor
  · exact exited_runs_on ready hinv hexit
  · intro bs p' hbs hend
    exact exited_not_final hinv hexit hbs hend

end Runs

section Schedules
open PthreadJoin (joinSteps)

def exitSeven : Ptr → Ptr → Routine := fun _ _ => .call (.exit 7) fun _ => .ret 9

abbrev sevenSystem := exitSystem true platform1000 twoTasks joinOnce exitSeven

def callSteps : List (Action Bool Env ThreadCall) :=
  .enter true .runThread :: List.replicate 2 (.run true ready)

theorem callSteps_at_exit :
    ∃ p, execute (step sevenSystem) (idlePool ⟨newThread, []⟩) callSteps = some p ∧
      AtExit twoTasks p 7 := by
  obtain ⟨p, hrun, hp⟩ := runThread_starts true platform1000 (K := twoTasks) joinOnce exitSeven
    ready (p := idlePool ⟨newThread, []⟩) rfl rfl
  exact ⟨p, hrun, _, hp⟩

theorem pthreadExit_never_final_seven :
    ∃ p, execute (step sevenSystem) (idlePool ⟨newThread, []⟩) callSteps = some p ∧
      AtExit twoTasks p 7 ∧
      (∃ bs p', execute (step sevenSystem) p bs = some p' ∧ ¬ Final twoTasks p'.shared) ∧
      ∀ bs p', execute (step sevenSystem) p bs = some p' → p'.thread true = none →
        ¬ Final twoTasks p'.shared := by
  obtain ⟨p, hrun, hexit⟩ := callSteps_at_exit
  exact ⟨p, hrun, hexit, pthreadExit_never_final newThread_created hrun hexit⟩

/-- The thread runs on after `pthread_exit(7)`, sets 9 as its result and runs `exit_thread` again,
and the join returns 9. -/
theorem pthreadExit_returns_seven :
    ∃ p p', execute (step sevenSystem) (idlePool ⟨newThread, []⟩) callSteps = some p ∧
      AtExit twoTasks p 7 ∧
      execute (step sevenSystem) p (List.replicate 12 (.run true ready) ++ joinSteps) = some p' ∧
      p'.shared.log = [.loadFun, .loadFunArg, .self, .storeRet 7, .self, .loadAttr,
        .semPost .barrier, .semGet .joined, .popFrame, .popFrame, .storeRet 9, .self, .loadAttr,
        .semPost .barrier] ∧
      p'.shared.world.final = some 7 ∧ p'.shared.world.results = [(.ok, some 9)] ∧
      ¬ Final twoTasks p'.shared := by
  have hout : (execute (step sevenSystem) (idlePool ⟨newThread, []⟩)
      (callSteps ++ (List.replicate 12 (.run true ready) ++ joinSteps))).map (fun p =>
        (p.shared.log, p.shared.world.final, p.shared.world.results)) =
      some ([.loadFun, .loadFunArg, .self, .storeRet 7, .self, .loadAttr, .semPost .barrier,
        .semGet .joined, .popFrame, .popFrame, .storeRet 9, .self, .loadAttr, .semPost .barrier],
        some 7, [(.ok, some 9)]) := by
    decide +kernel
  obtain ⟨p, hrun, hexit⟩ := callSteps_at_exit
  obtain ⟨p', hrun', hp⟩ := Option.map_eq_some_iff.mp hout
  obtain ⟨q, hq, hrest⟩ := execute_append.mp hrun'
  obtain rfl : q = p := Option.some.inj (hq.symm.trans hrun)
  simp only [Prod.mk.injEq] at hp
  obtain ⟨hlog, hfinal, hresults⟩ := hp
  refine ⟨q, p', hrun, hexit, hrest, hlog, hfinal, hresults, not_final_of_stores ?_⟩
  rw [hlog]
  decide

end Schedules

end LibPosix.ExitFinality
