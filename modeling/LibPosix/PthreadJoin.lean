import LibPosix.PthreadRun

/-! What `pthread_join` waits for. A join that returns 0 has seen the end of the thread, as
long as the unit it takes from the barrier is not the one the barrier starts with. -/
namespace LibPosix.PthreadJoin
open Program ThreadPool Transition Kernel Pthread PthreadRun
variable {T : Type} [DecidableEq T]

/-- Every join that returned 0 did so after the thread had stored its result and posted the
barrier, and handed out that result. -/
def Waited (s : World T) : Prop :=
  ∀ out, (Status.ok, out) ∈ s.results →
    s.final ≠ none ∧ 0 < s.posts ∧ ∀ r ∈ out, s.final = some r

/-- The barrier has a second unit when a join takes one from it, and the result is stored
only once. -/
def timely (s : World T) : ThreadOp → Bool
  | .semGet .barrier => 2 ≤ s.obj.sem .barrier
  | .storeRet _ => s.final = none
  | _ => true

/-- Whether this is the thread itself, and which result it knows to be final. -/
structure Standing where
  own : Bool
  known : Option Ptr

def standing (K : Tasks T) (s : World T) (t : T) : Standing :=
  ⟨t = K.target, if t = K.target ∨ t ∈ s.passed then s.final else none⟩

def joining (thread : Ptr) : Protocol ThreadOp ThreadAns Standing where
  safe l e := match e with
    | .storeRet _ => l.own = true
    | .semPost .barrier => l.own = true ∧ l.known ≠ none
    | .semGet .barrier => l.own = false
    | .loadRet => l.own = false ∧ l.known ≠ none
    | .clearThread _ => False
    | .semInit .. => False
    | _ => True
  after l e r l' := match e, r with
    | .storeRet _, _ => ∃ r, l' = ⟨l.own, some r⟩
    | .semGet .barrier, _ => ∃ r, l' = ⟨l.own, some r⟩
    | .loadRet, r => l' = l ∧ l.known = some r
    | .self, r => l' = l ∧ (l.own = true ↔ r = thread)
    | _, _ => l' = l

section Programs
variable {thread : Ptr} {known : Option Ptr}

theorem exitThread_obeys (hk : known ≠ none) :
    exitThread.Obeys (joining thread) ⟨true, known⟩ fun _ l => l = ⟨true, known⟩ := by
  simp [exitThread, joining, hk]

theorem pthreadExit_obeys (valuePtr : Ptr) :
    (pthreadExit valuePtr).Obeys (joining thread) ⟨true, known⟩ fun _ l => l.own = true := by
  simp [pthreadExit, joining]
  intro r
  exact (exitThread_obeys (by simp)).mono fun _ l hl => by simp [hl]

theorem pthreadJoin_self (retval : Bool) (hn : thread ≠ 0) :
    (pthreadJoin thread retval).Obeys (joining thread) ⟨true, known⟩
      fun _ l => l = ⟨true, known⟩ := by
  simp [pthreadJoin, joining, pthreadEqual, hn]

theorem pthreadJoin_other (retval : Bool) :
    (pthreadJoin thread retval).Obeys (joining thread) ⟨false, known⟩ fun v l =>
      v.1 = .ok → l.own = false ∧ l.known ≠ none ∧ ∀ r ∈ v.2, l.known = some r := by
  cases retval with
  | false => simp [pthreadJoin, joinWait, joining, pthreadEqual]
  | true => simp [pthreadJoin, joinWait, joining, pthreadEqual]

theorem onThread_obeys (hn : thread ≠ 0) (e : RoutineOp) {l : Standing} (hl : l.own = true) :
    (onThread e).Obeys (joining thread) l fun _ l => l.own = true := by
  obtain ⟨own, known⟩ := l
  obtain rfl : own = true := hl
  cases e with
  | work => simp [onThread, joining]
  | exit valuePtr => exact pthreadExit_obeys valuePtr
  | joinSelf retval =>
    simp only [onThread, Prog.obeys_bind, Prog.obeys_request]
    refine ⟨trivial, fun r l hl => ?_⟩
    obtain ⟨rfl, hr⟩ := hl
    obtain rfl : r = thread := hr.mp rfl
    exact (pthreadJoin_self retval hn).mono fun _ l hl => by rw [hl]

theorem runThread_obeys (text : Ptr → Ptr → Routine) (hn : thread ≠ 0) :
    (runThread text).Obeys (joining thread) ⟨true, known⟩ fun _ l => l.own = true := by
  simp only [runThread, Prog.obeys_bind, Prog.obeys_request]
  refine ⟨trivial, fun func l hl => ⟨trivial, fun arg l' hl' => ?_⟩⟩
  obtain rfl : l' = ⟨true, known⟩ := hl'.trans hl
  have hroutine := Prog.obeys_interp (Q := fun l : Standing => l.own = true)
    (fun e l hl => onThread_obeys hn e hl) (text func arg) (l := ⟨true, known⟩) rfl
  apply hroutine.mono
  rintro ret ⟨own, known'⟩ rfl
  refine ⟨rfl, fun _ l hl => ?_⟩
  obtain ⟨r, rfl⟩ := hl
  exact (exitThread_obeys (by simp)).mono fun _ l hl => by rw [hl]

end Programs

/-- The units of the barrier, and what a task that got one knows. -/
structure Ordered (s : World T) : Prop where
  units : s.obj.sem .barrier ≤ 1 + s.posts
  stored : 0 < s.posts → s.final ≠ none
  passed : ∀ t ∈ s.passed, 0 < s.posts
  ret : ∀ v, s.final = some v → s.obj.ret = v
  waited : Waited s

structure Agrees (s s' : World T) : Prop where
  units : s'.obj.sem .barrier = s.obj.sem .barrier
  posts : s'.posts = s.posts
  final : s'.final = s.final
  passed : s'.passed = s.passed
  ret : s'.obj.ret = s.obj.ret
  results : s'.results = s.results

section Steps
variable {relock : Bool} {P : Platform} {K : Tasks T} {s s' : World T} {t : T} {c : Env}

omit [DecidableEq T] in
theorem Ordered.congr (h : Ordered s) (ha : Agrees s s') : Ordered s' := by
  refine ⟨?_, ?_, ?_, ?_, ?_⟩
  · rw [ha.units, ha.posts]
    exact h.units
  · rw [ha.posts, ha.final]
    exact h.stored
  · rw [ha.passed, ha.posts]
    exact h.passed
  · rw [ha.final, ha.ret]
    exact h.ret
  · unfold Waited
    rw [ha.results, ha.final, ha.posts]
    exact h.waited

theorem standing_congr (ha : Agrees s s') (u : T) : standing K s' u = standing K s u := by
  simp only [standing, ha.passed, ha.final]

theorem standing_own : (standing K s t).own = true ↔ t = K.target := by
  simp [standing]

/-- What a joining task knows comes from the thread's own post. -/
theorem Ordered.known_final (h : Ordered s) (ht : t ≠ K.target)
    (hk : (standing K s t).known ≠ none) :
    0 < s.posts ∧ (standing K s t).known = s.final := by
  by_cases hp : t ∈ s.passed
  · exact ⟨h.passed t hp, by simp [standing, hp]⟩
  · simp [standing, ht, hp] at hk

omit [DecidableEq T] in
theorem Ordered.post (h : Ordered s) (hf : s.final ≠ none) :
    Ordered (s.setSem .barrier (s.obj.sem .barrier + 1)).notePost := by
  refine ⟨?_, fun _ => hf, fun _ _ => Nat.succ_pos _, h.ret, ?_⟩
  · have hu := h.units
    simp [World.setSem]
    omega
  · intro out hout
    obtain ⟨hfinal, -, hret⟩ := h.waited out hout
    exact ⟨hfinal, Nat.succ_pos _, hret⟩

theorem Ordered.take (h : Ordered s) (hu : 2 ≤ s.obj.sem .barrier) (t : T) :
    Ordered ((s.setSem .barrier (s.obj.sem .barrier - 1)).notePassed t) := by
  have hle := h.units
  refine ⟨?_, h.stored, ?_, h.ret, h.waited⟩
  · simp [World.setSem]
    omega
  · intro u _
    simp [World.setSem]
    omega

omit [DecidableEq T] in
theorem Ordered.store (h : Ordered s) (hf : s.final = none) (ret : Ptr) :
    Ordered ((s.modify fun o => { o with ret := ret }).noteFinal ret) := by
  have hposts : ¬ 0 < s.posts := fun hp => h.stored hp hf
  refine ⟨h.units, fun hp => absurd hp hposts, h.passed, ?_, ?_⟩
  · intro v hv
    simpa [hf] using hv
  · intro out hout
    exact absurd (h.waited out hout).2.1 hposts

theorem answer_ordered {e : ThreadOp} {r : ThreadAns e} (h : Ordered s)
    (hs : (joining K.thread).safe (standing K s t) e) (ha : timely s e = true)
    (hx : answer relock P K t c e s = some (r, s')) :
    Ordered s' ∧ (joining K.thread).after (standing K s t) e r (standing K s' t) ∧
      ∀ u, u ≠ t → standing K s' u = standing K s u := by
  have hquiet : Agrees s s' →
      (joining K.thread).after (standing K s t) e r (standing K s t) →
      Ordered s' ∧ (joining K.thread).after (standing K s t) e r (standing K s' t) ∧
        ∀ u, u ≠ t → standing K s' u = standing K s u := by
    intro hg haf
    rw [standing_congr hg t]
    exact ⟨h.congr hg, haf, fun u _ => standing_congr hg u⟩
  cases e with
  | self =>
    cases hx
    exact hquiet ⟨rfl, rfl, rfl, rfl, rfl, rfl⟩ ⟨rfl, standing_own.trans (K.priv_iff t).symm⟩
  | semPost sem =>
    cases sem with
    | joined =>
      cases hx
      exact hquiet ⟨rfl, rfl, rfl, rfl, rfl, rfl⟩ rfl
    | barrier =>
      cases hx
      have ht := standing_own.mp hs.1
      have hf : s.final ≠ none := by simpa [standing, ht] using hs.2
      exact ⟨h.post hf, rfl, fun u _ => rfl⟩
  | semGet sem =>
    cases sem with
    | joined =>
      simp only [answer] at hx
      split_ifs at hx
      cases hx
      exact hquiet ⟨rfl, rfl, rfl, rfl, rfl, rfl⟩ rfl
    | barrier =>
      simp only [answer] at hx
      split_ifs at hx with hpos
      cases hx
      have hne : t ≠ K.target := fun ht => by simp [standing_own.mpr ht, joining] at hs
      -- one of two units, so that one has been posted by the thread
      have hu : 2 ≤ s.obj.sem .barrier := by simpa [timely] using ha
      have ho := h.take hu t
      obtain ⟨v, hv⟩ := Option.ne_none_iff_exists'.mp (ho.stored (ho.passed t (by simp)))
      refine ⟨ho, ⟨v, ?_⟩, fun u hu => ?_⟩
      · have hv' : s.final = some v := hv
        simp [standing, World.setSem, hv', hne]
      · simp [standing, World.setSem, hu]
  | storeRet ret =>
    cases hx
    have ht := standing_own.mp hs
    have hf : s.final = none := by simpa [timely] using ha
    refine ⟨h.store hf ret, ⟨s.final.getD ret, by simp [standing, ht]⟩, fun u hu => ?_⟩
    have hp : u ∉ s.passed := fun hp => h.stored (h.passed u hp) hf
    have hut : u ≠ K.target := fun heq => hu (heq.trans ht.symm)
    simp [standing, hp, hut]
  | loadRet =>
    cases hx
    have hne : t ≠ K.target := fun ht => by simp [standing_own.mpr ht, joining] at hs
    obtain ⟨v, hv⟩ := Option.ne_none_iff_exists'.mp hs.2
    have hf := (h.known_final hne hs.2).2
    refine hquiet ⟨rfl, rfl, rfl, rfl, rfl, rfl⟩ ⟨rfl, ?_⟩
    rw [hv, h.ret v (hf.symm.trans hv)]
  | clearThread thread => exact hs.elim
  | semInit sem value => exact hs.elim
  | muxLock ticks =>
    obtain ⟨q, hq, heq⟩ := Option.map_eq_some_iff.mp hx
    cases heq
    exact hquiet ⟨rfl, rfl, rfl, rfl, rfl, rfl⟩ rfl
  | _ =>
    cases hx
    exact hquiet ⟨rfl, rfl, rfl, rfl, rfl, rfl⟩ rfl

theorem exec_ordered {e : ThreadOp} {r : ThreadAns e} (h : Ordered s)
    (hs : (joining K.thread).safe (standing K s t) e) (ha : timely s e = true)
    (hx : threadExec relock P K t e c s = some (r, s')) :
    Ordered s' ∧ (joining K.thread).after (standing K s t) e r (standing K s' t) ∧
      ∀ u, u ≠ t → standing K s' u = standing K s u := by
  have hg : Agrees s (s.mark K t (touches e)) := ⟨rfl, rfl, rfl, rfl, rfl, rfl⟩
  have ha' : timely (s.mark K t (touches e)) e = true := by
    cases e with
    | semGet sem =>
      cases sem with
      | barrier => exact ha
      | joined => rfl
    | storeRet ret => exact ha
    | _ => rfl
  have ho : Ordered (s.mark K t (touches e)) := h.congr hg
  have hs' : (joining K.thread).safe (standing K (s.mark K t (touches e)) t) e := hs
  have hres := answer_ordered ho hs' ha' hx
  exact hres

/-- What a finished call leaves: a join of another task that returned 0 has the result. -/
def Done (k : ThreadCall) (v : Status × Option Ptr) (l : Standing) : Prop :=
  match k with
  | .runThread => True
  | .pthreadJoin _ => v.1 = .ok →
    l.own = false ∧ l.known ≠ none ∧ ∀ r ∈ v.2, l.known = some r

theorem enter_ordered {mayJoin : World T → Bool} {text : Ptr → Ptr → Routine} {k : ThreadCall}
    (h : Ordered s) (hs : threadEnter K mayJoin t k s = some s') :
    Ordered s' ∧ (threadCode K text k).Obeys (joining K.thread) (standing K s' t) (Done k) ∧
      ∀ u, u ≠ t → standing K s' u = standing K s u := by
  cases k with
  | runThread =>
    simp only [threadEnter] at hs
    split_ifs at hs with ht
    cases hs
    refine ⟨h.congr ⟨rfl, rfl, rfl, rfl, rfl, rfl⟩, ?_, fun _ _ => rfl⟩
    have hl : standing K s.enterRun t = ⟨true, s.final⟩ := by simp [standing, ht.1]
    rw [hl, threadCode, Prog.obeys_bind]
    exact (runThread_obeys text K.thread_ne).mono fun _ _ _ => trivial
  | pthreadJoin retval =>
    simp only [threadEnter] at hs
    split_ifs at hs with ht
    cases hs
    refine ⟨h.congr ⟨rfl, rfl, rfl, rfl, rfl, rfl⟩, ?_, fun _ _ => rfl⟩
    have hl : (standing K (s.enterJoin t) t).own = false := by simp [standing, ht.1]
    cases hst : standing K (s.enterJoin t) t with
    | mk own known =>
      rw [hst] at hl
      subst hl
      exact pthreadJoin_other retval

theorem leave_ordered {k : ThreadCall} {v : Status × Option Ptr} (h : Ordered s)
    (hd : Done k v (standing K s t)) :
    Ordered (threadLeave K t k v s) ∧
      ∀ u, u ≠ t → standing K (threadLeave K t k v s) u = standing K s u := by
  cases k with
  | runThread => exact ⟨h.congr ⟨rfl, rfl, rfl, rfl, rfl, rfl⟩, fun _ _ => rfl⟩
  | pthreadJoin retval =>
    refine ⟨⟨h.units, h.stored, h.passed, h.ret, ?_⟩, fun _ _ => rfl⟩
    intro out hout
    rcases List.mem_cons.mp hout with heq | hold
    · subst heq
      obtain ⟨ho, hk, hr⟩ := hd rfl
      have ht : t ≠ K.target := fun heq => by simp [standing_own.mpr heq] at ho
      obtain ⟨hposts, hfinal⟩ := h.known_final ht hk
      exact ⟨h.stored hposts, hposts, fun r hout => hfinal ▸ hr r hout⟩
    · exact h.waited out hold

end Steps

section Runs
variable {relock : Bool} {P : Platform} {K : Tasks T} {mayJoin : World T → Bool}
  {text : Ptr → Ptr → Routine}

def joinDiscipline (relock : Bool) (P : Platform) (K : Tasks T) (mayJoin : World T → Bool)
    (text : Ptr → Ptr → Routine) :
    Discipline (threadSystem relock P K mayJoin text) Standing where
  toProtocol := joining K.thread
  view := standing K
  inv := Ordered
  allowed s _ e _ := timely s e = true
  between _ _ := True
  post _ k v l := Done k v l
  enter_step h _ hs := enter_ordered h hs
  exec_step h hsafe hok hs := exec_ordered h hsafe hok hs
  leave_step h hp := ⟨(leave_ordered h hp).1, trivial, (leave_ordered h hp).2⟩

theorem created_ordered {attr : Option PthreadAttr} {func arg : Ptr} {s : World T}
    (h : Created relock P K attr func arg s) : Ordered s := by
  obtain ⟨stack, -, rfl⟩ := created_world h
  refine ⟨?_, nofun, nofun, nofun, nofun⟩
  simp only [rawWorld, createdThread]
  split_ifs
  · exact le_rfl
  · exact Nat.zero_le _

theorem joinWait_eval (relock : Bool) (P : Platform) (K : Tasks T) (t : T) (c : Env)
    (retval : Bool) {s : World T} (hu : 0 < s.obj.sem .barrier) :
    ∃ out s', (joinWait K.thread retval).eval (fun e => threadExec relock P K t e c) s =
      some ((.ok, out), s') ∧ s'.posts = s.posts := by
  cases retval with
  | false => simp [joinWait, threadExec, answer, World.setSem, hu]
  | true => simp [joinWait, threadExec, answer, World.setSem, hu]

/-- A join is about to take a unit, and the thread has not posted any. -/
structure Early (K : Tasks T) (t : T)
    (p : Pool T ThreadOp ThreadAns (World T) ThreadCall (Status × Option Ptr)) : Prop where
  waits : ∃ retval, p.thread t = some (.pthreadJoin retval, joinWait K.thread retval)
  unit : 0 < p.shared.obj.sem .barrier
  unposted : p.shared.posts = 0

theorem joinWait_early {t : T}
    {p : Pool T ThreadOp ThreadAns (World T) ThreadCall (Status × Option Ptr)}
    (h : Early K t p) (c : Env) :
    ∃ as p', execute (step (threadSystem relock P K mayJoin text)) p as = some p' ∧
      ¬ Waited p'.shared := by
  obtain ⟨retval, ht⟩ := h.waits
  obtain ⟨out, s, hrun, hposts⟩ := joinWait_eval relock P K t c retval h.unit
  obtain ⟨n, hn⟩ := execute_alone (S := threadSystem relock P K mayJoin text) ht hrun
  have hleave : step (threadSystem relock P K mayJoin text)
      (p.set s t (some (.pthreadJoin retval, .ret (.ok, out)))) (.leave t) =
        some (p.set (threadLeave K t (.pthreadJoin retval) (.ok, out) s) t none) := by
    refine step_leave.mpr ⟨_, _, Pool.set_thread_self _ _ _ _, ?_⟩
    rw [Pool.set_set]
    rfl
  have hall := execute_append.mpr ⟨_, hn, execute_cons.mpr ⟨_, hleave, execute_nil _⟩⟩
  refine ⟨_, _, hall, fun hw => ?_⟩
  have hlate := (hw out List.mem_cons_self).2.1
  simp [threadLeave, hposts, h.unposted] at hlate

/-- In every run of a created thread and of the joins on it in which no join takes the unit
the barrier starts with and the result is stored once, every join that returned 0 has waited
for the thread. A run in which a join gets to the barrier before the thread's post and finds a
unit there goes on to one in which it has not. -/
theorem pthreadJoin_waited {attr : Option PthreadAttr} {func arg : Ptr} {s : World T}
    (h : Created relock P K attr func arg s) :
    (∀ as, Meets (step (threadSystem relock P K mayJoin text))
        (Allowed fun s _ e _ => timely s e = true) (idlePool s) as →
      Throughout (step (threadSystem relock P K mayJoin text)) (fun p => Waited p.shared)
        (idlePool s) as) ∧
    ∀ as p t, execute (step (threadSystem relock P K mayJoin text)) (idlePool s) as = some p →
      Early K t p → ∃ bs, ¬ Throughout (step (threadSystem relock P K mayJoin text))
        (fun p => Waited p.shared) (idlePool s) (as ++ bs) := by
  constructor
  · intro as hok
    have h0 : (joinDiscipline relock P K mayJoin text).Inv (idlePool s) :=
      Discipline.idle_inv _ (created_ordered h) fun _ => trivial
    exact h0.throughout hok fun _ hi => hi.shared.waited
  · intro as p t hrun hearly
    obtain ⟨bs, p', hrun', hbad⟩ : ∃ bs p',
        execute (step (threadSystem relock P K mayJoin text)) p bs = some p' ∧
          ¬ Waited p'.shared := joinWait_early hearly ⟨true, none, none, true, 0⟩
    exact ⟨bs, fun ht => hbad (ht.last (execute_append.mpr ⟨p, hrun, hrun'⟩))⟩

end Runs

section Schedules

def twoTasks : Tasks Bool where
  thread := 64
  target := true
  priv t := if t = true then 64 else 0
  thread_ne := by decide
  priv_iff := by decide

def ready : Env := ⟨true, some 64, some 128, true, 0⟩

def newThread : World Bool := rawWorld (createdThread platform1000 none 0 0 (some 128))

def returnSeven : Ptr → Ptr → Routine := fun _ _ => .ret 7

def twoSystem : ThreadSystem Bool := threadSystem true platform1000 twoTasks joinOnce returnSeven

def threadSteps (n : ℕ) : List (Action Bool Env ThreadCall) :=
  .enter true .runThread :: List.replicate n (.run true ready) ++ [.leave true]

def joinSteps : List (Action Bool Env ThreadCall) :=
  .enter false (.pthreadJoin true) :: List.replicate 10 (.run false ready) ++ [.leave false]

theorem newThread_created : Created true platform1000 twoTasks none 0 0 newThread :=
  created_of_blocks false ready none 0 0 rfl rfl rfl rfl

/-- The join follows the thread, or gets to the barrier before it. -/
theorem pthreadJoin_waited_seven :
    (∃ p, execute (step twoSystem) (idlePool newThread) (threadSteps 8 ++ joinSteps) = some p ∧
      p.shared.results = [(.ok, some 7)] ∧
        Throughout (step twoSystem) (fun p => Waited p.shared) (idlePool newThread)
          (threadSteps 8 ++ joinSteps)) ∧
    ∃ bs, ¬ Throughout (step twoSystem) (fun p => Waited p.shared) (idlePool newThread)
      (joinSteps.take 4 ++ bs) := by
  have hcreated := newThread_created
  constructor
  · have hout : (execute (step twoSystem) (idlePool newThread)
        (threadSteps 8 ++ joinSteps)).map (fun p => p.shared.results) =
          some [(.ok, some 7)] := by
      decide +kernel
    obtain ⟨p, hrun, hp⟩ := Option.map_eq_some_iff.mp hout
    exact ⟨p, hrun, hp, (pthreadJoin_waited hcreated).1 _ (by decide +kernel)⟩
  · exact (pthreadJoin_waited hcreated).2 _ _ false rfl ⟨⟨true, rfl⟩, by decide, rfl⟩

/-- The join comes first: it returns 0 and a result that the thread has not got yet. -/
theorem pthreadJoin_overtakes :
    ∃ p, execute (step twoSystem) (idlePool newThread) joinSteps = some p ∧
      p.shared.results = [(.ok, some 0)] ∧ p.shared.final = none ∧ p.shared.posts = 0 ∧
        ¬ Throughout (step twoSystem) (fun p => Waited p.shared) (idlePool newThread)
          joinSteps := by
  have hout : (execute (step twoSystem) (idlePool newThread) joinSteps).map
      (fun p => (p.shared.results, p.shared.final, p.shared.posts)) =
        some ([(.ok, some 0)], none, 0) := by
    decide +kernel
  obtain ⟨p, hrun, hp⟩ := Option.map_eq_some_iff.mp hout
  simp only [Prod.mk.injEq] at hp
  obtain ⟨hresults, hfinal, hposts⟩ := hp
  refine ⟨p, hrun, hresults, hfinal, hposts, fun ht => ?_⟩
  exact (ht.last hrun (some 0) (by simp [hresults])).1 hfinal

end Schedules

end LibPosix.PthreadJoin
