import LibPosix.PthreadJoin

/-! When the blocks of a thread may be freed. Neither `exit_thread` nor `pthread_join` waits
until the thread has taken its last step; where one of them comes after it by luck, the
blocks are freed once and never used again. -/
namespace LibPosix.PthreadReclaim
open Program ThreadPool Transition Kernel Pthread PthreadRun PthreadJoin
variable {T : Type} [DecidableEq T]

/-- Both blocks are freed at most once, and nothing has used them after that. -/
def Reclaimed (K : Tasks T) (s : World T) : Prop :=
  s.frees.count (.POSIX_STACK, s.obj.stack) ≤ 1 ∧
    s.frees.count (.POSIX_THREAD, some K.thread) ≤ 1 ∧ s.misuse = false

/-- Blocks are freed by a join, when the thread has returned. -/
def orderly (K : Tasks T) (s : World T) (t : T) : ThreadOp → Bool
  | .free .. => t ≠ K.target && s.finished
  | _ => true

/-- Whether this is the thread itself and it runs, or a task that joins it and has made these
calls of the free function. -/
structure Stage where
  own : Bool
  active : Bool
  joins : Bool
  frees : List (PosixObj × Option Ptr)

def stage (K : Tasks T) (s : World T) (t : T) : Stage :=
  ⟨t = K.target, decide (t = K.target) && s.started && !s.finished, t ∈ s.joiners,
    if t ∈ s.joiners then s.frees else []⟩

def reclaiming (thread : Ptr) : Protocol ThreadOp ThreadAns Stage where
  safe l e :=
    (l.own = true → l.active = true) ∧ (l.own = false → l.joins = true) ∧
      (touches e = true → l.frees = []) ∧ match e with
    | .semGet .barrier => l.own = false
    | .free type p => l.own = false → (type, p) ∉ l.frees
    | _ => True
  after l e r l' := match e, r with
    | .free type p, _ => l.own = false ∧ l' = { l with frees := l.frees ++ [(type, p)] }
    | .self, r => l' = l ∧ (l.own = true ↔ r = thread)
    | _, _ => l' = l

section Programs
variable {thread : Ptr}

def running : Stage := ⟨true, true, false, []⟩

theorem exitThread_reclaims :
    exitThread.Obeys (reclaiming thread) running fun _ l => l = running := by
  simp [exitThread, reclaiming, running]

theorem pthreadExit_reclaims (valuePtr : Ptr) :
    (pthreadExit valuePtr).Obeys (reclaiming thread) running
      fun _ l => l = running := by
  simp only [pthreadExit, Prog.obeys_bind, Prog.obeys_request]
  refine ⟨by simp [reclaiming, running], fun self l hl => ?_⟩
  obtain ⟨rfl, -⟩ := hl
  refine ⟨by simp [reclaiming, running], fun _ l hl => ?_⟩
  obtain rfl : l = running := hl
  apply exitThread_reclaims.mono
  intro _ l hl
  subst hl
  exact ⟨by simp [reclaiming, running], fun _ l hl => hl⟩

theorem pthreadJoin_self_reclaims (retval : Bool) (hn : thread ≠ 0) :
    (pthreadJoin thread retval).Obeys (reclaiming thread) running
      fun _ l => l = running := by
  simp [pthreadJoin, reclaiming, running, pthreadEqual, hn]

theorem pthreadJoin_reclaims (retval : Bool) :
    (pthreadJoin thread retval).Obeys (reclaiming thread) ⟨false, false, true, []⟩
      fun _ l => l.own = false ∧ l.joins = true := by
  cases retval with
  | false => simp [pthreadJoin, joinWait, reclaiming, pthreadEqual]
  | true => simp [pthreadJoin, joinWait, reclaiming, pthreadEqual]

theorem onThread_reclaims (hn : thread ≠ 0) (e : RoutineOp) {l : Stage} (hl : l = running) :
    (onThread e).Obeys (reclaiming thread) l fun _ l => l = running := by
  subst hl
  cases e with
  | work => simp [onThread, reclaiming, running]
  | exit valuePtr => exact pthreadExit_reclaims valuePtr
  | joinSelf retval =>
    simp only [onThread, Prog.obeys_bind, Prog.obeys_request]
    refine ⟨by simp [reclaiming, running], fun r l hl => ?_⟩
    obtain ⟨rfl, hr⟩ := hl
    obtain rfl : r = thread := hr.mp rfl
    exact pthreadJoin_self_reclaims retval hn

theorem runThread_reclaims (text : Ptr → Ptr → Routine) (hn : thread ≠ 0) :
    (runThread text).Obeys (reclaiming thread) running
      fun _ l => l = running := by
  simp only [runThread, Prog.obeys_bind, Prog.obeys_request]
  refine ⟨by simp [reclaiming, running], fun func l hl => ?_⟩
  obtain rfl : l = running := hl
  refine ⟨by simp [reclaiming, running], fun arg l hl => ?_⟩
  obtain rfl : l = running := hl
  apply (Prog.obeys_interp (fun e l hl => onThread_reclaims hn e hl) (text func arg) rfl).mono
  rintro ret l rfl
  refine ⟨by simp [reclaiming, running], fun _ l hl => ?_⟩
  obtain rfl : l = running := hl
  exact exitThread_reclaims

end Programs

/-- There is one joining task at most, and it frees blocks when the thread has returned. -/
structure Intact (K : Tasks T) (s : World T) : Prop where
  started : s.finished = true → s.started = true
  single : ∀ t ∈ s.joiners, s.joiners = {t} ∧ t ≠ K.target
  freed : s.frees ≠ [] → s.finished = true ∧ s.joiners ≠ ∅
  nodup : s.frees.Nodup
  used : s.misuse = false

section Steps
variable {relock : Bool} {P : Platform} {K : Tasks T} {s s' : World T} {t : T} {c : Env}

theorem stage_own : (stage K s t).own = true ↔ t = K.target := by
  simp [stage]

theorem Intact.mark (h : Intact K s) {touch : Bool}
    (hrun : (stage K s t).own = true → (stage K s t).active = true)
    (hjoin : (stage K s t).own = false → (stage K s t).joins = true)
    (htouch : touch = true → (stage K s t).frees = []) : s.mark K t touch = s := by
  have hown : t = K.target → s.frees = [] := by
    intro ht
    by_contra hf
    have hactive := hrun (stage_own.mpr ht)
    simp [stage, (h.freed hf).1] at hactive
  have hother : touch = true → s.threadFreed K = false := by
    intro ht
    by_cases htarget : t = K.target
    · simp [World.threadFreed, hown htarget]
    · have hjoins := hjoin (by simp [stage, htarget])
      have hmem : t ∈ s.joiners := by simpa [stage] using hjoins
      have hfrees := htouch ht
      simp only [stage, if_pos hmem] at hfrees
      simp [World.threadFreed, hfrees]
  have hmark : (s.mark K t touch).misuse = s.misuse := by
    have hstep : (decide (t = K.target) && (s.stackFreed || s.threadFreed K)) = false := by
      by_cases ht : t = K.target
      · simp [World.stackFreed, World.threadFreed, hown ht]
      · simp [ht]
    cases touch with
    | false => rw [World.mark_misuse, hstep, Bool.or_false, Bool.false_and, Bool.or_false]
    | true => rw [World.mark_misuse, hstep, hother rfl, Bool.or_false, Bool.and_false, Bool.or_false]
  calc s.mark K t touch = { s with misuse := (s.mark K t touch).misuse } := rfl
    _ = { s with misuse := s.misuse } := by rw [hmark]
    _ = s := rfl

structure Untouched (s s' : World T) : Prop where
  started : s'.started = s.started
  finished : s'.finished = s.finished
  joiners : s'.joiners = s.joiners
  frees : s'.frees = s.frees
  misuse : s'.misuse = s.misuse

omit [DecidableEq T] in
theorem Intact.congr (h : Intact K s) (hu : Untouched s s') : Intact K s' := by
  obtain ⟨hstarted, hfinished, hjoiners, hfrees, hmisuse⟩ := hu
  refine ⟨?_, ?_, ?_, ?_, ?_⟩
  · rw [hstarted, hfinished]
    exact h.started
  · rw [hjoiners]
    exact h.single
  · rw [hfrees, hfinished, hjoiners]
    exact h.freed
  · rw [hfrees]
    exact h.nodup
  · rw [hmisuse]
    exact h.used

theorem stage_congr (hu : Untouched s s') (u : T) : stage K s' u = stage K s u := by
  simp only [stage, hu.started, hu.finished, hu.joiners, hu.frees]

theorem answer_intact {e : ThreadOp} {r : ThreadAns e} (h : Intact K s)
    (hs : (reclaiming K.thread).safe (stage K s t) e) (ha : orderly K s t e = true)
    (hx : answer relock P K t c e s = some (r, s')) :
    Intact K s' ∧ (reclaiming K.thread).after (stage K s t) e r (stage K s' t) ∧
      ∀ u, u ≠ t → stage K s' u = stage K s u := by
  have hquiet : Untouched s s' →
      (reclaiming K.thread).after (stage K s t) e r (stage K s t) →
      Intact K s' ∧ (reclaiming K.thread).after (stage K s t) e r (stage K s' t) ∧
        ∀ u, u ≠ t → stage K s' u = stage K s u := by
    intro hu haf
    rw [stage_congr hu t]
    exact ⟨h.congr hu, haf, fun u _ => stage_congr hu u⟩
  cases e with
  | self =>
    cases hx
    exact hquiet ⟨rfl, rfl, rfl, rfl, rfl⟩ ⟨rfl, stage_own.trans (K.priv_iff t).symm⟩
  | semPost sem =>
    cases sem with
    | joined =>
      cases hx
      exact hquiet ⟨rfl, rfl, rfl, rfl, rfl⟩ rfl
    | barrier =>
      cases hx
      exact hquiet ⟨rfl, rfl, rfl, rfl, rfl⟩ rfl
  | semGet sem =>
    cases sem with
    | joined =>
      simp only [answer] at hx
      split_ifs at hx
      cases hx
      exact hquiet ⟨rfl, rfl, rfl, rfl, rfl⟩ rfl
    | barrier =>
      simp only [answer] at hx
      split_ifs at hx
      cases hx
      exact hquiet ⟨rfl, rfl, rfl, rfl, rfl⟩ rfl
  | free type p =>
    cases hx
    obtain ⟨hne, hfin⟩ : t ≠ K.target ∧ s.finished = true := by simpa [orderly] using ha
    have hown : (stage K s t).own = false := by simp [stage, hne]
    obtain ⟨-, hjoins, -, hfree⟩ := hs
    have hmem : t ∈ s.joiners := by simpa [stage] using hjoins hown
    have hnew : (type, p) ∉ s.frees := by simpa [stage, hmem] using hfree hown
    refine ⟨⟨h.started, h.single, fun _ => ⟨hfin, ?_⟩, ?_, h.used⟩, ⟨hown, ?_⟩, fun u hu => ?_⟩
    · exact Finset.ne_empty_of_mem hmem
    · simpa using h.nodup.concat hnew
    · simp [stage, hmem]
    · have hu' : u ∉ s.joiners := by
        rw [(h.single t hmem).1]
        simpa using hu
      simp [stage, hu']
  | clearThread thread =>
    obtain ⟨q, hq, heq⟩ := Option.map_eq_some_iff.mp hx
    cases heq
    exact hquiet ⟨rfl, rfl, rfl, rfl, rfl⟩ rfl
  | muxLock ticks =>
    obtain ⟨q, hq, heq⟩ := Option.map_eq_some_iff.mp hx
    cases heq
    exact hquiet ⟨rfl, rfl, rfl, rfl, rfl⟩ rfl
  | _ =>
    cases hx
    exact hquiet ⟨rfl, rfl, rfl, rfl, rfl⟩ rfl

theorem exec_intact {e : ThreadOp} {r : ThreadAns e} (h : Intact K s)
    (hs : (reclaiming K.thread).safe (stage K s t) e) (ha : orderly K s t e = true)
    (hx : threadExec relock P K t e c s = some (r, s')) :
    Intact K s' ∧ (reclaiming K.thread).after (stage K s t) e r (stage K s' t) ∧
      ∀ u, u ≠ t → stage K s' u = stage K s u := by
  rw [threadExec, h.mark hs.1 hs.2.1 hs.2.2.1] at hx
  exact answer_intact h hs ha hx

def Over (k : ThreadCall) (l : Stage) : Prop :=
  match k with
  | .runThread => l.own = true ∧ l.active = true
  | .pthreadJoin _ => l.own = false ∧ l.joins = true

theorem enter_intact {text : Ptr → Ptr → Routine} {k : ThreadCall} (h : Intact K s)
    (hs : threadEnter K joinOnce t k s = some s') :
    Intact K s' ∧ (threadCode K text k).Obeys (reclaiming K.thread) (stage K s' t)
        (fun _ l => Over k l) ∧ ∀ u, u ≠ t → stage K s' u = stage K s u := by
  cases k with
  | runThread =>
    simp only [threadEnter] at hs
    split_ifs at hs with ht
    cases hs
    obtain ⟨rfl, hnew⟩ := ht
    have hfin : s.finished = false := by
      by_contra hf
      simp [h.started (by simpa using hf)] at hnew
    have hmem : K.target ∉ s.joiners := fun hm => (h.single _ hm).2 rfl
    have hstage : stage K s.enterRun K.target = running := by
      simp [stage, running, hfin, hmem]
    refine ⟨⟨fun _ => rfl, h.single, h.freed, h.nodup, h.used⟩, ?_, fun u hu => ?_⟩
    · rw [hstage, threadCode, Prog.obeys_bind]
      apply (runThread_reclaims text K.thread_ne).mono
      rintro _ l rfl
      exact ⟨rfl, rfl⟩
    · simp [stage, hu]
  | pthreadJoin retval =>
    simp only [threadEnter, joinOnce, decide_eq_true_eq] at hs
    split_ifs at hs with ht
    cases hs
    obtain ⟨hne, hnone⟩ := ht
    have hfrees : s.frees = [] := by
      by_contra hf
      exact (h.freed hf).2 hnone
    have hstage : stage K (s.enterJoin t) t = ⟨false, false, true, []⟩ := by
      simp [stage, hne, hfrees]
    refine ⟨⟨h.started, ?_, ?_, h.nodup, h.used⟩, ?_, fun u hu => ?_⟩
    · intro u hu
      simp only [World.enterJoin_joiners, hnone] at hu ⊢
      obtain rfl : u = t := by simpa using hu
      exact ⟨by simp, hne⟩
    · exact fun hf => absurd hfrees hf
    · rw [hstage]
      exact pthreadJoin_reclaims retval
    · simp [stage, hnone, hu]

theorem leave_intact {k : ThreadCall} {v : Status × Option Ptr} (h : Intact K s)
    (ho : Over k (stage K s t)) :
    Intact K (threadLeave K t k v s) ∧
      ∀ u, u ≠ t → stage K (threadLeave K t k v s) u = stage K s u := by
  cases k with
  | runThread =>
    obtain ⟨hown, hactive⟩ := ho
    have ht := stage_own.mp hown
    have hrun : s.started = true ∧ s.finished = false := by simpa [stage, ht] using hactive
    have hmark : s.mark K t false = s :=
      h.mark (fun _ => hactive) (fun hn => by simp [hown] at hn) nofun
    rw [threadLeave, hmark]
    refine ⟨⟨fun _ => hrun.1, h.single, ?_, h.nodup, h.used⟩, fun u hu => ?_⟩
    · exact fun hf => ⟨rfl, (h.freed hf).2⟩
    · have hut : u ≠ K.target := fun heq => hu (heq.trans ht.symm)
      simp [stage, hut]
  | pthreadJoin retval =>
    obtain ⟨hown, hjoins⟩ := ho
    have hmark : s.mark K t false = s :=
      h.mark (fun hn => by simp [hown] at hn) (fun _ => hjoins) nofun
    rw [threadLeave, hmark]
    exact ⟨⟨h.started, h.single, h.freed, h.nodup, h.used⟩, fun _ _ => rfl⟩

omit [DecidableEq T] in
theorem Intact.reclaimed (h : Intact K s) : Reclaimed K s :=
  ⟨List.nodup_iff_count_le_one.mp h.nodup _, List.nodup_iff_count_le_one.mp h.nodup _, h.used⟩

end Steps

section Runs
variable {relock : Bool} {P : Platform} {K : Tasks T} {text : Ptr → Ptr → Routine}

def reclaimDiscipline (relock : Bool) (P : Platform) (K : Tasks T)
    (text : Ptr → Ptr → Routine) :
    Discipline (threadSystem relock P K joinOnce text) Stage where
  toProtocol := reclaiming K.thread
  view := stage K
  inv := Intact K
  allowed s t e _ := orderly K s t e = true
  between _ _ := True
  post _ k _ l := Over k l
  enter_step h _ hs := enter_intact h hs
  exec_step h hsafe hok hs := exec_intact h hsafe hok hs
  leave_step h hp := ⟨(leave_intact h hp).1, trivial, (leave_intact h hp).2⟩

theorem created_intact {attr : Option PthreadAttr} {func arg : Ptr} {s : World T}
    (h : Created relock P K attr func arg s) : Intact K s := by
  obtain ⟨stack, -, rfl⟩ := created_world h
  exact ⟨nofun, nofun, fun hf => absurd rfl hf, List.nodup_nil, rfl⟩

theorem answer_misuse {t : T} {c : Env} {e : ThreadOp} {r : ThreadAns e} {s s' : World T}
    (hx : answer relock P K t c e s = some (r, s')) : s'.misuse = s.misuse := by
  cases e with
  | clearThread thread =>
    obtain ⟨q, hq, heq⟩ := Option.map_eq_some_iff.mp hx
    cases heq
    rfl
  | muxLock ticks =>
    obtain ⟨q, hq, heq⟩ := Option.map_eq_some_iff.mp hx
    cases heq
    rfl
  | semPost sem =>
    cases sem with
    | barrier =>
      cases hx
      rfl
    | joined =>
      cases hx
      rfl
  | semGet sem =>
    cases sem with
    | barrier =>
      simp only [answer] at hx
      split_ifs at hx
      cases hx
      rfl
    | joined =>
      simp only [answer] at hx
      split_ifs at hx
      cases hx
      rfl
  | _ =>
    cases hx
    rfl

/-- Once its stack is freed, whatever the thread does is misuse. -/
theorem threadExec_late {e : ThreadOp} {c : Env} {r : ThreadAns e} {s s' : World T}
    (hf : s.stackFreed = true) (hx : threadExec relock P K K.target e c s = some (r, s')) :
    s'.misuse = true := by
  rw [answer_misuse hx]
  simp [hf]

/-- In every run of a created thread, joinable or not, and of at most one join on it, in which
the blocks are freed by the join and after the thread has returned, they are reclaimed properly.
In any run, whatever the thread asks for once its stack has been freed is a misuse. -/
theorem pthread_reclaimed {attr : Option PthreadAttr} {func arg : Ptr} {s : World T}
    (h : Created relock P K attr func arg s) :
    (∀ as, Meets (step (threadSystem relock P K joinOnce text))
        (Allowed fun s t e _ => orderly K s t e = true) (idlePool s) as →
      Throughout (step (threadSystem relock P K joinOnce text)) (fun p => Reclaimed K p.shared)
        (idlePool s) as) ∧
    ∀ as p c p', execute (step (threadSystem relock P K joinOnce text)) (idlePool s) as =
        some p → p.shared.stackFreed = true →
      step (threadSystem relock P K joinOnce text) p (.run K.target c) = some p' →
      ¬ Throughout (step (threadSystem relock P K joinOnce text)) (fun p => Reclaimed K p.shared)
        (idlePool s) (as ++ [.run K.target c]) := by
  constructor
  · intro as hok
    have h0 : (reclaimDiscipline relock P K text).Inv (idlePool s) :=
      Discipline.idle_inv _ (created_intact h) fun _ => trivial
    exact h0.throughout hok fun _ hi => hi.shared.reclaimed
  · intro as p c p' hrun hfreed hstep hthroughout
    obtain ⟨k, e, f, -, r, s', hexec, rfl⟩ := step_run.mp hstep
    have hmisuse : s'.misuse = true := threadExec_late hfreed hexec
    have hlast := hthroughout.last
      (execute_append.mpr ⟨p, hrun, execute_cons.mpr ⟨_, hstep, execute_nil _⟩⟩)
    exact absurd hlast.2.2 (by simp [hmisuse])

end Runs

/-- The join frees the blocks after the thread has returned, or before it takes a step. -/
theorem pthread_reclaimed_seven :
    (∃ p, execute (step twoSystem) (idlePool newThread) (threadSteps 8 ++ joinSteps) = some p ∧
      p.shared.frees = [(.POSIX_STACK, some 128), (.POSIX_THREAD, some 64)] ∧
        Throughout (step twoSystem) (fun p => Reclaimed twoTasks p.shared) (idlePool newThread)
          (threadSteps 8 ++ joinSteps)) ∧
    ¬ Throughout (step twoSystem) (fun p => Reclaimed twoTasks p.shared) (idlePool newThread)
      (joinSteps ++ [.enter true .runThread] ++ [.run true ready]) := by
  have hcreated := newThread_created
  constructor
  · have hout : (execute (step twoSystem) (idlePool newThread)
        (threadSteps 8 ++ joinSteps)).map (fun p => p.shared.frees) =
          some [(.POSIX_STACK, some 128), (.POSIX_THREAD, some 64)] := by
      decide +kernel
    obtain ⟨p, hrun, hp⟩ := Option.map_eq_some_iff.mp hout
    exact ⟨p, hrun, hp, (pthread_reclaimed hcreated).1 _ (by decide +kernel)⟩
  · obtain ⟨p, p', hrun, hfreed, hstep⟩ : ∃ p p',
        execute (step twoSystem) (idlePool newThread) (joinSteps ++ [.enter true .runThread]) =
          some p ∧ p.shared.stackFreed = true ∧ step twoSystem p (.run true ready) = some p' :=
      ⟨_, _, rfl, rfl, rfl⟩
    exact (pthread_reclaimed hcreated).2 _ p ready p' hrun hfreed hstep

/-- The thread is still in `exit_thread` when the join frees its blocks. -/
theorem pthreadJoin_frees_early :
    ∃ p, execute (step twoSystem) (idlePool newThread)
        (.enter true .runThread :: List.replicate 6 (.run true ready) ++ joinSteps ++
          [.run true ready]) = some p ∧
      p.shared.frees = [(.POSIX_STACK, some 128), (.POSIX_THREAD, some 64)] ∧
        ¬ Throughout (step twoSystem) (fun p => Reclaimed twoTasks p.shared) (idlePool newThread)
          (.enter true .runThread :: List.replicate 6 (.run true ready) ++ joinSteps ++
            [.run true ready]) := by
  have hout : (execute (step twoSystem) (idlePool newThread)
      (.enter true .runThread :: List.replicate 6 (.run true ready) ++ joinSteps ++
        [.run true ready])).map (fun p => (p.shared.frees, p.shared.misuse)) =
          some ([(.POSIX_STACK, some 128), (.POSIX_THREAD, some 64)], true) := by
    decide +kernel
  obtain ⟨p, hrun, hp⟩ := Option.map_eq_some_iff.mp hout
  obtain ⟨hfrees, hmisuse⟩ := Prod.mk.inj hp
  refine ⟨p, hrun, hfrees, fun ht => ?_⟩
  have hfine := (ht.last hrun).2.2
  simp [hmisuse] at hfine

end LibPosix.PthreadReclaim
