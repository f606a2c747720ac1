import LibPosix.PthreadJoin

/-! Refused joins. Any tasks, the thread itself among them, make calls of `pthread_join` on a
joinable thread that may have come to its end; for each of them it is noted what its latest
attempt has done to the objects a later one relies on. -/
namespace LibPosix.JoinRefusals
open Program ThreadPool Transition Kernel Pthread PthreadRun
open PthreadJoin (ready)
variable {T : Type} [DecidableEq T]

/-- Whether the steps of an attempt have changed the mutex or a semaphore of the thread, and
whether another attempt was in progress when this one tried the mutex. -/
structure AttemptNote where
  changed : Bool
  company : Bool
  deriving DecidableEq, Repr

structure Attempts (T : Type) where
  world : World T
  inside : Finset T
  note : T → AttemptNote

def SameSync (w w' : World T) : Prop :=
  w'.obj.mux = w.obj.mux ∧ w'.obj.sem .barrier = w.obj.sem .barrier ∧
    w'.obj.sem .joined = w.obj.sem .joined

instance (w w' : World T) : Decidable (SameSync w w') := inferInstanceAs (Decidable (_ ∧ _))

def isLock : ThreadOp → Bool
  | .muxLock _ => true
  | _ => false

inductive JoinCall where
  | exit (valuePtr : Ptr)
  | join (retval : Bool)
  deriving DecidableEq, Repr

def joinCode (K : Tasks T) : JoinCall → Prog ThreadOp ThreadAns (Status × Option Ptr)
  | .exit valuePtr => do
    pthreadExit valuePtr
    return (.ok, none)
  | .join retval => pthreadJoin K.thread retval

def Attempts.noted (s : Attempts T) (t : T) (e : ThreadOp) (w : World T) : AttemptNote :=
  ⟨(s.note t).changed || !decide (SameSync s.world w),
    if isLock e = true then decide (s.inside.erase t ≠ ∅) else (s.note t).company⟩

def Attempts.record (s : Attempts T) (t : T) (e : ThreadOp) (w : World T) : Attempts T :=
  { s with world := w, note := Function.update s.note t (s.noted t e w) }

/-- No join starts once one of them has returned 0. -/
def joinEnter (K : Tasks T) (t : T) : JoinCall → Attempts T → Option (Attempts T)
  | .exit _, s => if t = K.target then some s else none
  | .join _, s =>
    if ∀ r ∈ s.world.results, r.1 ≠ .ok then
      some { s with
        inside := insert t s.inside
        note := Function.update s.note t ⟨false, false⟩ }
    else none

def joinLeave (K : Tasks T) (t : T) : JoinCall → Status × Option Ptr → Attempts T → Attempts T
  | .exit _, _, s => { s with world := s.world.mark K t false }
  | .join _, v, s =>
    { s with world := (s.world.mark K t false).leaveJoin v, inside := s.inside.erase t }

def joinSystem (relock : Bool) (P : Platform) (K : Tasks T) :
    System T ThreadOp ThreadAns Env (Attempts T) JoinCall (Status × Option Ptr) where
  code _ k := joinCode K k
  exec t e c s := (threadExec relock P K t e c s.world).map fun r => (r.1, s.record t e r.2)
  enter := joinEnter K
  leave := joinLeave K

abbrev JoinPool (T : Type) :=
  Pool T ThreadOp ThreadAns (Attempts T) JoinCall (Status × Option Ptr)

def joinStart (w : World T) : Attempts T := ⟨w, ∅, fun _ => ⟨false, false⟩⟩

def okCount (w : World T) : ℕ := w.results.countP fun r => r.1 = .ok

/-- What a refusal means and to whom it may happen. -/
structure Refusals (K : Tasks T) (p : JoinPool T) : Prop where
  unchanged : ∀ t retval v, p.outcome t = some (.join retval, v) → v.1 = .EDEADLK →
    (p.shared.note t).changed = false
  once : okCount p.shared.world ≤ 1
  admitted : ∀ t retval v, p.outcome t = some (.join retval, v) → t ≠ K.target →
    (p.shared.note t).company = false → v.1 = .ok

/-- When a join finds the mutex free it is made by another task, and no join has got through the
barrier before. -/
def Guarded (K : Tasks T) (s : Attempts T) (t : T) (e : ThreadOp) (_ : Env) : Prop :=
  isLock e = true → s.world.obj.mux.own = none → t ≠ K.target ∧ s.world.passed = ∅

instance (K : Tasks T) (s : Attempts T) (t : T) (e : ThreadOp) (c : Env) :
    Decidable (Guarded K s t e c) := inferInstanceAs (Decidable (_ → _ → _))

/-- What a task knows: whether it is the thread itself, holds the mutex, has got through the
barrier and is inside a join, and its own note. -/
structure Standing where
  own : Bool
  holds : Bool
  through : Bool
  inside : Bool
  note : AttemptNote

def standing (K : Tasks T) (s : Attempts T) (t : T) : Standing :=
  ⟨t = K.target, s.world.obj.mux.own = some t, t ∈ s.world.passed, t ∈ s.inside, s.note t⟩

def quiet : ThreadOp → Bool
  | .clearThread _ => false
  | .storeAttr _ => false
  | .mutInit => false
  | .semInit .. => false
  | .muxLock _ => false
  | .muxUnlock => false
  | .semPost _ => false
  | .semGet _ => false
  | _ => true

/-- A mutex that cannot be had leaves nothing changed and tells of company; whoever has it is
another task, gets through the barrier once and then gives it back. -/
def attempting (thread : Ptr) : Protocol ThreadOp ThreadAns Standing where
  safe
    | l, .muxLock _ => l.inside = true ∧ l.holds = false
    | l, .muxUnlock => l.holds = true
    | l, .semGet .barrier => l.holds = true ∧ l.through = false ∧ l.inside = true
    | _, .semGet .joined => True
    | _, .semPost _ => True
    | _, e => quiet e = true
  after
    | l, .loadAttr, r, l' => statusJoinable r.status = true ∧ l' = l
    | l, .self, r, l' => (r = thread ↔ l.own = true) ∧ l' = l
    | l, .muxLock _, true, l' =>
      l.own = false ∧ ∃ n, l' = { l with holds := true, through := false, note := n }
    | l, .muxLock _, false, l' => l' = { l with note := ⟨l.note.changed, true⟩ }
    | l, .muxUnlock, _, l' => ∃ n, l' = { l with holds := false, note := n }
    | l, .semGet .barrier, _, l' => ∃ n, l' = { l with through := true, note := n }
    | l, .semGet .joined, _, l' => ∃ n, l' = { l with note := n }
    | l, .semPost _, _, l' => ∃ n, l' = { l with note := n }
    | l, _, _, l' => l' = l

structure Answered (v : Status × Option Ptr) (l : Standing) : Prop where
  holds : l.holds = false
  inside : l.inside = true
  refused : v.1 ≠ .ok → l.note = ⟨false, true⟩
  joined : v.1 = .ok → l.through = true

section Programs
variable {thread : Ptr} {l : Standing}

theorem exitThread_attempts : exitThread.Obeys (attempting thread) l fun _ l' =>
    ∃ n, l' = { l with note := n } := by
  obtain ⟨own, holds, through, inside, note⟩ := l
  simp only [exitThread, Prog.obeys_bind, Prog.obeys_request, Prog.obeys_ite]
  refine ⟨rfl, ?_⟩
  intro self l hl
  obtain ⟨-, rfl⟩ := hl
  refine ⟨rfl, ?_⟩
  intro attr l hl
  obtain ⟨hjoinable, rfl⟩ := hl
  constructor
  · intro _
    refine ⟨trivial, ?_⟩
    intro _ l hl
    obtain ⟨n, rfl⟩ := hl
    refine ⟨trivial, ?_⟩
    intro _ l hl
    obtain ⟨m, rfl⟩ := hl
    refine ⟨rfl, ?_⟩
    intro _ l hl
    cases hl
    exact ⟨m, rfl⟩
  · intro hn
    exact absurd hjoinable hn

theorem pthreadExit_attempts (valuePtr : Ptr) :
    (pthreadExit valuePtr).Obeys (attempting thread) l fun _ l' =>
      ∃ n, l' = { l with note := n } := by
  simp only [pthreadExit, Prog.obeys_bind, Prog.obeys_request]
  refine ⟨rfl, ?_⟩
  intro self l1 hl
  obtain ⟨-, rfl⟩ := hl
  refine ⟨rfl, ?_⟩
  intro _ l2 hl
  cases hl
  apply exitThread_attempts.mono
  intro _ l3 hl
  refine ⟨rfl, ?_⟩
  intro _ l4 hl4
  cases hl4
  exact hl

theorem joinWait_attempts (retval : Bool) {own : Bool} {note : AttemptNote} :
    (joinWait thread retval).Obeys (attempting thread) ⟨own, true, false, true, note⟩ Answered := by
  simp only [joinWait, Prog.obeys_bind, Prog.obeys_request, Prog.obeys_ite, Prog.pure_eq,
    Prog.obeys_ret]
  refine ⟨⟨rfl, rfl, rfl⟩, ?_⟩
  intro _ l hl
  obtain ⟨n, rfl⟩ := hl
  refine ⟨trivial, ?_⟩
  intro _ l hl
  obtain ⟨n, rfl⟩ := hl
  refine ⟨rfl, ?_⟩
  intro _ l hl
  obtain ⟨n, rfl⟩ := hl
  have hend (out : Option Ptr) : Answered (.ok, out) ⟨own, false, true, true, n⟩ :=
    ⟨rfl, rfl, fun h => absurd rfl h, fun _ => rfl⟩
  cases retval with
  | false => simpa [attempting, quiet] using hend none
  | true =>
    simp [attempting, quiet]
    exact fun r => hend (some r)

theorem pthreadJoin_attempts (retval : Bool) (hholds : l.holds = false)
    (hinside : l.inside = true) (hnote : l.note.changed = false) :
    (pthreadJoin thread retval).Obeys (attempting thread) l Answered := by
  obtain ⟨own, holds, through, inside, changed, company⟩ := l
  obtain rfl : holds = false := hholds
  obtain rfl : inside = true := hinside
  obtain rfl : changed = false := hnote
  simp only [pthreadJoin, Prog.obeys_bind, Prog.obeys_request, Prog.obeys_ite, Prog.pure_eq,
    Prog.obeys_ret]
  refine ⟨rfl, ?_⟩
  intro attr l hl
  obtain ⟨hjoinable, rfl⟩ := hl
  constructor
  · intro hn
    rw [hjoinable] at hn
    cases hn
  · intro _
    refine ⟨⟨rfl, rfl⟩, ?_⟩
    intro r l hl
    cases r with
    | false =>
      cases hl
      constructor
      · intro _
        exact ⟨rfl, rfl, fun _ => rfl, fun h => by cases h⟩
      · intro h
        exact absurd rfl h
    | true =>
      obtain ⟨hother, n, rfl⟩ := hl
      constructor
      · intro h
        cases h
      · intro _
        refine ⟨rfl, ?_⟩
        intro self l hl
        obtain ⟨hself, rfl⟩ := hl
        obtain rfl : own = false := hother
        have hne : self ≠ thread := fun h => by
          have hown := hself.mp h
          cases hown
        constructor
        · intro heq
          simp [pthreadEqual, hne] at heq
        · intro _
          exact joinWait_attempts retval

end Programs

/-- Only a join inside has the mutex, and nobody else has got through by then; at most one gets
through, and it is the one that returns 0. -/
structure Orderly (s : Attempts T) : Prop where
  joinable : statusJoinable s.world.obj.attr.status = true
  depth : s.world.obj.mux.depth ≤ 1
  holder : ∀ t, s.world.obj.mux.own = some t → t ∈ s.inside ∧ s.world.passed ⊆ {t}
  sole : s.world.passed.card ≤ 1
  counted : okCount s.world ≤ 1
  pending : ∀ t ∈ s.world.passed, t ∈ s.inside → okCount s.world = 0
  done : okCount s.world ≠ 0 → s.world.passed.Nonempty

structure Same (w w' : World T) : Prop where
  attr : w'.obj.attr = w.obj.attr
  mux : w'.obj.mux = w.obj.mux
  passed : w'.passed = w.passed
  results : w'.results = w.results

section Steps
variable {relock : Bool} {P : Platform} {K : Tasks T} {s s' : Attempts T} {w w' : World T} {t : T}
  {c : Env}

omit [DecidableEq T] in
theorem okCount_congr (h : w'.results = w.results) : okCount w' = okCount w := by
  simp only [okCount, h]

theorem answer_semPost {sem : ThreadSem} {r : Unit}
    (hx : answer relock P K t c (.semPost sem) w = some (r, w')) : Same w w' := by
  cases sem with
  | barrier =>
    cases hx
    exact ⟨rfl, rfl, rfl, rfl⟩
  | joined =>
    cases hx
    exact ⟨rfl, rfl, rfl, rfl⟩

omit [DecidableEq T] in
theorem Orderly.congr (h : Orderly s) (hw : Same s.world s'.world)
    (hinside : s'.inside = s.inside) : Orderly s' := by
  have hcount := okCount_congr hw.results
  refine ⟨?_, ?_, ?_, ?_, ?_, ?_, ?_⟩
  · rw [hw.attr]
    exact h.joinable
  · rw [hw.mux]
    exact h.depth
  · rw [hw.mux, hw.passed, hinside]
    exact h.holder
  · rw [hw.passed]
    exact h.sole
  · rw [hcount]
    exact h.counted
  · rw [hw.passed, hcount, hinside]
    exact h.pending
  · rw [hw.passed, hcount]
    exact h.done

structure Keeps (K : Tasks T) (s : Attempts T) (t : T) (e : ThreadOp) (r : ThreadAns e)
    (s' : Attempts T) : Prop where
  orderly : Orderly s'
  after : (attempting K.thread).after (standing K s t) e r (standing K s' t)
  others : ∀ u, u ≠ t → standing K s' u = standing K s u

/-- A task learns from its own requests only, as long as the mutex and the barrier do not change
hands. -/
theorem record_standing (e : ThreadOp) (hw : Same s.world w) :
    standing K (s.record t e w) t = { standing K s t with note := s.noted t e w } ∧
      ∀ u, u ≠ t → standing K (s.record t e w) u = standing K s u := by
  constructor
  · dsimp only [standing, Attempts.record]
    simp [hw.mux, hw.passed]
  · intro u hu
    dsimp only [standing, Attempts.record]
    simp [hw.mux, hw.passed, hu]

theorem keeps_quiet {e : ThreadOp} {r : ThreadAns e} (h : Orderly s) (he : quiet e = true)
    (hw : Same s.world w) (hsem : w.obj.sem = s.world.obj.sem)
    (hafter : (attempting K.thread).after (standing K s t) e r (standing K s t)) :
    Keeps K s t e r (s.record t e w) := by
  have hsync : SameSync s.world w := ⟨hw.mux, by rw [hsem], by rw [hsem]⟩
  have hlock : isLock e = false := by
    cases e with
    | muxLock ticks => cases he
    | _ => rfl
  have hself : standing K (s.record t e w) t = standing K s t := by
    dsimp only [standing, Attempts.record]
    simp [Attempts.noted, hw.mux, hw.passed, hsync, hlock]
  refine ⟨h.congr hw rfl, ?_, (record_standing e hw).2⟩
  rw [hself]
  exact hafter

theorem keeps_sem {e : ThreadOp} {r : ThreadAns e} (h : Orderly s) (hw : Same s.world w)
    (hafter : ∀ n, (attempting K.thread).after (standing K s t) e r
      { standing K s t with note := n }) :
    Keeps K s t e r (s.record t e w) := by
  obtain ⟨hself, hothers⟩ := record_standing (K := K) (t := t) e hw
  refine ⟨h.congr hw rfl, ?_, hothers⟩
  rw [hself]
  exact hafter _

/-- A lock that is refused has met the join that has the mutex. -/
theorem keeps_refused {ticks : ℕ} (h : Orderly s) (hholds : s.world.obj.mux.own ≠ some t)
    (htaken : s.world.obj.mux.own ≠ none) (hw : Same s.world w)
    (hsem : w.obj.sem = s.world.obj.sem) :
    Keeps K s t (.muxLock ticks) false (s.record t (.muxLock ticks) w) := by
  have hsync : SameSync s.world w := ⟨hw.mux, by rw [hsem], by rw [hsem]⟩
  obtain ⟨u, hu⟩ := Option.ne_none_iff_exists'.mp htaken
  have hut : u ≠ t := fun heq => hholds (by rw [hu, heq])
  have hcompany : s.inside.erase t ≠ ∅ :=
    Finset.ne_empty_of_mem (Finset.mem_erase.mpr ⟨hut, (h.holder u hu).1⟩)
  refine ⟨h.congr hw rfl, ?_, (record_standing _ hw).2⟩
  dsimp only [standing, Attempts.record]
  simp [attempting, Attempts.noted, hw.mux, hw.passed, hsync, isLock, hcompany]

theorem keeps_locked {ticks : ℕ} (h : Orderly s) (hfree : s.world.obj.mux.own = none)
    (hinside : t ∈ s.inside) (hother : t ≠ K.target) (hnone : s.world.passed = ∅)
    (hattr : w.obj.attr = s.world.obj.attr) (hmux : w.obj.mux = ⟨some t, 1⟩)
    (hpassed : w.passed = s.world.passed) (hresults : w.results = s.world.results) :
    Keeps K s t (.muxLock ticks) true (s.record t (.muxLock ticks) w) := by
  have hcount := okCount_congr hresults
  have hzero : okCount s.world = 0 := by
    by_contra hne
    have hsome := h.done hne
    rw [hnone] at hsome
    simp at hsome
  refine ⟨⟨?_, ?_, ?_, ?_, ?_, ?_, ?_⟩, ?_, ?_⟩
  · simp only [Attempts.record, hattr]
    exact h.joinable
  · simp [Attempts.record, hmux]
  · intro u hu
    simp only [Attempts.record, hmux, Option.some.injEq] at hu
    subst hu
    simp [Attempts.record, hpassed, hnone, hinside]
  · simp [Attempts.record, hpassed, hnone]
  · simp [Attempts.record, hcount, hzero]
  · simp [Attempts.record, hpassed, hnone]
  · simp [Attempts.record, hcount, hzero]
  · refine ⟨by simpa [standing] using hother, s.noted t (.muxLock ticks) w, ?_⟩
    dsimp only [standing, Attempts.record]
    simp [hmux, hpassed, hnone]
  · intro u hu
    dsimp only [standing, Attempts.record]
    simp [hmux, hpassed, hfree, hu, hu.symm]

theorem keeps_muxUnlock (h : Orderly s) (hholds : s.world.obj.mux.own = some t)
    (hattr : w.obj.attr = s.world.obj.attr) (hmux : w.obj.mux = ⟨none, 0⟩)
    (hpassed : w.passed = s.world.passed) (hresults : w.results = s.world.results) :
    Keeps K s t .muxUnlock () (s.record t .muxUnlock w) := by
  have hcount := okCount_congr hresults
  refine ⟨⟨?_, ?_, ?_, ?_, ?_, ?_, ?_⟩, ?_, ?_⟩
  · simp only [Attempts.record, hattr]
    exact h.joinable
  · simp [Attempts.record, hmux]
  · intro u hu
    simp [Attempts.record, hmux] at hu
  · simp only [Attempts.record, hpassed]
    exact h.sole
  · simp only [Attempts.record, hcount]
    exact h.counted
  · simp only [Attempts.record, hpassed, hcount]
    exact h.pending
  · simp only [Attempts.record, hpassed, hcount]
    exact h.done
  · refine ⟨s.noted t .muxUnlock w, ?_⟩
    dsimp only [standing, Attempts.record]
    simp [hmux, hpassed]
  · intro u hu
    dsimp only [standing, Attempts.record]
    simp [hmux, hpassed, hholds, hu, hu.symm]

/-- The only join that can get through the barrier does so. -/
theorem keeps_barrier (h : Orderly s) (hholds : s.world.obj.mux.own = some t)
    (hthrough : t ∉ s.world.passed) (hattr : w.obj.attr = s.world.obj.attr)
    (hmux : w.obj.mux = s.world.obj.mux) (hpassed : w.passed = insert t s.world.passed)
    (hresults : w.results = s.world.results) :
    Keeps K s t (.semGet .barrier) () (s.record t (.semGet .barrier) w) := by
  have hcount := okCount_congr hresults
  have hsub := (h.holder t hholds).2
  have hnone : s.world.passed = ∅ := by
    rw [Finset.eq_empty_iff_forall_notMem]
    intro u hu
    have heq := Finset.mem_singleton.mp (hsub hu)
    subst heq
    exact hthrough hu
  have hzero : okCount s.world = 0 := by
    by_contra hne
    have hsome := h.done hne
    rw [hnone] at hsome
    simp at hsome
  refine ⟨⟨?_, ?_, ?_, ?_, ?_, ?_, ?_⟩, ?_, ?_⟩
  · simp only [Attempts.record, hattr]
    exact h.joinable
  · simp only [Attempts.record, hmux]
    exact h.depth
  · intro u hu
    simp only [Attempts.record, hmux, hholds, Option.some.injEq] at hu
    subst hu
    simp [Attempts.record, hpassed, hnone, (h.holder t hholds).1]
  · simp [Attempts.record, hpassed, hnone]
  · simp [Attempts.record, hcount, hzero]
  · simp [Attempts.record, hcount, hzero]
  · simp [Attempts.record, hpassed]
  · refine ⟨s.noted t (.semGet .barrier) w, ?_⟩
    dsimp only [standing, Attempts.record]
    simp [hmux, hpassed]
  · intro u hu
    dsimp only [standing, Attempts.record]
    simp [hmux, hpassed, hu]

theorem exec_keeps {e : ThreadOp} {r : ThreadAns e} (h : Orderly s)
    (hsafe : (attempting K.thread).safe (standing K s t) e) (hguard : Guarded K s t e c)
    (hs : (joinSystem relock P K).exec t e c s = some (r, s')) : Keeps K s t e r s' := by
  obtain ⟨⟨r', w⟩, hx, heq⟩ := Option.map_eq_some_iff.mp hs
  cases heq
  have hx : answer relock P K t c e (s.world.mark K t (touches e)) = some (r', w) := hx
  cases e with
  | clearThread thread => cases hsafe
  | storeAttr attr => cases hsafe
  | mutInit => cases hsafe
  | semInit sem value => cases hsafe
  | muxLock ticks =>
    obtain ⟨hinside, hholds⟩ := hsafe
    have hinside : t ∈ s.inside := of_decide_eq_true hinside
    have hholds : s.world.obj.mux.own ≠ some t := of_decide_eq_false hholds
    obtain ⟨⟨r', m⟩, hm, heq⟩ := Option.map_eq_some_iff.mp hx
    cases heq
    have hm : mutLock relock P.WAIT t ticks true s.world.obj.mux = some (r', m) := hm
    cases r' with
    | false =>
      -- another join has the mutex, and keeps it
      obtain ⟨hsame, -, -, htaken⟩ := mutLock_refused hm
      exact keeps_refused h hholds htaken ⟨rfl, hsame, rfl, rfl⟩ rfl
    | true =>
      have hfree : s.world.obj.mux.own = none := by
        rcases mutLock_own hm with ⟨-, -, hfree | hmine⟩ | ⟨hr, -⟩
        · exact hfree
        · exact absurd hmine hholds
        · cases hr
      have hm1 : m = ⟨some t, 1⟩ := by
        simp only [mutLock, hfree] at hm
        cases hm
        rfl
      obtain ⟨hother, hnone⟩ := hguard rfl hfree
      exact keeps_locked h hfree hinside hother hnone rfl hm1 rfl rfl
  | muxUnlock =>
    cases hx
    have hun : mutUnlock s.world.obj.mux = ⟨none, 0⟩ := if_pos h.depth
    exact keeps_muxUnlock h (of_decide_eq_true hsafe) rfl hun rfl rfl
  | semPost sem =>
    have hw := answer_semPost hx
    refine keeps_sem h ⟨hw.attr, hw.mux, hw.passed, hw.results⟩ ?_
    intro n
    exact ⟨n, rfl⟩
  | semGet sem =>
    cases sem with
    | barrier =>
      simp only [answer] at hx
      split_ifs at hx
      cases hx
      have hholds : s.world.obj.mux.own = some t := of_decide_eq_true hsafe.1
      have hthrough : t ∉ s.world.passed := of_decide_eq_false hsafe.2.1
      exact keeps_barrier h hholds hthrough rfl rfl rfl rfl
    | joined =>
      simp only [answer] at hx
      split_ifs at hx
      cases hx
      refine keeps_sem h ⟨rfl, rfl, rfl, rfl⟩ ?_
      intro n
      exact ⟨n, rfl⟩
  | self =>
    cases hx
    refine keeps_quiet h rfl ⟨rfl, rfl, rfl, rfl⟩ rfl ⟨?_, rfl⟩
    rw [K.priv_iff]
    simp [standing]
  | loadAttr =>
    cases hx
    exact keeps_quiet h rfl ⟨rfl, rfl, rfl, rfl⟩ rfl ⟨h.joinable, rfl⟩
  | _ =>
    cases hx
    exact keeps_quiet h rfl ⟨rfl, rfl, rfl, rfl⟩ rfl rfl

structure Outside (l : Standing) : Prop where
  holds : l.holds = false
  inside : l.inside = false

def Over (k : JoinCall) (v : Status × Option Ptr) (l : Standing) : Prop :=
  match k with
  | .exit _ => Outside l
  | .join _ => Answered v l

theorem enter_keeps {k : JoinCall} (h : Orderly s) (hout : Outside (standing K s t))
    (hs : joinEnter K t k s = some s') :
    Orderly s' ∧ (joinCode K k).Obeys (attempting K.thread) (standing K s' t) (Over k) ∧
      ∀ u, u ≠ t → standing K s' u = standing K s u := by
  cases k with
  | exit valuePtr =>
    simp only [joinEnter] at hs
    split_ifs at hs
    cases hs
    refine ⟨h, ?_, fun _ _ => rfl⟩
    rw [joinCode, Prog.obeys_bind]
    apply (pthreadExit_attempts valuePtr).mono
    intro _ l hl
    obtain ⟨n, rfl⟩ := hl
    exact ⟨hout.holds, hout.inside⟩
  | join retval =>
    simp only [joinEnter] at hs
    split_ifs at hs with hnone
    cases hs
    have hzero : okCount s.world = 0 := by
      rw [okCount, List.countP_eq_zero]
      intro r hr
      simpa using hnone r hr
    refine ⟨⟨h.joinable, h.depth, ?_, h.sole, h.counted, fun _ _ _ => hzero, h.done⟩, ?_, ?_⟩
    · intro u hu
      exact ⟨Finset.mem_insert_of_mem (h.holder u hu).1, (h.holder u hu).2⟩
    · apply pthreadJoin_attempts
      · exact hout.holds
      · simp [standing]
      · simp [standing]
    · intro u hu
      dsimp only [standing]
      simp [hu]

/-- The join that returns 0 is the one that got through the barrier, and the first to return. -/
theorem leave_join (h : Orderly s) {v : Status × Option Ptr} (ha : Answered v (standing K s t))
    {retval : Bool} : Orderly (joinLeave K t (.join retval) v s) := by
  have hfree : s.world.obj.mux.own ≠ some t := of_decide_eq_false ha.holds
  have hinside : t ∈ s.inside := of_decide_eq_true ha.inside
  have hholder (u : T) (hu : s.world.obj.mux.own = some u) :
      u ∈ s.inside.erase t ∧ s.world.passed ⊆ {u} := by
    have hut : u ≠ t := fun heq => hfree (by rw [hu, heq])
    exact ⟨Finset.mem_erase.mpr ⟨hut, (h.holder u hu).1⟩, (h.holder u hu).2⟩
  by_cases hv : v.1 = .ok
  · have hthrough : t ∈ s.world.passed := of_decide_eq_true (ha.joined hv)
    have hzero : okCount s.world = 0 := h.pending t hthrough hinside
    have hcount : okCount (joinLeave K t (.join retval) v s).world = 1 := by
      simp [okCount] at hzero
      simp [okCount, joinLeave, World.mark, hv]
      exact hzero
    refine ⟨h.joinable, h.depth, hholder, h.sole, hcount.le, ?_, fun _ => ⟨t, hthrough⟩⟩
    intro u hu hin
    obtain ⟨hut, -⟩ := Finset.mem_erase.mp hin
    exact absurd (Finset.card_le_one.mp h.sole u hu t hthrough) hut
  · have hcount : okCount (joinLeave K t (.join retval) v s).world = okCount s.world := by
      simp [okCount, joinLeave, World.mark, hv]
    refine ⟨h.joinable, h.depth, hholder, h.sole, hcount ▸ h.counted, ?_, ?_⟩
    · intro u hu hin
      rw [hcount]
      exact h.pending u hu (Finset.mem_of_mem_erase hin)
    · rw [hcount]
      exact h.done

theorem leave_keeps {k : JoinCall} {v : Status × Option Ptr} (h : Orderly s)
    (ho : Over k v (standing K s t)) :
    Orderly (joinLeave K t k v s) ∧ Outside (standing K (joinLeave K t k v s) t) ∧
      ∀ u, u ≠ t → standing K (joinLeave K t k v s) u = standing K s u := by
  cases k with
  | exit valuePtr => exact ⟨h.congr ⟨rfl, rfl, rfl, rfl⟩ rfl, ⟨ho.holds, ho.inside⟩, fun _ _ => rfl⟩
  | join retval =>
    refine ⟨leave_join h ho, ⟨ho.holds, ?_⟩, ?_⟩
    · dsimp only [standing, joinLeave]
      simp
    · intro u hu
      dsimp only [standing, joinLeave]
      simp [World.mark, hu]

end Steps

section Runs
variable {relock : Bool} {P : Platform} {K : Tasks T}

def attemptDiscipline (relock : Bool) (P : Platform) (K : Tasks T) :
    Discipline (joinSystem relock P K) Standing where
  toProtocol := attempting K.thread
  view := standing K
  inv := Orderly
  allowed := Guarded K
  between _ l := Outside l
  post _ k v l := Over k v l
  enter_step h hb hs := enter_keeps h hb hs
  exec_step h hsafe ha hs :=
    have hk := exec_keeps h hsafe ha hs
    ⟨hk.orderly, hk.after, hk.others⟩
  leave_step h hp := leave_keeps h hp

theorem refusals_of_inv {p : JoinPool T} (h : (attemptDiscipline relock P K).Inv p) :
    Refusals K p := by
  have hanswer (t : T) (retval : Bool) (v : Status × Option Ptr)
      (hout : p.outcome t = some (.join retval, v)) : Answered v (standing K p.shared t) := by
    have hfollows := h.threads t
    rw [Pool.outcome_eq.mp hout] at hfollows
    exact hfollows
  refine ⟨?_, h.shared.counted, ?_⟩
  · intro t retval v hout hv
    have hnote := (hanswer t retval v hout).refused (by rw [hv]; simp)
    exact congrArg AttemptNote.changed hnote
  · intro t retval v hout _ hcompany
    by_contra hv
    have hnote := congrArg AttemptNote.company ((hanswer t retval v hout).refused hv)
    have htrue : (p.shared.note t).company = true := hnote
    rw [hcompany] at htrue
    cases htrue

theorem created_orderly {attr : Option PthreadAttr} {func arg : Ptr} {w : World T}
    (hw : Created relock P K attr func arg w)
    (hj : statusJoinable (attr.getD (pthreadAttrDefault P)).status = true) :
    (attemptDiscipline relock P K).Inv (idlePool (joinStart w)) := by
  obtain ⟨stack, -, rfl⟩ := created_world hw
  apply Discipline.idle_inv
  · refine ⟨hj, ?_, ?_, ?_, ?_, ?_, ?_⟩
    · simp [joinStart, rawWorld, createdThread, mutInit]
    · intro t ht
      simp [joinStart, rawWorld, createdThread, mutInit] at ht
    · simp [joinStart, rawWorld]
    · simp [joinStart, rawWorld, okCount]
    · intro t ht
      simp [joinStart, rawWorld] at ht
    · simp [joinStart, rawWorld, okCount]
  · intro t
    constructor
    · simp [attemptDiscipline, standing, joinStart, rawWorld, createdThread, mutInit]
    · simp [attemptDiscipline, standing, joinStart]

/-- As long as a join that finds the mutex free is made by another task, and before any other has
got through, refusals have no effect, at most one join succeeds, and a join without company does. -/
theorem pthreadJoin_refusals {attr : Option PthreadAttr} {func arg : Ptr} {w : World T}
    (hw : Created relock P K attr func arg w)
    (hj : statusJoinable (attr.getD (pthreadAttrDefault P)).status = true)
    (as : List (Action T Env JoinCall))
    (hok : Meets (step (joinSystem relock P K)) (Allowed (Guarded K)) (idlePool (joinStart w)) as) :
    Throughout (step (joinSystem relock P K)) (Refusals K) (idlePool (joinStart w)) as :=
  (created_orderly hw hj).throughout hok fun _ h => refusals_of_inv h

end Runs

section Schedules

inductive Role where
  | thread
  | first
  | second
  deriving DecidableEq, Repr

def threeTasks : Tasks Role where
  thread := 64
  target := .thread
  priv t := if t = .thread then 64 else 0
  thread_ne := Nat.succ_ne_zero 63
  priv_iff t := by simp

def joinable : World Role := rawWorld (createdThread platform1000 none 0 0 (some 128))

theorem joinable_created : Created true platform1000 threeTasks none 0 0 joinable :=
  created_of_blocks .first ready none 0 0 rfl rfl rfl rfl

def runs (t : Role) (n : ℕ) : List (Action Role Env JoinCall) :=
  List.replicate n (.run t ready)

/-- The second task comes while the first one is joining. -/
def refusedSteps : List (Action Role Env JoinCall) :=
  .enter .first (.join true) :: runs .first 2 ++ .enter .second (.join true) :: runs .second 2 ++
    .leave .second :: runs .first 8 ++ [.leave .first]

theorem pthreadJoin_refusals_two :
    ∃ p, execute (step (joinSystem true platform1000 threeTasks)) (idlePool (joinStart joinable))
        refusedSteps = some p ∧
      p.shared.world.results = [(.ok, some 0), (.EDEADLK, none)] ∧
      Throughout (step (joinSystem true platform1000 threeTasks)) (Refusals threeTasks)
        (idlePool (joinStart joinable)) refusedSteps := by
  have hout : (execute (step (joinSystem true platform1000 threeTasks))
      (idlePool (joinStart joinable)) refusedSteps).map (fun p => p.shared.world.results) =
        some [(.ok, some 0), (.EDEADLK, none)] := by
    decide +kernel
  obtain ⟨p, hrun, hp⟩ := Option.map_eq_some_iff.mp hout
  exact ⟨p, hrun, hp, pthreadJoin_refusals joinable_created (by decide) _ (by decide +kernel)⟩

/-- The thread joins itself, and another task joins afterwards, alone. -/
def selfSteps : List (Action Role Env JoinCall) :=
  .enter .thread (.join false) :: runs .thread 3 ++ .leave .thread ::
    .enter .first (.join false) :: runs .first 2

/-- Both tasks join at the same time; the second tries the mutex when the first has given it
back. -/
def overlappingSteps : List (Action Role Env JoinCall) :=
  .enter .first (.join false) :: .enter .second (.join false) :: runs .first 6 ++ runs .second 3 ++
    .enter .thread (.exit 7) :: runs .thread 5 ++ runs .first 3 ++ runs .second 6 ++
    [.leave .first, .leave .second]

/-- Having refused to join itself the thread keeps the mutex, so that nobody can join it; and two
joins that overlap can both return 0. -/
theorem pthreadJoin_refusal_locks :
    (∃ p, execute (step (joinSystem true platform1000 threeTasks)) (idlePool (joinStart joinable))
        selfSteps = some p ∧ p.outcome .first = some (.join false, (.EDEADLK, none)) ∧
      p.shared.note .first = ⟨false, false⟩ ∧ p.shared.note .thread = ⟨true, false⟩ ∧
      p.shared.world.results = [(.EDEADLK, none)] ∧ ¬ Refusals threeTasks p) ∧
    ∃ p, execute (step (joinSystem true platform1000 threeTasks)) (idlePool (joinStart joinable))
        overlappingSteps = some p ∧ p.shared.world.results = [(.ok, none), (.ok, none)] ∧
      ¬ Refusals threeTasks p := by
  constructor
  · have hout : (execute (step (joinSystem true platform1000 threeTasks))
        (idlePool (joinStart joinable)) selfSteps).map (fun p =>
          decide (p.outcome .first = some (.join false, (.EDEADLK, none)) ∧
            p.shared.note .first = ⟨false, false⟩ ∧ p.shared.note .thread = ⟨true, false⟩ ∧
            p.shared.world.results = [(.EDEADLK, none)])) = some true := by
      decide +kernel
    obtain ⟨p, hrun, hp⟩ := Option.map_eq_some_iff.mp hout
    obtain ⟨houtcome, hnote, hself, hresults⟩ := of_decide_eq_true hp
    refine ⟨p, hrun, houtcome, hnote, hself, hresults, fun h => ?_⟩
    have hok := h.admitted .first false _ houtcome (by decide) (by rw [hnote])
    cases hok
  · have hout : (execute (step (joinSystem true platform1000 threeTasks))
        (idlePool (joinStart joinable)) overlappingSteps).map (fun p => p.shared.world.results) =
        some [(.ok, none), (.ok, none)] := by
      decide +kernel
    obtain ⟨p, hrun, hresults⟩ := Option.map_eq_some_iff.mp hout
    refine ⟨p, hrun, hresults, fun h => ?_⟩
    have hone := h.once
    rw [okCount, hresults] at hone
    revert hone
    decide

end Schedules

end LibPosix.JoinRefusals
