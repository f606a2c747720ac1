import LibPosix.SemaphoreThreads
import LibPosix.Progress

/-! When the calls on a semaphore come to an end. A thread is held up only while it is queued for a
unit; whether all the calls can return is then a matter of counting: there must be a unit, from
the start or posted, for each wait that is not refused. -/
namespace LibPosix.SemaphoreProgress
open Program ThreadPool Transition Kernel
open SemaphoreThreads PoolHistory Linearizability Progress
variable {T : Type} [DecidableEq T]

abbrev SemPool (T : Type) := Pool T KernOp KernAns (Sem T) SemCall SemRes

def takes (k : SemCall) : Bool := k.deadline.isSome

def posts (k : SemCall) : Bool := decide (k = .semPost)

def refuses : SemRes → Bool
  | .status e => decide (e ≠ .ok)
  | .sval _ => false

section Counter
variable {n m : ℕ} {k : SemCall} {v : SemRes} {t : T}

theorem mayReport_ne_ok {e : Status} (h : k.mayReport e) : e ≠ .ok := by
  rintro rfl
  cases k with
  | semTimedwait abstime =>
    cases abstime with
    | none => cases h
    | some D => simp [SemCall.mayReport] at h
  | semTrywait => cases h
  | semWait => cases h
  | semPost => cases h
  | semGetvalue => cases h

omit [DecidableEq T] in
/-- What a call on the counter does to the units: those that are posted or were there before are
taken or still there, and a wait that is refused takes none. -/
theorem counter_units (h : counter t k n v m) :
    n + (posts k).toNat + (refuses v).toNat = m + (takes k).toNat := by
  have hwait (h : v = .status .ok ∧ n = m + 1 ∨
      n = 0 ∧ m = 0 ∧ ∃ e, v = .status e ∧ k.mayReport e) :
      n + (refuses v).toNat = m + 1 := by
    rcases h with ⟨rfl, rfl⟩ | ⟨rfl, rfl, e, rfl, he⟩
    · rfl
    · simp [refuses, mayReport_ne_ok he]
  cases k with
  | semPost =>
    obtain ⟨rfl, rfl⟩ := h
    rfl
  | semGetvalue =>
    obtain ⟨rfl, rfl⟩ := h
    rfl
  | semWait => exact hwait h
  | semTrywait => exact hwait h
  | semTimedwait abstime => exact hwait h

omit [DecidableEq T] in
theorem legal_units {cs : List (T × SemCall × SemRes)} (h : Legal counter n cs m) :
    n + (cs.countP fun c => posts c.2.1) + (cs.countP fun c => refuses c.2.2) =
      m + cs.countP fun c => takes c.2.1 := by
  induction h with
  | nil => rfl
  | @cons a b c t k v cs hO _ ih =>
    have hone := counter_units hO
    simp only [List.countP_cons]
    simp only [Bool.toNat, Bool.cond_eq_ite] at hone
    omega

end Counter

section Stuck
variable {P : Platform} {p : SemPool T} {f : T → Option (SemCall × Local)} {n : ℕ}

theorem semExec_blocked {s : Sem T} {t : T} {e : KernOp}
    (h : ∀ c, semExec P t e c s = none) : ∃ ticks, e = .semResult ticks ∧ t ∉ s.granted := by
  cases e with
  | semResult ticks =>
    refine ⟨ticks, rfl, ?_⟩
    intro hgranted
    have hnone := h ⟨0, false, ∅⟩
    simp [semExec, semResult, hgranted] at hnone
  | semPost =>
    obtain ⟨woken, hsub, hcard⟩ := Finset.exists_subset_card_eq (min_le_right 1 s.blocked.card)
    have hnone := h ⟨0, false, woken⟩
    simp [semExec, semPostN, hsub, hcard] at hnone
  | tmrTicks => cases h ⟨0, false, ∅⟩
  | semGet ticks => cases h ⟨0, false, ∅⟩
  | val => cases h ⟨0, false, ∅⟩

variable {hW : 0 < P.WAIT}

/-- If no call in progress can go on, each of them waits for a unit that nobody has handed it. -/
theorem phase_of_stuck (hinv : Inv p.shared n f)
    (hstands : ∀ t, (semService (T := T) P hW).Stands (p.thread t) (f t))
    (hstuck : ¬ Moves (semThreads P) p) (t : T) :
    p.thread t = none ∧ phases (result p.shared) f t = .idle ∨
      p.thread t ≠ none ∧ p.shared.count = 0 ∧
        ∃ k, phases (result p.shared) f t = .pending k ∧ takes k = true := by
  have hthread := hstands t
  rcases stuck hstuck t with hnone | ⟨k, e, q, hcall, hblocked⟩
  · left
    rw [hnone] at hthread
    simp [phases, Service.stands_none hthread, Phase.ofCall, hnone]
  · right
    obtain ⟨ticks, rfl, hgranted⟩ := semExec_blocked hblocked
    rw [hcall] at hthread ⊢
    obtain ⟨l, hl, hobeys⟩ := Service.stands_some hthread
    obtain ⟨hstage, -⟩ : l.stage = .waiting ∧ Asks P l ticks := hobeys.1
    have hqueued := (hinv.queued t).mpr ⟨k, l, hl, hstage⟩
    have hempty := hinv.valid.no_idle ⟨t, hqueued.resolve_right hgranted⟩
    refine ⟨by simp, hempty, k, ?_, ?_⟩
    · simp [phases, hl, Phase.ofCall, result, hstage, hgranted]
    · exact Option.isSome_iff_ne_none.mpr (hinv.waits t k l hl hstage)

/-- There is a unit for each wait that is not refused. -/
def Supplied (value : ℕ) (h : List (Event T SemCall SemRes)) : Prop :=
  entries takes h ≤ value + entries posts h + reports refuses h

instance (value : ℕ) (h : List (Event T SemCall SemRes)) : Decidable (Supplied value h) :=
  inferInstanceAs (Decidable (_ ≤ _))

omit [DecidableEq T] in
theorem exactly_start {due : Phase SemCall SemRes → Bool} (h : due .idle = false) :
    Exactly due (Atomic.start n : Atomic ℕ T SemCall SemRes).phase ∅ := by
  intro t
  simp [Atomic.start, h]

variable {value : ℕ} {ms : List (Moment T SemCall SemRes)}

/-- Where no call in progress can go on, all the calls have returned if and only if there was a unit
for each wait that was not refused. -/
theorem idle_iff_supplied
    (hrun : AtomicRun counter (.start value) ms ⟨n, phases (result p.shared) f⟩)
    (hinv : Inv p.shared n f)
    (hstands : ∀ t, (semService (T := T) P hW).Stands (p.thread t) (f t))
    (hstuck : ¬ Moves (semThreads P) p) :
    (∀ t, p.thread t = none) ↔ Supplied value (ms.flatMap observe) := by
  have hunits : value + ((commits ms).countP fun c => posts c.2.1) +
      ((commits ms).countP fun c => refuses c.2.2) =
        n + (commits ms).countP fun c => takes c.2.1 := legal_units hrun.legal
  have hphase := phase_of_stuck hinv hstands hstuck
  obtain ⟨W, hexact, hwaits⟩ := hrun.entered takes (exactly_start rfl)
  obtain ⟨Q, hQ, hposts⟩ := hrun.entered posts (exactly_start rfl)
  obtain ⟨R, hR, hrefused⟩ := hrun.reported refuses (exactly_start rfl)
  have hQempty : Q = ∅ := by
    rw [Finset.eq_empty_iff_forall_notMem]
    intro t ht
    have hpost := (hQ t).mp ht
    rcases hphase t with ⟨-, hidle⟩ | ⟨-, -, k, hpending, htakes⟩
    · simp [hidle, Phase.waits] at hpost
    · simp only [hpending, Phase.waits, posts, decide_eq_true_eq] at hpost
      subst k
      cases htakes
  have hRempty : R = ∅ := by
    rw [Finset.eq_empty_iff_forall_notMem]
    intro t ht
    have hdone := (hR t).mp ht
    rcases hphase t with ⟨-, hidle⟩ | ⟨-, -, k, hpending, -⟩
    · simp [hidle, Phase.bears] at hdone
    · simp [hpending, Phase.bears] at hdone
  subst hQempty hRempty
  rw [Finset.card_empty, Nat.zero_add] at hposts hrefused hwaits
  rw [Supplied, hwaits, hposts]
  constructor
  · intro hnone
    have hWempty : W = ∅ := by
      rw [Finset.eq_empty_iff_forall_notMem]
      intro t ht
      have hwait := (hexact t).mp ht
      rcases hphase t with ⟨-, hidle⟩ | ⟨hbusy, -⟩
      · simp [hidle, Phase.waits] at hwait
      · exact hbusy (hnone t)
    rw [hWempty, Finset.card_empty]
    omega
  · intro hsupplied t
    rcases hphase t with ⟨hnone, -⟩ | ⟨-, hcount, k, hpending, htakes⟩
    · exact hnone
    · have hzero : n = 0 := hinv.count.symm.trans hcount
      have hpos : 0 < W.card := Finset.card_pos.mpr ⟨t, (hexact t).mpr (by
        simpa [hpending, Phase.waits] using htakes)⟩
      omega

omit [DecidableEq T] in
theorem Supplied.continues {h : List (Event T SemCall SemRes)} (hsupplied : Supplied value h)
    {a : Action T (Choice T) SemCall} (ha : Continues a) :
    Supplied value (h ++ eventOf p a) := by
  have hentries (kind : SemCall → Bool) : entries kind (h ++ eventOf p a) = entries kind h := by
    rw [entries_append, Nat.add_eq_left]
    cases a with
    | enter t k => exact absurd rfl (ha t k)
    | run t c => rfl
    | leave t =>
      rcases ht : p.thread t with _ | ⟨k, v | ⟨e, q⟩⟩
      · simp [eventOf, ht, entries]
      · simp [eventOf, ht, entries]
      · simp [eventOf, ht, entries]
  unfold Supplied at hsupplied ⊢
  rw [hentries, hentries, reports_append]
  omega

end Stuck

section Runs
variable {P : Platform} {value : ℕ} {as : List (Action T (Choice T) SemCall)} {p : SemPool T}

theorem idle_iff (hW : 0 < P.WAIT)
    (hrun : execute (step (semThreads P)) (idlePool (semInit value)) as = some p)
    (hstuck : ¬ Moves (semThreads P) p) : (∀ t, p.thread t = none) ↔
      Supplied value (history (semThreads P) (idlePool (semInit value)) as) := by
  have hstart : (semService (T := T) P hW).Tracks (idlePool (semInit value)) (fun _ => none)
      (.start value) := ⟨semInit_inv value, rfl, fun _ => trivial⟩
  obtain ⟨f, ms, ⟨n, phase⟩, hms, hobs, hinv, hphase, hstands⟩ := hstart.execute hrun
  cases hphase
  rw [alike_eq hobs]
  exact idle_iff_supplied hms hinv hstands hstuck

def Reached (P : Platform) (value : ℕ) (p : SemPool T) : Prop :=
  ∃ as, execute (step (semThreads P)) (idlePool (semInit value)) as = some p ∧
    Supplied value (history (semThreads P) (idlePool (semInit value)) as)

theorem Reached.moves (hW : 0 < P.WAIT) (h : Reached P value p) (hbusy : ∃ t, p.thread t ≠ none) :
    ∃ a p', Continues a ∧ step (semThreads P) p a = some p' ∧ Reached P value p' := by
  obtain ⟨as, hrun, hsupplied⟩ := h
  have hmoves : Moves (semThreads P) p := by
    by_contra hno
    obtain ⟨t, ht⟩ := hbusy
    exact ht ((idle_iff hW hrun hno).mpr hsupplied t)
  obtain ⟨a, p', ha, hs⟩ := hmoves
  have hmore : execute (step (semThreads P)) (idlePool (semInit value)) (as ++ [a]) = some p' :=
    execute_append.mpr ⟨p, hrun, execute_cons.mpr ⟨p', hs, rfl⟩⟩
  refine ⟨a, p', ha, hs, as ++ [a], hmore, ?_⟩
  rw [history_append hrun, history_cons hs]
  simpa [history] using hsupplied.continues (p := p) ha

/-- Threads that wait on, post and read a semaphore of `value` units: a state in which no call in
progress can go on is one in which all of them have returned if and only if there was a unit for
each wait that was not refused, and as long as there is, every run can be carried on, without any
new call, until all the calls have returned. -/
theorem semaphore_serves [Finite T] (hW : 0 < P.WAIT)
    (hrun : execute (step (semThreads P)) (idlePool (semInit value)) as = some p) :
    (¬ Moves (semThreads P) p → ((∀ t, p.thread t = none) ↔
      Supplied value (history (semThreads P) (idlePool (semInit value)) as))) ∧
    (Supplied value (history (semThreads P) (idlePool (semInit value)) as) →
      ∃ bs q, (∀ b ∈ bs, Continues b) ∧ execute (step (semThreads P)) p bs = some q ∧
        ∀ t, q.thread t = none) := by
  constructor
  · exact idle_iff hW hrun
  · intro hsupplied
    have hreached : Reached P value p := ⟨as, hrun, hsupplied⟩
    obtain ⟨bs, q, hbs, hq, -, hidle⟩ := drains (fun _ => Reached.moves hW) hreached
    exact ⟨bs, q, hbs, hq, hidle⟩

end Runs

/-- A thread is queued for a unit, and the other one, whose own wait has been refused, is about to
post. -/
def servingSteps : List (Action Bool (Choice Bool) SemCall) :=
  [.enter false .semWait, .run false quietly, .enter true .semTrywait, .run true quietly,
    .run true quietly, .leave true, .enter true .semPost]

theorem semaphore_serves_queued : ∃ p,
    execute (step (semThreads platform1000)) (idlePool (semInit 0)) servingSteps = some p ∧
      (p.thread false).isSome = true ∧ p.shared.blocked = {false} ∧
      ∃ bs q, (∀ b ∈ bs, Continues b) ∧ execute (step (semThreads platform1000)) p bs = some q ∧
        ∀ t, q.thread t = none := by
  have hrun : (execute (step (semThreads platform1000)) (idlePool (semInit 0))
      servingSteps).map (fun p => ((p.thread false).isSome, p.shared.blocked)) =
        some (true, {false}) ∧
      Supplied 0 (history (semThreads platform1000) (idlePool (semInit 0)) servingSteps) := by
    decide +kernel
  obtain ⟨hstate, hsupplied⟩ := hrun
  obtain ⟨p, hp, heq⟩ := Option.map_eq_some_iff.mp hstate
  obtain ⟨hbusy, hqueued⟩ := Prod.mk.inj heq
  obtain ⟨-, hserves⟩ := semaphore_serves (by decide) hp
  exact ⟨p, hp, hbusy, hqueued, hserves hsupplied⟩

end LibPosix.SemaphoreProgress
