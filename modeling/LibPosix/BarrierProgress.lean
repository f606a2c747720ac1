import LibPosix.BarrierUnits
import LibPosix.Progress

/-! A barrier round comes to an end. As many threads as the barrier waits for make one call each;
whatever the order of their steps is, no state in which all of them have called is stuck, and no
run is longer than fourteen steps for each thread. -/
namespace LibPosix.BarrierProgress
open Program ThreadPool Transition Kernel Barrier BarrierRound BarrierUnits Progress
variable {T : Type} [DecidableEq T]

/-- Where a thread may be held up: never with the lock in its hands, and in the queue of the
semaphore only after it has arrived, and has posted if it was the last one to arrive. -/
def resting (c : ℕ) : Protocol BarrierOp BarrierAns Share where
  safe
    | l, .mutLock => l.holds = false
    | l, .semPostN _ => l.holds = false
    | l, .semGet => l.holds = false
    | l, .semResult => l.holds = false ∧ l.asked = true ∧ l.place ≠ none ∧
        (l.place = some (c - 1) → l.poster = true)
    | _, _ => True
  after := (posting c).after

section Calls
variable {c : ℕ}

theorem getUnit_rests {l : Share} (hholds : l.holds = false) (hplace : l.place ≠ none)
    (hlast : l.place = some (c - 1) → l.poster = true) :
    getUnit.Obeys (resting c) l fun _ _ => True := by
  obtain ⟨holds, place, due, poster, asked, taken⟩ := l
  simp only [getUnit, Prog.obeys_bind, Prog.obeys_request, Prog.obeys_ite, Prog.pure_eq,
    Prog.obeys_ret]
  refine ⟨hholds, ?_⟩
  intro r l' hl'
  cases hl'
  constructor
  · intro hr
    obtain rfl : r = false := hr
    exact ⟨⟨hholds, rfl, hplace, hlast⟩, fun _ _ _ => trivial⟩
  · intro _
    trivial

/-- The part after the lock, for a thread at the place `n`: the last one to arrive finds the
barrier full and posts before it waits. -/
theorem release_rests (n : ℕ) (v : WaitValue) :
    (do
      if (← ask .curThread) ≥ (← ask .threshold) then
        ask (.semPostN (← ask .threshold))
      getUnit
      return v : Prog BarrierOp BarrierAns WaitValue).Obeys (resting c)
        ⟨false, some n, false, false, false, false⟩ fun _ _ => True := by
  simp only [Prog.obeys_bind, Prog.obeys_request, Prog.obeys_ite]
  refine ⟨trivial, ?_⟩
  intro r l hl
  obtain ⟨hlast, rfl⟩ := hl
  refine ⟨trivial, ?_⟩
  intro t l hl
  obtain ⟨rfl, rfl⟩ := hl
  constructor
  · intro _
    refine ⟨trivial, ?_⟩
    intro t' l hl
    obtain ⟨rfl, rfl⟩ := hl
    refine ⟨rfl, ?_⟩
    intro _ l hl
    cases hl
    exact getUnit_rests rfl (by simp) fun _ => rfl
  · intro hfew
    exact getUnit_rests rfl (by simp) fun hp => absurd (hlast hp) hfew

theorem pthreadBarrierWait_rests :
    pthreadBarrierWait.Obeys (resting c) .fresh fun _ _ => True := by
  simp only [pthreadBarrierWait, Prog.obeys_bind, Prog.obeys_request, Prog.obeys_ite,
    Prog.pure_eq, Prog.obeys_ret]
  refine ⟨rfl, ?_⟩
  intro _ l hl
  cases hl
  refine ⟨trivial, ?_⟩
  intro r l hl
  obtain ⟨-, rfl⟩ := hl
  refine ⟨trivial, ?_⟩
  intro t l hl
  obtain ⟨-, rfl⟩ := hl
  constructor
  · intro _
    exact ⟨trivial, fun _ _ _ => trivial⟩
  · intro _
    refine ⟨trivial, ?_⟩
    intro r' l hl
    obtain ⟨-, rfl⟩ := hl
    refine ⟨trivial, ?_⟩
    intro _ l hl
    cases hl
    refine ⟨trivial, ?_⟩
    intro _ l hl
    cases hl
    have hrest := release_rests (c := c) (MachineInt.unsigned 32 ((r' : ℤ) + 1) - 1)
      (waitValue (MachineInt.unsigned 32 ((r' : ℤ) + 1)))
    simp only [Prog.obeys_bind, Prog.obeys_request, Prog.obeys_ite, Prog.pure_eq,
      Prog.obeys_ret] at hrest
    exact hrest

/-- On its longest way through, a call makes twelve requests. -/
theorem pthreadBarrierWait_within : Within 12 pthreadBarrierWait := by
  simp [Within, pthreadBarrierWait, getUnit]

end Calls

section Stuck
variable [Fintype T] {relock : Bool} {P : Platform}

variable (T) in
def restingDiscipline (relock : Bool) (P : Platform) (hc : Fintype.card T < 2 ^ 32) :
    Discipline (roundSystem (T := T) relock P) (Local × Share) :=
  narrow (roundDiscipline T relock P hc)
    ((waiting T (Fintype.card T)).prod (resting (Fintype.card T))).safe (by
      intro s s' t k h hb hs
      simp only [roundSystem] at hs
      split_ifs at hs with hk
      obtain ⟨rfl, hcalls⟩ := hk
      cases hs
      have hzero : (localOf s.world t).calls = 0 := hcalls
      have hwait := pthreadBarrierWait_obeys (T := T) hc hb.outside
      have hrest := pthreadBarrierWait_rests (c := Fintype.card T)
      rw [← hb.before hzero] at hrest
      exact (hwait.prod hrest).mono fun _ _ _ => trivial)

omit [Fintype T] in
theorem roundExec_blocked {s : Units T} {t : T} {e : BarrierOp}
    (h : ∀ woken, (roundSystem relock P).exec t e woken s = none) :
    e = .mutLock ∧ s.world.barrier.mux.own ≠ none ∨
      e = .semResult ∧ t ∉ s.world.barrier.sem.granted := by
  cases e with
  | mutLock =>
    left
    refine ⟨rfl, ?_⟩
    intro hown
    have hnone := h ∅
    simp [roundSystem, barrierExec, mutLock, hown] at hnone
  | semResult =>
    right
    refine ⟨rfl, ?_⟩
    intro hgranted
    have hnone := h ∅
    simp [roundSystem, barrierExec, semResult, hgranted] at hnone
  | semPostN n =>
    obtain ⟨woken, hsub, hcard⟩ :=
      Finset.exists_subset_card_eq (min_le_right n s.world.barrier.sem.blocked.card)
    have hnone := h woken
    simp [roundSystem, barrierExec, semPostN, hsub, hcard] at hnone
  | mutUnlock => cases h ∅
  | curThread => cases h ∅
  | setCurThread n => cases h ∅
  | threshold => cases h ∅
  | semGet => cases h ∅

variable {hc : Fintype.card T < 2 ^ 32} {p : RoundPool T}

theorem idle_of_none (h : (restingDiscipline T relock P hc).Inv p) {t : T}
    (ht : p.thread t = none) :
    Idle (Fintype.card T) (localOf p.shared.world t, shareOf p.shared t) := by
  have hfollows := h.threads t
  rw [ht] at hfollows
  exact hfollows

theorem safe_of_call (h : (restingDiscipline T relock P hc).Inv p) {t : T} {k : ℕ} {e : BarrierOp}
    {f : BarrierAns e → Prog BarrierOp BarrierAns WaitValue}
    (ht : p.thread t = some (k, .call e f)) :
    (waiting T (Fintype.card T)).safe (localOf p.shared.world t) e ∧
      (posting (Fintype.card T)).safe (shareOf p.shared t) e ∧
      (resting (Fintype.card T)).safe (shareOf p.shared t) e := by
  have hfollows := h.threads t
  rw [ht] at hfollows
  exact ⟨hfollows.1.1.1, hfollows.1.1.2, hfollows.1.2.2⟩

/-- A round is never stuck at the lock: whoever holds it is not held up himself. -/
theorem unlocked_of_stuck (h : (restingDiscipline T relock P hc).Inv p)
    (hstuck : ¬ Moves (roundSystem relock P) p) : p.shared.world.barrier.mux.own = none := by
  by_contra hown
  obtain ⟨u, hu⟩ := Option.ne_none_iff_exists'.mp hown
  have hholds : (shareOf p.shared u).holds = true := holds_iff.mpr hu
  rcases stuck hstuck u with hnone | ⟨k, e, f, hcall, hblocked⟩
  · exact localOf_cur_none.mp (idle_of_none h hnone).outside.unlocked hu
  · obtain ⟨hwait, -, hrest⟩ := safe_of_call h hcall
    rcases roundExec_blocked hblocked with ⟨rfl, -⟩ | ⟨rfl, -⟩
    · exact localOf_cur_none.mp hwait hu
    · rw [hrest.1] at hholds
      cases hholds

structure Starved (s : Units T) (t : T) : Prop where
  queued : t ∈ s.world.barrier.sem.blocked
  ungranted : t ∉ s.world.barrier.sem.granted
  untaken : t ∉ s.taken
  arrived : t ∈ s.world.arrived
  last : place s.world t = some (Fintype.card T - 1) → t ∈ s.posters

theorem starved_of_stuck (h : (restingDiscipline T relock P hc).Inv p)
    (hstuck : ¬ Moves (roundSystem relock P) p) {t : T} (ht : p.thread t ≠ none) :
    Starved p.shared t := by
  rcases stuck hstuck t with hnone | ⟨k, e, f, hcall, hblocked⟩
  · exact absurd hnone ht
  · obtain ⟨-, hpost, hrest⟩ := safe_of_call h hcall
    rcases roundExec_blocked hblocked with ⟨rfl, hown⟩ | ⟨rfl, hgranted⟩
    · exact absurd (unlocked_of_stuck h hstuck) hown
    · obtain ⟨-, hasked, hplace, hlast⟩ := hrest
      refine ⟨?_, hgranted, of_decide_eq_false hpost, ?_, fun hp => of_decide_eq_true (hlast hp)⟩
      · exact (Finset.mem_union.mp (of_decide_eq_true hasked)).resolve_right hgranted
      · by_contra hn
        exact hplace (place_eq_none.mpr hn)

def Called (p : RoundPool T) : Prop := ∀ t, p.thread t ≠ none ∨ p.shared.world.calls t = 1

theorem paid_of_none (h : (restingDiscipline T relock P hc).Inv p) (hcalled : Called p) {t : T}
    (ht : p.thread t = none) :
    Paid (Fintype.card T) (shareOf p.shared t) ∧
      p.shared.world.arrived.length = Fintype.card T := by
  have hi := idle_of_none h ht
  have hone : p.shared.world.calls t = 1 := (hcalled t).resolve_left (not_not.mpr ht)
  have hcalls : 0 < (localOf p.shared.world t).calls := by
    change 0 < p.shared.world.calls t
    omega
  exact ⟨hi.after hcalls, h.shared.sound.released t (hi.outside.calls hcalls)⟩

theorem full_of_stuck (h : (restingDiscipline T relock P hc).Inv p) (hcalled : Called p)
    (hstuck : ¬ Moves (roundSystem relock P) p) :
    p.shared.world.arrived.length = Fintype.card T := by
  by_cases hall : ∀ t, p.thread t ≠ none
  · apply le_antisymm h.shared.sound.le
    have hsub : (Finset.univ : Finset T).toList ⊆ p.shared.world.arrived := fun t _ =>
      (starved_of_stuck h hstuck (hall t)).arrived
    have hle := (List.subperm_of_subset (Finset.nodup_toList _) hsub).length_le
    simpa using hle
  · obtain ⟨t, ht⟩ := not_forall.mp hall
    exact (paid_of_none h hcalled (not_not.mp ht)).2

/-- The last one to arrive has posted, whether it is still in its call or not. -/
theorem posted_of_stuck (h : (restingDiscipline T relock P hc).Inv p) (hcalled : Called p)
    (hstuck : ¬ Moves (roundSystem relock P) p) (hpos : 0 < Fintype.card T) :
    Fintype.card T ≤ p.shared.posted := by
  have hlt : Fintype.card T - 1 < p.shared.world.arrived.length := by
    rw [full_of_stuck h hcalled hstuck]
    omega
  have hplace : place p.shared.world p.shared.world.arrived[Fintype.card T - 1] =
      some (Fintype.card T - 1) := by
    rw [place, if_pos (List.getElem_mem hlt), h.shared.sound.nodup.idxOf_getElem]
  have hposter : p.shared.world.arrived[Fintype.card T - 1] ∈ p.shared.posters := by
    by_cases hnone : p.thread p.shared.world.arrived[Fintype.card T - 1] = none
    · obtain ⟨hpaid, -⟩ := paid_of_none h hcalled hnone
      have hdue := hpaid.last hplace
      rw [← hpaid.poster] at hdue
      exact of_decide_eq_true hdue
    · exact (starved_of_stuck h hstuck hnone).last hplace
  rw [h.shared.posts]
  exact Nat.le_mul_of_pos_right _ (Finset.card_pos.mpr ⟨_, hposter⟩)

theorem granted_of_stuck (h : (restingDiscipline T relock P hc).Inv p) (hcalled : Called p)
    (hstuck : ¬ Moves (roundSystem relock P) p) :
    p.shared.world.barrier.sem.granted = ∅ := by
  rw [Finset.eq_empty_iff_forall_notMem]
  intro t ht
  by_cases hnone : p.thread t = none
  · obtain ⟨hpaid, -⟩ := paid_of_none h hcalled hnone
    exact of_decide_eq_false hpaid.asked (Finset.mem_union_right _ ht)
  · exact (starved_of_stuck h hstuck hnone).ungranted ht

/-- If no call in progress can go on, all of them have returned: there is a unit for everybody, and
a thread that waits for one would have to find it. -/
theorem complete_of_stuck (h : (restingDiscipline T relock P hc).Inv p) (hcalled : Called p)
    (hstuck : ¬ Moves (roundSystem relock P) p) : Complete p := by
  have hnone (t : T) : p.thread t = none := by
    by_contra ht
    have hstarved := starved_of_stuck h hstuck ht
    have hposted := posted_of_stuck h hcalled hstuck (Fintype.card_pos_iff.mpr ⟨t⟩)
    have hcount : p.shared.world.barrier.sem.count = 0 := h.shared.sem.no_idle ⟨t, hstarved.queued⟩
    have htaken : p.shared.taken.card < Fintype.card T :=
      Finset.card_lt_univ_of_notMem hstarved.untaken
    have hunits := h.shared.units
    rw [granted_of_stuck h hcalled hstuck, Finset.card_empty] at hunits
    omega
  intro t
  exact ⟨hnone t, (hcalled t).resolve_left (not_not.mpr (hnone t))⟩

end Stuck

section Runs
variable {relock : Bool} {P : Platform} {p p' : RoundPool T} {as : List (Action T (Finset T) ℕ)}

def made (p : RoundPool T) (t : T) : ℕ :=
  p.shared.world.calls t + if p.thread t = none then 0 else 1

theorem barrierExec_calls {t : T} {woken : Finset T} {e : BarrierOp} {r : BarrierAns e}
    {v w : World T} (hs : barrierExec relock P t e woken v = some (r, w)) : w.calls = v.calls := by
  cases e with
  | mutLock =>
    obtain ⟨x, -, heq⟩ := Option.map_eq_some_iff.mp hs
    cases heq
    rfl
  | semPostN n =>
    obtain ⟨x, -, heq⟩ := Option.map_eq_some_iff.mp hs
    cases heq
    rfl
  | semResult =>
    obtain ⟨x, -, heq⟩ := Option.map_eq_some_iff.mp hs
    cases heq
    rfl
  | mutUnlock =>
    cases hs
    rfl
  | curThread =>
    cases hs
    rfl
  | setCurThread n =>
    cases hs
    rfl
  | threshold =>
    cases hs
    rfl
  | semGet =>
    cases hs
    rfl

theorem step_made {a : Action T (Finset T) ℕ} (hs : step (roundSystem relock P) p a = some p')
    (t : T) : made p' t = made p t + callsOf t [a] ∧ (made p t ≤ 1 → made p' t ≤ 1) := by
  cases a with
  | enter u k =>
    obtain ⟨hu, s, henter, rfl⟩ := step_enter.mp hs
    simp only [roundSystem] at henter
    split_ifs at henter with hk
    cases henter
    by_cases htu : u = t
    · subst u
      simp [made, callsOf, hu, hk.2]
    · simp [made, callsOf, Pool.set_thread_of_ne p _ (Ne.symm htu), htu]
  | run u woken =>
    obtain ⟨k, e, f, hu, r, s, hexec, rfl⟩ := step_run.mp hs
    obtain ⟨⟨r', w⟩, hw, heq⟩ := Option.map_eq_some_iff.mp hexec
    cases heq
    have hcalls := barrierExec_calls hw
    by_cases htu : u = t
    · subst u
      simp [made, callsOf, hu, hcalls]
    · simp [made, callsOf, Pool.set_thread_of_ne p _ (Ne.symm htu), hcalls]
  | leave u =>
    obtain ⟨k, v, hu, rfl⟩ := step_leave.mp hs
    by_cases htu : u = t
    · subst u
      simp [made, callsOf, hu, roundSystem]
    · simp [made, callsOf, roundSystem, Ne.symm htu]

theorem callsOf_cons (t : T) (a : Action T (Finset T) ℕ) (as : List (Action T (Finset T) ℕ)) :
    callsOf t (a :: as) = callsOf t [a] + callsOf t as := by
  cases a with
  | enter u k => simp [callsOf]
  | run u woken => simp [callsOf]
  | leave u => simp [callsOf]

theorem execute_made (hrun : execute (step (roundSystem relock P)) p as = some p') (t : T) :
    made p' t = made p t + callsOf t as ∧ (made p t ≤ 1 → made p' t ≤ 1) := by
  induction as generalizing p with
  | nil =>
    cases hrun
    exact ⟨rfl, id⟩
  | cons a as ih =>
    obtain ⟨u, hu, hrest⟩ := execute_cons.mp hrun
    obtain ⟨hmade, hone⟩ := step_made hu t
    obtain ⟨hmades, hones⟩ := ih hrest
    rw [callsOf_cons]
    exact ⟨by omega, fun h => hones (hone h)⟩

theorem round_made {s : Units T} (hs : ∀ t, s.world.calls t = 0)
    (hrun : execute (step (roundSystem relock P)) (idlePool s) as = some p) (t : T) :
    callsOf t as ≤ 1 ∧ made p t ≤ 1 := by
  obtain ⟨hmade, hone⟩ := execute_made hrun t
  have hzero : made (idlePool s : RoundPool T) t = 0 := by simp [made, idlePool, hs t]
  have hle := hone (by omega)
  omega

theorem enter_of_not_called (hmade : ∀ t, made p t ≤ 1) (h : ¬ Called p) :
    ∃ a p', step (roundSystem relock P) p a = some p' := by
  obtain ⟨t, ht⟩ := not_forall.mp h
  obtain ⟨hnone, hcalls⟩ := not_or.mp ht
  rw [not_not] at hnone
  have hle : p.shared.world.calls t ≤ 1 := (Nat.le_add_right _ _).trans (hmade t)
  have hzero : p.shared.world.calls t = 0 := by omega
  exact ⟨.enter t 0, _, step_enter.mpr ⟨hnone, p.shared, if_pos ⟨rfl, hzero⟩, rfl⟩⟩

variable [Fintype T] [Nonempty T]

theorem roundStart_resting (relock : Bool) (P : Platform) (b : PthreadBarrier T)
    (hc : Fintype.card T < 2 ^ 32) :
    (restingDiscipline T relock P hc).Inv (idlePool (roundStart b (Fintype.card T))) := by
  have hround : (roundDiscipline T relock P hc).Inv (idlePool (roundStart b (Fintype.card T))) :=
    roundStart_inv b hc
  exact ⟨hround.shared, hround.threads⟩

/-- A round of as many threads as the barrier waits for always comes to an end: its runs are of
bounded length, a state in which every thread has called is complete or one of the calls can go on,
and every run can be carried on until all the calls have returned. -/
theorem pthreadBarrierWait_completes (relock : Bool) (P : Platform) (b : PthreadBarrier T)
    (hc : Fintype.card T < 2 ^ 32) (as : List (Action T (Finset T) ℕ)) (p : RoundPool T)
    (hrun : execute (step (roundSystem relock P)) (idlePool (roundStart b (Fintype.card T))) as =
      some p) :
    as.length ≤ 14 * Fintype.card T ∧
      (Called p → Complete p ∨ Moves (roundSystem relock P) p) ∧
      ∃ bs q, execute (step (roundSystem relock P)) p bs = some q ∧ Complete q := by
  have hbound (as : List (Action T (Finset T) ℕ)) (p : RoundPool T)
      (hrun : execute (step (roundSystem relock P)) (idlePool (roundStart b (Fintype.card T))) as =
        some p) : as.length ≤ 14 * Fintype.card T :=
    length_le (m := 1) (fun _ _ => pthreadBarrierWait_within) hrun fun t =>
      (round_made (fun _ => rfl) hrun t).1
  have hmoves (as : List (Action T (Finset T) ℕ)) (p : RoundPool T)
      (hrun : execute (step (roundSystem relock P)) (idlePool (roundStart b (Fintype.card T))) as =
        some p) (hcalled : Called p) : Complete p ∨ Moves (roundSystem relock P) p := by
    have hinv : (restingDiscipline T relock P hc).Inv p :=
      (roundStart_resting relock P b hc).execute_all (fun _ _ _ _ => trivial) hrun
    by_cases hstuck : Moves (roundSystem relock P) p
    · exact .inr hstuck
    · exact .inl (complete_of_stuck hinv hcalled hstuck)
  refine ⟨hbound as p hrun, hmoves as p hrun, completes hbound ?_ hrun⟩
  intro as p hrun
  by_cases hcalled : Called p
  · rcases hmoves as p hrun hcalled with hdone | ⟨a, p', -, hs⟩
    · exact .inl hdone
    · exact .inr ⟨a, p', hs⟩
  · exact .inr (enter_of_not_called (fun t => (round_made (fun _ => rfl) hrun t).2) hcalled)

end Runs

/-- The first of two threads is queued at the semaphore, the second one has not called yet. -/
theorem pthreadBarrierWait_completes_two : ∃ p,
    execute (step (roundSystem true platform1000)) (idlePool (roundStart rawBarrier 2))
      (.enter false 0 :: runs false 9) = some p ∧ p.request false = some .semResult ∧
      ∃ bs q, execute (step (roundSystem true platform1000)) p bs = some q ∧ Complete q := by
  have hrun : ((execute (step (roundSystem true platform1000)) (idlePool (roundStart rawBarrier 2))
      (.enter false 0 :: runs false 9)).map fun p => p.request false) =
      some (some .semResult) := by
    decide +kernel
  obtain ⟨p, hp, hrequest⟩ := Option.map_eq_some_iff.mp hrun
  have hall := pthreadBarrierWait_completes true platform1000 rawBarrier (by decide) _ p hp
  exact ⟨p, hp, hrequest, hall.2.2⟩

end LibPosix.BarrierProgress
