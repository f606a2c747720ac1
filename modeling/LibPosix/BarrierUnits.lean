import LibPosix.BarrierRound

/-! The units a barrier round posts. Every thread of a round calls once; next to the barrier it is
written down who has found it full outside the lock, who has posted, and who has taken a unit. -/
namespace LibPosix.BarrierUnits
open Program ThreadPool Transition Kernel Barrier BarrierRound
variable {T : Type} [DecidableEq T]

/-- `due` are the threads whose check outside the lock was true, `posted` is the number of units
that have been posted by the threads `posters`. -/
structure Units (T : Type) where
  world : World T
  due : Finset T
  posters : Finset T
  posted : ℕ
  taken : Finset T

/-- What a request of `t` adds to the notes; `w` is the barrier after it. -/
def Units.note (s : Units T) (t : T) (w : World T) : (e : BarrierOp) → BarrierAns e → Units T
  | .curThread, _ =>
    if s.world.barrier.mux.own ≠ some t ∧ s.world.barrier.threshold ≤ s.world.barrier.curThread then
      { s with world := w, due := insert t s.due }
    else { s with world := w }
  | .semPostN n, _ =>
    { s with world := w, posters := insert t s.posters, posted := s.posted + n }
  | .semGet, true => { s with world := w, taken := insert t s.taken }
  | .semResult, true => { s with world := w, taken := insert t s.taken }
  | _, _ => { s with world := w }

/-- The threads of one round: each calls `pthread_barrier_wait` once. -/
def roundSystem (relock : Bool) (P : Platform) :
    System T BarrierOp BarrierAns (Finset T) (Units T) ℕ WaitValue where
  code _ _ := pthreadBarrierWait
  exec t e woken s := (barrierExec relock P t e woken s.world).map fun r =>
    (r.1, s.note t r.2 e r.1)
  enter t k s := if k = 0 ∧ s.world.calls t = 0 then some s else none
  leave t k v s := { s with world := s.world.log ⟨t, k, v⟩ }

@[simp] theorem Units.note_world (s : Units T) (t : T) (w : World T) (e : BarrierOp)
    (r : BarrierAns e) : (s.note t w e r).world = w := by
  cases e with
  | curThread =>
    simp only [note]
    split_ifs
    · rfl
    · rfl
  | semGet =>
    cases r with
    | false => rfl
    | true => rfl
  | semResult =>
    cases r with
    | false => rfl
    | true => rfl
  | mutLock => rfl
  | mutUnlock => rfl
  | setCurThread n => rfl
  | threshold => rfl
  | semPostN n => rfl

abbrev RoundPool (T : Type) := Pool T BarrierOp BarrierAns (Units T) ℕ WaitValue

def roundStart (b : PthreadBarrier T) (count : ℕ) : Units T :=
  ⟨freshWorld b count, ∅, ∅, 0, ∅⟩

def Complete (p : RoundPool T) : Prop :=
  ∀ t, p.thread t = none ∧ p.shared.world.calls t = 1

/-- Outside the lock only the last thread to arrive finds the barrier full. -/
def LastOnly (c : ℕ) (s : Units T) (t : T) (e : BarrierOp) (_ : Finset T) : Prop :=
  e = .curThread → s.world.barrier.mux.own ≠ some t →
    s.world.barrier.threshold ≤ s.world.barrier.curThread → place s.world t = some (c - 1)

instance (c : ℕ) (s : Units T) (t : T) (e : BarrierOp) (woken : Finset T) :
    Decidable (LastOnly c s t e woken) := inferInstanceAs (Decidable (_ → _ → _ → _))

/-- What a thread knows of the units: whether it holds the lock, its place among those that have
arrived, and its own notes; `asked` while it waits for a unit. -/
structure Share where
  holds : Bool
  place : Option ℕ
  due : Bool
  poster : Bool
  asked : Bool
  taken : Bool
  deriving DecidableEq

def Share.fresh : Share := ⟨false, none, false, false, false, false⟩

/-- One post of `c` units by a thread that has found the barrier full, one unit for each. -/
def posting (c : ℕ) : Protocol BarrierOp BarrierAns Share where
  safe
    | l, .curThread => l.holds = false → l.place ≠ none
    | l, .semPostN n => n = c ∧ l.due = true ∧ l.poster = false
    | l, .semGet => l.asked = false ∧ l.taken = false
    | l, .semResult => l.taken = false
    | _, _ => True
  after
    | l, .mutLock, _, l' => l' = { l with holds := true }
    | l, .mutUnlock, _, l' => l' = { l with holds := false }
    | l, .curThread, r, l' => (l.place = some (c - 1) → c ≤ r) ∧
        l' = { l with due := l.due || !l.holds && decide (c ≤ r) }
    | l, .setCurThread n, _, l' => l' = { l with place := some (n - 1) }
    | l, .threshold, r, l' => r = c ∧ l' = l
    | l, .semPostN _, _, l' => l' = { l with poster := true }
    | l, .semGet, r, l' => l' = { l with asked := !r, taken := r }
    | l, .semResult, r, l' => r = true ∧ l' = { l with asked := false, taken := true }

/-- A thread that has been through the barrier: it has taken one unit, and has posted if it found
the barrier full, as the last one to arrive did. -/
structure Paid (c : ℕ) (l : Share) : Prop where
  holds : l.holds = false
  asked : l.asked = false
  taken : l.taken = true
  poster : l.poster = l.due
  last : l.place = some (c - 1) → l.due = true

section Calls
variable {c : ℕ}

theorem getUnit_paid {l : Share} {post : Unit → Share → Prop} (hasked : l.asked = false)
    (htaken : l.taken = false) (h : post () { l with taken := true }) :
    getUnit.Obeys (posting c) l post := by
  obtain ⟨holds, place, due, poster, asked, taken⟩ := l
  obtain rfl : asked = false := hasked
  simp only [getUnit, Prog.obeys_bind, Prog.obeys_request, Prog.obeys_ite, Prog.pure_eq,
    Prog.obeys_ret]
  refine ⟨⟨rfl, htaken⟩, ?_⟩
  intro r l' hl'
  cases hl'
  constructor
  · intro hr
    obtain rfl : r = false := hr
    refine ⟨rfl, ?_⟩
    intro r l' hl'
    obtain ⟨-, rfl⟩ := hl'
    exact h
  · intro hr
    obtain rfl : r = true := by simpa using hr
    exact h

theorem release_pays (n : ℕ) (v : WaitValue) (post : WaitValue → Share → Prop)
    (h : ∀ l, Paid c l → post v l) :
    (do
      if (← ask .curThread) ≥ (← ask .threshold) then
        ask (.semPostN (← ask .threshold))
      getUnit
      return v : Prog BarrierOp BarrierAns WaitValue).Obeys (posting c)
        ⟨false, some n, false, false, false, false⟩ post := by
  simp only [Prog.obeys_bind, Prog.obeys_request, Prog.obeys_ite]
  refine ⟨by simp [posting], ?_⟩
  intro r l hl
  obtain ⟨hlast, rfl⟩ := hl
  refine ⟨trivial, ?_⟩
  intro t l hl
  obtain ⟨rfl, rfl⟩ := hl
  constructor
  · intro hfull
    refine ⟨trivial, ?_⟩
    intro t' l hl
    obtain ⟨rfl, rfl⟩ := hl
    have hdue : (false || !false && decide (t' ≤ r)) = true := by simpa using hfull
    refine ⟨⟨rfl, hdue, rfl⟩, ?_⟩
    intro _ l hl
    cases hl
    apply getUnit_paid rfl rfl
    exact h _ ⟨rfl, rfl, rfl, hdue.symm, fun _ => hdue⟩
  · intro hfew
    apply getUnit_paid rfl rfl
    have hdue : (false || !false && decide (t ≤ r)) = false := by simpa using hfew
    exact h _ ⟨rfl, rfl, rfl, hdue.symm, fun hp => absurd (hlast hp) (not_le.mpr (not_le.mp hfew))⟩

theorem pthreadBarrierWait_pays : pthreadBarrierWait.Obeys (posting c) .fresh fun v l =>
    l.holds = false ∧ (v ≠ .EINVAL → Paid c l) := by
  simp only [pthreadBarrierWait, Prog.obeys_bind, Prog.obeys_request, Prog.obeys_ite,
    Prog.pure_eq, Prog.obeys_ret]
  refine ⟨trivial, ?_⟩
  intro _ l hl
  cases hl
  refine ⟨by simp [posting], ?_⟩
  intro r l hl
  obtain ⟨-, rfl⟩ := hl
  refine ⟨trivial, ?_⟩
  intro t l hl
  obtain ⟨-, rfl⟩ := hl
  constructor
  · intro _
    refine ⟨trivial, ?_⟩
    intro _ l hl
    cases hl
    exact ⟨rfl, fun hv => absurd rfl hv⟩
  · intro _
    refine ⟨by simp [posting], ?_⟩
    intro r' l hl
    obtain ⟨-, rfl⟩ := hl
    refine ⟨trivial, ?_⟩
    intro _ l hl
    cases hl
    refine ⟨trivial, ?_⟩
    intro _ l hl
    cases hl
    have hrest := release_pays (MachineInt.unsigned 32 ((r' : ℤ) + 1) - 1)
      (waitValue (MachineInt.unsigned 32 ((r' : ℤ) + 1)))
      (fun v l => l.holds = false ∧ (v ≠ .EINVAL → Paid c l))
      (fun l hl => ⟨hl.holds, fun _ => hl⟩)
    simp only [Prog.obeys_bind, Prog.obeys_request, Prog.obeys_ite, Prog.pure_eq,
      Prog.obeys_ret] at hrest
    exact hrest

end Calls

def shareOf (s : Units T) (t : T) : Share :=
  ⟨(localOf s.world t).cur.isSome, (localOf s.world t).place, decide (t ∈ s.due),
    decide (t ∈ s.posters),
    decide (t ∈ s.world.barrier.sem.blocked ∪ s.world.barrier.sem.granted), decide (t ∈ s.taken)⟩

/-- Every unit that has been posted is in the count, on its way to a thread, or taken. -/
structure Accounts (c : ℕ) (s : Units T) : Prop where
  sound : Sound c s.world
  sem : s.world.barrier.sem.Valid
  posts : s.posted = c * s.posters.card
  units : s.world.barrier.sem.count + s.world.barrier.sem.granted.card + s.taken.card = s.posted
  due : ∀ t ∈ s.due, t ∈ s.world.arrived
  posters : s.posters ⊆ s.due

section Steps
variable {relock : Bool} {P : Platform} {c : ℕ} {s s' : Units T} {w : World T} {t : T}
  {woken : Finset T}

theorem barrierExec_arrived {e : BarrierOp} {r : BarrierAns e} {v : World T}
    (hs : barrierExec relock P t e woken v = some (r, w)) : v.arrived <+: w.arrived := by
  cases e with
  | mutLock =>
    obtain ⟨x, -, heq⟩ := Option.map_eq_some_iff.mp hs
    cases heq
    exact List.prefix_rfl
  | mutUnlock =>
    cases hs
    exact List.prefix_rfl
  | curThread =>
    cases hs
    exact List.prefix_rfl
  | setCurThread n =>
    cases hs
    exact List.prefix_append _ _
  | threshold =>
    cases hs
    exact List.prefix_rfl
  | semPostN n =>
    obtain ⟨x, -, heq⟩ := Option.map_eq_some_iff.mp hs
    cases heq
    exact List.prefix_rfl
  | semGet =>
    cases hs
    exact List.prefix_rfl
  | semResult =>
    obtain ⟨x, -, heq⟩ := Option.map_eq_some_iff.mp hs
    cases heq
    exact List.prefix_rfl

theorem place_grows {v : World T} (ht : t ∈ v.arrived) (hp : v.arrived <+: w.arrived) :
    place w t = place v t := by
  obtain ⟨rest, hrest⟩ := hp
  simp [place, ← hrest, ht, List.idxOf_append_of_mem ht]

theorem Accounts.frame (h : Accounts c s) (hw : Sound c w)
    (hsem : w.barrier.sem = s.world.barrier.sem) (hp : s.world.arrived <+: w.arrived) :
    Accounts c { s with world := w } :=
  ⟨hw, by rw [hsem]; exact h.sem, h.posts, by rw [hsem]; exact h.units,
    fun u hu => hp.subset (h.due u hu), h.posters⟩

theorem shareOf_frame (hsem : w.barrier.sem = s.world.barrier.sem) (u : T) :
    shareOf { s with world := w } u =
      { shareOf s u with
        holds := (localOf w u).cur.isSome
        place := (localOf w u).place } := by
  simp [shareOf, hsem]

/-- The posted units are split between the threads that are woken and the count. -/
theorem Accounts.semPostN {n : ℕ} {q : Sem T} (h : Accounts c s) (hn : n = c)
    (hw : Sound c (s.world.setSem q)) (hdue : t ∈ s.due) (hposter : t ∉ s.posters)
    (hq : semPostN n woken s.world.barrier.sem = some q) :
    Accounts c (s.note t (s.world.setSem q) (.semPostN n) ()) := by
  have hvalid := semPostN_valid h.sem hq
  obtain ⟨hsub, hcard, rfl⟩ := semPostN_some hq
  have hle : woken.card ≤ n := hcard ▸ min_le_left _ _
  have hgranted : (s.world.barrier.sem.granted ∪ woken).card =
      s.world.barrier.sem.granted.card + woken.card :=
    Finset.card_union_of_disjoint (h.sem.disjoint.mono_left hsub).symm
  have hposts := h.posts
  have hunits := h.units
  refine ⟨hw, hvalid, ?_, ?_, h.due, Finset.insert_subset hdue h.posters⟩
  · simp only [Units.note, Finset.card_insert_of_notMem hposter, hn]
    rw [hposts]
    ring
  · simp only [Units.note, World.setSem_barrier_sem, hgranted]
    omega

theorem Accounts.semGet (h : Accounts c s) (hw : Sound c w)
    (hasked : t ∉ s.world.barrier.sem.granted)
    (htaken : t ∉ s.taken) (hp : s.world.arrived <+: w.arrived)
    (hsem : w.barrier.sem = (semGet t s.world.barrier.sem).2) :
    Accounts c (s.note t w .semGet (semGet t s.world.barrier.sem).1) := by
  have hunits := h.units
  unfold Kernel.semGet at hsem ⊢
  by_cases hpos : 0 < s.world.barrier.sem.count
  · rw [if_pos hpos] at hsem ⊢
    have hidle : ¬ s.world.barrier.sem.blocked.Nonempty := fun hb => by
      have := h.sem.no_idle hb
      omega
    refine ⟨hw, ?_, h.posts, ?_, fun u hu => hp.subset (h.due u hu), h.posters⟩
    · simp only [Units.note, hsem]
      exact ⟨fun hb => absurd hb hidle, h.sem.disjoint⟩
    · simp only [Units.note, hsem, Finset.card_insert_of_notMem htaken]
      omega
  · rw [if_neg hpos] at hsem ⊢
    refine ⟨hw, ?_, h.posts, ?_, fun u hu => hp.subset (h.due u hu), h.posters⟩
    · simp only [Units.note, hsem]
      constructor
      · intro _
        exact Nat.eq_zero_of_not_pos hpos
      · exact Finset.disjoint_insert_left.mpr ⟨hasked, h.sem.disjoint⟩
    · simp only [Units.note, hsem]
      exact hunits

theorem Accounts.semResult (h : Accounts c s) (hw : Sound c w) (htaken : t ∉ s.taken)
    (hgranted : t ∈ s.world.barrier.sem.granted) (hp : s.world.arrived <+: w.arrived)
    (hsem : w.barrier.sem = { s.world.barrier.sem with
      granted := s.world.barrier.sem.granted.erase t }) :
    Accounts c (s.note t w .semResult true) := by
  have hunits := h.units
  have hcard := Finset.card_erase_add_one hgranted
  refine ⟨hw, ?_, h.posts, ?_, fun u hu => hp.subset (h.due u hu), h.posters⟩
  · simp only [Units.note, hsem]
    exact ⟨h.sem.no_idle, h.sem.disjoint.mono_right (Finset.erase_subset _ _)⟩
  · simp only [Units.note, hsem, Finset.card_insert_of_notMem htaken]
    omega

structure Keeps (c : ℕ) (s : Units T) (t : T) (e : BarrierOp) (r : BarrierAns e) (s' : Units T) :
    Prop where
  accounts : Accounts c s'
  waits : (waiting T c).after (localOf s.world t) e r (localOf s'.world t)
  posts : (posting c).after (shareOf s t) e r (shareOf s' t)
  others : ∀ u, u ≠ t → localOf s'.world u = localOf s.world u ∧ shareOf s' u = shareOf s u

/-- What another thread knows changes only with its place in the queue of the semaphore. -/
theorem shareOf_others {e : BarrierOp} {r : BarrierAns e} {u : T} (hu : u ≠ t)
    (hlocal : localOf w u = localOf s.world u)
    (hasked : u ∈ w.barrier.sem.blocked ∪ w.barrier.sem.granted ↔
      u ∈ s.world.barrier.sem.blocked ∪ s.world.barrier.sem.granted) :
    shareOf (s.note t w e r) u = shareOf s u := by
  have hworld : shareOf { s with world := w } u = shareOf s u := by
    simp only [shareOf, hlocal, hasked]
  rw [← hworld]
  cases e with
  | curThread =>
    simp only [Units.note]
    split_ifs
    · simp [shareOf, hu]
    · rfl
  | semGet =>
    cases r with
    | false => rfl
    | true =>
      dsimp only [Units.note, shareOf]
      simp [hu]
  | semResult =>
    cases r with
    | false => rfl
    | true =>
      dsimp only [Units.note, shareOf]
      simp [hu]
  | semPostN n =>
    dsimp only [Units.note, shareOf]
    simp [hu]
  | mutLock => rfl
  | mutUnlock => rfl
  | setCurThread n => rfl
  | threshold => rfl

theorem keeps_frame {e : BarrierOp} {r : BarrierAns e} (h : Accounts c s) (hw : Sound c w)
    (hwaits : (waiting T c).after (localOf s.world t) e r (localOf w t))
    (hsem : w.barrier.sem = s.world.barrier.sem) (hp : s.world.arrived <+: w.arrived)
    (hposts : (posting c).after (shareOf s t) e r { shareOf s t with
      holds := (localOf w t).cur.isSome
      place := (localOf w t).place })
    (hothers : ∀ u, u ≠ t → localOf w u = localOf s.world u) :
    Keeps c s t e r { s with world := w } := by
  refine ⟨h.frame hw hsem hp, hwaits, by rw [shareOf_frame hsem]; exact hposts, ?_⟩
  intro u hu
  refine ⟨hothers u hu, ?_⟩
  rw [shareOf_frame hsem, hothers u hu]
  rfl

theorem holds_iff {v : World T} :
    (localOf v t).cur.isSome = true ↔ v.barrier.mux.own = some t := by
  rw [Option.isSome_iff_ne_none, Ne, localOf_cur_none, not_not]

theorem place_last (h : Sound c w) (hp : place w t = some (c - 1)) : c ≤ w.barrier.curThread := by
  simp only [place] at hp
  split_ifs at hp with hmem
  have hlt : w.arrived.idxOf t < w.arrived.length := List.idxOf_lt_length_of_mem hmem
  have hidx : w.arrived.idxOf t = c - 1 := Option.some.inj hp
  rw [h.count]
  omega

theorem keeps_curThread (h : Accounts c s)
    (hpost : (posting c).safe (shareOf s t) .curThread) {r : ℕ}
    (hexec : barrierExec relock P t .curThread woken s.world = some (r, w)) :
    Keeps c s t .curThread r (s.note t w .curThread r) := by
  obtain ⟨hw, hwaits, hothers⟩ := exec_sound (e := .curThread) h.sound trivial hexec
  cases hexec
  have hlocal : localOf (s.world.learn t _) t = _ := hwaits.2.2.2
  have hthreshold := h.sound.threshold
  have hlast : (shareOf s t).place = some (c - 1) → c ≤ s.world.barrier.curThread :=
    place_last h.sound
  by_cases hfull : s.world.barrier.mux.own ≠ some t ∧
      s.world.barrier.threshold ≤ s.world.barrier.curThread
  · have hout : (shareOf s t).holds = false := by
      rw [Bool.eq_false_iff]
      exact mt holds_iff.mp hfull.1
    have harrived : t ∈ s.world.arrived := by
      by_contra hn
      exact hpost hout (place_eq_none.mpr hn)
    simp only [Units.note, if_pos hfull]
    refine ⟨⟨hw, h.sem, h.posts, h.units, ?_, h.posters.trans (Finset.subset_insert _ _)⟩,
      hwaits, ⟨hlast, ?_⟩, ?_⟩
    · intro u hu
      rcases Finset.mem_insert.mp hu with rfl | hu
      · exact harrived
      · exact h.due u hu
    · have hc : c ≤ s.world.barrier.curThread := hthreshold ▸ hfull.2
      have hcur : (localOf s.world t).cur = none := localOf_cur_none.mpr hfull.1
      rw [hout]
      simp [shareOf, hlocal, hc, hcur]
    · intro u hu
      have hshare := shareOf_others (e := .curThread) (r := s.world.barrier.curThread) hu
        (hothers u hu) Iff.rfl
      simp only [Units.note, if_pos hfull] at hshare
      exact ⟨hothers u hu, hshare⟩
  · simp only [Units.note, if_neg hfull]
    refine keeps_frame h hw hwaits rfl List.prefix_rfl ⟨hlast, ?_⟩ hothers
    have hnot : (!(shareOf s t).holds && decide (c ≤ s.world.barrier.curThread)) = false := by
      rw [Bool.eq_false_iff]
      intro ht
      simp only [Bool.and_eq_true, Bool.not_eq_true', decide_eq_true_eq] at ht
      apply hfull
      constructor
      · intro hown
        have hin : (shareOf s t).holds = true := holds_iff.mpr hown
        rw [ht.1] at hin
        cases hin
      · rw [hthreshold]
        exact ht.2
    rw [hnot, Bool.or_false, hlocal]
    rfl

theorem keeps_semPostN (h : Accounts c s) {n : ℕ}
    (hwait : (waiting T c).safe (localOf s.world t) (.semPostN n))
    (hpost : (posting c).safe (shareOf s t) (.semPostN n))
    (hexec : barrierExec relock P t (.semPostN n) woken s.world = some ((), w)) :
    Keeps c s t (.semPostN n) () (s.note t w (.semPostN n) ()) := by
  obtain ⟨hw, hwaits, hothers⟩ := exec_sound h.sound hwait hexec
  obtain ⟨q, hq, heq⟩ := Option.map_eq_some_iff.mp hexec
  cases heq
  have hposter : t ∉ s.posters := of_decide_eq_false hpost.2.2
  have hdue : t ∈ s.due := of_decide_eq_true hpost.2.1
  have hasked : q.blocked ∪ q.granted =
      s.world.barrier.sem.blocked ∪ s.world.barrier.sem.granted := by
    obtain ⟨hsub, -, rfl⟩ := semPostN_some hq
    simp only
    rw [Finset.union_comm _ woken, ← Finset.union_assoc, Finset.sdiff_union_of_subset hsub]
  refine ⟨h.semPostN hpost.1 hw hdue hposter hq, hwaits, ?_, ?_⟩
  · have hlocal : localOf (s.world.setSem q) t = localOf s.world t := hwaits
    dsimp only [posting, shareOf, Units.note]
    simp [hasked, hlocal]
  · intro u hu
    exact ⟨hothers u hu,
      shareOf_others hu (hothers u hu) (by rw [World.setSem_barrier_sem, hasked])⟩

theorem keeps_semGet (h : Accounts c s) (hpost : (posting c).safe (shareOf s t) .semGet) {r : Bool}
    (hexec : barrierExec relock P t .semGet woken s.world = some (r, w)) :
    Keeps c s t .semGet r (s.note t w .semGet r) := by
  obtain ⟨hw, hwaits, hothers⟩ := exec_sound (e := .semGet) h.sound trivial hexec
  cases hexec
  obtain ⟨hasked, htaken⟩ := hpost
  simp only [shareOf, decide_eq_false_iff_not, Finset.mem_union, not_or] at hasked htaken
  have haccounts := h.semGet hw hasked.2 htaken List.prefix_rfl rfl
  by_cases hpos : 0 < s.world.barrier.sem.count
  · have hget : semGet t s.world.barrier.sem =
        (true, { s.world.barrier.sem with count := s.world.barrier.sem.count - 1 }) := if_pos hpos
    rw [hget] at haccounts hwaits hothers ⊢
    have hlocal := show localOf ((s.world.setSem _).learn t _) t = _ from hwaits
    refine ⟨haccounts, hwaits, ?_, ?_⟩
    · dsimp only [posting, shareOf, Units.note]
      rw [hlocal]
      simp [hasked.1, hasked.2]
    · intro u hu
      exact ⟨hothers u hu, shareOf_others hu (hothers u hu) (by simp)⟩
  · have hget : semGet t s.world.barrier.sem =
        (false, { s.world.barrier.sem with blocked := insert t s.world.barrier.sem.blocked }) :=
      if_neg hpos
    rw [hget] at haccounts hwaits hothers ⊢
    have hlocal := show localOf ((s.world.setSem _).learn t _) t = _ from hwaits
    refine ⟨haccounts, hwaits, ?_, ?_⟩
    · dsimp only [posting, shareOf, Units.note]
      rw [hlocal]
      simp [htaken]
    · intro u hu
      exact ⟨hothers u hu, shareOf_others hu (hothers u hu) (by simp [hu])⟩

theorem keeps_semResult (h : Accounts c s) (hpost : (posting c).safe (shareOf s t) .semResult)
    {r : Bool} (hexec : barrierExec relock P t .semResult woken s.world = some (r, w)) :
    Keeps c s t .semResult r (s.note t w .semResult r) := by
  obtain ⟨hw, hwaits, hothers⟩ := exec_sound (e := .semResult) h.sound trivial hexec
  have htaken : t ∉ s.taken := of_decide_eq_false hpost
  obtain ⟨x, hx, heq⟩ := Option.map_eq_some_iff.mp hexec
  simp only [Kernel.semResult] at hx
  split_ifs at hx with hg hz
  · cases hx
    cases heq
    have hblocked : t ∉ s.world.barrier.sem.blocked := Finset.disjoint_right.mp h.sem.disjoint hg
    refine ⟨h.semResult hw htaken hg List.prefix_rfl rfl, hwaits, ⟨rfl, ?_⟩, ?_⟩
    · have hlocal := show localOf ((s.world.setSem _).learn t _) t = _ from hwaits.2
      dsimp only [shareOf, Units.note]
      rw [hlocal]
      simp [hblocked]
    · intro u hu
      exact ⟨hothers u hu, shareOf_others hu (hothers u hu) (by simp [hu])⟩
  · simp at hz

theorem roundExec_keeps {e : BarrierOp} {r : BarrierAns e} (h : Accounts c s)
    (hwait : (waiting T c).safe (localOf s.world t) e) (hpost : (posting c).safe (shareOf s t) e)
    (hs : (roundSystem relock P).exec t e woken s = some (r, s')) : Keeps c s t e r s' := by
  obtain ⟨⟨r', w⟩, hexec, heq⟩ := Option.map_eq_some_iff.mp hs
  obtain ⟨hw, hwaits, hothers⟩ := exec_sound h.sound hwait hexec
  have hp := barrierExec_arrived hexec
  cases e with
  | mutLock =>
    cases heq
    obtain ⟨x, hx, heq⟩ := Option.map_eq_some_iff.mp hexec
    cases heq
    obtain ⟨m, hm⟩ := hwaits
    refine keeps_frame h hw ⟨m, hm⟩ rfl hp ?_ hothers
    rw [hm]
    rfl
  | mutUnlock =>
    cases heq
    cases hexec
    refine keeps_frame h hw hwaits rfl hp ?_ hothers
    rw [show localOf _ t = _ from hwaits]
    rfl
  | setCurThread n =>
    cases heq
    cases hexec
    refine keeps_frame h hw hwaits rfl hp ?_ hothers
    obtain ⟨-, m, hm, -⟩ := hwait
    rw [show localOf _ t = _ from hwaits]
    simp [posting, shareOf, hm]
  | threshold =>
    cases heq
    cases hexec
    exact keeps_frame h hw hwaits rfl hp ⟨h.sound.threshold, rfl⟩ hothers
  | curThread =>
    cases heq
    exact keeps_curThread h hpost hexec
  | semPostN n =>
    cases heq
    exact keeps_semPostN h hwait hpost hexec
  | semGet =>
    cases heq
    exact keeps_semGet h hpost hexec
  | semResult =>
    cases heq
    exact keeps_semResult h hpost hexec

theorem Units.note_due {e : BarrierOp} {r : BarrierAns e} {u : T} : u ∈ (s.note t w e r).due ↔
    u ∈ s.due ∨ u = t ∧ e = .curThread ∧ s.world.barrier.mux.own ≠ some t ∧
      s.world.barrier.threshold ≤ s.world.barrier.curThread := by
  cases e with
  | curThread =>
    by_cases hfull : s.world.barrier.mux.own ≠ some t ∧
        s.world.barrier.threshold ≤ s.world.barrier.curThread
    · simp only [note, if_pos hfull, Finset.mem_insert]
      tauto
    · simp only [note, if_neg hfull]
      tauto
  | semGet =>
    cases r with
    | false => simp [note]
    | true => simp [note]
  | semResult =>
    cases r with
    | false => simp [note]
    | true => simp [note]
  | mutLock => simp [note]
  | mutUnlock => simp [note]
  | setCurThread n => simp [note]
  | threshold => simp [note]
  | semPostN n => simp [note]

end Steps

section Rounds
variable [Fintype T] {relock : Bool} {P : Platform}

structure Idle (c : ℕ) (l : Local × Share) : Prop where
  outside : Outside l.1
  before : l.1.calls = 0 → l.2 = .fresh
  after : 0 < l.1.calls → Paid c l.2

variable (T) in
def roundDiscipline (relock : Bool) (P : Platform) (hc : Fintype.card T < 2 ^ 32) :
    Discipline (roundSystem (T := T) relock P) (Local × Share) where
  toProtocol := (waiting T (Fintype.card T)).prod (posting (Fintype.card T))
  view s t := (localOf s.world t, shareOf s t)
  inv := Accounts (Fintype.card T)
  allowed _ _ _ _ := True
  between _ l := Idle (Fintype.card T) l
  post _ k v l := k = 0 ∧ Settled T (Fintype.card T) 0 v l.1 ∧ l.2.holds = false ∧
    (v ≠ .EINVAL → Paid (Fintype.card T) l.2)
  enter_step := by
    intro s s' t k h hb hs
    simp only [roundSystem] at hs
    split_ifs at hs with hk
    obtain ⟨rfl, hcalls⟩ := hk
    cases hs
    refine ⟨h, ?_, fun u _ => rfl⟩
    have hwait := pthreadBarrierWait_obeys (T := T) hc hb.outside
    have hzero : (localOf s.world t).calls = 0 := hcalls
    rw [hzero] at hwait
    have hfresh : shareOf s t = .fresh := hb.before hzero
    have hpay := pthreadBarrierWait_pays (c := Fintype.card T)
    rw [← hfresh] at hpay
    exact (hwait.prod hpay).mono fun v l hl => ⟨rfl, hl⟩
  exec_step := by
    intro s s' t e woken r h hsafe _ hs
    have hk := roundExec_keeps h hsafe.1 hsafe.2 hs
    refine ⟨hk.accounts, ⟨hk.waits, hk.posts⟩, ?_⟩
    intro u hu
    exact Prod.ext (hk.others u hu).1 (hk.others u hu).2
  leave_step := by
    intro s t k v h hp
    obtain ⟨rfl, hsettled, -, hpaid⟩ := hp
    have hv : v ≠ .EINVAL := hsettled.first few_of_card rfl
    refine ⟨h.frame (h.sound.log hsettled) rfl List.prefix_rfl, ⟨log_outside hsettled, ?_, ?_⟩, ?_⟩
    · intro hz
      simp [localOf, roundSystem] at hz
    · intro _
      exact hpaid hv
    · intro u hu
      exact Prod.ext (log_localOf hu) rfl

theorem roundStart_inv [Nonempty T] (b : PthreadBarrier T) (hc : Fintype.card T < 2 ^ 32) :
    (roundDiscipline T relock P hc).Inv (idlePool (roundStart b (Fintype.card T))) := by
  have hpos : 1 ≤ Fintype.card T := Fintype.card_pos
  have hne : Fintype.card T ≠ 0 := by omega
  have hsem : (freshWorld b (Fintype.card T)).barrier.sem = semInit 0 := by
    simp [freshWorld, pthreadBarrierInit, hne]
  have houtside := freshWorld_outside b hpos
  apply Discipline.idle_inv
  · refine ⟨freshWorld_sound b hpos, ?_, rfl, ?_, ?_, subset_rfl⟩
    · simp only [roundStart, hsem]
      exact semInit_valid 0
    · simp [roundStart, hsem, semInit]
    · simp [roundStart]
  · intro t
    refine ⟨houtside t, ?_, ?_⟩
    · intro _
      have hcur : (localOf (freshWorld b (Fintype.card T)) t).cur = none := (houtside t).unlocked
      have hplace : (localOf (freshWorld b (Fintype.card T)) t).place = none := rfl
      change shareOf (roundStart b (Fintype.card T)) t = .fresh
      simp [shareOf, roundStart, hsem, semInit, hcur, hplace, Share.fresh]
    · intro h
      exact absurd h (Nat.lt_irrefl 0)

def FindsFull (p : RoundPool T) (a : Action T (Finset T) ℕ) (u : T) : Prop :=
  (∃ woken k f, a = .run u woken ∧ p.thread u = some (k, .call .curThread f)) ∧
    p.shared.world.barrier.mux.own ≠ some u ∧
    p.shared.world.barrier.threshold ≤ p.shared.world.barrier.curThread

omit [Fintype T] in
theorem allowed_lastOnly {c : ℕ} {p : RoundPool T} {a : Action T (Finset T) ℕ} :
    Allowed (LastOnly c) p a ↔ ∀ u, FindsFull p a u → place p.shared.world u = some (c - 1) := by
  constructor
  · intro h u hu
    obtain ⟨⟨woken, k, f, rfl, hthread⟩, hown, hfull⟩ := hu
    exact h k _ f hthread rfl hown hfull
  · intro h
    cases a with
    | enter t k => trivial
    | leave t => trivial
    | run t woken =>
      intro k e f hthread he hown hfull
      subst he
      exact h t ⟨⟨woken, k, f, rfl, hthread⟩, hown, hfull⟩

omit [Fintype T] in
theorem step_due {p p' : RoundPool T} {a : Action T (Finset T) ℕ}
    (hs : step (roundSystem relock P) p a = some p') :
    p.shared.world.arrived <+: p'.shared.world.arrived ∧
      ∀ u, u ∈ p'.shared.due ↔ u ∈ p.shared.due ∨ FindsFull p a u := by
  cases a with
  | enter t k =>
    obtain ⟨-, s, henter, rfl⟩ := step_enter.mp hs
    simp only [roundSystem] at henter
    split_ifs at henter
    cases henter
    exact ⟨List.prefix_rfl, by simp [FindsFull]⟩
  | leave t =>
    obtain ⟨k, v, -, rfl⟩ := step_leave.mp hs
    exact ⟨List.prefix_rfl, by simp [FindsFull, roundSystem]⟩
  | run t woken =>
    obtain ⟨k, e, f, ht, r, s, hexec, rfl⟩ := step_run.mp hs
    obtain ⟨⟨r', w⟩, hw, heq⟩ := Option.map_eq_some_iff.mp hexec
    cases heq
    refine ⟨by simpa using barrierExec_arrived hw, ?_⟩
    intro u
    rw [Pool.set_shared, Units.note_due]
    constructor
    · intro h
      rcases h with h | ⟨rfl, rfl, hown, hfull⟩
      · exact .inl h
      · exact .inr ⟨⟨woken, k, f, rfl, ht⟩, hown, hfull⟩
    · intro h
      rcases h with h | ⟨⟨woken', k', f', heq, hthread⟩, hown, hfull⟩
      · exact .inl h
      · cases heq
        rw [ht] at hthread
        cases hthread
        exact .inr ⟨rfl, rfl, hown, hfull⟩

def DueLast (p : RoundPool T) : Prop :=
  ∀ t ∈ p.shared.due, place p.shared.world t = some (Fintype.card T - 1)

section Runs
variable {hc : Fintype.card T < 2 ^ 32} {p p' : RoundPool T} {a : Action T (Finset T) ℕ}

theorem findsFull_arrived (h : (roundDiscipline T relock P hc).Inv p) {u : T}
    (hu : FindsFull p a u) : u ∈ p.shared.world.arrived := by
  obtain ⟨⟨woken, k, f, -, hthread⟩, hown, -⟩ := hu
  have hfollows := h.threads u
  rw [hthread] at hfollows
  have hout : (shareOf p.shared u).holds = false := by
    rw [Bool.eq_false_iff]
    exact mt holds_iff.mp hown
  by_contra hn
  exact hfollows.1.2 hout (place_eq_none.mpr hn)

theorem step_inv (h : (roundDiscipline T relock P hc).Inv p)
    (hs : step (roundSystem relock P) p a = some p') : (roundDiscipline T relock P hc).Inv p' := by
  refine h.step ?_ hs
  cases a with
  | enter t k => trivial
  | run t woken => exact fun _ _ _ _ => trivial
  | leave t => trivial

/-- `DueLast` can only be lost, and is lost exactly in the steps that are not allowed. -/
theorem dueLast_step (h : (roundDiscipline T relock P hc).Inv p)
    (hs : step (roundSystem relock P) p a = some p') :
    DueLast p' ↔ DueLast p ∧ Allowed (LastOnly (Fintype.card T)) p a := by
  obtain ⟨hgrows, hdue⟩ := step_due hs
  rw [allowed_lastOnly]
  constructor
  · intro hlast
    constructor
    · intro t ht
      rw [← place_grows (h.shared.due t ht) hgrows]
      exact hlast t ((hdue t).mpr (.inl ht))
    · intro t ht
      rw [← place_grows (findsFull_arrived h ht) hgrows]
      exact hlast t ((hdue t).mpr (.inr ht))
  · intro hlast t ht
    rcases (hdue t).mp ht with hold | hnew
    · rw [place_grows (h.shared.due t hold) hgrows]
      exact hlast.1 t hold
    · rw [place_grows (findsFull_arrived h hnew) hgrows]
      exact hlast.2 t hnew

theorem dueLast_iff_meets {as : List (Action T (Finset T) ℕ)} {b : PthreadBarrier T} [Nonempty T]
    (hc : Fintype.card T < 2 ^ 32)
    (hrun : execute (step (roundSystem relock P)) (idlePool (roundStart b (Fintype.card T))) as =
      some p) :
    DueLast p ↔ Meets (step (roundSystem relock P)) (Allowed (LastOnly (Fintype.card T)))
      (idlePool (roundStart b (Fintype.card T))) as := by
  have hstart : (roundDiscipline T relock P hc).Inv (idlePool (roundStart b (Fintype.card T))) :=
    roundStart_inv b hc
  have hempty : DueLast (idlePool (roundStart b (Fintype.card T)) : RoundPool T) := by
    intro t ht
    simp [idlePool, roundStart] at ht
  have hall : Throughout (step (roundSystem relock P)) DueLast
      (idlePool (roundStart b (Fintype.card T))) as ↔
        Meets (step (roundSystem relock P)) (Allowed (LastOnly (Fintype.card T)))
          (idlePool (roundStart b (Fintype.card T))) as := by
    let Inv (q : RoundPool T) : Prop := (roundDiscipline T relock P hc).Inv q ∧ DueLast q
    have hkeep (q : RoundPool T) (a : Action T (Finset T) ℕ) (q' : RoundPool T) (hq : Inv q)
        (ha : Allowed (LastOnly (Fintype.card T)) q a)
        (hs : step (roundSystem relock P) q a = some q') : Inv q' :=
      ⟨step_inv hq.1 hs, (dueLast_step hq.1 hs).mpr ⟨hq.2, ha⟩⟩
    apply throughout_iff_meets hkeep ?_ ?_ ⟨hstart, hempty⟩ hrun
    · intro q hq
      exact hq.2
    · intro q a q' hq ha hs hlast
      exact ha ((dueLast_step hq.1 hs).mp hlast).2
  rw [← hall]
  constructor
  · intro hlast
    exact throughout_of_last (fun q a q' hq hs => step_inv hq hs)
      (fun q a q' hq hs hl => ((dueLast_step hq hs).mp hl).1) hstart hrun hlast
  · intro ht
    exact ht.last hrun

/-- Every unit of a complete round but `c` is left over, and every thread that found the barrier
full has posted `c`; the last thread to arrive is one of them. -/
theorem complete_units (h : (roundDiscipline T relock P hc).Inv p) (hdone : Complete p)
    [Nonempty T] : p.shared.posted = Fintype.card T * p.shared.due.card ∧
      p.shared.world.barrier.sem.count + Fintype.card T = p.shared.posted ∧
      ∃ t ∈ p.shared.due, place p.shared.world t = some (Fintype.card T - 1) := by
  have hpos : 1 ≤ Fintype.card T := Fintype.card_pos
  have hidle (t : T) : Idle (Fintype.card T) (localOf p.shared.world t, shareOf p.shared t) := by
    have hfollows := h.threads t
    rw [(hdone t).1] at hfollows
    exact hfollows
  have hcalls (t : T) : 0 < (localOf p.shared.world t).calls := by
    have hone : (localOf p.shared.world t).calls = 1 := (hdone t).2
    omega
  have hpaid (t : T) : Paid (Fintype.card T) (shareOf p.shared t) := (hidle t).after (hcalls t)
  have hposters : p.shared.posters = p.shared.due := by
    ext t
    exact decide_eq_decide.mp (hpaid t).poster
  have htaken : p.shared.taken = Finset.univ := by
    ext t
    simp [of_decide_eq_true (hpaid t).taken]
  have hgranted : p.shared.world.barrier.sem.granted = ∅ := by
    rw [Finset.eq_empty_iff_forall_notMem]
    intro t ht
    exact of_decide_eq_false (hpaid t).asked (Finset.mem_union_right _ ht)
  have hunits := h.shared.units
  rw [hgranted, htaken, Finset.card_empty, Finset.card_univ] at hunits
  refine ⟨by rw [h.shared.posts, hposters], by omega, ?_⟩
  obtain ⟨t0⟩ := ‹Nonempty T›
  have hfull : p.shared.world.arrived.length = Fintype.card T :=
    h.shared.sound.released t0 ((hidle t0).outside.calls (hcalls t0))
  have hlt : Fintype.card T - 1 < p.shared.world.arrived.length := by omega
  have hplace : place p.shared.world (p.shared.world.arrived[Fintype.card T - 1]) =
      some (Fintype.card T - 1) := by
    rw [place, if_pos (List.getElem_mem hlt), h.shared.sound.nodup.idxOf_getElem]
  exact ⟨_, of_decide_eq_true ((hpaid _).last hplace), hplace⟩

omit [Fintype T] in
theorem place_inj {w : World T} {t u : T} {n : ℕ} (ht : place w t = some n)
    (hu : place w u = some n) : t = u := by
  simp only [place] at ht hu
  split_ifs at ht hu with hmt hmu
  have hidx : w.arrived.idxOf t = w.arrived.idxOf u :=
    (Option.some.inj ht).trans (Option.some.inj hu).symm
  exact (List.idxOf_inj hmt).mp hidx

theorem DueLast.posted_le (h : (roundDiscipline T relock P hc).Inv p) (hlast : DueLast p) :
    p.shared.posted ≤ Fintype.card T := by
  have hone : p.shared.due.card ≤ 1 := by
    rw [Finset.card_le_one]
    intro t ht u hu
    exact place_inj (hlast t ht) (hlast u hu)
  have hposters : p.shared.posters.card ≤ 1 := (Finset.card_le_card h.shared.posters).trans hone
  rw [h.shared.posts]
  exact (Nat.mul_le_mul_left _ hposters).trans (Nat.mul_one _).le

theorem complete_exact_iff (h : (roundDiscipline T relock P hc).Inv p) (hdone : Complete p)
    [Nonempty T] :
    p.shared.posted = Fintype.card T ∧ p.shared.world.barrier.sem.count = 0 ↔ DueLast p := by
  have hpos : 0 < Fintype.card T := Fintype.card_pos
  obtain ⟨hposted, hcount, t, ht, hplace⟩ := complete_units h hdone
  constructor
  · intro hexact
    have hcard : p.shared.due.card = 1 := by
      have hmul : Fintype.card T * p.shared.due.card = Fintype.card T * 1 := by omega
      exact Nat.eq_of_mul_eq_mul_left hpos hmul
    intro u hu
    rw [Finset.card_le_one.mp hcard.le u hu t ht]
    exact hplace
  · intro hlast
    have hcard : p.shared.due.card = 1 := by
      rw [Finset.card_eq_one]
      refine ⟨t, Finset.eq_singleton_iff_unique_mem.mpr ⟨ht, ?_⟩⟩
      intro u hu
      exact place_inj (hlast u hu) hplace
    rw [hcard, mul_one] at hposted
    omega

end Runs

/-- A round of `c` threads posts exactly `c` units, and leaves none behind, exactly if outside the
lock nobody but the last thread to arrive finds the barrier full; along such a run there are never
more. -/
theorem pthreadBarrierWait_units_iff [Nonempty T] (relock : Bool) (P : Platform)
    (b : PthreadBarrier T) (hc : Fintype.card T < 2 ^ 32) (as : List (Action T (Finset T) ℕ))
    (p : RoundPool T)
    (hrun : execute (step (roundSystem relock P)) (idlePool (roundStart b (Fintype.card T))) as =
      some p) :
    (Meets (step (roundSystem relock P)) (Allowed (LastOnly (Fintype.card T)))
        (idlePool (roundStart b (Fintype.card T))) as → p.shared.posted ≤ Fintype.card T) ∧
      (Complete p →
        (p.shared.posted = Fintype.card T ∧ p.shared.world.barrier.sem.count = 0 ↔
          Meets (step (roundSystem relock P)) (Allowed (LastOnly (Fintype.card T)))
            (idlePool (roundStart b (Fintype.card T))) as)) := by
  have hinv : (roundDiscipline T relock P hc).Inv p :=
    (roundStart_inv b hc).execute_all (fun _ _ _ _ => trivial) hrun
  rw [← dueLast_iff_meets hc hrun]
  constructor
  · intro hlast
    exact hlast.posted_le hinv
  · intro hdone
    exact complete_exact_iff hinv hdone

end Rounds

def bothReturned (p : RoundPool Bool) : Bool :=
  [false, true].all fun t => (p.thread t).isNone && p.shared.world.calls t = 1

theorem complete_of_bothReturned {p : RoundPool Bool} (h : bothReturned p = true) : Complete p := by
  simp only [bothReturned, List.all_cons, List.all_nil, Bool.and_true, Bool.and_eq_true,
    Option.isNone_iff_eq_none, decide_eq_true_eq] at h
  intro t
  cases t with
  | false => exact h.1
  | true => exact h.2

/-- The first thread looks before the second one has arrived: two units. -/
theorem pthreadBarrierWait_units_two : ∃ p,
    execute (step (roundSystem true platform1000)) (idlePool (roundStart rawBarrier 2))
      roundSteps = some p ∧ p.shared.posted = 2 ∧ p.shared.world.barrier.sem.count = 0 := by
  have hrun : ((execute (step (roundSystem true platform1000)) (idlePool (roundStart rawBarrier 2))
      roundSteps).map bothReturned) = some true := by
    decide +kernel
  obtain ⟨p, hp, hdone⟩ := Option.map_eq_some_iff.mp hrun
  have hmeets : Meets (step (roundSystem true platform1000)) (Allowed (LastOnly 2))
      (idlePool (roundStart rawBarrier 2)) roundSteps := by
    decide +kernel
  have hiff := (pthreadBarrierWait_units_iff true platform1000 rawBarrier (by decide) roundSteps p
    hp).2 (complete_of_bothReturned hdone)
  obtain ⟨hposted, hcount⟩ := hiff.mpr hmeets
  exact ⟨p, hp, hposted, hcount⟩

def runs (t : Bool) (n : ℕ) : List (Action Bool (Finset Bool) ℕ) :=
  List.replicate n (.run t ∅)

/-- Both threads arrive before either looks. -/
def surplusSteps : List (Action Bool (Finset Bool) ℕ) :=
  .enter false 0 :: .enter true 0 :: runs false 6 ++ runs true 6 ++ runs false 5 ++ runs true 5 ++
    [.leave false, .leave true]

/-- Each of them posts two units, and two are left over. -/
theorem pthreadBarrierWait_surplus : ∃ p,
    execute (step (roundSystem true platform1000)) (idlePool (roundStart rawBarrier 2))
      surplusSteps = some p ∧
      Complete p ∧ p.shared.posted = 4 ∧ p.shared.world.barrier.sem.count = 2 := by
  have hrun : ((execute (step (roundSystem true platform1000)) (idlePool (roundStart rawBarrier 2))
      surplusSteps).map fun p =>
        (bothReturned p, p.shared.posted, p.shared.world.barrier.sem.count)) =
      some (true, 4, 2) := by
    decide +kernel
  obtain ⟨p, hp, hvalues⟩ := Option.map_eq_some_iff.mp hrun
  simp only [Prod.mk.injEq] at hvalues
  exact ⟨p, hp, complete_of_bothReturned hvalues.1, hvalues.2.1, hvalues.2.2⟩

end LibPosix.BarrierUnits
