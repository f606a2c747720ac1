import LibPosix.Platform

/-! The kernel objects libposix is built on. `none` as a result means that the caller is
still blocked in the call; a wait that may expire says so through `expire`. -/
namespace LibPosix.Kernel
variable {T : Type} [DecidableEq T]

/-- `mut_t`: the owning task and how often it has locked. -/
structure Mut (T : Type) where
  own : Option T
  depth : ℕ
  deriving DecidableEq, Repr

def mutInit : Mut T := ⟨none, 0⟩

/-- `relock` says whether the kernel lets the owner lock again. The wait can run out unless
its timeout is `WAIT`; the first component tells whether the call returned 0. -/
def mutLock (relock : Bool) (WAIT : ℕ) (t : T) (ticks : ℕ) (expire : Bool) (m : Mut T) :
    Option (Bool × Mut T) :=
  match m.own with
  | none => some (true, ⟨some t, 1⟩)
  | some u =>
    if u = t ∧ relock = true then some (true, ⟨some u, m.depth + 1⟩)
    else if expire = true ∧ ticks ≠ WAIT then some (false, m)
    else none

def mutUnlock (m : Mut T) : Mut T :=
  if m.depth ≤ 1 then ⟨none, 0⟩ else ⟨m.own, m.depth - 1⟩

def Mut.held (m : Mut T) (t : T) : ℕ := if m.own = some t then m.depth else 0

def Mut.Valid (m : Mut T) : Prop := m.own = none ↔ m.depth = 0

omit [DecidableEq T] in
theorem mutInit_valid : (mutInit : Mut T).Valid := by simp [Mut.Valid, mutInit]

theorem Mut.held_pos {m : Mut T} {t : T} (h : 0 < m.held t) : m.own = some t := by
  unfold Mut.held at h
  split_ifs at h with ho
  · exact ho
  · omega

theorem mutLock_acquired {relock : Bool} {WAIT ticks : ℕ} {t : T} {expire : Bool}
    {m m' : Mut T} (hv : m.Valid)
    (h : mutLock relock WAIT t ticks expire m = some (true, m')) :
    m'.Valid ∧ m'.held t = m.held t + 1 ∧ ∀ u, u ≠ t → m'.held u = m.held u := by
  obtain ⟨own, depth⟩ := m
  cases own with
  | none =>
    obtain rfl : m' = ⟨some t, 1⟩ := by simpa [mutLock, eq_comm] using h
    refine ⟨by simp [Mut.Valid], by simp [Mut.held], fun u hu => ?_⟩
    simp [Mut.held, hu.symm]
  | some v =>
    simp only [mutLock] at h
    split_ifs at h with hr he
    · obtain ⟨rfl, -⟩ := hr
      obtain rfl : m' = ⟨some v, depth + 1⟩ := by simpa [eq_comm] using h
      refine ⟨by simp [Mut.Valid], by simp [Mut.held], fun u hu => ?_⟩
      simp [Mut.held, hu.symm]
    · simp at h

/-- A refusal comes from an expired wait and leaves the mutex alone. -/
theorem mutLock_refused {relock : Bool} {WAIT ticks : ℕ} {t : T} {expire : Bool}
    {m m' : Mut T} (h : mutLock relock WAIT t ticks expire m = some (false, m')) :
    m' = m ∧ expire = true ∧ ticks ≠ WAIT ∧ m.own ≠ none := by
  obtain ⟨own, depth⟩ := m
  cases own with
  | none => simp [mutLock] at h
  | some v =>
    simp only [mutLock] at h
    split_ifs at h with hr he
    · simp at h
    · obtain rfl : m' = ⟨some v, depth⟩ := by simpa [eq_comm] using h
      exact ⟨rfl, he.1, he.2, by simp⟩

/-- After a lock the caller owns the mutex, or else nothing has changed. -/
theorem mutLock_own {relock r : Bool} {WAIT ticks : ℕ} {t : T} {expire : Bool} {m m' : Mut T}
    (h : mutLock relock WAIT t ticks expire m = some (r, m')) :
    r = true ∧ m'.own = some t ∧ (m.own = none ∨ m.own = some t) ∨ r = false ∧ m' = m := by
  cases r with
  | false => exact .inr ⟨rfl, (mutLock_refused h).1⟩
  | true =>
    left
    cases hm : m.own with
    | none =>
      obtain rfl : m' = ⟨some t, 1⟩ := by simpa [mutLock, hm, eq_comm] using h
      exact ⟨rfl, rfl, .inl rfl⟩
    | some v =>
      simp only [mutLock, hm] at h
      split_ifs at h with hr he
      · obtain ⟨rfl, -⟩ := hr
        cases h
        exact ⟨rfl, rfl, .inr rfl⟩
      · simp at h

/-- A lock that is not held up by another owner, or waits for ever, leaves the caller the owner. -/
theorem mutLock_takes {relock r : Bool} {WAIT ticks : ℕ} {t : T} {expire : Bool} {m m' : Mut T}
    (hown : ticks = WAIT ∨ m.own = none ∨ m.own = some t)
    (h : mutLock relock WAIT t ticks expire m = some (r, m')) : m'.own = some t := by
  rcases mutLock_own h with ⟨-, hmine, -⟩ | ⟨rfl, rfl⟩
  · exact hmine
  · obtain ⟨-, -, hticks, hsome⟩ := mutLock_refused h
    exact (hown.resolve_left hticks).resolve_left hsome

omit [DecidableEq T] in
theorem mutUnlock_own (m : Mut T) : (mutUnlock m).own = none ∨ (mutUnlock m).own = m.own := by
  unfold mutUnlock
  split_ifs
  · exact .inl rfl
  · exact .inr rfl

theorem mutLock_forever {relock : Bool} {WAIT : ℕ} {t : T} {expire : Bool} {m : Mut T}
    {r : Bool × Mut T} (ho : m.own ≠ some t)
    (h : mutLock relock WAIT t WAIT expire m = some r) :
    m.own = none ∧ r = (true, ⟨some t, 1⟩) := by
  cases hm : m.own with
  | none => simpa [mutLock, hm, eq_comm] using h
  | some u =>
    have hut : u ≠ t := fun heq => ho (by rw [hm, heq])
    simp [mutLock, hm, hut] at h

theorem mutUnlock_held {m : Mut T} {t : T} (h : 0 < m.held t) :
    (mutUnlock m).Valid ∧ (mutUnlock m).held t = m.held t - 1 ∧
      ∀ u, u ≠ t → (mutUnlock m).held u = m.held u := by
  have ho := Mut.held_pos h
  have hd : m.held t = m.depth := by simp [Mut.held, ho]
  unfold mutUnlock
  split_ifs with hle
  · refine ⟨by simp [Mut.Valid], ?_, fun u hu => ?_⟩
    · simp only [Mut.held]
      rw [if_neg (by simp), if_pos ho]
      omega
    · simp only [Mut.held, ho]
      simp [hu.symm]
  · refine ⟨?_, ?_, fun u hu => ?_⟩
    · simp only [Mut.Valid, ho]
      simp
      omega
    · simp [Mut.held, ho]
    · simp [Mut.held, ho, hu.symm]

/-- `sem_t`: its count, the tasks queued in `sem_get`, and those a post has handed a unit
to and that have not run since. -/
structure Sem (T : Type) where
  count : ℕ
  blocked : Finset T
  granted : Finset T

def semInit (value : ℕ) : Sem T := ⟨value, ∅, ∅⟩

/-- The first half of `sem_get`: a positive count gives a unit at once, otherwise the
caller is queued. -/
def semGet (t : T) (s : Sem T) : Bool × Sem T :=
  if 0 < s.count then (true, { s with count := s.count - 1 })
  else (false, { s with blocked := insert t s.blocked })

/-- The second half, for a queued task: the unit it was handed, or a timeout. -/
def semResult (WAIT : ℕ) (t : T) (ticks : ℕ) (expire : Bool) (s : Sem T) :
    Option (Bool × Sem T) :=
  if t ∈ s.granted then some (true, { s with granted := s.granted.erase t })
  else if expire = true ∧ ticks ≠ WAIT then some (false, { s with blocked := s.blocked.erase t })
  else none

/-- `n` units go to queued tasks as far as there are any, and the rest to the count; the
kernel chooses whom it wakes. -/
def semPostN (n : ℕ) (woken : Finset T) (s : Sem T) : Option (Sem T) :=
  if woken ⊆ s.blocked ∧ woken.card = min n s.blocked.card then
    some ⟨s.count + (n - woken.card), s.blocked \ woken, s.granted ∪ woken⟩
  else none

/-- No task is queued while there are units, and none is queued twice. -/
structure Sem.Valid (s : Sem T) : Prop where
  no_idle : s.blocked.Nonempty → s.count = 0
  disjoint : Disjoint s.blocked s.granted

omit [DecidableEq T] in
theorem semInit_valid (value : ℕ) : (semInit value : Sem T).Valid := by
  constructor <;> simp [semInit]

theorem semPostN_some {n : ℕ} {woken : Finset T} {s q : Sem T}
    (h : semPostN n woken s = some q) :
    woken ⊆ s.blocked ∧ woken.card = min n s.blocked.card ∧
      q = ⟨s.count + (n - woken.card), s.blocked \ woken, s.granted ∪ woken⟩ := by
  unfold semPostN at h
  split_ifs at h with hw
  exact ⟨hw.1, hw.2, (Option.some.inj h).symm⟩

theorem semPostN_valid {n : ℕ} {woken : Finset T} {s q : Sem T} (hs : s.Valid)
    (h : semPostN n woken s = some q) : q.Valid := by
  obtain ⟨hsub, hcard, rfl⟩ := semPostN_some h
  constructor
  · rintro ⟨t, ht⟩
    have htb : t ∈ s.blocked ∧ t ∉ woken := by simpa using ht
    have hlt : woken.card < s.blocked.card :=
      Finset.card_lt_card ⟨hsub, fun hb => htb.2 (hb htb.1)⟩
    have hc : s.count = 0 := hs.no_idle ⟨t, htb.1⟩
    simp only
    omega
  · have hd : Disjoint (s.blocked \ woken) s.granted := hs.disjoint.mono_left Finset.sdiff_subset
    exact Finset.disjoint_union_right.mpr ⟨hd, Finset.sdiff_disjoint⟩

end LibPosix.Kernel
