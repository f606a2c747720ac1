import LibPosix.Barrier

/-! One round of a barrier. The check that releases the threads is made outside the lock and
may hold for several of them; what carries the proof is that units are posted only once every
increment has been made, and that a thread that has seen the barrier full never increments
again. -/
namespace LibPosix.BarrierRound
open Program ThreadPool Transition Kernel MachineInt Barrier
variable {T : Type} [DecidableEq T]

/-- The calls that have returned something other than `EINVAL`. -/
def passed (s : World T) : List (Return T) := s.returned.filter fun r => r.value ≠ .EINVAL

def serials (s : World T) : List (Return T) :=
  s.returned.filter fun r => r.value = .PTHREAD_BARRIER_SERIAL_THREAD

def Few (T : Type) (c : ℕ) : Prop := ∀ (l : List T) (t : T), l.Nodup → t ∉ l → l.length < c

/-- What a thread knows: the counter while it holds the lock, its place among those that have
arrived, whether it has been released, whether a call of its own has passed, and how many calls
it has made. -/
structure Local where
  cur : Option ℕ
  place : Option ℕ
  released : Bool
  passed : Bool
  calls : ℕ

def waiting (T : Type) (c : ℕ) : Protocol BarrierOp BarrierAns Local where
  safe
    | l, .mutLock => l.cur = none
    | l, .mutUnlock => l.cur ≠ none
    | l, .setCurThread n => l.place = none ∧ ∃ m, l.cur = some m ∧ m < c ∧ n = m + 1
    | l, .semPostN _ => l.released = true
    | _, _ => True
  after
    | l, .mutLock, _, l' => ∃ m, l' = { l with cur := some m }
    | l, .mutUnlock, _, l' => l' = { l with cur := none }
    | l, .curThread, r, l' => (∀ m, l.cur = some m → r = m) ∧ (l.released = true → c ≤ r) ∧
        (Few T c → l.place = none → r < c) ∧
        l' = { l with released := l.released || decide (r ≥ c) }
    | l, .setCurThread n, _, l' => l' = { l with cur := some n, place := some (n - 1) }
    | l, .threshold, r, l' => r = c ∧ l' = l
    | l, .semPostN _, _, l' => l' = l
    | l, .semGet, r, l' => l' = { l with released := l.released || r }
    | l, .semResult, r, l' => r = true ∧ l' = { l with released := true }

structure Outside (l : Local) : Prop where
  unlocked : l.cur = none
  arrived : l.place ≠ none → l.passed = true
  passed : l.passed = true → l.released = true
  calls : 0 < l.calls → l.released = true
  fresh : l.calls = 0 → l.place = none

structure Settled (T : Type) (c k : ℕ) (v : WaitValue) (l : Local) : Prop where
  unlocked : l.cur = none
  released : l.released = true
  refused : v = .EINVAL → l.place ≠ none → l.passed = true
  passes : v ≠ .EINVAL → l.passed = false ∧ ∃ n, l.place = some n ∧ v = waitValue (n + 1)
  later : 0 < k → v = .EINVAL
  first : Few T c → k = 0 → v ≠ .EINVAL

theorem waitValue_ne_einval (n : ℕ) : waitValue n ≠ .EINVAL := by
  simp only [waitValue]
  split_ifs
  · simp
  · simp

theorem waitValue_serial {n : ℕ} (hn : n + 1 < 2 ^ 32) :
    waitValue (n + 1) = .PTHREAD_BARRIER_SERIAL_THREAD ↔ n = 0 := by
  have hs : signed 32 ((n + 1 : ℕ) : ℤ) = 1 ↔ n = 0 := by
    simp only [signed, Int.bmod]
    split_ifs
    · omega
    · omega
  simp only [waitValue, hs]
  split_ifs with h
  · simp [h]
  · simp [h]

omit [DecidableEq T] in
theorem getUnit_obeys {c : ℕ} {l : Local} {post : Unit → Local → Prop}
    (h : post () { l with released := true }) : getUnit.Obeys (waiting T c) l post := by
  simp only [getUnit, Prog.obeys_bind, Prog.obeys_request, Prog.obeys_ite, Prog.pure_eq,
    Prog.obeys_ret]
  refine ⟨trivial, ?_⟩
  rintro r l' rfl
  refine ⟨fun _ => ⟨trivial, ?_⟩, fun hr => ?_⟩
  · rintro r l' ⟨-, rfl⟩
    exact h
  · have hr : r = true := by simpa using hr
    simpa [hr] using h

omit [DecidableEq T] in
theorem release_obeys {c : ℕ} {l : Local} {v : WaitValue} {post : WaitValue → Local → Prop}
    (h : post v { l with released := true }) :
    (do
      if (← ask .curThread) ≥ (← ask .threshold) then
        ask (.semPostN (← ask .threshold))
      getUnit
      return v : Prog BarrierOp BarrierAns WaitValue).Obeys (waiting T c) l post := by
  have hget (b : Bool) : getUnit.Obeys (waiting T c) { l with released := b } fun _ l' =>
      (Prog.ret v : Prog BarrierOp BarrierAns WaitValue).Obeys (waiting T c) l' post :=
    getUnit_obeys h
  simp only [Prog.obeys_bind, Prog.obeys_request, Prog.obeys_ite]
  refine ⟨trivial, ?_⟩
  rintro r l' ⟨-, -, -, rfl⟩
  refine ⟨trivial, ?_⟩
  rintro t l' ⟨rfl, rfl⟩
  refine ⟨fun hge => ⟨trivial, ?_⟩, fun _ => hget _⟩
  rintro t' l' ⟨rfl, rfl⟩
  refine ⟨by simp [waiting, hge], ?_⟩
  rintro - l' rfl
  exact hget _

omit [DecidableEq T] in
theorem pthreadBarrierWait_obeys {c : ℕ} {l : Local} (hc : c < 2 ^ 32) (hl : Outside l) :
    pthreadBarrierWait.Obeys (waiting T c) l (Settled T c l.calls) := by
  obtain ⟨cur, place, released, pass, calls⟩ := l
  simp only [pthreadBarrierWait, Prog.obeys_bind, Prog.obeys_request, Prog.obeys_ite,
    Prog.pure_eq, Prog.obeys_ret]
  refine ⟨hl.unlocked, ?_⟩
  rintro - l ⟨m, rfl⟩
  refine ⟨trivial, ?_⟩
  rintro r l ⟨hm, hfull, hfew, rfl⟩
  obtain rfl : r = m := hm m rfl
  refine ⟨trivial, ?_⟩
  rintro t l ⟨rfl, rfl⟩
  refine ⟨fun hge => ⟨by simp [waiting], ?_⟩, fun hlt => ?_⟩
  · rintro - l rfl
    refine ⟨rfl, by simp [hge], fun _ => hl.arrived, fun hv => absurd rfl hv, fun _ => rfl, ?_⟩
    intro hF hk
    have hlt : r < t := hfew hF (hl.fresh hk)
    exact absurd hge (not_le.mpr hlt)
  · have hrel : released = false := by
      by_contra hr
      have hle := hfull (by simpa using hr)
      exact hlt hle
    have hpass : pass = false := by
      by_contra hp
      have hr := hl.passed (by simpa using hp)
      simp [hrel] at hr
    have hplace : place = none := by
      by_contra hp
      have hp := hl.arrived hp
      simp [hpass] at hp
    have hfirst : calls = 0 := by
      by_contra hk
      have hr := hl.calls (Nat.pos_of_ne_zero hk)
      simp [hrel] at hr
    refine ⟨trivial, ?_⟩
    rintro (r' : ℕ) l ⟨hm', -, -, rfl⟩
    obtain rfl : r' = r := hm' r rfl
    have hlt : r' < t := not_le.mp hlt
    have hcur : unsigned 32 ((r' : ℤ) + 1) = r' + 1 := by
      rw [unsigned_of_nonneg (by omega) (by omega)]
      omega
    rw [hcur]
    refine ⟨⟨hplace, r', rfl, hlt, rfl⟩, ?_⟩
    rintro - l rfl
    refine ⟨by simp [waiting], ?_⟩
    rintro - l rfl
    have hset : Settled T t calls (waitValue (r' + 1))
        ⟨none, some r', true, pass, calls⟩ := by
      refine ⟨rfl, rfl, fun hv => absurd hv (waitValue_ne_einval _), fun _ => ⟨hpass, r', rfl, rfl⟩,
        fun hk => ?_, fun _ _ => waitValue_ne_einval _⟩
      omega
    have hrest := release_obeys (T := T) (c := t)
      (l := ⟨none, some r', (released || decide (r' ≥ t)) || decide (r' ≥ t), pass, calls⟩) hset
    simp only [Prog.obeys_bind, Prog.obeys_request, Prog.obeys_ite, Prog.pure_eq,
      Prog.obeys_ret] at hrest
    exact hrest

def through (s : World T) : List T := (passed s).map Return.thread

def place (s : World T) (t : T) : Option ℕ :=
  if t ∈ s.arrived then some (s.arrived.idxOf t) else none

def localOf (s : World T) (t : T) : Local :=
  ⟨if s.barrier.mux.own = some t then some s.barrier.curThread else none, place s t,
    s.released t, decide (t ∈ through s), s.calls t⟩

structure Honest (c : ℕ) (arrived : List T) (r : Return T) : Prop where
  passes : r.value ≠ .EINVAL → r.thread ∈ arrived ∧
    r.value = waitValue (arrived.idxOf r.thread + 1)
  later : 0 < r.round → r.value = .EINVAL
  first : Few T c → r.round = 0 → r.value ≠ .EINVAL

structure Sound (c : ℕ) (s : World T) : Prop where
  depth : s.barrier.mux.depth ≤ 1
  threshold : s.barrier.threshold = c
  count : s.barrier.curThread = s.arrived.length
  le : s.arrived.length ≤ c
  nodup : s.arrived.Nodup
  units : 0 < s.barrier.sem.count ∨ s.barrier.sem.granted.Nonempty → s.arrived.length = c
  released : ∀ t, s.released t = true → s.arrived.length = c
  through_nodup : (through s).Nodup
  full : s.returned ≠ [] → s.arrived.length = c
  honest : ∀ r ∈ s.returned, Honest c s.arrived r

section steps
variable {c : ℕ} {s : World T} {t : T}

theorem place_eq_none : place s t = none ↔ t ∉ s.arrived := by
  simp [place]

theorem localOf_cur {m : ℕ} (hm : (localOf s t).cur = some m) :
    s.barrier.mux.own = some t ∧ m = s.barrier.curThread := by
  simp only [localOf] at hm
  split_ifs at hm with ho
  exact ⟨ho, (Option.some.inj hm).symm⟩

theorem localOf_cur_none : (localOf s t).cur = none ↔ s.barrier.mux.own ≠ some t := by
  simp [localOf]

theorem Sound.setMux (h : Sound c s) {m : Mut T} (hd : m.depth ≤ 1) : Sound c (s.setMux m) :=
  { h with depth := hd }

theorem Sound.setSem (h : Sound c s) {q : Sem T}
    (hq : 0 < q.count ∨ q.granted.Nonempty → s.arrived.length = c) : Sound c (s.setSem q) :=
  { h with units := hq }

theorem Sound.learn (h : Sound c s) {full : Bool} (hf : full = true → s.arrived.length = c) :
    Sound c (s.learn t full) := by
  refine { h with released := fun u hu => ?_ }
  by_cases hut : u = t
  · subst u
    rw [World.learn_released, Function.update_self, Bool.or_eq_true] at hu
    exact hu.elim (h.released t) hf
  · rw [World.learn_released, Function.update_of_ne hut] at hu
    exact h.released u hu

theorem Sound.arrive (h : Sound c s) (hp : t ∉ s.arrived) (hlt : s.arrived.length < c) :
    Sound c (s.arrive t (s.arrived.length + 1)) := by
  have hne : s.arrived.length ≠ c := hlt.ne
  have hnil : s.returned = [] := by
    by_contra hr
    exact hne (h.full hr)
  refine ⟨h.depth, h.threshold, by simp, by simpa using hlt, ?_, fun hu => absurd (h.units hu) hne,
    fun u hu => absurd (h.released u hu) hne, h.through_nodup, fun hr => absurd hnil hr, ?_⟩
  · rw [World.arrive_arrived, List.nodup_append]
    refine ⟨h.nodup, by simp, ?_⟩
    simpa using fun a ha => ne_of_mem_of_not_mem ha hp
  · simp [hnil]

theorem learn_localOf (full : Bool) {u : T} (hu : u ≠ t) :
    localOf (s.learn t full) u = localOf s u := by
  simp only [localOf, World.learn_released, Function.update_of_ne hu]
  rfl

theorem learn_localOf_self (full : Bool) :
    localOf (s.learn t full) t = { localOf s t with released := s.released t || full } := by
  simp only [localOf, World.learn_released, Function.update_self]
  rfl

/-- Handing the lock over is seen by the one who takes or gives it only. -/
theorem setMux_localOf {m : Mut T} {u : T} (hs : s.barrier.mux.own ≠ some u)
    (hm : m.own ≠ some u) : localOf (s.setMux m) u = localOf s u := by
  simp only [localOf, World.setMux_barrier_mux, hm, hs, if_false]
  rfl

theorem arrive_localOf_self (hown : s.barrier.mux.own = some t) (hp : t ∉ s.arrived) (n : ℕ) :
    localOf (s.arrive t n) t =
      { localOf s t with cur := some n, place := some s.arrived.length } := by
  have hplace : place (s.arrive t n) t = some s.arrived.length := by
    simp [place, List.idxOf_append_of_notMem hp]
  simp only [localOf, hplace, World.arrive_barrier_mux, hown, if_true]
  rfl

theorem arrive_localOf (hown : s.barrier.mux.own = some t) (n : ℕ) {u : T} (hu : u ≠ t) :
    localOf (s.arrive t n) u = localOf s u := by
  have hno : s.barrier.mux.own ≠ some u := by
    rw [hown]
    simpa using hu.symm
  have hplace : place (s.arrive t n) u = place s u := by
    by_cases hm : u ∈ s.arrived
    · simp [place, hm, List.idxOf_append_of_mem hm]
    · simp [place, hm, hu]
  simp only [localOf, hplace, World.arrive_barrier_mux, hno, if_false]
  rfl

theorem exec_sound {relock : Bool} {P : Platform} {s' : World T} {e : BarrierOp}
    {woken : Finset T} {r : BarrierAns e} (h : Sound c s)
    (hsafe : (waiting T c).safe (localOf s t) e)
    (hs : barrierExec relock P t e woken s = some (r, s')) :
    Sound c s' ∧ (waiting T c).after (localOf s t) e r (localOf s' t) ∧
      ∀ u, u ≠ t → localOf s' u = localOf s u := by
  cases e with
  | mutLock =>
    obtain ⟨x, hx, heq⟩ := Option.map_eq_some_iff.mp hs
    obtain ⟨hfree, rfl⟩ := mutLock_forever (localOf_cur_none.mp hsafe) hx
    cases heq
    refine ⟨h.setMux le_rfl, ⟨s.barrier.curThread, ?_⟩, fun u hu => ?_⟩
    · simp only [localOf, World.setMux_barrier_mux, if_true]
      rfl
    · exact setMux_localOf (by simp [hfree]) (by simpa using hu.symm)
  | mutUnlock =>
    cases hs
    have hun : mutUnlock s.barrier.mux = ⟨none, 0⟩ := if_pos h.depth
    obtain ⟨m, hm⟩ := Option.ne_none_iff_exists'.mp hsafe
    have hown := (localOf_cur hm).1
    rw [hun]
    refine ⟨h.setMux (Nat.zero_le 1), ?_, fun u hu => ?_⟩
    · simp only [waiting, localOf, World.setMux_barrier_mux, reduceCtorEq, if_false]
      rfl
    · refine setMux_localOf ?_ (by simp)
      rw [hown]
      simpa using hu.symm
  | curThread =>
    cases hs
    have hfull : s.barrier.curThread ≥ s.barrier.threshold → s.arrived.length = c := by
      rw [h.count, h.threshold]
      exact fun hge => le_antisymm h.le hge
    refine ⟨h.learn fun hf => hfull (of_decide_eq_true hf), ⟨?_, ?_, ?_, ?_⟩,
      fun u hu => learn_localOf _ hu⟩
    · exact fun m hm => (localOf_cur hm).2.symm
    · intro hr
      rw [h.count, h.released t hr]
    · intro hF hp
      rw [h.count]
      exact hF s.arrived t h.nodup (place_eq_none.mp hp)
    · rw [learn_localOf_self, h.threshold]
      rfl
  | setCurThread n =>
    cases hs
    obtain ⟨hp, m, hm, hlt, rfl⟩ := hsafe
    obtain ⟨hown, rfl⟩ := localOf_cur hm
    have hp := place_eq_none.mp hp
    have hcount := h.count
    rw [hcount] at hlt ⊢
    refine ⟨h.arrive hp hlt, ?_, fun u hu => arrive_localOf hown _ hu⟩
    rw [arrive_localOf_self hown hp]
    rfl
  | threshold =>
    cases hs
    exact ⟨h, ⟨h.threshold, rfl⟩, fun u _ => rfl⟩
  | semPostN n =>
    obtain ⟨q, hq, heq⟩ := Option.map_eq_some_iff.mp hs
    cases heq
    exact ⟨h.setSem fun _ => h.released t hsafe, rfl, fun u _ => rfl⟩
  | semGet =>
    cases hs
    -- a unit is there only after a post, and nobody posts before all have arrived
    have hget : (semGet t s.barrier.sem).1 = true → s.arrived.length = c := by
      intro hr
      refine h.units (Or.inl ?_)
      by_contra hz
      simp [semGet, hz] at hr
    have hsem : Sound c (s.setSem (semGet t s.barrier.sem).2) := by
      refine h.setSem fun hu => h.units ?_
      unfold semGet at hu
      split_ifs at hu with hz
      · exact Or.inl hz
      · exact hu
    refine ⟨hsem.learn hget, ?_, fun u hu => learn_localOf _ hu⟩
    rw [learn_localOf_self]
    rfl
  | semResult =>
    obtain ⟨x, hx, heq⟩ := Option.map_eq_some_iff.mp hs
    simp only [semResult] at hx
    split_ifs at hx with hg hz
    · cases hx
      cases heq
      have hfull : s.arrived.length = c := h.units (Or.inr ⟨t, hg⟩)
      refine ⟨(h.setSem fun _ => hfull).learn fun _ => hfull, ⟨rfl, ?_⟩,
        fun u hu => learn_localOf _ hu⟩
      rw [learn_localOf_self, Bool.or_true]
      rfl
    · simp at hz

theorem through_log_refused {k : ℕ} :
    through (s.log ⟨t, k, .EINVAL⟩) = through s := by
  simp [through, passed]

theorem through_log_passed {k : ℕ} {v : WaitValue} (hv : v ≠ .EINVAL) :
    through (s.log ⟨t, k, v⟩) = t :: through s := by
  simp [through, passed, hv]

theorem log_localOf {r : Return T} {u : T} (hu : u ≠ r.thread) :
    localOf (s.log r) u = localOf s u := by
  obtain ⟨t, k, v⟩ := r
  have hmem : decide (u ∈ through (s.log ⟨t, k, v⟩)) = decide (u ∈ through s) := by
    by_cases hv : v = .EINVAL
    · rw [hv, through_log_refused]
    · have hut : u ≠ t := hu
      simp [through_log_passed hv, hut]
  have hcalls : (s.log ⟨t, k, v⟩).calls u = s.calls u := Function.update_of_ne hu _ _
  rw [localOf, hmem, hcalls]
  rfl

theorem Sound.log {k : ℕ} {v : WaitValue} (h : Sound c s)
    (hp : Settled T c k v (localOf s t)) : Sound c (s.log ⟨t, k, v⟩) := by
  have hfull : s.arrived.length = c := h.released t hp.released
  have hhonest : Honest c s.arrived ⟨t, k, v⟩ := by
    refine ⟨fun hv => ?_, hp.later, hp.first⟩
    obtain ⟨-, n, hn, hval⟩ := hp.passes hv
    simp only [localOf, place] at hn
    split_ifs at hn with hmem
    rw [← Option.some.inj hn] at hval
    exact ⟨hmem, hval⟩
  refine { h with through_nodup := ?_, full := fun _ => hfull, honest := ?_ }
  · by_cases hv : v = .EINVAL
    · rw [hv, through_log_refused]
      exact h.through_nodup
    · have hnot : t ∉ through s := by simpa [localOf] using (hp.passes hv).1
      rw [through_log_passed hv]
      exact List.nodup_cons.mpr ⟨hnot, h.through_nodup⟩
  · intro r hr
    rcases List.mem_cons.mp hr with rfl | hr
    · exact hhonest
    · exact h.honest r hr

theorem log_outside {k : ℕ} {v : WaitValue} (hp : Settled T c k v (localOf s t)) :
    Outside (localOf (s.log ⟨t, k, v⟩) t) := by
  refine ⟨hp.unlocked, fun hplace => ?_, fun _ => hp.released, fun _ => hp.released, ?_⟩
  · by_cases hv : v = .EINVAL
    · simp only [localOf, hv, through_log_refused]
      exact hp.refused hv hplace
    · simp [localOf, through_log_passed hv]
  · intro hz
    simp [localOf] at hz

end steps

def barrierDiscipline (relock : Bool) (P : Platform) {c : ℕ} (hc : c < 2 ^ 32) :
    Discipline (barrierSystem (T := T) relock P) Local where
  toProtocol := waiting T c
  view := localOf
  inv := Sound c
  allowed _ _ _ _ := True
  between _ l := Outside l
  post _ k v l := Settled T c k v l
  enter_step := by
    intro s s' t k h hb hs
    simp only [barrierSystem] at hs
    split_ifs at hs with hk
    cases hs
    subst k
    exact ⟨h, pthreadBarrierWait_obeys hc hb, fun u _ => rfl⟩
  exec_step h hsafe _ hs := exec_sound h hsafe hs
  leave_step h hp := ⟨h.log hp, log_outside hp, fun u hu => log_localOf hu⟩

theorem freshWorld_sound (b : PthreadBarrier T) {count : ℕ} (hc : 1 ≤ count) :
    Sound count (freshWorld b count) := by
  have hpos : count ≠ 0 := by omega
  have hinit : (freshWorld b count).barrier = ⟨0, count, semInit 0, mutInit⟩ := by
    simp [freshWorld, pthreadBarrierInit, hpos]
  refine ⟨?_, ?_, ?_, Nat.zero_le _, List.nodup_nil, ?_, ?_, List.nodup_nil,
    fun h => absurd rfl h, ?_⟩
  · simp [hinit, mutInit]
  · simp [hinit]
  · rw [hinit]
    rfl
  · simp [hinit, semInit]
  · simp [freshWorld]
  · simp [freshWorld]

theorem freshWorld_outside (b : PthreadBarrier T) {count : ℕ} (hc : 1 ≤ count) (t : T) :
    Outside (localOf (freshWorld b count) t) := by
  have hpos : count ≠ 0 := by omega
  have hinit : (freshWorld b count).barrier.mux = mutInit := by
    simp [freshWorld, pthreadBarrierInit, hpos]
  constructor
  · simp [localOf, hinit, mutInit]
  · simp [localOf, place, freshWorld]
  · simp [localOf, through, passed, freshWorld]
  · simp [localOf, freshWorld]
  · simp [localOf, place, freshWorld]

theorem reachable_sound {relock : Bool} {P : Platform} {b : PthreadBarrier T} {count : ℕ}
    (hc : 1 ≤ count) (hmax : count < 2 ^ 32) {as : List (Action T (Finset T) ℕ)}
    {p : Pool T BarrierOp BarrierAns (World T) ℕ WaitValue}
    (hrun : execute (step (barrierSystem relock P)) (idlePool (freshWorld b count)) as = some p) :
    Sound count p.shared := by
  have h0 := (barrierDiscipline relock P hmax).idle_inv (freshWorld_sound b hc)
    (freshWorld_outside b hc)
  exact (h0.execute_all (fun _ _ _ _ => trivial) hrun).shared

omit [DecidableEq T] in
theorem mem_passed {s : World T} {r : Return T} :
    r ∈ passed s ↔ r ∈ s.returned ∧ r.value ≠ .EINVAL := by
  simp [passed]

omit [DecidableEq T] in
theorem serials_eq_filter (s : World T) :
    serials s = (passed s).filter fun r => r.value = .PTHREAD_BARRIER_SERIAL_THREAD := by
  rw [serials, passed, List.filter_filter]
  refine List.filter_congr fun r _ => ?_
  by_cases hv : r.value = .PTHREAD_BARRIER_SERIAL_THREAD
  · simp [hv]
  · simp [hv]

section sound
variable {c : ℕ} {s : World T}

theorem Sound.through_subset (h : Sound c s) : through s ⊆ s.arrived := by
  intro t ht
  obtain ⟨r, hr, rfl⟩ := List.mem_map.mp ht
  obtain ⟨hmem, hv⟩ := mem_passed.mp hr
  exact ((h.honest r hmem).passes hv).1

theorem Sound.serial_iff (h : Sound c s) (hc : c < 2 ^ 32) {r : Return T} (hr : r ∈ passed s) :
    r.value = .PTHREAD_BARRIER_SERIAL_THREAD ↔ s.arrived.head? = some r.thread := by
  obtain ⟨hmem, hv⟩ := mem_passed.mp hr
  obtain ⟨ha, hval⟩ := (h.honest r hmem).passes hv
  have hidx : s.arrived.idxOf r.thread < s.arrived.length := List.idxOf_lt_length_of_mem ha
  have hle := h.le
  have hnil : s.arrived ≠ [] := List.ne_nil_of_mem ha
  rw [hval, waitValue_serial (by omega), List.idxOf_eq_zero_iff_head_eq hnil,
    List.head?_eq_some_head hnil, Option.some.injEq]

theorem Sound.serials_le (h : Sound c s) (hc : c < 2 ^ 32) : (serials s).length ≤ 1 := by
  have hsub : ((serials s).map Return.thread).Sublist (through s) := by
    rw [serials_eq_filter]
    exact List.filter_sublist.map _
  have hall (t : T) (ht : t ∈ (serials s).map Return.thread) : s.arrived.head? = some t := by
    obtain ⟨r, hr, rfl⟩ := List.mem_map.mp ht
    rw [serials_eq_filter] at hr
    obtain ⟨hpass, hv⟩ := List.mem_filter.mp hr
    exact (h.serial_iff hc hpass).mp (of_decide_eq_true hv)
  cases ha : s.arrived.head? with
  | none =>
    cases hs : serials s with
    | nil => simp
    | cons r rs =>
      have hr := hall r.thread (by simp [hs])
      rw [ha] at hr
      cases hr
  | some a =>
    have hrep := List.eq_replicate_of_mem fun t ht => Option.some.inj ((hall t ht).symm.trans ha)
    have hnd := h.through_nodup.sublist hsub
    rw [hrep, List.nodup_replicate] at hnd
    simpa using hnd

theorem Sound.passed_le (h : Sound c s) : (passed s).length ≤ c := by
  have hle := (List.subperm_of_subset h.through_nodup h.through_subset).length_le
  rw [through, List.length_map] at hle
  exact hle.trans h.le

/-- Once as many calls have passed as threads have arrived, the first to arrive is among them. -/
theorem Sound.serials_eq (h : Sound c s) (hc : c < 2 ^ 32) (hpos : 1 ≤ c)
    (hall : (passed s).length = c) : (serials s).length = 1 := by
  have hlen : s.arrived.length ≤ (through s).length := by
    rw [through, List.length_map, hall]
    exact h.le
  have hperm := (List.subperm_of_subset h.through_nodup h.through_subset).perm_of_length_le hlen
  have hne : s.arrived ≠ [] := by
    intro hnil
    rw [hnil, List.perm_nil, through, List.map_eq_nil_iff] at hperm
    simp [hperm] at hall
    omega
  obtain ⟨r, hr, hthread⟩ := List.mem_map.mp (hperm.mem_iff.mpr (List.head_mem hne))
  have hserial : r ∈ serials s := by
    rw [serials_eq_filter, List.mem_filter]
    refine ⟨hr, decide_eq_true ((h.serial_iff hc hr).mpr ?_)⟩
    rw [List.head?_eq_some_head hne, hthread]
  have hle := h.serials_le hc
  have hlt := List.length_pos_of_mem hserial
  omega

end sound

/-- What a barrier for `c` threads promises for its first round. -/
structure RoundSafe (c : ℕ) (s : World T) : Prop where
  all_arrived : passed s ≠ [] → c ≤ s.arrived.length
  passed_le : (passed s).length ≤ c
  serials_le : (serials s).length ≤ 1
  serials_eq : (passed s).length = c → (serials s).length = 1

/-- Barrier safety, for any number of threads that call as often as they like. -/
theorem pthreadBarrierWait_roundSafe (relock : Bool) (P : Platform) (b : PthreadBarrier T)
    {count : ℕ} (hpos : 1 ≤ count) (hmax : count < 2 ^ 32) (as : List (Action T (Finset T) ℕ))
    (p : Pool T BarrierOp BarrierAns (World T) ℕ WaitValue)
    (hrun : execute (step (barrierSystem relock P)) (idlePool (freshWorld b count)) as = some p) :
    RoundSafe count p.shared := by
  have h := reachable_sound hpos hmax hrun
  refine ⟨fun hp => ?_, h.passed_le, h.serials_le hmax, h.serials_eq hmax hpos⟩
  have hret : p.shared.returned ≠ [] := by
    rintro hnil
    simp [passed, hnil] at hp
  exact (h.full hret).ge

def rawBarrier : PthreadBarrier T := ⟨7, 0, semInit 3, mutInit⟩

/-- The steps of one call, if no other thread comes in between. -/
def waitSteps (t : T) (k n : ℕ) : List (Action T (Finset T) ℕ) :=
  .enter t k :: List.replicate n (.run t ∅) ++ [.leave t]

/-- Two threads pass a barrier for two; the second one wakes the first. -/
def roundSteps : List (Action Bool (Finset Bool) ℕ) :=
  .enter false 0 :: List.replicate 9 (.run false ∅) ++
    .enter true 0 :: List.replicate 9 (.run true ∅) ++
      [.run true {false}, .run true ∅, .leave true, .run false ∅, .leave false]

theorem pthreadBarrierWait_roundSafe_two : ∃ p,
    execute (step (barrierSystem true platform1000)) (idlePool (freshWorld rawBarrier 2))
      roundSteps = some p ∧ RoundSafe 2 p.shared ∧ (passed p.shared).length = 2 := by
  have hrun : ((execute (step (barrierSystem true platform1000))
      (idlePool (freshWorld rawBarrier 2)) roundSteps).map fun p =>
        (passed p.shared).length) = some 2 := by
    decide +kernel
  obtain ⟨p, hp, hlen⟩ := Option.map_eq_some_iff.mp hrun
  exact ⟨p, hp, pthreadBarrierWait_roundSafe true platform1000 rawBarrier (by decide) (by decide)
    roundSteps p hp, hlen⟩

def firsts (s : World T) : List (Return T) := s.returned.filter fun r => r.round = 0

/-- What the threads of a barrier can rely on when there are as many of them as it waits for:
a first round, and `EINVAL` from then on. -/
structure OneRound (T : Type) (c : ℕ) (s : World T) : Prop where
  first : ∀ r ∈ s.returned, r.round = 0 → r.value ≠ .EINVAL
  later : ∀ r ∈ s.returned, 0 < r.round → r.value = .EINVAL
  all_arrived : s.returned ≠ [] → ∀ t, t ∈ s.arrived
  serials_le : (serials s).length ≤ 1
  serials_eq : (firsts s).length = c → (serials s).length = 1

omit [DecidableEq T] in
theorem few_of_card [Fintype T] : Few T (Fintype.card T) := by
  intro l t hl ht
  have hcons : (t :: l).Nodup := List.nodup_cons.mpr ⟨ht, hl⟩
  exact hcons.length_le_card

theorem pthreadBarrierWait_oneRound [Fintype T] [Nonempty T] (relock : Bool) (P : Platform)
    (b : PthreadBarrier T) (hmax : Fintype.card T < 2 ^ 32) (as : List (Action T (Finset T) ℕ))
    (p : Pool T BarrierOp BarrierAns (World T) ℕ WaitValue)
    (hrun : execute (step (barrierSystem relock P))
      (idlePool (freshWorld b (Fintype.card T))) as = some p) :
    OneRound T (Fintype.card T) p.shared := by
  have hpos : 1 ≤ Fintype.card T := Fintype.card_pos
  have h := reachable_sound hpos hmax hrun
  have hfirst (r : Return T) (hr : r ∈ p.shared.returned) (h0 : r.round = 0) :
      r.value ≠ .EINVAL := (h.honest r hr).first few_of_card h0
  have hlater (r : Return T) (hr : r ∈ p.shared.returned) (hk : 0 < r.round) :
      r.value = .EINVAL := (h.honest r hr).later hk
  have hpassed : firsts p.shared = passed p.shared := by
    refine List.filter_congr fun r hr => decide_eq_decide.mpr ⟨hfirst r hr, fun hv => ?_⟩
    by_contra hk
    exact hv (hlater r hr (Nat.pos_of_ne_zero hk))
  refine ⟨hfirst, hlater, fun hne t => ?_, h.serials_le hmax, fun hlen => ?_⟩
  · by_contra ht
    have hlt := few_of_card p.shared.arrived t h.nodup ht
    exact hlt.ne (h.full hne)
  · rw [hpassed] at hlen
    exact h.serials_eq hmax hpos hlen

theorem pthreadBarrierWait_oneRound_two : ∃ p,
    execute (step (barrierSystem true platform1000)) (idlePool (freshWorld rawBarrier 2))
      (roundSteps ++ waitSteps false 1 4) = some p ∧
    OneRound Bool 2 p.shared ∧ p.shared.returned.length = 3 := by
  have hrun : ((execute (step (barrierSystem true platform1000))
      (idlePool (freshWorld rawBarrier 2)) (roundSteps ++ waitSteps false 1 4)).map fun p =>
        p.shared.returned.length) = some 3 := by
    decide +kernel
  obtain ⟨p, hp, hlen⟩ := Option.map_eq_some_iff.mp hrun
  exact ⟨p, hp, pthreadBarrierWait_oneRound true platform1000 rawBarrier (by decide) _ p hp, hlen⟩

/-- One thread, one barrier for one thread, two rounds: the call of the second one fails. -/
theorem pthreadBarrierWait_second_round : ∃ p,
    execute (step (barrierSystem true platform1000)) (idlePool (freshWorld rawBarrier 1))
      (waitSteps () 0 11 ++ waitSteps () 1 4) = some p ∧
    ⟨(), 1, .EINVAL⟩ ∈ p.shared.returned := by
  have hrun : ((execute (step (barrierSystem true platform1000))
      (idlePool (freshWorld rawBarrier 1)) (waitSteps () 0 11 ++ waitSteps () 1 4)).map fun p =>
        decide (⟨(), 1, .EINVAL⟩ ∈ p.shared.returned)) = some true := by
    decide +kernel
  obtain ⟨p, hp, hmem⟩ := Option.map_eq_some_iff.mp hrun
  exact ⟨p, hp, of_decide_eq_true hmem⟩

end LibPosix.BarrierRound
