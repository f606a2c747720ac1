import LibPosix.CondAccounting

/-! Which threads a wake-up reaches. Waits without a timeout, signals and broadcasts on one
condition variable: a unit that was posted for threads already waiting can be taken by a
thread that comes later. -/
namespace LibPosix.CondWakeup
open Program ThreadPool Transition Kernel TimeUtils Cond CondAccounting
variable {T : Type} [DecidableEq T]

inductive WakeCall where
  | wait
  | signal
  | broadcast
  deriving DecidableEq, Repr

def wakeCode (P : Platform) : WakeCall → Prog CondOp CondAns Status
  | .wait => pthreadCondWait P
  | .signal => pthreadCondSignal
  | .broadcast => pthreadCondBroadcast

theorem wakeCode_obeys (P : Platform) (k : WakeCall) :
    (wakeCode P k).Obeys (bookkeeping P false) idle fun _ l => l = idle := by
  cases k with
  | wait => exact pthreadCondTimedwait_obeys P none fun _ => rfl
  | signal => exact pthreadCondSignal_obeys P false
  | broadcast => exact pthreadCondBroadcast_obeys P false

def wakeSystem (relock : Bool) (P : Platform) :
    System T CondOp CondAns (Choice T) (World T) WakeCall Status :=
  condSystem (wakeCode P) relock P

abbrev WakePool (T : Type) := Pool T CondOp CondAns (World T) WakeCall Status

def waking (relock : Bool) (P : Platform) : Discipline (wakeSystem (T := T) relock P) View :=
  accounting (wakeCode P) relock false P (wakeCode_obeys P)

def Posts : CondOp → Prop
  | .semPost => True
  | .semPostN _ => True
  | _ => False

/-- The threads of `A` can all get their units by steps of their own, without any further
signal or broadcast. -/
def CanServe (relock : Bool) (P : Platform) (p : WakePool T) (A : Finset T) : Prop :=
  ∃ bs p', (∀ b ∈ bs, ∃ t ∈ A, ∃ c, b = .run t c) ∧
    Meets (step (wakeSystem relock P)) (Allowed fun _ _ e _ => ¬ Posts e) p bs ∧
    execute (step (wakeSystem relock P)) p bs = some p' ∧ Disjoint A p'.shared.pre

/-- Every thread that was waiting at the last broadcast can still complete its wait and, for
each signal since then, another one of those that were waiting at it: all of them together. -/
def Honoured (relock : Bool) (P : Platform) (p : WakePool T) : Prop :=
  ∃ ts, List.Forall₂ (· ∈ ·) ts p.shared.signals ∧ ts.Nodup ∧ (∀ t ∈ ts, t ∉ p.shared.owed) ∧
    CanServe relock P p (p.shared.owed ∪ ts.toFinset)

/-- There is a unit to take, and it was posted for others: `t` was waiting neither at the last
broadcast nor at a signal since then that no thread has been set against. -/
def Overtakes (s : World T) (t : T) : Prop :=
  0 < s.cond.cond.count ∧ t ∉ s.owed ∧ ∀ S ∈ s.signals, t ∉ S

instance (s : World T) (t : T) : Decidable (Overtakes s t) :=
  inferInstanceAs (Decidable (_ ∧ _ ∧ _))

/-- No `sem_get` overtakes, and the counter does not overflow. -/
def Orderly (s : World T) (t : T) (e : CondOp) (_ : Choice T) : Prop :=
  match e with
  | .incWaiting => s.cond.waiting < 2147483647
  | .semGet _ => ¬ Overtakes s t
  | _ => True

instance (s : World T) (t : T) (e : CondOp) (c : Choice T) : Decidable (Orderly s t e c) :=
  match e with
  | .incWaiting => inferInstanceAs (Decidable (s.cond.waiting < 2147483647))
  | .semGet _ => inferInstanceAs (Decidable (¬ Overtakes s t))
  | .inited | .tmrTicks | .muxLock | .muxUnlock | .loadWaiting | .decWaiting | .clearWaiting
  | .semPost | .semPostN _ | .semResult _ | .mutexUnlock | .mutexLock => .isTrue trivial

/-- The `i`-th of the signals was for more than `n + i` threads, so that each of them still has
a thread of its own when `n` threads are set aside. -/
def Ample : ℕ → List (Finset T) → Prop
  | _, [] => True
  | n, S :: Ss => n < S.card ∧ Ample (n + 1) Ss

section Signals
variable {n : ℕ} {t : T} {A S : Finset T} {Ss : List (Finset T)}

omit [DecidableEq T] in
theorem Ample.append (h : Ample n Ss) (hS : n + Ss.length < S.card) : Ample n (Ss ++ [S]) := by
  induction Ss generalizing n with
  | nil => exact ⟨hS, trivial⟩
  | cons S₁ Ss ih =>
    rw [List.length_cons] at hS
    exact ⟨h.1, ih h.2 (by omega)⟩

theorem Ample.erase (h : Ample (n + 1) Ss) (t : T) : Ample n (Ss.map (· \ {t})) := by
  induction Ss generalizing n with
  | nil => trivial
  | cons S Ss ih =>
    have hcard : n < (S \ {t}).card := by
      have hpred : S.card - 1 ≤ (S.erase t).card := Finset.pred_card_le_card_erase
      have hlt := h.1
      rw [Finset.sdiff_singleton_eq_erase]
      omega
    exact ⟨hcard, ih h.2⟩

theorem Ample.fulfil (h : Ample n Ss) (t : T) : Ample n (fulfil {t} Ss) := by
  induction Ss generalizing n with
  | nil => trivial
  | cons S Ss ih =>
    unfold CondAccounting.fulfil
    split_ifs with hS
    · exact h.2.erase t
    · exact ⟨h.1, ih h.2⟩

theorem Ample.distinct (h : Ample A.card Ss) :
    ∃ ts, List.Forall₂ (· ∈ ·) ts Ss ∧ ts.Nodup ∧ ∀ t ∈ ts, t ∉ A := by
  induction Ss generalizing A with
  | nil => exact ⟨[], .nil, List.nodup_nil, by simp⟩
  | cons S Ss ih =>
    obtain ⟨t, htS, htA⟩ := Finset.exists_mem_notMem_of_card_lt_card h.1
    have hrest : Ample (insert t A).card Ss := by
      rw [Finset.card_insert_of_notMem htA]
      exact h.2
    obtain ⟨ts, hmem, hnd, hout⟩ := ih hrest
    refine ⟨t :: ts, .cons htS hmem, ?_, ?_⟩
    · exact List.nodup_cons.mpr ⟨fun ht => hout t ht (Finset.mem_insert_self t A), hnd⟩
    · intro u hu
      rcases List.mem_cons.mp hu with rfl | hu
      · exact htA
      · exact fun hA => hout u hu (Finset.mem_insert_of_mem hA)

theorem fulfil_eq_self (h : ∀ S ∈ Ss, Disjoint S A) : fulfil A Ss = Ss := by
  induction Ss with
  | nil => rfl
  | cons S Ss ih =>
    have hS : ¬ (S ∩ A).Nonempty := by
      rw [Finset.not_nonempty_iff_eq_empty]
      exact Finset.disjoint_iff_inter_eq_empty.mp (h S List.mem_cons_self)
    rw [fulfil, if_neg hS, ih fun S' hS' => h S' (List.mem_cons_of_mem S hS')]

theorem mem_fulfil (h : S ∈ fulfil A Ss) : ∃ S' ∈ Ss, S = S' \ A := by
  induction Ss with
  | nil => cases h
  | cons S₁ Ss ih =>
    unfold fulfil at h
    split_ifs at h with hS
    · obtain ⟨S', hS', rfl⟩ := List.mem_map.mp h
      exact ⟨S', List.mem_cons_of_mem S₁ hS', rfl⟩
    · rcases List.mem_cons.mp h with rfl | h
      · have hdis : Disjoint S A := by
          rw [Finset.disjoint_iff_inter_eq_empty]
          exact Finset.not_nonempty_iff_eq_empty.mp hS
        exact ⟨S, List.mem_cons_self, hdis.sdiff_eq_left.symm⟩
      · obtain ⟨S', hS', heq⟩ := ih h
        exact ⟨S', List.mem_cons_of_mem S₁ hS', heq⟩

theorem length_fulfil (h : ∃ S ∈ Ss, t ∈ S) : (fulfil {t} Ss).length + 1 = Ss.length := by
  induction Ss with
  | nil => simp at h
  | cons S Ss ih =>
    by_cases ht : t ∈ S
    · have hS : (S ∩ {t}).Nonempty := ⟨t, by simp [ht]⟩
      rw [fulfil, if_pos hS, List.length_map, List.length_cons]
    · have hS : ¬ (S ∩ {t}).Nonempty := by simp [Finset.inter_singleton_of_notMem ht]
      obtain ⟨S', hmem, htS'⟩ := h
      have hmem' : S' ∈ Ss := by
        rcases List.mem_cons.mp hmem with rfl | hmem
        · exact absurd htS' ht
        · exact hmem
      rw [fulfil, if_neg hS, List.length_cons, List.length_cons, ih ⟨S', hmem', htS'⟩]

omit [DecidableEq T] in
theorem mem_of_forall₂ {ts : List T} (h : List.Forall₂ (· ∈ ·) ts Ss) (hA : ∀ S ∈ Ss, S ⊆ A) :
    ∀ t ∈ ts, t ∈ A := by
  induction h with
  | nil => simp
  | cons htS _ ih =>
    intro t ht
    rcases List.mem_cons.mp ht with rfl | ht
    · exact hA _ List.mem_cons_self htS
    · exact ih (fun S hS => hA S (List.mem_cons_of_mem _ hS)) t ht

theorem card_promised {ts : List T} (h : List.Forall₂ (· ∈ ·) ts Ss) (hnd : ts.Nodup)
    (hA : ∀ t ∈ ts, t ∉ A) : (A ∪ ts.toFinset).card = A.card + Ss.length := by
  have hdis : Disjoint A ts.toFinset := by
    rw [Finset.disjoint_right]
    intro t ht
    exact hA t (List.mem_toFinset.mp ht)
  rw [Finset.card_union_of_disjoint hdis, List.toFinset_card_of_nodup hnd, h.length_eq]

end Signals

section Requests
variable {relock : Bool} {P : Platform} {s s' : World T} {t : T} {c : Choice T}

/-- Without timeouts no wake-up can slip in, so only the counter can fail. -/
theorem noSlip_of_untimed {e : CondOp} (h : Accounts false s)
    (hsafe : (bookkeeping P false).safe (view s t) e)
    (hw : e = .incWaiting → s.cond.waiting < 2147483647) : NoSlip s t e c := by
  have hl : s.late = ∅ := h.untimed rfl
  cases e with
  | incWaiting => exact hw rfl
  | semPost =>
    obtain ⟨-, w, hw, hi⟩ := hsafe
    obtain ⟨-, hsw, -⟩ := inside_some.mp hi
    simp only [NoSlip, hl, Finset.card_empty]
    omega
  | semPostN n => exact hl
  | _ => trivial

/-- The units there are and those they are for: every thread that is owed one, and a thread for
each signal. -/
structure Records (s : World T) : Prop where
  owed_pre : s.owed ⊆ s.pre
  signals_pre : ∀ S ∈ s.signals, S ⊆ s.pre \ s.owed
  ample : Ample 0 s.signals
  units : s.cond.cond.count = s.owed.card + s.signals.length

theorem Records.congr (h : Records s) (ho : s'.owed = s.owed) (hs : s'.signals = s.signals)
    (hp : s.pre ⊆ s'.pre) (hc : s'.cond.cond.count = s.cond.cond.count) : Records s' := by
  constructor
  · rw [ho]
    exact h.owed_pre.trans hp
  · intro S hS
    rw [hs] at hS
    rw [ho]
    exact (h.signals_pre S hS).trans (Finset.sdiff_subset_sdiff hp le_rfl)
  · rw [hs]
    exact h.ample
  · rw [hc, ho, hs]
    exact h.units

theorem signals_serve {A : Finset T} (h : ∀ S ∈ s.signals, S ⊆ s.pre \ s.owed) :
    ∀ S ∈ fulfil A s.signals, S ⊆ (s.pre \ A) \ (s.owed \ A) := by
  intro S' hS' u hu
  obtain ⟨S, hS, rfl⟩ := mem_fulfil hS'
  obtain ⟨huS, huA⟩ := Finset.mem_sdiff.mp hu
  have hsub := h S hS huS
  simp only [Finset.mem_sdiff] at hsub ⊢
  tauto

theorem records_take (h : Records s) (hpos : 0 < s.cond.cond.count) (ho : ¬ Overtakes s t) :
    Records ((s.setSem ⟨s.cond.cond.count - 1, s.cond.cond.blocked,
      s.cond.cond.granted⟩).serve {t}) := by
  have hunits := h.units
  refine ⟨Finset.sdiff_subset_sdiff h.owed_pre le_rfl, signals_serve h.signals_pre,
    h.ample.fulfil t, ?_⟩
  simp only [World.serve_cond, World.setSem_cond_cond, World.serve_owed, World.setSem_owed,
    World.serve_signals, World.setSem_signals]
  by_cases hto : t ∈ s.owed
  · have hdis (S : Finset T) (hS : S ∈ s.signals) : Disjoint S {t} := by
      rw [Finset.disjoint_singleton_right]
      exact fun htS => (Finset.mem_sdiff.mp (h.signals_pre S hS htS)).2 hto
    have hcard : (s.owed.erase t).card + 1 = s.owed.card := Finset.card_erase_add_one hto
    rw [fulfil_eq_self hdis, Finset.sdiff_singleton_eq_erase]
    omega
  · have hsig : ∃ S ∈ s.signals, t ∈ S := by
      by_contra hn
      push Not at hn
      exact ho ⟨hpos, hto, hn⟩
    have hlen := length_fulfil hsig
    rw [Finset.sdiff_singleton_eq_erase, Finset.erase_eq_of_notMem hto]
    omega

/-- A signal either wakes a queued thread, while nothing is promised to anybody, or adds a unit
and the promise that goes with it. -/
theorem records_post {woken : Finset T} {q : Sem T} (ha : Accounts false s) (h : Records s)
    (hroom : s.cond.cond.count + 1 ≤ s.pre.card) (hq : semPostN 1 woken s.cond.cond = some q) :
    Records ((s.noteSignal.setSem q).serve woken) := by
  obtain ⟨hsub, hcard, rfl⟩ := semPostN_some hq
  have hunits := h.units
  have hsig : ∀ S ∈ s.noteSignal.signals, S ⊆ s.pre \ s.owed := by
    intro S hS
    rcases List.mem_append.mp hS with hS | hS
    · exact h.signals_pre S hS
    · obtain rfl := List.mem_singleton.mp hS
      exact subset_rfl
  have hlen : s.signals.length < (s.pre \ s.owed).card := by
    rw [Finset.card_sdiff_of_subset h.owed_pre]
    omega
  rcases Finset.eq_empty_or_nonempty woken with rfl | hne
  · have hself : fulfil ∅ (s.signals ++ [s.pre \ s.owed]) = s.signals ++ [s.pre \ s.owed] :=
      fulfil_eq_self fun S _ => Finset.disjoint_empty_right S
    refine ⟨Finset.sdiff_subset_sdiff h.owed_pre le_rfl, signals_serve hsig, ?_, ?_⟩
    · simp only [World.serve_signals, World.setSem_signals, World.noteSignal_signals, hself]
      exact h.ample.append (by simpa using hlen)
    · simp only [World.serve_cond, World.setSem_cond_cond, World.serve_owed, World.setSem_owed,
        World.serve_signals, World.setSem_signals, World.noteSignal_signals,
        World.noteSignal_owed, hself, Finset.sdiff_empty, Finset.card_empty, List.length_append,
        List.length_singleton]
      omega
  · have hzero : s.cond.cond.count = 0 := ha.sem.no_idle (hne.mono hsub)
    have howed : s.owed = ∅ := Finset.card_eq_zero.mp (by omega)
    have hnil : s.signals = [] := List.length_eq_zero_iff.mp (by omega)
    have hone : woken.card = 1 := by
      have hpos : 0 < woken.card := hne.card_pos
      omega
    obtain ⟨u, rfl⟩ := Finset.card_eq_one.mp hone
    have hu : u ∈ s.pre := ha.blocked_pre (hsub (Finset.mem_singleton_self u))
    have hful : fulfil {u} (s.signals ++ [s.pre \ s.owed]) = [] := by
      simp [fulfil, hnil, howed, hu]
    refine ⟨Finset.sdiff_subset_sdiff h.owed_pre le_rfl, signals_serve hsig, ?_, ?_⟩
    · simp only [World.serve_signals, World.setSem_signals, World.noteSignal_signals, hful]
      trivial
    · simp only [World.serve_cond, World.setSem_cond_cond, World.serve_owed, World.setSem_owed,
        World.serve_signals, World.setSem_signals, World.noteSignal_signals,
        World.noteSignal_owed, hful, hone, hzero]
      simp [howed]

/-- A broadcast posts as many units as there are threads without one. -/
theorem records_postN {n : ℕ} {woken : Finset T} {q : Sem T} (ha : Accounts false s)
    (hn : s.cond.cond.count + n = s.pre.card) (hq : semPostN n woken s.cond.cond = some q) :
    Records ((s.noteBroadcast.setSem q).serve woken) := by
  obtain ⟨hsub, hcard, rfl⟩ := semPostN_some hq
  have hwp : woken ⊆ s.pre := hsub.trans ha.blocked_pre
  have hsd : (s.pre \ woken).card = s.pre.card - woken.card := Finset.card_sdiff_of_subset hwp
  refine ⟨subset_rfl, by simp [fulfil], trivial, ?_⟩
  simp only [World.serve_cond, World.setSem_cond_cond, World.serve_owed, World.setSem_owed,
    World.serve_signals, World.setSem_signals, World.noteBroadcast_owed,
    World.noteBroadcast_signals, fulfil, List.length_nil, hsd]
  omega

theorem records_exec {e : CondOp} {r : CondAns e} (ha : Accounts false s) (h : Records s)
    (hsafe : (bookkeeping P false).safe (view s t) e) (hok : Orderly s t e c)
    (hs : condExec relock P t e c s = some (r, s')) : Records s' := by
  cases e with
  | inited =>
    cases hs
    exact h
  | tmrTicks =>
    cases hs
    exact h
  | muxLock =>
    obtain ⟨q, -, heq⟩ := Option.map_eq_some_iff.mp hs
    obtain rfl := (Prod.mk.inj heq).2
    exact h.congr rfl rfl subset_rfl rfl
  | muxUnlock =>
    cases hs
    exact h.congr rfl rfl subset_rfl rfl
  | loadWaiting =>
    cases hs
    exact h
  | incWaiting =>
    cases hs
    exact h.congr rfl rfl (Finset.subset_insert t s.pre) rfl
  | decWaiting =>
    cases hs
    exact h.congr rfl rfl subset_rfl rfl
  | clearWaiting =>
    cases hs
    exact h.congr rfl rfl subset_rfl rfl
  | semPost =>
    have hroom := (semPost_room hsafe).mpr (noSlip_of_untimed (c := c) ha hsafe nofun)
    obtain ⟨q, hq, heq⟩ := Option.map_eq_some_iff.mp hs
    obtain rfl := (Prod.mk.inj heq).2
    exact records_post ha h hroom hq
  | semPostN n =>
    have hn : s.cond.cond.count + n = s.pre.card := by
      have hi : (view s t).inside = some ((n : ℤ), 0) := congrArg View.inside hsafe
      obtain ⟨-, hsw, hd⟩ := inside_some.mp hi
      unfold debt at hd
      rw [ha.untimed rfl, Finset.card_empty] at hd
      omega
    obtain ⟨q, hq, heq⟩ := Option.map_eq_some_iff.mp hs
    obtain rfl := (Prod.mk.inj heq).2
    exact records_postN ha hn hq
  | semGet ticks =>
    obtain ⟨-, rfl⟩ := Prod.mk.inj (Option.some.inj hs)
    by_cases hpos : 0 < s.cond.cond.count
    · simp only [Kernel.semGet, hpos, if_true]
      exact records_take h hpos hok
    · simp only [Kernel.semGet, hpos, if_false, Bool.false_eq_true]
      exact h.congr rfl rfl subset_rfl rfl
  | semResult ticks =>
    obtain ⟨⟨a, q⟩, hr, heq⟩ := Option.map_eq_some_iff.mp hs
    obtain ⟨rfl, rfl⟩ := Prod.mk.inj heq
    unfold Kernel.semResult at hr
    split_ifs at hr with hg he
    · cases hr
      exact h.congr rfl rfl subset_rfl rfl
    · -- no wait has a timeout that could run out
      exact absurd (hsafe.2 rfl) he.2
  | mutexUnlock =>
    cases hs
    exact h
  | mutexLock =>
    cases hs
    exact h

/-- A thread that has counted itself and not reached `sem_get` is never held up on its way
there, and disturbs nothing. -/
theorem counted_exec {e : CondOp} (hsafe : (bookkeeping P false).safe (view s t) e)
    (hp : phase s t = .counted) :
    (∃ ticks, e = .semGet ticks) ∨ ∃ r s', condExec relock P t e plain s = some (r, s') ∧
      ¬ Posts e ∧ NoSlip s t e plain ∧ s'.pre = s.pre ∧ s'.late = s.late ∧
      s'.cond.cond = s.cond.cond := by
  have hv : (view s t).phase = .counted := hp
  cases e with
  | semGet ticks => exact .inl ⟨ticks, rfl⟩
  | muxLock =>
    have hq := hsafe.2
    simp [hv] at hq
  | incWaiting =>
    have hq := hsafe.1
    simp [hv] at hq
  | decWaiting =>
    rcases hsafe with ⟨w, ⟨hq, -⟩ | ⟨hq, -⟩⟩
    · simp [hv] at hq
    · simp [hv] at hq
  | clearWaiting =>
    have hq := hsafe.1
    simp [hv] at hq
  | semPost =>
    have hq := hsafe.1
    simp [hv] at hq
  | semPostN n =>
    have hq := congrArg View.phase hsafe
    simp [hv] at hq
  | semResult ticks =>
    have hq := congrArg View.phase hsafe.1
    simp [hv] at hq
  | mutexLock =>
    have hq := hsafe.2
    simp [hv] at hq
  | inited => exact .inr ⟨_, _, rfl, not_false, trivial, rfl, rfl, rfl⟩
  | tmrTicks => exact .inr ⟨_, _, rfl, not_false, trivial, rfl, rfl, rfl⟩
  | muxUnlock => exact .inr ⟨_, _, rfl, not_false, trivial, rfl, rfl, rfl⟩
  | loadWaiting => exact .inr ⟨_, _, rfl, not_false, trivial, rfl, rfl, rfl⟩
  | mutexUnlock => exact .inr ⟨_, _, rfl, not_false, trivial, rfl, rfl, rfl⟩

end Requests

section Progress
variable {relock : Bool} {P : Platform} {p : WakePool T} {t : T}

theorem phase_congr {s s' : World T} (hp : s'.pre = s.pre) (hl : s'.late = s.late)
    (hc : s'.cond.cond = s.cond.cond) (u : T) : phase s' u = phase s u := by
  unfold phase
  rw [hp, hl, hc]

/-- While there are units, a thread on its way to `sem_get` can go there and take one. -/
theorem serve_one {k : WakeCall} {q : Prog CondOp CondAns Status}
    (hp : (waking relock P).Inv p) (ht : p.thread t = some (k, q))
    (hph : phase p.shared t = .counted) (hc : 0 < p.shared.cond.cond.count) :
    ∃ bs p', (∀ b ∈ bs, ∃ c, b = .run t c) ∧
      Meets (step (wakeSystem relock P)) (Allowed fun _ _ e _ => ¬ Posts e) p bs ∧
      execute (step (wakeSystem relock P)) p bs = some p' ∧ (waking relock P).Inv p' ∧
      p'.shared.pre = p.shared.pre \ {t} ∧
      p'.shared.cond.cond.count = p.shared.cond.cond.count - 1 ∧
      ∀ u, u ≠ t → phase p'.shared u = phase p.shared u := by
  have hf := hp.threads t
  rw [ht] at hf
  -- along the rest of the program, which cannot return before `sem_get`
  induction q generalizing p with
  | ret v =>
    have hi : view p.shared t = idle := hf
    have hout := congrArg View.phase hi
    have hin : phase p.shared t = .out := hout
    rw [hph] at hin
    cases hin
  | call e f ih =>
    have hsafe := hf.1
    rcases counted_exec hsafe hph with ⟨ticks, rfl⟩ | ⟨r, s', hx, hpost, hslip, hpre, hlate, hsem⟩
    · have hv : view p.shared t = ⟨.counted, none⟩ := hsafe.1
      have hx : condExec relock P t (.semGet ticks) plain p.shared =
          some (true, (p.shared.setSem ⟨p.shared.cond.cond.count - 1,
            p.shared.cond.cond.blocked, p.shared.cond.cond.granted⟩).serve {t}) := by
        simp [condExec, Kernel.semGet, hc]
      have hstep : step (wakeSystem relock P) p (.run t plain) =
          some (p.set _ t (some (k, f true))) :=
        step_run.mpr ⟨k, _, f, ht, true, _, hx, rfl⟩
      refine ⟨[.run t plain], _, by simp, ⟨?_, fun _ _ => trivial⟩,
        execute_cons.mpr ⟨_, hstep, rfl⟩, ?_,
        rfl, rfl, fun u hu => ?_⟩
      · intro k' e' f' heq
        cases ht.symm.trans heq
        exact id
      · refine hp.step (fun k' e' f' heq => ?_) hstep
        cases ht.symm.trans heq
        exact trivial
      · have hvu := (take_accounts hp.shared hv hc).2.2 u hu
        exact congrArg View.phase hvu
    · have hstep : step (wakeSystem relock P) p (.run t plain) =
          some (p.set s' t (some (k, f r))) :=
        step_run.mpr ⟨k, e, f, ht, r, s', hx, rfl⟩
      have hinv : (waking relock P).Inv (p.set s' t (some (k, f r))) := by
        refine hp.step (fun k' e' f' heq => ?_) hstep
        cases ht.symm.trans heq
        exact hslip
      have hcong := phase_congr hpre hlate hsem
      have hf' := hinv.threads t
      rw [Pool.set_thread_self] at hf'
      obtain ⟨bs, p', hbs, hm, hrun, hi, hpre', hcount', hu⟩ := ih r hinv (Pool.set_thread_self ..)
        ((hcong t).trans hph) (by rw [Pool.set_shared, hsem]; exact hc) hf'
      refine ⟨.run t plain :: bs, p', ?_, ⟨?_, ?_⟩, ?_, hi, ?_, ?_, fun u hne => ?_⟩
      · intro b hb
        rcases List.mem_cons.mp hb with rfl | hb
        · exact ⟨plain, rfl⟩
        · exact hbs b hb
      · intro k' e' f' heq
        cases ht.symm.trans heq
        exact hpost
      · intro u hu
        cases hstep.symm.trans hu
        exact hm
      · exact execute_cons.mpr ⟨_, hstep, hrun⟩
      · rw [hpre', Pool.set_shared, hpre]
      · rw [hcount', Pool.set_shared, hsem]
      · exact (hu u hne).trans (hcong u)

theorem thread_of_counted (hp : (waking relock P).Inv p) (hph : phase p.shared t = .counted) :
    ∃ k q, p.thread t = some (k, q) := by
  have hf := hp.threads t
  cases ht : p.thread t with
  | none =>
    rw [ht] at hf
    have hi : view p.shared t = idle := hf
    have hin : phase p.shared t = .out := congrArg View.phase hi
    rw [hph] at hin
    cases hin
  | some x => exact ⟨x.1, x.2, rfl⟩

theorem serve_all (A : Finset T) (hp : (waking relock P).Inv p)
    (hA : ∀ t ∈ A, phase p.shared t = .counted) (hc : A.card ≤ p.shared.cond.cond.count) :
    ∃ bs p', (∀ b ∈ bs, ∃ t ∈ A, ∃ c, b = .run t c) ∧
      Meets (step (wakeSystem relock P)) (Allowed fun _ _ e _ => ¬ Posts e) p bs ∧
      execute (step (wakeSystem relock P)) p bs = some p' ∧ p'.shared.pre = p.shared.pre \ A := by
  induction A using Finset.induction_on generalizing p with
  | empty => exact ⟨[], p, by simp, trivial, rfl, by simp⟩
  | insert t A htA ih =>
    have hcard : (insert t A).card = A.card + 1 := Finset.card_insert_of_notMem htA
    have hph := hA t (Finset.mem_insert_self t A)
    obtain ⟨k, q, ht⟩ := thread_of_counted hp hph
    obtain ⟨bs, p', hbs, hm, hrun, hi, hpre, hcount, hu⟩ := serve_one hp ht hph (by omega)
    have hA' (u : T) (huA : u ∈ A) : phase p'.shared u = .counted := by
      have hne : u ≠ t := fun heq => htA (heq ▸ huA)
      exact (hu u hne).trans (hA u (Finset.mem_insert_of_mem huA))
    obtain ⟨bs', p'', hbs', hm', hrun', hpre'⟩ := ih hi hA' (by omega)
    refine ⟨bs ++ bs', p'', ?_, ?_, execute_append.mpr ⟨p', hrun, hrun'⟩, ?_⟩
    · intro b hb
      rcases List.mem_append.mp hb with hb | hb
      · exact ⟨t, Finset.mem_insert_self t A, hbs b hb⟩
      · obtain ⟨u, huA, hc⟩ := hbs' b hb
        exact ⟨u, Finset.mem_insert_of_mem huA, hc⟩
    · exact meets_append.mpr ⟨hm, fun u hu => by cases hrun.symm.trans hu; exact hm'⟩
    · rw [hpre', hpre]
      ext u
      simp only [Finset.mem_sdiff, Finset.mem_singleton, Finset.mem_insert, not_or, and_assoc]

theorem canServe_of_records {A : Finset T} (hp : (waking relock P).Inv p)
    (hA : A ⊆ p.shared.pre) (hc : A.card ≤ p.shared.cond.cond.count) :
    CanServe relock P p A := by
  have hacc : Accounts false p.shared := hp.shared
  have hcounted (t : T) (ht : t ∈ A) : phase p.shared t = .counted := by
    have hpos : 0 < A.card := Finset.card_pos.mpr ⟨t, ht⟩
    have hb : t ∉ p.shared.cond.cond.blocked := fun hb => by
      have h0 := hacc.sem.no_idle ⟨t, hb⟩
      omega
    have hg : t ∉ p.shared.cond.cond.granted := fun hg =>
      Finset.disjoint_left.mp hacc.granted_pre hg (hA ht)
    have hl : t ∉ p.shared.late := by simp [hacc.untimed rfl]
    exact phase_counted.mpr ⟨hl, hb, hg, hA ht⟩
  obtain ⟨bs, p', hbs, hm, hrun, hpre⟩ := serve_all A hp hcounted hc
  refine ⟨bs, p', hbs, hm, hrun, ?_⟩
  rw [hpre]
  exact Finset.disjoint_sdiff

theorem Records.honoured (hp : (waking relock P).Inv p) (h : Records p.shared) :
    Honoured relock P p := by
  obtain ⟨ts, hmem, hnd, -⟩ := Ample.distinct (A := ∅) h.ample
  have hts := mem_of_forall₂ hmem h.signals_pre
  have hout (t : T) (ht : t ∈ ts) : t ∉ p.shared.owed := (Finset.mem_sdiff.mp (hts t ht)).2
  refine ⟨ts, hmem, hnd, hout, canServe_of_records hp ?_ ?_⟩
  · refine Finset.union_subset h.owed_pre fun t ht => ?_
    exact (Finset.mem_sdiff.mp (hts t (List.mem_toFinset.mp ht))).1
  · rw [card_promised hmem hnd hout, h.units]

theorem step_records {p' : WakePool T} {a : Action T (Choice T) WakeCall}
    (h : (waking relock P).Inv p ∧ Records p.shared) (hok : Allowed Orderly p a)
    (hs : step (wakeSystem relock P) p a = some p') :
    (waking relock P).Inv p' ∧ Records p'.shared := by
  obtain ⟨hp, hr⟩ := h
  cases a with
  | enter t k =>
    obtain ⟨-, s, hx, rfl⟩ := step_enter.mp hs
    cases hx
    have hal : Allowed NoSlip p (.enter t k) := trivial
    exact ⟨hp.step hal hs, hr⟩
  | leave t =>
    obtain ⟨k, v, -, rfl⟩ := step_leave.mp hs
    have hal : Allowed NoSlip p (.leave t) := trivial
    exact ⟨hp.step hal hs, hr⟩
  | run t c =>
    obtain ⟨k, e, f, ht, r, s, hx, rfl⟩ := step_run.mp hs
    have hf := hp.threads t
    rw [ht] at hf
    have hord : Orderly p.shared t e c := hok k e f ht
    have hslip : NoSlip p.shared t e c := by
      refine noSlip_of_untimed hp.shared hf.1 fun he => ?_
      subst e
      exact hord
    refine ⟨hp.step (fun k' e' f' heq => ?_) hs, records_exec hp.shared hr hf.1 hord hx⟩
    cases ht.symm.trans heq
    exact hslip

end Progress

theorem idleWorld_records : Records (idleWorld : World T) :=
  ⟨subset_rfl, by simp [idleWorld], trivial, rfl⟩

/-- No wake-up is stolen in a run in which no thread overtakes those it is not waiting
with. -/
theorem pthreadCond_wakeups_honoured (relock : Bool) (P : Platform)
    (as : List (Action T (Choice T) WakeCall)) (p : WakePool T)
    (hrun : execute (step (wakeSystem relock P)) (idlePool idleWorld) as = some p)
    (hok : Meets (step (wakeSystem relock P)) (Allowed Orderly) (idlePool idleWorld) as) :
    Honoured relock P p := by
  have h0 : (waking relock P).Inv (idlePool (idleWorld : World T)) ∧
      Records (idleWorld : World T) :=
    ⟨Discipline.idle_inv _ (idleWorld_accounts false) idleWorld_view, idleWorld_records⟩
  obtain ⟨hp, hr⟩ := execute_invariant (fun _ _ _ hi ha hs => step_records hi ha hs) h0 hok hrun
  exact hr.honoured hp

section Stolen
variable {relock : Bool} {P : Platform} {p : WakePool T}

theorem incWaiting_of_fintype [Fintype T] (hT : Fintype.card T < 2147483647) {s : World T} {t : T}
    (h : Accounts false s) (hsafe : (bookkeeping P false).safe (view s t) .incWaiting) :
    s.cond.waiting < 2147483647 := by
  obtain ⟨-, w, hi⟩ := hsafe
  obtain ⟨-, -, hd⟩ := inside_some.mp hi
  have hcard : s.pre.card ≤ Fintype.card T := Finset.card_le_univ s.pre
  unfold debt at hd
  rw [h.untimed rfl, Finset.card_empty] at hd
  omega

theorem step_of_fintype [Fintype T] (hT : Fintype.card T < 2147483647) {p' : WakePool T}
    {a : Action T (Choice T) WakeCall} (hp : (waking relock P).Inv p)
    (hs : step (wakeSystem relock P) p a = some p') : (waking relock P).Inv p' := by
  refine hp.step ?_ hs
  cases a with
  | enter t k => trivial
  | leave t => trivial
  | run t c =>
    intro k e f ht
    have hf := hp.threads t
    rw [ht] at hf
    refine noSlip_of_untimed (c := c) hp.shared hf.1 fun he => ?_
    subst e
    exact incWaiting_of_fintype hT hp.shared hf.1

/-- Without a post, threads get units from the count only. -/
theorem unaided_exec {s s' : World T} {t : T} {e : CondOp} {c : Choice T} {r : CondAns e}
    (A : Finset T) (hsafe : (bookkeeping P false).safe (view s t) e) (hpost : ¬ Posts e)
    (hs : condExec relock P t e c s = some (r, s')) :
    (A ∩ s.pre).card + s'.cond.cond.count ≤ (A ∩ s'.pre).card + s.cond.cond.count := by
  cases e with
  | semPost => exact absurd trivial hpost
  | semPostN n => exact absurd trivial hpost
  | muxLock =>
    obtain ⟨q, -, heq⟩ := Option.map_eq_some_iff.mp hs
    obtain rfl := (Prod.mk.inj heq).2
    exact le_rfl
  | incWaiting =>
    cases hs
    have hle : (A ∩ s.pre).card ≤ (A ∩ insert t s.pre).card :=
      Finset.card_le_card (Finset.inter_subset_inter le_rfl (Finset.subset_insert t s.pre))
    exact Nat.add_le_add_right hle _
  | semGet ticks =>
    obtain ⟨-, rfl⟩ := Prod.mk.inj (Option.some.inj hs)
    by_cases hpos : 0 < s.cond.cond.count
    · simp only [Kernel.semGet, hpos, if_true, World.serve_cond, World.setSem_cond_cond,
        World.serve_pre, World.setSem_pre]
      have hle : (A ∩ s.pre).card ≤ (A ∩ (s.pre \ {t})).card + 1 := by
        rw [← Finset.inter_sdiff_assoc, Finset.sdiff_singleton_eq_erase]
        have he := Finset.pred_card_le_card_erase (s := A ∩ s.pre) (a := t)
        omega
      omega
    · simp only [Kernel.semGet, hpos, if_false, Bool.false_eq_true]
      exact le_rfl
  | semResult ticks =>
    obtain ⟨⟨a, q⟩, hr, heq⟩ := Option.map_eq_some_iff.mp hs
    obtain ⟨rfl, rfl⟩ := Prod.mk.inj heq
    unfold Kernel.semResult at hr
    split_ifs at hr with hg he
    · cases hr
      exact le_rfl
    · exact absurd (hsafe.2 rfl) he.2
  | _ =>
    cases hs
    exact le_rfl

theorem not_canServe [Fintype T] (hT : Fintype.card T < 2147483647) {A : Finset T}
    (hp : (waking relock P).Inv p) (hA : A ⊆ p.shared.pre)
    (hc : p.shared.cond.cond.count < A.card) : ¬ CanServe relock P p A := by
  rintro ⟨bs, p', -, hm, hrun, hdis⟩
  have hstep : ∀ q a q', ((waking relock P).Inv q ∧ (A ∩ p.shared.pre).card +
      q.shared.cond.cond.count ≤ (A ∩ q.shared.pre).card + p.shared.cond.cond.count) →
      Allowed (fun _ _ e _ => ¬ Posts e) q a → step (wakeSystem relock P) q a = some q' →
      (waking relock P).Inv q' ∧ (A ∩ p.shared.pre).card +
        q'.shared.cond.cond.count ≤ (A ∩ q'.shared.pre).card + p.shared.cond.cond.count := by
    rintro q a q' ⟨hq, hle⟩ ha hs
    refine ⟨step_of_fintype hT hq hs, ?_⟩
    cases a with
    | enter t k =>
      obtain ⟨-, s, hx, rfl⟩ := step_enter.mp hs
      cases hx
      exact hle
    | leave t =>
      obtain ⟨k, v, -, rfl⟩ := step_leave.mp hs
      exact hle
    | run t c =>
      obtain ⟨k, e, f, ht, r, s, hx, rfl⟩ := step_run.mp hs
      have hf := hq.threads t
      rw [ht] at hf
      have hone := unaided_exec A hf.1 (ha k e f ht) hx
      simp only [Pool.set_shared]
      omega
  have hinv := execute_invariant hstep ⟨hp, le_rfl⟩ hm hrun
  rw [Finset.inter_eq_left.mpr hA, Finset.disjoint_iff_inter_eq_empty.mp hdis] at hinv
  have hle := hinv.2
  simp only [Finset.card_empty] at hle
  omega

theorem not_honoured [Fintype T] (hT : Fintype.card T < 2147483647)
    (hp : (waking relock P).Inv p) (ho : p.shared.owed ⊆ p.shared.pre)
    (hs : ∀ S ∈ p.shared.signals, S ⊆ p.shared.pre \ p.shared.owed)
    (hc : p.shared.cond.cond.count < p.shared.owed.card + p.shared.signals.length) :
    ¬ Honoured relock P p := by
  rintro ⟨ts, hmem, hnd, hout, hserve⟩
  have hts := mem_of_forall₂ hmem hs
  refine not_canServe hT hp ?_ ?_ hserve
  · refine Finset.union_subset ho fun t ht => ?_
    exact (Finset.mem_sdiff.mp (hts t (List.mem_toFinset.mp ht))).1
  · rw [card_promised hmem hnd hout]
    exact hc

/-- A step that misses the condition robs a thread that was waiting. -/
theorem disorder_dishonours [Fintype T] (hT : Fintype.card T < 2147483647) {p' : WakePool T}
    {a : Action T (Choice T) WakeCall} (h : (waking relock P).Inv p ∧ Records p.shared)
    (hn : ¬ Allowed Orderly p a) (hs : step (wakeSystem relock P) p a = some p') :
    ¬ Honoured relock P p' := by
  obtain ⟨hp, hr⟩ := h
  have hp' := step_of_fintype hT hp hs
  cases a with
  | enter t k => exact absurd trivial hn
  | leave t => exact absurd trivial hn
  | run t c =>
    obtain ⟨k, e, f, ht, r, s, hx, rfl⟩ := step_run.mp hs
    have hord : ¬ Orderly p.shared t e c := fun hok => hn fun k' e' f' heq => by
      cases ht.symm.trans heq
      exact hok
    have hf := hp.threads t
    rw [ht] at hf
    cases e with
    | incWaiting => exact absurd (incWaiting_of_fintype hT hp.shared hf.1) hord
    | semGet ticks =>
      obtain ⟨hpos, hto, htS⟩ := not_not.mp hord
      obtain ⟨-, rfl⟩ := Prod.mk.inj (Option.some.inj hx)
      simp only [Kernel.semGet, hpos, if_true] at hp' ⊢
      have hself : fulfil {t} p.shared.signals = p.shared.signals :=
        fulfil_eq_self fun S hS => Finset.disjoint_singleton_right.mpr (htS S hS)
      have hunits := hr.units
      refine not_honoured hT hp' (Finset.sdiff_subset_sdiff hr.owed_pre le_rfl)
        (signals_serve hr.signals_pre) ?_
      simp only [Pool.set_shared, World.serve_cond, World.setSem_cond_cond, World.serve_owed,
        World.setSem_owed, World.serve_signals, World.setSem_signals, hself,
        Finset.sdiff_singleton_eq_erase, Finset.erase_eq_of_notMem hto]
      omega
    | _ => exact absurd trivial hord

/-- Between fewer threads than the counter can hold, wake-ups are stolen in no other way. -/
theorem honoured_iff_orderly [Fintype T] (hT : Fintype.card T < 2147483647)
    (as : List (Action T (Choice T) WakeCall))
    (hrun : execute (step (wakeSystem relock P)) (idlePool idleWorld) as = some p) :
    Throughout (step (wakeSystem relock P)) (Honoured relock P) (idlePool idleWorld) as ↔
      Meets (step (wakeSystem relock P)) (Allowed Orderly) (idlePool idleWorld) as := by
  have h0 : (waking relock P).Inv (idlePool (idleWorld : World T)) ∧
      Records (idleWorld : World T) :=
    ⟨Discipline.idle_inv _ (idleWorld_accounts false) idleWorld_view, idleWorld_records⟩
  exact throughout_iff_meets (fun _ _ _ hi ha hs => step_records hi ha hs)
    (fun _ hi => hi.2.honoured hi.1) (fun _ _ _ hi hn hs => disorder_dishonours hT hi hn hs)
    h0 hrun

end Stolen

def callSteps (t : T) (k : WakeCall) (n : ℕ) : List (Action T (Choice T) WakeCall) :=
  .enter t k :: List.replicate n (.run t plain)

/-- Thread 0 has counted itself when thread 3 broadcasts, thread 1 when it signals afterwards;
there are two units, for two threads. -/
def promiseRun : List (Action (Fin 4) (Choice (Fin 4)) WakeCall) :=
  callSteps 0 .wait 5 ++ callSteps 3 .broadcast 6 ++ .leave 3 :: callSteps 1 .wait 5 ++
    callSteps 3 .signal 7

theorem pthreadCond_wakeups_honoured_signal : ∃ p : WakePool (Fin 4),
    execute (step (wakeSystem true platform1000)) (idlePool idleWorld) promiseRun = some p ∧
    Honoured true platform1000 p ∧ p.shared.owed = {0} ∧ p.shared.signals = [{1}] := by
  have hrun : ((execute (step (wakeSystem true platform1000)) (idlePool idleWorld)
      promiseRun).map fun p => (p.shared.owed, p.shared.signals)) = some ({0}, [{1}]) := by
    decide +kernel
  obtain ⟨p, hp, hv⟩ := Option.map_eq_some_iff.mp hrun
  obtain ⟨howed, hsignals⟩ := Prod.mk.inj hv
  refine ⟨p, hp, ?_, howed, hsignals⟩
  refine pthreadCond_wakeups_honoured true platform1000 promiseRun p hp ?_
  decide +kernel

/-- `false` has counted itself when `true` broadcasts; then `true` waits itself and takes
the unit, and nothing `false` can do gets it one. -/
theorem pthreadCond_wakeup_stolen : ∃ p : WakePool Bool,
    execute (step (wakeSystem true platform1000)) (idlePool idleWorld)
      (callSteps false .wait 5 ++ callSteps true .broadcast 6 ++ .leave true ::
        callSteps true .wait 6) = some p ∧
    p.shared.owed = {false} ∧ ¬ CanServe true platform1000 p {false} ∧
    ¬ Honoured true platform1000 p := by
  have hrun : ((execute (step (wakeSystem true platform1000)) (idlePool idleWorld)
      (callSteps false .wait 5 ++ callSteps true .broadcast 6 ++ .leave true ::
        callSteps true .wait 6)).map fun p =>
          (p.shared.owed, p.shared.signals, p.shared.pre, p.shared.cond.cond.count)) =
      some (({false} : Finset Bool), [], {false}, 0) := by
    decide +kernel
  obtain ⟨p, hp, hv⟩ := Option.map_eq_some_iff.mp hrun
  simp only [Prod.mk.injEq] at hv
  obtain ⟨howed, hsignals, hpre, hc⟩ := hv
  have hT : Fintype.card Bool < 2147483647 := by simp
  have h0 : (waking true platform1000).Inv (idlePool (idleWorld : World Bool)) :=
    Discipline.idle_inv _ (idleWorld_accounts false) idleWorld_view
  have hinv : (waking true platform1000).Inv p :=
    execute_always (fun _ _ _ hi hs => step_of_fintype hT hi hs) h0 hp
  refine ⟨p, hp, howed, not_canServe hT hinv (by simp [hpre]) (by simp [hc]), ?_⟩
  exact not_honoured hT hinv (by simp [howed, hpre]) (by simp [hsignals])
    (by simp [howed, hsignals, hc])

end LibPosix.CondWakeup
