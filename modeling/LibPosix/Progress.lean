import LibPosix.ThreadPool

/-! That the calls of a pool come to an end. A program that makes a bounded number of requests
takes a bounded number of steps however it is interleaved; if moreover no state that can be reached
is stuck, then every run can be carried on until nothing is left to do. -/
namespace LibPosix.Progress
open Program ThreadPool Transition
variable {T E C σ K V L α : Type} {R : E → Type}

/-- Every request costs one; the view is what is left to spend. -/
def budget (E : Type) (R : E → Type) : Protocol E R ℕ where
  safe l _ := 0 < l
  after l _ _ l' := l = l' + 1

@[simp] theorem budget_safe (l : ℕ) (e : E) : (budget E R).safe l e ↔ 0 < l := Iff.rfl

@[simp] theorem budget_after (l : ℕ) (e : E) (r : R e) (l' : ℕ) :
    (budget E R).after l e r l' ↔ l = l' + 1 := Iff.rfl

/-- The program makes at most `n` requests, whatever the answers are. -/
def Within (n : ℕ) (q : Prog E R α) : Prop := q.Obeys (budget E R) n fun _ _ => True

theorem within_call {n : ℕ} {e : E} {f : R e → Prog E R α} :
    Within n (.call e f) ↔ ∃ m, n = m + 1 ∧ ∀ r, Within m (f r) := by
  constructor
  · intro h
    obtain ⟨hpos, hrest⟩ := h
    obtain ⟨m, rfl⟩ := Nat.exists_eq_add_one.mpr hpos
    exact ⟨m, rfl, fun r => hrest r m rfl⟩
  · intro h
    obtain ⟨m, rfl, hrest⟩ := h
    refine ⟨Nat.succ_pos m, ?_⟩
    intro r l hl
    cases hl
    exact hrest r

theorem obeys_both {P : Protocol E R L} {extra : L → E → Prop} {q : Prog E R α} {l : L}
    {post : α → L → Prop} (h : q.Obeys P l post)
    (hextra : q.Obeys ⟨extra, P.after⟩ l fun _ _ => True) :
    q.Obeys ⟨fun l e => P.safe l e ∧ extra l e, P.after⟩ l post := by
  induction q generalizing l with
  | ret a => exact h
  | call e f ih =>
    refine ⟨⟨h.1, hextra.1⟩, ?_⟩
    intro r l' hr
    exact ih r (h.2 r l' hr) (hextra.2 r l' hr)

theorem obeys_of_requesting {ok : E → Prop} {after : (l : L) → (e : E) → R e → L → Prop}
    {q : Prog E R α} (h : q.Obeys (requesting R ok) () fun _ _ => True) (l : L) :
    q.Obeys ⟨fun _ e => ok e, after⟩ l fun _ _ => True := by
  induction q generalizing l with
  | ret a => trivial
  | call e f ih => exact ⟨h.1, fun r l' _ => ih r (h.2 r () trivial) l'⟩

def actor : Action T C K → T
  | .enter t _ => t
  | .run t _ => t
  | .leave t => t

def Continues (a : Action T C K) : Prop := ∀ t k, a ≠ .enter t k

section Counting
variable [DecidableEq T]

def stepsOf (t : T) (as : List (Action T C K)) : ℕ := as.countP fun a => actor a = t

def callsOf (t : T) : List (Action T C K) → ℕ
  | [] => 0
  | .enter u _ :: as => (if u = t then 1 else 0) + callsOf t as
  | .run _ _ :: as => callsOf t as
  | .leave _ :: as => callsOf t as

/-- A call in progress needs at most `w` more steps, its return included. -/
def Owes (w : ℕ) : Option (K × Prog E R V) → Prop
  | none => True
  | some (_, q) => ∃ n, n + 1 ≤ w ∧ Within n q

variable {S : System T E R C σ K V} {p p' : Pool T E R σ K V}

theorem step_thread_of_ne {a : Action T C K} (hs : step S p a = some p') {t : T}
    (ht : actor a ≠ t) : p'.thread t = p.thread t := by
  cases a with
  | enter u k =>
    obtain ⟨-, s, -, rfl⟩ := step_enter.mp hs
    exact Pool.set_thread_of_ne p s (Ne.symm ht) _
  | run u c =>
    obtain ⟨k, e, f, -, r, s, -, rfl⟩ := step_run.mp hs
    exact Pool.set_thread_of_ne p s (Ne.symm ht) _
  | leave u =>
    obtain ⟨k, v, -, rfl⟩ := step_leave.mp hs
    exact Pool.set_thread_of_ne p _ (Ne.symm ht) _

theorem stepsOf_cons (t : T) (a : Action T C K) (as : List (Action T C K)) :
    stepsOf t (a :: as) = stepsOf t as + if actor a = t then 1 else 0 := by
  simp [stepsOf, List.countP_cons]

theorem callsOf_cons_of_ne {t : T} {a : Action T C K} (h : actor a ≠ t)
    (as : List (Action T C K)) : callsOf t (a :: as) = callsOf t as := by
  cases a with
  | enter u k =>
    have hu : u ≠ t := h
    simp [callsOf, hu]
  | run u c => rfl
  | leave u => rfl

/-- What a thread still owes pays for its steps until it enters the next call. -/
theorem stepsOf_le_owes {n w : ℕ} (hcode : ∀ t k, Within n (S.code t k)) {t : T}
    {as : List (Action T C K)} (hw : Owes w (p.thread t)) (hrun : execute (step S) p as = some p') :
    stepsOf t as ≤ w + (n + 2) * callsOf t as := by
  induction as generalizing p w with
  | nil => exact Nat.zero_le _
  | cons a as ih =>
    obtain ⟨u, hu, hrest⟩ := execute_cons.mp hrun
    rw [stepsOf_cons]
    by_cases ha : actor a = t
    · rw [if_pos ha]
      cases a with
      | enter v k =>
        -- from here on the new call pays
        obtain rfl : v = t := ha
        obtain ⟨-, s, -, rfl⟩ := step_enter.mp hu
        have hfresh : Owes (n + 1) ((p.set s v (some (k, S.code v k))).thread v) := by
          rw [Pool.set_thread_self]
          exact ⟨n, le_rfl, hcode v k⟩
        have hle := ih hfresh hrest
        simp only [callsOf, if_true]
        calc stepsOf v as + 1 ≤ n + 1 + (n + 2) * callsOf v as + 1 := Nat.add_le_add_right hle 1
          _ = (n + 2) * (1 + callsOf v as) := by ring
          _ ≤ w + (n + 2) * (1 + callsOf v as) := Nat.le_add_left _ _
      | run v c =>
        obtain rfl : v = t := ha
        obtain ⟨k, e, f, hv, r, s, -, rfl⟩ := step_run.mp hu
        rw [hv] at hw
        obtain ⟨m, hm, hwithin⟩ := hw
        obtain ⟨m, rfl, hnext⟩ := within_call.mp hwithin
        have hless : Owes (w - 1) ((p.set s v (some (k, f r))).thread v) := by
          rw [Pool.set_thread_self]
          exact ⟨m, by omega, hnext r⟩
        have hle := ih hless hrest
        simp only [callsOf]
        omega
      | leave v =>
        obtain rfl : v = t := ha
        obtain ⟨k, x, hv, rfl⟩ := step_leave.mp hu
        rw [hv] at hw
        obtain ⟨m, hm, -⟩ := hw
        have hdone : Owes 0 ((p.set (S.leave v k x p.shared) v none).thread v) := by
          rw [Pool.set_thread_self]
          trivial
        have hle := ih hdone hrest
        simp only [callsOf]
        omega
    · rw [if_neg ha, callsOf_cons_of_ne ha, Nat.add_zero]
      refine ih ?_ hrest
      rw [step_thread_of_ne hu ha]
      exact hw

theorem stepsOf_le {n : ℕ} (hcode : ∀ t k, Within n (S.code t k)) {s : σ} (t : T)
    {as : List (Action T C K)} (hrun : execute (step S) (idlePool s) as = some p) :
    stepsOf t as ≤ (n + 2) * callsOf t as := by
  have hidle : Owes 0 ((idlePool s : Pool T E R σ K V).thread t) := trivial
  have hle := stepsOf_le_owes hcode hidle hrun
  rwa [Nat.zero_add] at hle

theorem length_eq_sum_stepsOf [Fintype T] (as : List (Action T C K)) :
    as.length = ∑ t, stepsOf t as := by
  induction as with
  | nil => simp [stepsOf]
  | cons a as ih =>
    simp only [stepsOf_cons, Finset.sum_add_distrib, List.length_cons, ih]
    simp

theorem length_le [Fintype T] {n m : ℕ} (hcode : ∀ t k, Within n (S.code t k)) {s : σ}
    {as : List (Action T C K)} (hrun : execute (step S) (idlePool s) as = some p)
    (hcalls : ∀ t, callsOf t as ≤ m) : as.length ≤ (n + 2) * m * Fintype.card T := by
  rw [length_eq_sum_stepsOf]
  calc ∑ t, stepsOf t as ≤ ∑ _t : T, (n + 2) * m :=
        Finset.sum_le_sum fun t _ =>
          (stepsOf_le hcode t hrun).trans (Nat.mul_le_mul_left _ (hcalls t))
    _ = (n + 2) * m * Fintype.card T := by simp [mul_comm]

def Moves (S : System T E R C σ K V) (p : Pool T E R σ K V) : Prop :=
  ∃ a p', Continues a ∧ step S p a = some p'

theorem moves_run {t : T} {k : K} {e : E} {f : R e → Prog E R V} {c : C} {r : R e} {s : σ}
    (ht : p.thread t = some (k, .call e f)) (hs : S.exec t e c p.shared = some (r, s)) :
    Moves S p :=
  ⟨.run t c, _, by simp [Continues], step_run.mpr ⟨k, e, f, ht, r, s, hs, rfl⟩⟩

/-- Where the threads are if no call in progress can take a step. -/
theorem stuck (h : ¬ Moves S p) (t : T) : p.thread t = none ∨
    ∃ k e f, p.thread t = some (k, .call e f) ∧ ∀ c, S.exec t e c p.shared = none := by
  rcases ht : p.thread t with _ | ⟨k, v | ⟨e, f⟩⟩
  · exact .inl rfl
  · exact absurd ⟨.leave t, _, by simp [Continues], step_leave.mpr ⟨k, v, ht, rfl⟩⟩ h
  · right
    refine ⟨k, e, f, rfl, ?_⟩
    intro c
    rw [Option.eq_none_iff_forall_ne_some]
    intro x hx
    exact h (moves_run ht hx)

/-- What is known of a thread between its calls, and of one at a request that can be held up,
is known of all of them in a stuck state. -/
theorem view_of_stuck {D : Discipline S L} {Q : L → Prop} (h : D.Inv p) (hstuck : ¬ Moves S p)
    (hbetween : ∀ t l, D.between t l → Q l)
    (hheld : ∀ t e, (∀ c, S.exec t e c p.shared = none) → ∀ l, D.safe l e → Q l) (t : T) :
    Q (D.view p.shared t) := by
  have hfollows := h.threads t
  rcases stuck hstuck t with hnone | ⟨k, e, f, hcall, hblocked⟩
  · rw [hnone] at hfollows
    exact hbetween t _ hfollows
  · rw [hcall] at hfollows
    exact hheld t e hblocked _ hfollows.1

end Counting

/-- Where a thread is after one of its steps, other than the entry to a call. -/
inductive Below : Option (K × Prog E R V) → Option (K × Prog E R V) → Prop where
  | leave (k : K) (v : V) : Below none (some (k, .ret v))
  | run (k : K) (e : E) (f : R e → Prog E R V) (r : R e) : Below (some (k, f r)) (some (k, .call e f))

theorem below_wf : WellFounded (Below : Option (K × Prog E R V) → _ → Prop) := by
  have hnone : Acc Below (none : Option (K × Prog E R V)) := .intro _ fun y hy => nomatch hy
  have hsome (k : K) (q : Prog E R V) : Acc Below (some (k, q)) := by
    induction q with
    | ret v =>
      refine .intro _ fun y hy => ?_
      cases hy
      exact hnone
    | call e f ih =>
      refine .intro _ fun y hy => ?_
      cases hy
      exact ih _
  refine ⟨fun x => ?_⟩
  cases x with
  | none => exact hnone
  | some kq => exact hsome kq.1 kq.2

section Draining
variable [DecidableEq T] {S : System T E R C σ K V} {p p' : Pool T E R σ K V}

theorem step_below {a : Action T C K} (ha : Continues a) (hs : step S p a = some p') :
    Below (p'.thread (actor a)) (p.thread (actor a)) := by
  cases a with
  | enter t k => exact absurd rfl (ha t k)
  | run t c =>
    obtain ⟨k, e, f, ht, r, s, -, rfl⟩ := step_run.mp hs
    simp only [actor, Pool.set_thread_self, ht]
    exact .run k e f r
  | leave t =>
    obtain ⟨k, v, ht, rfl⟩ := step_leave.mp hs
    simp only [actor, Pool.set_thread_self, ht]
    exact .leave k v

theorem continues_wf [Finite T] (S : System T E R C σ K V) :
    WellFounded fun p' p : Pool T E R σ K V => ∃ a, Continues a ∧ step S p a = some p' := by
  have hlex : WellFounded (Pi.Lex WellOrderingRel
      (fun {_} => Below) : (T → Option (K × Prog E R V)) → _ → Prop) :=
    Pi.Lex.wellFounded _ fun _ => below_wf
  refine Subrelation.wf ?_ (InvImage.wf Pool.thread hlex)
  intro p' p h
  obtain ⟨a, ha, hs⟩ := h
  refine ⟨actor a, fun u hu => step_thread_of_ne hs ?_, step_below ha hs⟩
  rintro rfl
  exact irrefl_of WellOrderingRel _ hu

/-- If a call in progress can go on until something is final, a run can be carried on to it. -/
theorem continues_until [Finite T] {I Final : Pool T E R σ K V → Prop}
    (hmoves : ∀ p, I p → ¬ Final p → ∃ a p', Continues a ∧ step S p a = some p' ∧ I p')
    (h : I p) :
    ∃ as q, (∀ a ∈ as, Continues a) ∧ execute (step S) p as = some q ∧ I q ∧ Final q := by
  induction p using (continues_wf S).induction with
  | h p ih =>
    by_cases hfinal : Final p
    · exact ⟨[], p, by simp, rfl, h, hfinal⟩
    · obtain ⟨a, p', ha, hs, hp'⟩ := hmoves p h hfinal
      obtain ⟨as, q, has, hq, hrest⟩ := ih p' ⟨a, ha, hs⟩ hp'
      refine ⟨a :: as, q, ?_, execute_cons.mpr ⟨p', hs, hq⟩, hrest⟩
      intro b hb
      rcases List.mem_cons.mp hb with rfl | hb
      · exact ha
      · exact has b hb

/-- Every run can be carried on, without any new call, until no call in progress can go on. -/
theorem settles [Finite T] (S : System T E R C σ K V) (p : Pool T E R σ K V) :
    ∃ as q, (∀ a ∈ as, Continues a) ∧ execute (step S) p as = some q ∧ ¬ Moves S q := by
  have hmoves (p : Pool T E R σ K V) (_ : True) (h : ¬ ¬ Moves S p) :
      ∃ a p', Continues a ∧ step S p a = some p' ∧ True := by
    obtain ⟨a, p', ha, hs⟩ := not_not.mp h
    exact ⟨a, p', ha, hs, trivial⟩
  obtain ⟨as, q, has, hq, -, hstuck⟩ := continues_until hmoves trivial
  exact ⟨as, q, has, hq, hstuck⟩

/-- Where a call in progress is never held up by the others, all of them can be brought to an
end. -/
theorem drains [Finite T] {I : Pool T E R σ K V → Prop}
    (hmoves : ∀ p, I p → (∃ t, p.thread t ≠ none) →
      ∃ a p', Continues a ∧ step S p a = some p' ∧ I p') (h : I p) :
    ∃ as q, (∀ a ∈ as, Continues a) ∧ execute (step S) p as = some q ∧ I q ∧
      ∀ t, q.thread t = none :=
  continues_until (fun p hp hbusy => hmoves p hp (not_forall.mp hbusy)) h

end Draining

/-- Runs of bounded length that are stuck in a final state only can be carried on to one. -/
theorem completes {St A : Type} {next : St → A → Option St} {s : St} {N : ℕ} {Final : St → Prop}
    (hbound : ∀ as s', execute next s as = some s' → as.length ≤ N)
    (hnext : ∀ as s', execute next s as = some s' → Final s' ∨ ∃ a s'', next s' a = some s'')
    {as : List A} {s' : St} (hrun : execute next s as = some s') :
    ∃ bs u, execute next s' bs = some u ∧ Final u := by
  induction h : N - as.length generalizing as s' with
  | zero =>
    rcases hnext as s' hrun with hfinal | ⟨a, u, hu⟩
    · exact ⟨[], s', rfl, hfinal⟩
    · have hmore : execute next s (as ++ [a]) = some u :=
        execute_append.mpr ⟨s', hrun, execute_cons.mpr ⟨u, hu, rfl⟩⟩
      have hlen := hbound _ _ hmore
      simp only [List.length_append, List.length_singleton] at hlen
      omega
  | succ m ih =>
    rcases hnext as s' hrun with hfinal | ⟨a, u, hu⟩
    · exact ⟨[], s', rfl, hfinal⟩
    · have hmore : execute next s (as ++ [a]) = some u :=
        execute_append.mpr ⟨s', hrun, execute_cons.mpr ⟨u, hu, rfl⟩⟩
      obtain ⟨bs, v, hv, hfinal⟩ := ih hmore (by
        rw [List.length_append, List.length_singleton]
        omega)
      exact ⟨a :: bs, v, execute_cons.mpr ⟨u, hu, hv⟩, hfinal⟩

/-- A discipline whose calls also keep to a narrower choice of requests. -/
def narrow [DecidableEq T] {S : System T E R C σ K V} (D : Discipline S L) (extra : L → E → Prop)
    (hcode : ∀ {s s' t k}, D.inv s → D.between t (D.view s t) → S.enter t k s = some s' →
      (S.code t k).Obeys ⟨extra, D.after⟩ (D.view s' t) fun _ _ => True) : Discipline S L where
  toProtocol := ⟨fun l e => D.safe l e ∧ extra l e, D.after⟩
  view := D.view
  inv := D.inv
  allowed := D.allowed
  between := D.between
  post := D.post
  enter_step := by
    intro s s' t k h hb hs
    obtain ⟨hi, ho, hv⟩ := D.enter_step h hb hs
    exact ⟨hi, obeys_both ho (hcode h hb hs), hv⟩
  exec_step h hsafe hallowed hs := D.exec_step h hsafe.1 hallowed hs
  leave_step h hp := D.leave_step h hp

end LibPosix.Progress
