import LibPosix.Program
import LibPosix.Transition

/-! Threads that run programs over a shared state, one request at a time, in any order.
A thread is between calls or inside one; the state is shared by all and may carry ghost
components that `enter` and `leave` keep. -/
namespace LibPosix.ThreadPool
open Program

/-- `code` is the program of a call, `exec` answers one request of a thread (the choice
resolves what the environment decides; `none` means that the thread stays blocked). -/
structure System (T E : Type) (R : E → Type) (C σ K V : Type) where
  code : T → K → Prog E R V
  exec : T → (e : E) → C → σ → Option (R e × σ)
  enter : T → K → σ → Option σ
  leave : T → K → V → σ → σ

structure Pool (T E : Type) (R : E → Type) (σ K V : Type) where
  shared : σ
  thread : T → Option (K × Prog E R V)

inductive Action (T C K : Type) where
  | enter (t : T) (k : K)
  | run (t : T) (c : C)
  | leave (t : T)
  deriving DecidableEq, Repr

variable {T E C σ K V L : Type} {R : E → Type} [DecidableEq T]

def idlePool (s : σ) : Pool T E R σ K V := ⟨s, fun _ => none⟩

def Pool.set (p : Pool T E R σ K V) (s : σ) (t : T) (x : Option (K × Prog E R V)) :
    Pool T E R σ K V :=
  ⟨s, Function.update p.thread t x⟩

@[simp] theorem Pool.set_shared (p : Pool T E R σ K V) (s : σ) (t : T)
    (x : Option (K × Prog E R V)) : (p.set s t x).shared = s := rfl

@[simp] theorem Pool.set_thread_self (p : Pool T E R σ K V) (s : σ) (t : T)
    (x : Option (K × Prog E R V)) : (p.set s t x).thread t = x := by
  simp [Pool.set]

@[simp] theorem Pool.set_thread_of_ne (p : Pool T E R σ K V) (s : σ) {t u : T} (h : u ≠ t)
    (x : Option (K × Prog E R V)) : (p.set s t x).thread u = p.thread u := by
  simp [Pool.set, h]

def Pool.request (p : Pool T E R σ K V) (t : T) : Option E :=
  match p.thread t with
  | some (_, .call e _) => some e
  | _ => none

omit [DecidableEq T] in
theorem Pool.request_eq {p : Pool T E R σ K V} {t : T} {e : E} :
    p.request t = some e ↔ ∃ k f, p.thread t = some (k, .call e f) := by
  rcases h : p.thread t with _ | ⟨k, v | ⟨e', f⟩⟩
  · simp [request, h]
  · simp [request, h]
  · constructor
    · intro he
      obtain rfl : e' = e := by simpa [request, h] using he
      exact ⟨k, f, rfl⟩
    · rintro ⟨k', f', heq⟩
      cases heq
      simp [request, h]

def Pool.outcome (p : Pool T E R σ K V) (t : T) : Option (K × V) :=
  match p.thread t with
  | some (k, .ret v) => some (k, v)
  | _ => none

omit [DecidableEq T] in
theorem Pool.outcome_eq {p : Pool T E R σ K V} {t : T} {k : K} {v : V} :
    p.outcome t = some (k, v) ↔ p.thread t = some (k, .ret v) := by
  rcases h : p.thread t with _ | ⟨k', v' | ⟨e, f⟩⟩
  · simp [outcome, h]
  · simp [outcome, h]
  · simp [outcome, h]

theorem Pool.set_request_of_ne (p : Pool T E R σ K V) (s : σ) {t u : T} (h : u ≠ t)
    (x : Option (K × Prog E R V)) : (p.set s t x).request u = p.request u := by
  simp [request, h]

def step (S : System T E R C σ K V) (p : Pool T E R σ K V) :
    Action T C K → Option (Pool T E R σ K V)
  | .enter t k =>
    match p.thread t with
    | none => (S.enter t k p.shared).map fun s => p.set s t (some (k, S.code t k))
    | some _ => none
  | .run t c =>
    match p.thread t with
    | some (k, .call e f) =>
      (S.exec t e c p.shared).map fun rs => p.set rs.2 t (some (k, f rs.1))
    | _ => none
  | .leave t =>
    match p.thread t with
    | some (k, .ret v) => some (p.set (S.leave t k v p.shared) t none)
    | _ => none

theorem step_enter {S : System T E R C σ K V} {p p' : Pool T E R σ K V} {t : T} {k : K} :
    step S p (.enter t k) = some p' ↔ p.thread t = none ∧
      ∃ s, S.enter t k p.shared = some s ∧ p' = p.set s t (some (k, S.code t k)) := by
  simp only [step]
  cases p.thread t with
  | none => simp [eq_comm]
  | some x => simp

theorem step_run {S : System T E R C σ K V} {p p' : Pool T E R σ K V} {t : T} {c : C} :
    step S p (.run t c) = some p' ↔ ∃ k e f, p.thread t = some (k, .call e f) ∧
      ∃ r s, S.exec t e c p.shared = some (r, s) ∧ p' = p.set s t (some (k, f r)) := by
  simp only [step]
  rcases p.thread t with _ | ⟨k, v | ⟨e, f⟩⟩
  · simp
  · simp
  · constructor
    · intro h
      obtain ⟨rs, hrs, rfl⟩ := Option.map_eq_some_iff.mp h
      exact ⟨k, e, f, rfl, rs.1, rs.2, hrs, rfl⟩
    · rintro ⟨k', e', f', heq, r, s, hrs, rfl⟩
      cases heq
      simp [hrs]

theorem step_leave {S : System T E R C σ K V} {p p' : Pool T E R σ K V} {t : T} :
    step S p (.leave t) = some p' ↔ ∃ k v, p.thread t = some (k, .ret v) ∧
      p' = p.set (S.leave t k v p.shared) t none := by
  simp only [step]
  rcases p.thread t with _ | ⟨k, v | ⟨e, f⟩⟩
  · simp
  · constructor
    · intro h
      exact ⟨k, v, rfl, (Option.some.inj h).symm⟩
    · rintro ⟨k', v', heq, rfl⟩
      cases heq
      rfl
  · simp

theorem Pool.set_eq_self {p : Pool T E R σ K V} {t : T} {x : Option (K × Prog E R V)}
    (h : p.thread t = x) : p.set p.shared t x = p := by
  simp [Pool.set, ← h]

@[simp] theorem Pool.set_set (p : Pool T E R σ K V) (s s' : σ) (t : T)
    (x y : Option (K × Prog E R V)) : (p.set s t x).set s' t y = p.set s' t y := by
  simp [Pool.set]

theorem execute_run {S : System T E R C σ K V} {p p' : Pool T E R σ K V} {t : T} {k : K} {c : C}
    {e : E} {f : R e → Prog E R V} {r : R e} {s : σ} {as : List (Action T C K)}
    (ht : p.thread t = some (k, .call e f)) (hs : S.exec t e c p.shared = some (r, s))
    (hrest : Transition.execute (step S) (p.set s t (some (k, f r))) as = some p') :
    Transition.execute (step S) p (.run t c :: as) = some p' :=
  Transition.execute_cons.mpr ⟨_, step_run.mpr ⟨k, e, f, ht, r, s, hs, rfl⟩, hrest⟩

theorem execute_alone_bind {S : System T E R C σ K V} {A : Type} {t : T} {k : K} {c : C}
    {q : Prog E R A} {f : A → Prog E R V} {v : A} {p : Pool T E R σ K V} {s : σ}
    (ht : p.thread t = some (k, q >>= f))
    (hrun : q.eval (fun e => S.exec t e c) p.shared = some (v, s)) :
    ∃ n, Transition.execute (step S) p (List.replicate n (.run t c)) =
      some (p.set s t (some (k, f v))) := by
  induction q generalizing p with
  | ret a =>
    cases hrun
    have hv : p.thread t = some (k, f v) := ht
    exact ⟨0, by rw [Pool.set_eq_self hv]; rfl⟩
  | call e g ih =>
    obtain ⟨⟨r, u⟩, hu, hrest⟩ := Option.bind_eq_some_iff.mp hrun
    obtain ⟨n, hn⟩ := ih r (Pool.set_thread_self p u t _) hrest
    rw [Pool.set_set] at hn
    exact ⟨n + 1, execute_run ht hu hn⟩

theorem execute_alone {S : System T E R C σ K V} {t : T} {k : K} {c : C} {q : Prog E R V} {v : V}
    {p : Pool T E R σ K V} {s : σ} (ht : p.thread t = some (k, q))
    (hrun : q.eval (fun e => S.exec t e c) p.shared = some (v, s)) :
    ∃ n, Transition.execute (step S) p (List.replicate n (.run t c)) =
      some (p.set s t (some (k, .ret v))) := by
  rw [← Prog.bind_ret q] at ht
  exact execute_alone_bind ht hrun

/-- A call in progress only makes the requests that its program can make. -/
theorem request_of_code {S : System T E R C σ K V} {ok : K → E → Prop}
    (hcode : ∀ t k, (S.code t k).Obeys (requesting R (ok k)) () fun _ _ => True) {s : σ}
    {p : Pool T E R σ K V} {as : List (Action T C K)}
    (hrun : Transition.execute (step S) (idlePool s) as = some p) {t : T} {k : K} {e : E}
    {f : R e → Prog E R V} (ht : p.thread t = some (k, .call e f)) : ok k e := by
  let Inv (q : Pool T E R σ K V) : Prop := ∀ t k x, q.thread t = some (k, x) →
    x.Obeys (requesting R (ok k)) () fun _ _ => True
  have hset {q : Pool T E R σ K V} (hq : Inv q) (u : σ) {t : T} {y : Option (K × Prog E R V)}
      (hy : ∀ k x, y = some (k, x) → x.Obeys (requesting R (ok k)) () fun _ _ => True) :
      Inv (q.set u t y) := by
    intro v k x hx
    by_cases hv : v = t
    · subst v
      exact hy k x (by simpa using hx)
    · rw [Pool.set_thread_of_ne q u hv] at hx
      exact hq v k x hx
  have hstep : ∀ q a q', Inv q → step S q a = some q' → Inv q' := by
    intro q a q' hq hs
    cases a with
    | enter t k =>
      obtain ⟨-, u, -, rfl⟩ := step_enter.mp hs
      refine hset hq u fun k' x hx => ?_
      cases hx
      exact hcode t k
    | run t c =>
      obtain ⟨k, e, f, ht, r, u, -, rfl⟩ := step_run.mp hs
      refine hset hq u fun k' x hx => ?_
      cases hx
      exact (hq t k _ ht).2 r () trivial
    | leave t =>
      obtain ⟨k, v, -, rfl⟩ := step_leave.mp hs
      exact hset hq _ fun k' x hx => by cases hx
  have hidle : Inv (idlePool s) := by
    intro t k x hx
    cases hx
  exact (Transition.execute_always hstep hidle hrun t k _ ht).1

/-- A condition on the requests a run may carry out, read in the state before the step. -/
def Allowed (allowed : σ → T → E → C → Prop) (p : Pool T E R σ K V) : Action T C K → Prop
  | .run t c => ∀ k e f, p.thread t = some (k, .call e f) → allowed p.shared t e c
  | _ => True

instance decidableAllowed {allowed : σ → T → E → C → Prop}
    [∀ s t e c, Decidable (allowed s t e c)] (p : Pool T E R σ K V) :
    ∀ a : Action T C K, Decidable (Allowed allowed p a)
  | .enter _ _ => .isTrue trivial
  | .leave _ => .isTrue trivial
  | .run t c =>
    match h : p.thread t with
    | some (k, .call e f) =>
      decidable_of_iff (allowed p.shared t e c)
        ⟨fun ha k' e' f' heq => by cases h.symm.trans heq; exact ha, fun ha => ha k e f h⟩
    | some (_, .ret _) => .isTrue (by simp [Allowed, h])
    | none => .isTrue (by simp [Allowed, h])

/-- A protocol that every call of a system obeys, with an invariant of the shared state. A
thread sees the shared state through its own view only, and no step of another thread
changes that view. -/
structure Discipline (S : System T E R C σ K V) (L : Type) extends Protocol E R L where
  view : σ → T → L
  inv : σ → Prop
  allowed : σ → T → E → C → Prop
  between : T → L → Prop
  post : T → K → V → L → Prop
  enter_step : ∀ {s s' t k}, inv s → between t (view s t) → S.enter t k s = some s' →
    inv s' ∧ (S.code t k).Obeys toProtocol (view s' t) (post t k) ∧
      ∀ u, u ≠ t → view s' u = view s u
  exec_step : ∀ {s s' t e c r}, inv s → safe (view s t) e → allowed s t e c →
    S.exec t e c s = some (r, s') →
    inv s' ∧ after (view s t) e r (view s' t) ∧ ∀ u, u ≠ t → view s' u = view s u
  leave_step : ∀ {s t k v}, inv s → post t k v (view s t) →
    inv (S.leave t k v s) ∧ between t (view (S.leave t k v s) t) ∧
      ∀ u, u ≠ t → view (S.leave t k v s) u = view s u

namespace Discipline
variable {S : System T E R C σ K V} (D : Discipline S L)

/-- Where one thread stands: between calls, or inside one with the rest of its program
still obeying the protocol. -/
def Follows (s : σ) (t : T) : Option (K × Prog E R V) → Prop
  | none => D.between t (D.view s t)
  | some (k, p) => p.Obeys D.toProtocol (D.view s t) (D.post t k)

structure Inv (p : Pool T E R σ K V) : Prop where
  shared : D.inv p.shared
  threads : ∀ t, D.Follows p.shared t (p.thread t)

omit [DecidableEq T] in
theorem Follows.congr {D : Discipline S L} {s s' : σ} {t : T} {x : Option (K × Prog E R V)}
    (hv : D.view s' t = D.view s t) (h : D.Follows s t x) : D.Follows s' t x := by
  unfold Follows at *
  rw [hv]
  exact h

/-- Only the acting thread has to be looked at again after a step. -/
theorem Inv.set {D : Discipline S L} {p : Pool T E R σ K V} (h : D.Inv p) {s : σ} {t : T}
    {x : Option (K × Prog E R V)} (hs : D.inv s) (hx : D.Follows s t x)
    (hv : ∀ u, u ≠ t → D.view s u = D.view p.shared u) : D.Inv (p.set s t x) := by
  refine ⟨hs, fun u => ?_⟩
  by_cases hu : u = t
  · subst u
    simpa using hx
  · rw [Pool.set_thread_of_ne p s hu]
    exact (h.threads u).congr (hv u hu)

theorem Inv.step {D : Discipline S L} {p p' : Pool T E R σ K V} {a : Action T C K} (h : D.Inv p)
    (hok : Allowed D.allowed p a) (hstep : ThreadPool.step S p a = some p') : D.Inv p' := by
  cases a with
  | enter t k =>
    obtain ⟨ht, s, hs, rfl⟩ := step_enter.mp hstep
    have hb := h.threads t
    rw [ht] at hb
    obtain ⟨hi, ho, hv⟩ := D.enter_step h.shared hb hs
    exact h.set hi ho hv
  | run t c =>
    obtain ⟨k, e, f, ht, r, s, hs, rfl⟩ := step_run.mp hstep
    have hf := h.threads t
    rw [ht] at hf
    obtain ⟨hi, ha, hv⟩ := D.exec_step h.shared hf.1 (hok k e f ht) hs
    exact h.set hi (hf.2 r _ ha) hv
  | leave t =>
    obtain ⟨k, v, ht, rfl⟩ := step_leave.mp hstep
    have hf := h.threads t
    rw [ht] at hf
    obtain ⟨hi, hb, hv⟩ := D.leave_step h.shared hf
    exact h.set hi hb hv

/-- A run whose steps are all allowed keeps the discipline. -/
theorem Inv.execute {D : Discipline S L} {p p' : Pool T E R σ K V} {as : List (Action T C K)}
    (h : D.Inv p) (hok : Transition.Meets (ThreadPool.step S) (Allowed D.allowed) p as)
    (hrun : Transition.execute (ThreadPool.step S) p as = some p') : D.Inv p' :=
  Transition.execute_invariant (fun _ _ _ hi ha hs => hi.step ha hs) h hok hrun

/-- What the discipline implies of a state holds all through such a run. -/
theorem Inv.throughout {D : Discipline S L} {p : Pool T E R σ K V} {as : List (Action T C K)}
    {Q : Pool T E R σ K V → Prop} (h : D.Inv p)
    (hok : Transition.Meets (ThreadPool.step S) (Allowed D.allowed) p as)
    (hQ : ∀ p, D.Inv p → Q p) : Transition.Throughout (ThreadPool.step S) Q p as :=
  Transition.throughout_of_invariant (fun _ _ _ hi ha hs => hi.step ha hs) hQ h hok

theorem Inv.execute_all {D : Discipline S L} {p p' : Pool T E R σ K V} {as : List (Action T C K)}
    (h : D.Inv p) (hall : ∀ s t e c, D.allowed s t e c)
    (hrun : Transition.execute (ThreadPool.step S) p as = some p') : D.Inv p' := by
  refine h.execute (Transition.meets_of_forall fun q a => ?_) hrun
  cases a with
  | enter t k => trivial
  | run t c => exact fun _ e _ _ => hall q.shared t e c
  | leave t => trivial

omit [DecidableEq T] in
theorem idle_inv {s : σ} (hs : D.inv s) (hb : ∀ t, D.between t (D.view s t)) :
    D.Inv (idlePool s) := ⟨hs, hb⟩

end Discipline

end LibPosix.ThreadPool
