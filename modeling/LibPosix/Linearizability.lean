import LibPosix.PoolHistory

/-! Linearizability of a pool of threads. A sequential object says what each call does when it
takes effect at once; a history is linearizable if every call in it takes effect at one moment
between its beginning and its end. A step may commit calls of other threads as well. -/
namespace LibPosix.Linearizability
open Program ThreadPool Transition PoolHistory
variable {T E C σ K V W A L : Type} {R : E → Type}

/-- `O t k a v a'`: the call `k` of `t` in the state `a` may return `v` and leave `a'`. -/
abbrev Object (A T K V : Type) := T → K → A → V → A → Prop

/-- A thread and the object: its call has not taken effect yet, or it has, with a result. -/
inductive Phase (K V : Type) where
  | idle
  | pending (k : K)
  | done (k : K) (v : V)

inductive Moment (T K V : Type) where
  | enter (t : T) (k : K)
  | commit (t : T) (k : K) (v : V)
  | leave (t : T) (v : V)

structure Atomic (A T K V : Type) where
  state : A
  phase : T → Phase K V

/-- The moments an outside observer sees. -/
def observe : Moment T K V → List (Event T K V)
  | .enter t k => [.entered t k]
  | .commit _ _ _ => []
  | .leave t v => [.returned t v]

/-- The calls in the order in which they take effect, with their results. -/
def commits : List (Moment T K V) → List (T × K × V)
  | [] => []
  | .commit t k v :: ms => (t, k, v) :: commits ms
  | _ :: ms => commits ms

/-- The object serves the calls one after another. -/
inductive Legal (O : Object A T K V) : A → List (T × K × V) → A → Prop
  | nil {a : A} : Legal O a [] a
  | cons {a b c : A} {t : T} {k : K} {v : V} {cs : List (T × K × V)} (h : O t k a v b)
      (hs : Legal O b cs c) : Legal O a ((t, k, v) :: cs) c

variable [DecidableEq T]

inductive AtomicStep (O : Object A T K V) : Atomic A T K V → Moment T K V → Atomic A T K V → Prop
  | enter {a : A} {f : T → Phase K V} {t : T} {k : K} (hf : f t = .idle) :
      AtomicStep O ⟨a, f⟩ (.enter t k) ⟨a, Function.update f t (.pending k)⟩
  | commit {a b : A} {f : T → Phase K V} {t : T} {k : K} {v : V} (hf : f t = .pending k)
      (hO : O t k a v b) :
      AtomicStep O ⟨a, f⟩ (.commit t k v) ⟨b, Function.update f t (.done k v)⟩
  | leave {a : A} {f : T → Phase K V} {t : T} {k : K} {v : V} (hf : f t = .done k v) :
      AtomicStep O ⟨a, f⟩ (.leave t v) ⟨a, Function.update f t .idle⟩

inductive AtomicRun (O : Object A T K V) :
    Atomic A T K V → List (Moment T K V) → Atomic A T K V → Prop
  | nil {x : Atomic A T K V} : AtomicRun O x [] x
  | cons {x y z : Atomic A T K V} {m : Moment T K V} {ms : List (Moment T K V)}
      (h : AtomicStep O x m y) (hs : AtomicRun O y ms z) : AtomicRun O x (m :: ms) z

def Atomic.start (a : A) : Atomic A T K V := ⟨a, fun _ => .idle⟩

/-- The history is one of the object served at one moment within each call, which leaves the
object in the state `a'`. -/
def Linearizes (O : Object A T K V) (a : A) (h : List (Event T K V)) (a' : A) : Prop :=
  ∃ ms x, AtomicRun O (.start a) ms x ∧ ms.flatMap observe = h ∧ x.state = a'

def Commits (O : Object A T K V) (x y : Atomic A T K V) : Prop :=
  ∃ ms, AtomicRun O x ms y ∧ ms.flatMap observe = []

section Runs
variable {O : Object A T K V} {x y z : Atomic A T K V} {ms ns : List (Moment T K V)}

theorem AtomicRun.append (h : AtomicRun O x ms y) (h' : AtomicRun O y ns z) :
    AtomicRun O x (ms ++ ns) z := by
  induction h with
  | nil => exact h'
  | cons hm _ ih => exact .cons hm (ih h')

/-- The calls of a run, taken one after another, are a run of the object. -/
theorem AtomicRun.legal (h : AtomicRun O x ms y) : Legal O x.state (commits ms) y.state := by
  induction h with
  | nil => exact .nil
  | cons hm _ ih =>
    cases hm with
    | enter _ => exact ih
    | commit _ hO => exact .cons hO ih
    | leave _ => exact ih

omit [DecidableEq T] in
theorem Legal.append {a b c : A} {cs ds : List (T × K × V)} (h : Legal O a cs b)
    (h' : Legal O b ds c) : Legal O a (cs ++ ds) c := by
  induction h with
  | nil => exact h'
  | cons hO _ ih => exact .cons hO (ih h')

theorem Commits.refl (x : Atomic A T K V) : Commits O x x := ⟨[], .nil, rfl⟩

theorem Commits.trans (h : Commits O x y) (h' : Commits O y z) : Commits O x z := by
  obtain ⟨ms, hms, ho⟩ := h
  obtain ⟨ns, hns, ho'⟩ := h'
  exact ⟨ms ++ ns, hms.append hns, by simp [ho, ho']⟩

theorem Commits.one {a b : A} {f : T → Phase K V} {t : T} {k : K} {v : V}
    (hf : f t = .pending k) (hO : O t k a v b) :
    Commits O ⟨a, f⟩ ⟨b, Function.update f t (.done k v)⟩ :=
  ⟨[.commit t k v], .cons (.commit hf hO) .nil, rfl⟩

end Runs

/-! How many calls there are of a kind: those that are entered have taken effect, or wait to; and
what is returned has taken effect with that value. -/
section Balance
variable {O : Object A T K V} {x y : Atomic A T K V} {ms : List (Moment T K V)} {F : Finset T}

def entries (kind : K → Bool) (h : List (Event T K V)) : ℕ :=
  h.countP fun
    | .entered _ k => kind k
    | .returned _ _ => false

def reports (kind : V → Bool) (h : List (Event T K V)) : ℕ :=
  h.countP fun
    | .entered _ _ => false
    | .returned _ v => kind v

omit [DecidableEq T] in
theorem entries_append (kind : K → Bool) (h h' : List (Event T K V)) :
    entries kind (h ++ h') = entries kind h + entries kind h' := List.countP_append

omit [DecidableEq T] in
theorem reports_append (kind : V → Bool) (h h' : List (Event T K V)) :
    reports kind (h ++ h') = reports kind h + reports kind h' := List.countP_append

def Phase.waits (kind : K → Bool) : Phase K V → Bool
  | .pending k => kind k
  | _ => false

def Phase.bears (kind : V → Bool) : Phase K V → Bool
  | .done _ v => kind v
  | _ => false

def Exactly (due : Phase K V → Bool) (f : T → Phase K V) (F : Finset T) : Prop :=
  ∀ t, t ∈ F ↔ due (f t) = true

theorem Exactly.update {due : Phase K V → Bool} {f : T → Phase K V} (h : Exactly due f F) (t : T)
    (x : Phase K V) : ∃ G, Exactly due (Function.update f t x) G ∧
      F.card + (due x).toNat = G.card + (due (f t)).toNat := by
  have hmem := h t
  cases hx : due x with
  | true =>
    refine ⟨insert t F, ?_, ?_⟩
    · intro u
      by_cases hu : u = t
      · subst u
        simp [hx]
      · simp [hu, h u]
    · by_cases ht : t ∈ F
      · rw [Finset.insert_eq_self.mpr ht, hmem.mp ht]
      · rw [Finset.card_insert_of_notMem ht, Bool.eq_false_iff.mpr fun hw => ht (hmem.mpr hw)]
        rfl
  | false =>
    refine ⟨F.erase t, ?_, ?_⟩
    · intro u
      by_cases hu : u = t
      · subst u
        simp [hx]
      · simp [hu, h u]
    · by_cases ht : t ∈ F
      · rw [hmem.mp ht]
        exact (Finset.card_erase_add_one ht).symm
      · rw [Finset.erase_eq_of_notMem ht, Bool.eq_false_iff.mpr fun hw => ht (hmem.mpr hw)]

theorem AtomicRun.balance {due : Phase K V → Bool} {gain loss : Moment T K V → ℕ}
    (hstep : ∀ {x y : Atomic A T K V} {m : Moment T K V}, AtomicStep O x m y →
      ∃ t z, y.phase = Function.update x.phase t z ∧
        gain m + (due (x.phase t)).toNat = loss m + (due z).toNat)
    (h : AtomicRun O x ms y) (hF : Exactly due x.phase F) :
    ∃ G, Exactly due y.phase G ∧ F.card + (ms.map gain).sum = G.card + (ms.map loss).sum := by
  induction h generalizing F with
  | nil => exact ⟨F, hF, rfl⟩
  | cons hm _ ih =>
    obtain ⟨t, z, hphase, hchange⟩ := hstep hm
    obtain ⟨G, hG, hcard⟩ := hF.update t z
    rw [← hphase] at hG
    obtain ⟨H, hH, hrest⟩ := ih hG
    refine ⟨H, hH, ?_⟩
    simp only [List.map_cons, List.sum_cons]
    omega

omit [DecidableEq T] in
theorem commits_eq_flatMap (ms : List (Moment T K V)) :
    commits ms = ms.flatMap fun m => commits [m] := by
  induction ms with
  | nil => rfl
  | cons m ms ih =>
    cases m with
    | enter t k => simpa [commits] using ih
    | commit t k v => simpa [commits] using ih
    | leave t v => simpa [commits] using ih

theorem AtomicRun.entered (h : AtomicRun O x ms y) (kind : K → Bool)
    (hF : Exactly (Phase.waits kind) x.phase F) :
    ∃ G, Exactly (Phase.waits kind) y.phase G ∧ F.card + entries kind (ms.flatMap observe) =
      G.card + (commits ms).countP fun c => kind c.2.1 := by
  rw [commits_eq_flatMap, entries, List.countP_flatMap, List.countP_flatMap]
  refine h.balance ?_ hF
  intro x y m hm
  cases hm with
  | @enter a f t k hf => exact ⟨t, _, rfl, by
    simp [observe, commits, hf, Phase.waits, Bool.toNat, Bool.cond_eq_ite]⟩
  | @commit a b f t k v hf _ => exact ⟨t, _, rfl, by
    simp [observe, commits, hf, Phase.waits, Bool.toNat, Bool.cond_eq_ite]⟩
  | @leave a f t k v hf => exact ⟨t, _, rfl, by
    simp [observe, commits, hf, Phase.waits, Bool.toNat, Bool.cond_eq_ite]⟩

theorem AtomicRun.reported (h : AtomicRun O x ms y) (kind : V → Bool)
    (hF : Exactly (Phase.bears kind) x.phase F) :
    ∃ G, Exactly (Phase.bears kind) y.phase G ∧ F.card + ((commits ms).countP fun c => kind c.2.2) =
      G.card + reports kind (ms.flatMap observe) := by
  rw [commits_eq_flatMap, reports, List.countP_flatMap, List.countP_flatMap]
  refine h.balance ?_ hF
  intro x y m hm
  cases hm with
  | @enter a f t k hf => exact ⟨t, _, rfl, by
    simp [observe, commits, hf, Phase.bears, Bool.toNat, Bool.cond_eq_ite]⟩
  | @commit a b f t k v hf _ => exact ⟨t, _, rfl, by
    simp [observe, commits, hf, Phase.bears, Bool.toNat, Bool.cond_eq_ite]⟩
  | @leave a f t k v hf => exact ⟨t, _, rfl, by
    simp [observe, commits, hf, Phase.bears, Bool.toNat, Bool.cond_eq_ite]⟩

end Balance

/-! A call may take effect before its value is known. It is then committed with an outcome, which
the value that is returned has to fit. -/
section Outcomes
variable {O : Object A T K W} {O' : Object A T K V} {fits : W → V → Prop} {x y : Atomic A T K W}
  {m : Moment T K W} {ms : List (Moment T K W)} {g : List (Event T K V)}

/-- The same events, except that an outcome is returned in place of a value. -/
inductive Alike (fits : W → V → Prop) : Event T K V → Event T K W → Prop
  | entered (t : T) (k : K) : Alike fits (.entered t k) (.entered t k)
  | returned (t : T) {w : W} {v : V} (h : fits w v) : Alike fits (.returned t v) (.returned t w)

omit [DecidableEq T] in
theorem alike_eq {h : List (Event T K V)} (ha : List.Forall₂ (Alike Eq) g h) : g = h := by
  induction ha with
  | nil => rfl
  | cons he _ ih =>
    cases he with
    | entered t k => rw [ih]
    | returned t hv => rw [hv, ih]

/-- Every outcome that is committed can be resolved, to values of the object. -/
structure Refines (O : Object A T K W) (O' : Object A T K V) (fits : W → V → Prop) : Prop where
  resolvable : ∀ {t k a w b}, O t k a w b → ∃ v, fits w v
  serves : ∀ {t k a w b v}, O t k a w b → fits w v → O' t k a v b

inductive Resolves (fits : W → V → Prop) : Phase K W → Phase K V → Prop
  | idle : Resolves fits .idle .idle
  | pending (k : K) : Resolves fits (.pending k) (.pending k)
  | done (k : K) {w : W} {v : V} (h : fits w v) : Resolves fits (.done k w) (.done k v)

theorem Resolves.of_idle {y : Phase K V} (h : Resolves fits (.idle : Phase K W) y) : y = .idle := by
  cases h
  rfl

theorem Resolves.of_pending {k : K} {y : Phase K V}
    (h : Resolves fits (.pending k : Phase K W) y) : y = .pending k := by
  cases h
  rfl

theorem Resolves.of_done {k : K} {w : W} {y : Phase K V} (h : Resolves fits (.done k w) y) :
    ∃ v, fits w v ∧ y = .done k v := by
  cases h with
  | done _ hv => exact ⟨_, hv, rfl⟩

def Resolvable (fits : W → V → Prop) (f : T → Phase K W) : Prop :=
  ∀ t, ∃ y : Phase K V, Resolves fits (f t) y

theorem resolves_update {e : T → Phase K W} {f : T → Phase K V} {t : T} {x : Phase K W}
    {y : Phase K V} (h : ∀ u, Resolves fits (Function.update e t x u) (f u))
    (hy : Resolves fits (e t) y) (u : T) : Resolves fits (e u) (Function.update f t y u) := by
  by_cases hu : u = t
  · subst u
    simpa using hy
  · simpa [hu] using h u

theorem Resolvable.update {f : T → Phase K W} (h : Resolvable fits f) {t : T} {x : Phase K W}
    {y : Phase K V} (hy : Resolves fits x y) : Resolvable fits (Function.update f t x) := by
  intro u
  by_cases hu : u = t
  · subst u
    exact ⟨y, by simpa using hy⟩
  · simpa [hu] using h u

theorem AtomicStep.resolvable (hO : Refines O O' fits) (h : AtomicStep O x m y)
    (hx : Resolvable fits x.phase) : Resolvable fits y.phase := by
  cases h with
  | enter _ => exact hx.update (.pending _)
  | commit _ hcommit =>
    obtain ⟨v, hv⟩ := hO.resolvable hcommit
    exact hx.update (.done _ hv)
  | leave _ => exact hx.update .idle

/-- A moment is resolved backwards: what comes after it says which value a call is committed
with. -/
theorem AtomicStep.resolve (hO : Refines O O' fits) (h : AtomicStep O x m y)
    (hg : List.Forall₂ (Alike fits) g (observe m)) {f : T → Phase K V}
    (hf : ∀ t, Resolves fits (y.phase t) (f t)) :
    ∃ n e, AtomicStep O' ⟨x.state, e⟩ n ⟨y.state, f⟩ ∧ observe n = g ∧
      ∀ t, Resolves fits (x.phase t) (e t) := by
  -- `f` says what the calls return later on; only the phase of `t` differs before the moment
  cases h with
  | @enter a e t k he =>
    obtain ⟨_, _, hevent, hnil, rfl⟩ := List.forall₂_cons_right_iff.mp hg
    cases hevent
    cases hnil
    have hpending : f t = .pending k := Resolves.of_pending (by simpa using hf t)
    have hstep : AtomicStep O' ⟨a, Function.update f t .idle⟩ (.enter t k)
        ⟨a, Function.update (Function.update f t .idle) t (.pending k)⟩ := .enter (by simp)
    rw [Function.update_idem, ← hpending, Function.update_eq_self] at hstep
    have hbefore : Resolves fits (e t) (.idle : Phase K V) := by
      rw [he]
      exact .idle
    exact ⟨_, _, hstep, rfl, resolves_update hf hbefore⟩
  | @commit a b e t k w he hcommit =>
    cases hg
    obtain ⟨v, hv, hdone⟩ : ∃ v, fits w v ∧ f t = .done k v :=
      Resolves.of_done (by simpa using hf t)
    have hstep : AtomicStep O' ⟨a, Function.update f t (.pending k)⟩ (.commit t k v)
        ⟨b, Function.update (Function.update f t (.pending k)) t (.done k v)⟩ :=
      .commit (by simp) (hO.serves hcommit hv)
    rw [Function.update_idem, ← hdone, Function.update_eq_self] at hstep
    have hbefore : Resolves fits (e t) (.pending k : Phase K V) := by
      rw [he]
      exact .pending k
    exact ⟨_, _, hstep, rfl, resolves_update hf hbefore⟩
  | @leave a e t k w he =>
    obtain ⟨_, _, hevent, hnil, rfl⟩ := List.forall₂_cons_right_iff.mp hg
    cases hnil
    cases hevent with
    | @returned _ _ v hv =>
      have hidle : f t = .idle := Resolves.of_idle (by simpa using hf t)
      have hstep : AtomicStep O' ⟨a, Function.update f t (.done k v)⟩ (.leave t v)
          ⟨a, Function.update (Function.update f t (.done k v)) t .idle⟩ :=
        .leave (k := k) (by simp)
      rw [Function.update_idem, ← hidle, Function.update_eq_self] at hstep
      have hbefore : Resolves fits (e t) (.done k v) := by
        rw [he]
        exact .done k hv
      exact ⟨_, _, hstep, rfl, resolves_update hf hbefore⟩

/-- A run of outcomes is one of the values that are returned later on; a call that does not return
is committed with any value that fits. -/
theorem AtomicRun.resolve (hO : Refines O O' fits) (h : AtomicRun O x ms y)
    (hg : List.Forall₂ (Alike fits) g (ms.flatMap observe)) (hx : Resolvable fits x.phase) :
    ∃ e ns z, AtomicRun O' ⟨x.state, e⟩ ns z ∧ ns.flatMap observe = g ∧ z.state = y.state ∧
      ∀ t, Resolves fits (x.phase t) (e t) := by
  induction h generalizing g with
  | nil =>
    obtain rfl : g = [] := List.forall₂_nil_right_iff.mp hg
    choose e he using hx
    exact ⟨e, [], _, .nil, rfl, rfl, he⟩
  | @cons x y z m ms hm _ ih =>
    rw [List.flatMap_cons] at hg
    have hfirst := List.forall₂_take_append _ _ _ hg
    have hrest := List.forall₂_drop_append _ _ _ hg
    -- the rest of the run first, since it decides the values of the calls in progress
    obtain ⟨f, ns, z', hns, hobs, hz, hf⟩ := ih hrest (hm.resolvable hO hx)
    obtain ⟨n, e, hn, hobs', he⟩ := hm.resolve hO hfirst hf
    refine ⟨e, n :: ns, z', .cons hn hns, ?_, hz, he⟩
    rw [List.flatMap_cons, hobs', hobs, List.take_append_drop]

theorem Linearizes.resolve (hO : Refines O O' fits) {a a' : A} {h : List (Event T K W)}
    (hl : Linearizes O a h a') (hg : List.Forall₂ (Alike fits) g h) : Linearizes O' a g a' := by
  obtain ⟨ms, x, hms, rfl, rfl⟩ := hl
  obtain ⟨e, ns, z, hns, hobs, hz, he⟩ := hms.resolve hO hg fun _ => ⟨_, .idle⟩
  obtain rfl : e = fun _ => .idle := funext fun t => (he t).of_idle
  exact ⟨ns, z, hns, hobs, hz⟩

end Outcomes

def Phase.ofCall (result : L → Option V) : Option (K × L) → Phase K V
  | none => .idle
  | some (k, l) =>
    match result l with
    | none => .pending k
    | some v => .done k v

def phases (result : T → L → Option V) (f : T → Option (K × L)) (t : T) : Phase K V :=
  .ofCall (result t) (f t)

theorem phases_update {result result' : T → L → Option V} {f : T → Option (K × L)} {t : T}
    {y : Option (K × L)}
    (h : ∀ u, u ≠ t → ∀ k l, f u = some (k, l) → result' u l = result u l) :
    phases result' (Function.update f t y) =
      Function.update (phases result f) t (.ofCall (result' t) y) := by
  funext u
  by_cases hu : u = t
  · subst u
    simp [phases]
  · rw [Function.update_of_ne hu, phases, phases, Function.update_of_ne hu]
    rcases hf : f u with _ | ⟨k, l⟩
    · rfl
    · simp [Phase.ofCall, h u hu k l hf]

theorem phases_keep {result result' : T → L → Option V} {f : T → Option (K × L)} {t : T} {k : K}
    {l l' : L} (ht : f t = some (k, l)) (h : result' t l' = result t l)
    (hothers : ∀ u, u ≠ t → ∀ k l, f u = some (k, l) → result' u l = result u l) :
    phases result' (Function.update f t (some (k, l'))) = phases result f := by
  rw [phases_update hothers, Function.update_eq_self_iff]
  simp [phases, ht, Phase.ofCall, h]

theorem commits_own {O : Object A T K V} {a b : A} {result result' : T → L → Option V}
    {f : T → Option (K × L)} {t : T} {k : K} {l l' : L} {v : V} (ht : f t = some (k, l))
    (h : result t l = none) (h' : result' t l' = some v) (hO : O t k a v b)
    (hothers : ∀ u, u ≠ t → ∀ k l, f u = some (k, l) → result' u l = result u l) :
    Commits O ⟨a, phases result f⟩
      ⟨b, phases result' (Function.update f t (some (k, l')))⟩ := by
  have hphase : Phase.ofCall (result' t) (some (k, l')) = .done k v := by
    simp [Phase.ofCall, h']
  rw [phases_update hothers, hphase]
  exact .one (by simp [phases, ht, Phase.ofCall, h]) hO

/-- How the calls of a system serve an object. What a thread knows about its call in progress
is a view that its requests move on, as the protocol says; `result` is the outcome with which the
call has been committed, and which the value it returns fits. Other threads may commit it, the view
notwithstanding. -/
structure Service (S : System T E R C σ K V) (O : Object A T K W) (L : Type) extends
    Protocol E R L where
  inv : σ → A → (T → Option (K × L)) → Prop
  result : σ → T → L → Option W
  fits : W → V → Prop
  post : K → V → L → Prop
  enter_step : ∀ {s s' a f t k}, inv s a f → f t = none → S.enter t k s = some s' →
    ∃ l, (S.code t k).Obeys toProtocol l (post k) ∧ inv s' a (Function.update f t (some (k, l))) ∧
      phases (result s') (Function.update f t (some (k, l))) =
        Function.update (phases (result s) f) t (.pending k)
  exec_step : ∀ {s s' a f t k l e c r}, inv s a f → f t = some (k, l) → safe l e →
    S.exec t e c s = some (r, s') → ∃ l' a', after l e r l' ∧
      inv s' a' (Function.update f t (some (k, l'))) ∧
      Commits O ⟨a, phases (result s) f⟩
        ⟨a', phases (result s') (Function.update f t (some (k, l')))⟩
  leave_step : ∀ {s a f t k l v}, inv s a f → f t = some (k, l) → post k v l →
    ∃ a' g w, inv (S.leave t k v s) a' (Function.update f t none) ∧
      Commits O ⟨a, phases (result s) f⟩ ⟨a', g⟩ ∧ g t = .done k w ∧ fits w v ∧
      phases (result (S.leave t k v s)) (Function.update f t none) = Function.update g t .idle

namespace Service
variable {S : System T E R C σ K V} {O : Object A T K W} (M : Service S O L)

def Stands : Option (K × Prog E R V) → Option (K × L) → Prop
  | none, none => True
  | some (k, q), some (k', l) => k = k' ∧ q.Obeys M.toProtocol l (M.post k)
  | _, _ => False

structure Tracks (p : Pool T E R σ K V) (f : T → Option (K × L)) (x : Atomic A T K W) : Prop where
  inv : M.inv p.shared x.state f
  phase : x.phase = phases (M.result p.shared) f
  threads : ∀ t, M.Stands (p.thread t) (f t)

variable {M}

theorem stands_none {x : Option (K × L)} (h : M.Stands none x) : x = none := by
  cases x with
  | none => rfl
  | some kl => cases h

theorem stands_some {k : K} {q : Prog E R V} {x : Option (K × L)} (h : M.Stands (some (k, q)) x) :
    ∃ l, x = some (k, l) ∧ q.Obeys M.toProtocol l (M.post k) := by
  cases x with
  | none => cases h
  | some kl =>
    obtain ⟨rfl, hq⟩ := h
    exact ⟨kl.2, rfl, hq⟩

theorem Tracks.stands_set {p : Pool T E R σ K V} {f : T → Option (K × L)} {x : Atomic A T K W}
    (h : M.Tracks p f x) (s : σ) {t : T} {y : Option (K × Prog E R V)} {z : Option (K × L)}
    (hy : M.Stands y z) (u : T) :
    M.Stands ((p.set s t y).thread u) (Function.update f t z u) := by
  by_cases hu : u = t
  · subst u
    simpa using hy
  · rw [Pool.set_thread_of_ne p s hu, Function.update_of_ne hu]
    exact h.threads u

/-- Each step of the pool is a number of moments of the object, and looks alike. -/
theorem Tracks.step {p p' : Pool T E R σ K V} {f : T → Option (K × L)} {x : Atomic A T K W}
    {a : Action T C K} (h : M.Tracks p f x) (hs : ThreadPool.step S p a = some p') :
    ∃ f' ms x', AtomicRun O x ms x' ∧
      List.Forall₂ (Alike M.fits) (eventOf p a) (ms.flatMap observe) ∧ M.Tracks p' f' x' := by
  obtain ⟨state, phase⟩ := x
  obtain ⟨hinv, hphase, hthreads⟩ := h
  obtain rfl : phase = phases (M.result p.shared) f := hphase
  have hset := Tracks.stands_set (M := M) ⟨hinv, rfl, hthreads⟩
  cases a with
  | enter t k =>
    obtain ⟨ht, s, henter, rfl⟩ := step_enter.mp hs
    have hstands := hthreads t
    rw [ht] at hstands
    have hidle : f t = none := stands_none hstands
    obtain ⟨l, hobeys, hinv', hphases⟩ := M.enter_step hinv hidle henter
    have hrun : AtomicRun O ⟨state, phases (M.result p.shared) f⟩ [.enter t k]
        ⟨state, phases (M.result s) (Function.update f t (some (k, l)))⟩ := by
      rw [hphases]
      exact .cons (.enter (by simp [phases, hidle, Phase.ofCall])) .nil
    exact ⟨_, _, _, hrun, .cons (.entered t k) .nil, hinv', rfl, hset s ⟨rfl, hobeys⟩⟩
  | run t c =>
    obtain ⟨k, e, q, ht, r, s, hexec, rfl⟩ := step_run.mp hs
    have hstands := hthreads t
    rw [ht] at hstands
    obtain ⟨l, hl, hobeys⟩ := stands_some hstands
    obtain ⟨l', a', hafter, hinv', ms, hms, hsilent⟩ := M.exec_step hinv hl hobeys.1 hexec
    refine ⟨_, ms, _, hms, ?_, hinv', rfl, hset s ⟨rfl, hobeys.2 r l' hafter⟩⟩
    rw [hsilent]
    exact .nil
  | leave t =>
    obtain ⟨k, v, ht, rfl⟩ := step_leave.mp hs
    have hstands := hthreads t
    rw [ht] at hstands
    obtain ⟨l, hl, hpost⟩ := stands_some hstands
    obtain ⟨a', g, w, hinv', ⟨ms, hms, hsilent⟩, hdone, hfits, hphases⟩ :=
      M.leave_step hinv hl hpost
    refine ⟨Function.update f t none, ms ++ [.leave t w], ⟨a', Function.update g t .idle⟩,
      hms.append (.cons (.leave hdone) .nil), ?_, hinv', hphases.symm, hset _ trivial⟩
    have hevent : eventOf p (.leave t : Action T C K) = [.returned t v] := by simp [eventOf, ht]
    rw [List.flatMap_append, hsilent, hevent]
    exact .cons (.returned t hfits) .nil

theorem Tracks.execute {p p' : Pool T E R σ K V} {f : T → Option (K × L)} {x : Atomic A T K W}
    {as : List (Action T C K)} (h : M.Tracks p f x)
    (hrun : Transition.execute (ThreadPool.step S) p as = some p') :
    ∃ f' ms x', AtomicRun O x ms x' ∧
      List.Forall₂ (Alike M.fits) (history S p as) (ms.flatMap observe) ∧
      M.Tracks p' f' x' := by
  induction as generalizing p f x with
  | nil =>
    cases hrun
    exact ⟨f, [], x, .nil, .nil, h⟩
  | cons a as ih =>
    obtain ⟨q, hq, hrest⟩ := execute_cons.mp hrun
    obtain ⟨g, ms, y, hms, hobs, hy⟩ := h.step hq
    obtain ⟨f', ns, x', hns, hobs', hx'⟩ := ih hy hrest
    refine ⟨f', ms ++ ns, x', hms.append hns, ?_, hx'⟩
    rw [List.flatMap_append, history_cons hq]
    exact List.rel_append hobs hobs'

/-- Every run of the system from a state that stands for `a` is linearizable to an object that
returns values, if the outcomes can be resolved to its values. -/
theorem linearizes_resolved (M : Service S O L) {O' : Object A T K V} (hO : Refines O O' M.fits)
    {s : σ} {a : A} (h : M.inv s a fun _ => none) {as : List (Action T C K)}
    {p : Pool T E R σ K V}
    (hrun : Transition.execute (ThreadPool.step S) (idlePool s) as = some p) :
    ∃ a' f, Linearizes O' a (history S (idlePool s) as) a' ∧ M.inv p.shared a' f ∧
      ∀ t, M.Stands (p.thread t) (f t) := by
  have hstart : M.Tracks (idlePool s) (fun _ => none) (.start a) := ⟨h, rfl, fun _ => trivial⟩
  obtain ⟨f, ms, x, hms, hobs, hx⟩ := hstart.execute hrun
  have hlin : Linearizes O a (ms.flatMap observe) x.state := ⟨ms, x, hms, rfl, rfl⟩
  exact ⟨x.state, f, hlin.resolve hO hobs, hx.inv, hx.threads⟩

theorem linearizes {O : Object A T K V} (M : Service S O L) (hfits : M.fits = Eq) {s : σ} {a : A}
    (h : M.inv s a fun _ => none) {as : List (Action T C K)} {p : Pool T E R σ K V}
    (hrun : Transition.execute (ThreadPool.step S) (idlePool s) as = some p) :
    ∃ a' f, Linearizes O a (history S (idlePool s) as) a' ∧ M.inv p.shared a' f ∧
      ∀ t, M.Stands (p.thread t) (f t) := by
  refine M.linearizes_resolved ?_ h hrun
  rw [hfits]
  exact ⟨fun _ => ⟨_, rfl⟩, fun hO hv => hv ▸ hO⟩

end Service

end LibPosix.Linearizability
