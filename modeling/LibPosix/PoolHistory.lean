import LibPosix.ThreadPool

/-! What an observer sees of a pool: which calls are entered and what they return. A call that
is refused has no effect on the shared state; a run in which every call is refused can be
repeated on any other object that refuses the same calls with the same value. -/
namespace LibPosix.PoolHistory
open Program ThreadPool Transition
variable {T E C σ K V : Type} {R : E → Type} [DecidableEq T]

inductive Event (T K V : Type) where
  | entered (t : T) (k : K)
  | returned (t : T) (v : V)
  deriving DecidableEq, Repr

def eventOf (p : Pool T E R σ K V) : Action T C K → List (Event T K V)
  | .enter t k => [.entered t k]
  | .run _ _ => []
  | .leave t =>
    match p.thread t with
    | some (_, .ret v) => [.returned t v]
    | _ => []

/-- The calls and returns of a run, in order. -/
def history (S : System T E R C σ K V) (p : Pool T E R σ K V) :
    List (Action T C K) → List (Event T K V)
  | [] => []
  | a :: as =>
    match step S p a with
    | none => []
    | some p' => eventOf p a ++ history S p' as

theorem history_cons {S : System T E R C σ K V} {p p' : Pool T E R σ K V} {a : Action T C K}
    (h : step S p a = some p') (as : List (Action T C K)) :
    history S p (a :: as) = eventOf p a ++ history S p' as := by
  simp [history, h]

theorem history_append {S : System T E R C σ K V} {p p' : Pool T E R σ K V}
    {as : List (Action T C K)} (h : execute (step S) p as = some p') (bs : List (Action T C K)) :
    history S p (as ++ bs) = history S p as ++ history S p' bs := by
  induction as generalizing p with
  | nil =>
    cases h
    rfl
  | cons a as ih =>
    obtain ⟨u, hu, hrest⟩ := execute_cons.mp h
    rw [List.cons_append, history_cons hu, history_cons hu, ih hrest, List.append_assoc]

def Returns (v : V) (h : List (Event T K V)) : Prop := ∀ t w, .returned t w ∈ h → w = v

def Admitted (enterOk : K → Prop) (execOk : K → E → C → Prop) (p : Pool T E R σ K V) :
    Action T C K → Prop
  | .enter _ k => enterOk k
  | .run t c => ∀ k e f, p.thread t = some (k, .call e f) → execOk k e c
  | .leave _ => True

instance decidableAdmitted {enterOk : K → Prop} {execOk : K → E → C → Prop}
    [∀ k, Decidable (enterOk k)] [∀ k e c, Decidable (execOk k e c)] (p : Pool T E R σ K V) :
    ∀ a : Action T C K, Decidable (Admitted enterOk execOk p a)
  | .enter _ k => inferInstanceAs (Decidable (enterOk k))
  | .leave _ => .isTrue trivial
  | .run t c =>
    match h : p.thread t with
    | some (k, .call e f) =>
      decidable_of_iff (execOk k e c)
        ⟨fun ha k' e' f' heq => by cases h.symm.trans heq; exact ha, fun ha => ha k e f h⟩
    | some (_, .ret _) => .isTrue (by simp [Admitted, h])
    | none => .isTrue (by simp [Admitted, h])

/-- A system whose calls return `v` or another value according to what they are and what they
are answered on the way; the view of a thread is whether its call can still be refused. A
call that can has not touched the state, and each kind of state in `Q` is kept. -/
structure Judged (S : System T E R C σ K V) (P : K → Protocol E R Bool) (enterOk : K → Prop)
    [DecidablePred enterOk] (execOk : K → E → C → Prop) (Q : σ → Prop) (v : V) : Prop where
  enter : ∀ t k s, S.enter t k s = some s
  leave : ∀ t k w s, S.leave t k w s = s
  code : ∀ t k, (S.code t k).Obeys (P k) (decide (enterOk k)) fun w l => w = v ↔ l = true
  exec : ∀ t k e c l s r s', Q s → (P k).safe l e → S.exec t e c s = some (r, s') →
    Q s' ∧ ∃ l', (P k).after l e r l' ∧ (l' = true ↔ l = true ∧ execOk k e c) ∧
      (l = true → execOk k e c → s' = s)

section judged
variable {S : System T E R C σ K V} {P : K → Protocol E R Bool} {enterOk : K → Prop}
  [DecidablePred enterOk] {execOk : K → E → C → Prop} {Q : σ → Prop} {v : V}

/-- The verdicts on the calls in progress: `l t` as long as the call of `t` can be refused. -/
structure Standing (P : K → Protocol E R Bool) (Q : σ → Prop) (v : V) (l : T → Bool)
    (p : Pool T E R σ K V) : Prop where
  shared : Q p.shared
  threads : ∀ t k q, p.thread t = some (k, q) →
    q.Obeys (P k) (l t) fun w l' => w = v ↔ l' = true

/-- No call in progress has got an answer that keeps it from being refused. -/
def Clean (l : T → Bool) (p : Pool T E R σ K V) : Prop := ∀ t, p.thread t ≠ none → l t = true

def Spoilt (l : T → Bool) (p : Pool T E R σ K V) (t : T) : Prop := p.thread t ≠ none ∧ l t = false

theorem Standing.set {l : T → Bool} {p : Pool T E R σ K V} (h : Standing P Q v l p) {s : σ}
    (hs : Q s) {t : T} {b : Bool} {x : Option (K × Prog E R V)}
    (hx : ∀ k q, x = some (k, q) → q.Obeys (P k) b fun w l' => w = v ↔ l' = true) :
    Standing P Q v (Function.update l t b) (p.set s t x) := by
  refine ⟨hs, fun u k q hu => ?_⟩
  by_cases hut : u = t
  · subst u
    rw [Pool.set_thread_self] at hu
    rw [Function.update_self]
    exact hx k q hu
  · rw [Pool.set_thread_of_ne p s hut] at hu
    rw [Function.update_of_ne hut]
    exact h.threads u k q hu

theorem Clean.set {l : T → Bool} {p : Pool T E R σ K V} (h : Clean l p) (s : σ) {t : T}
    {b : Bool} {x : Option (K × Prog E R V)} (hb : x ≠ none → b = true) :
    Clean (Function.update l t b) (p.set s t x) := by
  intro u hu
  by_cases hut : u = t
  · subst u
    rw [Pool.set_thread_self] at hu
    rw [Function.update_self]
    exact hb hu
  · rw [Pool.set_thread_of_ne p s hut] at hu
    rw [Function.update_of_ne hut]
    exact h u hu

theorem Spoilt.set {l : T → Bool} {p : Pool T E R σ K V} {u : T} (h : Spoilt l p u) (s : σ)
    {t : T} (b : Bool) (x : Option (K × Prog E R V)) (hut : u ≠ t) :
    Spoilt (Function.update l t b) (p.set s t x) u := by
  rw [Spoilt, Pool.set_thread_of_ne p s hut, Function.update_of_ne hut]
  exact h

theorem spoilt_self (l : T → Bool) (p : Pool T E R σ K V) (s : σ) (t : T) (x : K × Prog E R V) :
    Spoilt (Function.update l t false) (p.set s t (some x)) t := by
  simp [Spoilt]

structure Ruled (S : System T E R C σ K V) (enterOk : K → Prop) (execOk : K → E → C → Prop)
    (v : V) (l l' : T → Bool) (p p' : Pool T E R σ K V) (a : Action T C K) : Prop where
  spoilt : ∀ t, Spoilt l p t → Spoilt l' p' t ∨ ¬ Returns v (eventOf p a)
  spoils : ¬ Admitted enterOk execOk p a → ∃ t, Spoilt l' p' t
  clean : Clean l p → Admitted enterOk execOk p a →
    Clean l' p' ∧ p'.shared = p.shared ∧ Returns v (eventOf p a)

theorem Judged.rules (J : Judged S P enterOk execOk Q v) {l : T → Bool} {p p' : Pool T E R σ K V}
    {a : Action T C K} (h : Standing P Q v l p) (hstep : step S p a = some p') :
    ∃ l', Standing P Q v l' p' ∧ Ruled S enterOk execOk v l l' p p' a := by
  cases a with
  | enter t k =>
    obtain ⟨ht, s, hs, rfl⟩ := step_enter.mp hstep
    rw [J.enter] at hs
    cases hs
    refine ⟨Function.update l t (decide (enterOk k)), h.set h.shared ?_, ?_, ?_, ?_⟩
    · rintro _ _ ⟨⟩
      exact J.code t k
    · intro u hu
      have hut : u ≠ t := fun heq => hu.1 (heq ▸ ht)
      exact Or.inl (hu.set _ _ _ hut)
    · intro hn
      have hk : ¬ enterOk k := hn
      refine ⟨t, ?_⟩
      rw [decide_eq_false hk]
      exact spoilt_self l p _ t _
    · intro hc hk
      exact ⟨hc.set _ fun _ => decide_eq_true hk, rfl, by simp [eventOf, Returns]⟩
  | run t c =>
    obtain ⟨k, e, f, ht, r, s, hs, rfl⟩ := step_run.mp hstep
    obtain ⟨hsafe, hrest⟩ := h.threads t k _ ht
    obtain ⟨hq, l', ha, hl', hsame⟩ := J.exec t k e c (l t) p.shared r s h.shared hsafe hs
    refine ⟨Function.update l t l', h.set hq ?_, ?_, ?_, ?_⟩
    · rintro _ _ ⟨⟩
      exact hrest r l' ha
    · intro u hu
      left
      by_cases hut : u = t
      · subst u
        have hfalse : l' = false := by simpa [hu.2] using hl'
        rw [hfalse]
        exact spoilt_self l p s t _
      · exact hu.set _ _ _ hut
    · intro hn
      have hk : ¬ execOk k e c := fun hk => hn fun k' e' f' heq => by
        cases ht.symm.trans heq
        exact hk
      have hfalse : l' = false := by simpa [hk] using hl'
      refine ⟨t, ?_⟩
      rw [hfalse]
      exact spoilt_self l p s t _
    · intro hc hok
      have hlt : l t = true := hc t (by simp [ht])
      have hk := hok k e f ht
      exact ⟨hc.set _ fun _ => hl'.mpr ⟨hlt, hk⟩, hsame hlt hk, by simp [eventOf, Returns]⟩
  | leave t =>
    obtain ⟨k, w, ht, rfl⟩ := step_leave.mp hstep
    have hw : w = v ↔ l t = true := h.threads t k _ ht
    have hevent : eventOf p (.leave t : Action T C K) = [.returned t w] := by simp [eventOf, ht]
    have hret : Returns v [(.returned t w : Event T K V)] ↔ w = v := by
      simp [Returns]
    rw [J.leave]
    refine ⟨Function.update l t (l t), h.set h.shared (by simp), ?_, ?_, ?_⟩
    · intro u hu
      by_cases hut : u = t
      · subst u
        right
        rw [hevent, hret, hw, hu.2]
        simp
      · exact Or.inl (hu.set _ _ _ hut)
    · exact fun hn => absurd trivial hn
    · intro hc _
      refine ⟨hc.set _ fun hx => absurd rfl hx, rfl, ?_⟩
      rw [hevent, hret, hw]
      exact hc t (by simp [ht])

omit [DecidableEq T] in
theorem returns_append {g h : List (Event T K V)} :
    Returns v (g ++ h) ↔ Returns v g ∧ Returns v h := by
  constructor
  · exact fun hr => ⟨fun t w hm => hr t w (List.mem_append_left h hm),
      fun t w hm => hr t w (List.mem_append_right g hm)⟩
  · rintro ⟨hg, hh⟩ t w hm
    exact (List.mem_append.mp hm).elim (hg t w) (hh t w)

theorem Judged.not_returns (J : Judged S P enterOk execOk Q v) {l : T → Bool}
    {p p' : Pool T E R σ K V} {as : List (Action T C K)} (h : Standing P Q v l p) {t : T}
    (ht : Spoilt l p t) (hrun : execute (step S) p as = some p')
    (hidle : ∀ u, p'.thread u = none) : ¬ Returns v (history S p as) := by
  induction as generalizing p l with
  | nil =>
    cases hrun
    exact absurd (hidle t) ht.1
  | cons a as ih =>
    obtain ⟨u, hu, hrest⟩ := execute_cons.mp hrun
    obtain ⟨l', h', hruled⟩ := J.rules h hu
    rw [history_cons hu, returns_append]
    rintro ⟨hfirst, htail⟩
    rcases hruled.spoilt t ht with hspoilt | hne
    · exact ih h' hspoilt hrest htail
    · exact hne hfirst

/-- In a run that ends with idle threads every call is refused exactly if only admitted calls
are made and only admitted answers are given; such a run has no effect. -/
theorem Judged.returns_iff (J : Judged S P enterOk execOk Q v) {l : T → Bool}
    {p p' : Pool T E R σ K V} {as : List (Action T C K)} (h : Standing P Q v l p)
    (hc : Clean l p) (hrun : execute (step S) p as = some p')
    (hidle : ∀ t, p'.thread t = none) :
    (Returns v (history S p as) ↔ Meets (step S) (Admitted enterOk execOk) p as) ∧
      (Meets (step S) (Admitted enterOk execOk) p as → p'.shared = p.shared) := by
  induction as generalizing p l with
  | nil =>
    cases hrun
    exact ⟨iff_of_true (by simp [Returns, history]) trivial, fun _ => rfl⟩
  | cons a as ih =>
    obtain ⟨u, hu, hrest⟩ := execute_cons.mp hrun
    obtain ⟨l', h', hruled⟩ := J.rules h hu
    rw [history_cons hu, returns_append]
    by_cases hok : Admitted enterOk execOk p a
    · obtain ⟨hc', hshared, hret⟩ := hruled.clean hc hok
      obtain ⟨hiff, hsame⟩ := ih h' hc' hrest
      have hmeets : Meets (step S) (Admitted enterOk execOk) p (a :: as) ↔
          Meets (step S) (Admitted enterOk execOk) u as := by
        refine ⟨fun hm => hm.2 u hu, fun hm => ⟨hok, fun w hw => ?_⟩⟩
        rw [hu] at hw
        cases hw
        exact hm
      rw [hmeets, ← hiff]
      refine ⟨⟨fun hr => hr.2, fun hr => ⟨hret, hr⟩⟩, fun hr => ?_⟩
      rw [hsame (hiff.mp hr), hshared]
    · obtain ⟨t, ht⟩ := hruled.spoils hok
      have hnot := J.not_returns h' ht hrest hidle
      exact ⟨iff_of_false (fun hr => hnot hr.2) fun hm => hok hm.1, fun hm => absurd hm.1 hok⟩

end judged

section repeats
variable {S S' : System T E R C σ K V} {s' : σ} {v : V}

/-- Every call returns `v` at once and leaves `s'` alone. -/
structure RefusesAll (S' : System T E R C σ K V) (s' : σ) (v : V) : Prop where
  enter : ∀ t k, S'.enter t k s' = some s'
  leave : ∀ t k, S'.leave t k v s' = s'
  code : ∀ t k, ∃ c, (S'.code t k).eval (fun e => S'.exec t e c) s' = some (v, s')

/-- The same calls are in progress; on the refusing object none of them has been begun. -/
structure Mirrors (S' : System T E R C σ K V) (s' : σ) (p p' : Pool T E R σ K V) : Prop where
  shared : p'.shared = s'
  threads : ∀ t, p'.thread t = (p.thread t).map fun kq => (kq.1, S'.code t kq.1)

theorem history_replicate_run {p p' : Pool T E R σ K V} {t : T} {c : C} {n : ℕ}
    (h : execute (step S) p (List.replicate n (.run t c)) = some p') :
    history S p (List.replicate n (.run t c)) = [] := by
  induction n generalizing p with
  | zero => rfl
  | succ n ih =>
    obtain ⟨u, hu, hrest⟩ := execute_cons.mp h
    rw [List.replicate_succ, history_cons hu, ih hrest]
    rfl

theorem Mirrors.follow (H : RefusesAll S' s' v) {p p' u : Pool T E R σ K V} {a : Action T C K}
    (h : Mirrors S' s' p p') (hs : step S p a = some u)
    (hv : Returns v (eventOf p a)) : ∃ as u', execute (step S') p' as = some u' ∧
      history S' p' as = eventOf p a ∧ Mirrors S' s' u u' := by
  cases a with
  | enter t k =>
    obtain ⟨ht, s, -, rfl⟩ := step_enter.mp hs
    have hstep : step S' p' (.enter t k) = some (p'.set s' t (some (k, S'.code t k))) := by
      refine step_enter.mpr ⟨by rw [h.threads, ht]; rfl, s', ?_, rfl⟩
      rw [h.shared]
      exact H.enter t k
    refine ⟨[.enter t k], _, execute_cons.mpr ⟨_, hstep, rfl⟩, ?_, rfl, fun w => ?_⟩
    · rw [history_cons hstep]
      rfl
    · by_cases hw : w = t
      · subst w
        simp
      · rw [Pool.set_thread_of_ne _ _ hw, Pool.set_thread_of_ne _ _ hw, h.threads]
  | run t c =>
    obtain ⟨k, e, f, ht, r, s, -, rfl⟩ := step_run.mp hs
    refine ⟨[], p', rfl, rfl, h.shared, fun w => ?_⟩
    by_cases hw : w = t
    · subst w
      rw [h.threads, ht, Pool.set_thread_self]
      rfl
    · rw [Pool.set_thread_of_ne _ _ hw, h.threads]
  | leave t =>
    obtain ⟨k, w, ht, rfl⟩ := step_leave.mp hs
    have hevent : eventOf p (.leave t : Action T C K) = [.returned t w] := by simp [eventOf, ht]
    obtain rfl : w = v := hv t w (by simp [hevent])
    have ht' : p'.thread t = some (k, S'.code t k) := by
      rw [h.threads, ht]
      rfl
    obtain ⟨c, hc⟩ := H.code t k
    rw [← h.shared] at hc
    obtain ⟨n, hn⟩ := execute_alone ht' hc
    have hleave : step S' (p'.set p'.shared t (some (k, .ret w))) (.leave t) =
        some (p'.set s' t none) := by
      refine step_leave.mpr ⟨k, w, Pool.set_thread_self _ _ _ _, ?_⟩
      rw [Pool.set_shared, Pool.set_set, h.shared, H.leave]
    refine ⟨List.replicate n (.run t c) ++ [.leave t], _,
      execute_append.mpr ⟨_, hn, execute_cons.mpr ⟨_, hleave, rfl⟩⟩, ?_, rfl, fun u => ?_⟩
    · rw [history_append hn, history_replicate_run hn, history_cons hleave, hevent]
      simp [eventOf, history]
    · by_cases hu : u = t
      · subst u
        simp
      · rw [Pool.set_thread_of_ne _ _ hu, Pool.set_thread_of_ne _ _ hu, h.threads]

/-- A run in which every call is refused is repeated, event by event. -/
theorem repeats (H : RefusesAll S' s' v) {p p' u : Pool T E R σ K V} {as : List (Action T C K)}
    (h : Mirrors S' s' p p') (hrun : execute (step S) p as = some u)
    (hv : Returns v (history S p as)) : ∃ bs u', execute (step S') p' bs = some u' ∧
      history S' p' bs = history S p as ∧ Mirrors S' s' u u' := by
  induction as generalizing p p' with
  | nil =>
    cases hrun
    exact ⟨[], p', rfl, rfl, h⟩
  | cons a as ih =>
    obtain ⟨w, hw, hrest⟩ := execute_cons.mp hrun
    rw [history_cons hw, returns_append] at hv
    obtain ⟨bs, w', hbs, hhist, hm⟩ := h.follow H hw hv.1
    obtain ⟨cs, u', hcs, hhist', hm'⟩ := ih hm hrest hv.2
    refine ⟨bs ++ cs, u', execute_append.mpr ⟨w', hbs, hcs⟩, ?_, hm'⟩
    rw [history_append hbs, hhist, hhist', history_cons hw]

end repeats

section objects
variable {S : System T E R C σ K V} {s s' : σ} {v : V}

/-- The run of a system from `s` can be made from `s'` as well, with the same calls and returns
in the same order, and ends with `same` states. -/
def Repeated (S : System T E R C σ K V) (s s' : σ) (same : σ → σ → Prop)
    (as : List (Action T C K)) (p : Pool T E R σ K V) : Prop :=
  ∃ bs p', execute (step S) (idlePool s') bs = some p' ∧ (∀ t, p'.thread t = none) ∧
    history S (idlePool s') bs = history S (idlePool s) as ∧ same p.shared p'.shared

omit [DecidableEq T] in
theorem admitted_all (q : Pool T E R σ K V) (a : Action T C K) :
    Admitted (fun _ => True) (fun _ _ _ => True) q a := by
  cases a with
  | enter t k => trivial
  | run t c => exact fun _ _ _ _ => trivial
  | leave t => trivial

/-- Two objects of one system, one of which refuses every call: a run on the other one is
repeated exactly if all of its calls are refused. -/
theorem repeated_iff {P P' : K → Protocol E R Bool} {enterOk : K → Prop} [DecidablePred enterOk]
    {execOk : K → E → C → Prop} {Q Q' : σ → Prop} {same : σ → σ → Prop}
    (J : Judged S P enterOk execOk Q v) (hs : Q s)
    (J' : Judged S P' (fun _ => True) (fun _ _ _ => True) Q' v) (hs' : Q' s')
    (H : RefusesAll S s' v) (hsame : same s s') {as : List (Action T C K)}
    {p : Pool T E R σ K V} (hrun : execute (step S) (idlePool s) as = some p)
    (hidle : ∀ t, p.thread t = none) :
    Repeated S s s' same as p ↔ Meets (step S) (Admitted enterOk execOk) (idlePool s) as := by
  let l : T → Bool := fun _ => true
  have hstand : Standing P Q v l (idlePool s) := ⟨hs, by simp [idlePool]⟩
  have hstand' : Standing P' Q' v l (idlePool s') := ⟨hs', by simp [idlePool]⟩
  obtain ⟨hiff, hquiet⟩ := J.returns_iff hstand (fun _ _ => rfl) hrun hidle
  constructor
  · rintro ⟨bs, p', hbs, hidle', hhist, -⟩
    have hiff' := (J'.returns_iff hstand' (fun _ _ => rfl) hbs hidle').1
    rw [← hiff, ← hhist, hiff']
    exact meets_of_forall admitted_all
  · intro hm
    have hmirror : Mirrors S s' (idlePool s : Pool T E R σ K V) (idlePool s') :=
      ⟨rfl, fun _ => rfl⟩
    obtain ⟨bs, p', hbs, hhist, hm'⟩ := repeats H hmirror hrun (hiff.mpr hm)
    refine ⟨bs, p', hbs, fun t => by rw [hm'.threads, hidle]; rfl, hhist, ?_⟩
    rw [hquiet hm, hm'.shared]
    exact hsame

end objects

end LibPosix.PoolHistory
