import Mathlib

/-! Deterministic transition systems with explicit actions, and the induction rules for
their runs. An action that is not enabled has no successor. -/
namespace LibPosix.Transition
variable {S A : Type}

/-- The state a list of actions leads to, if every one of them is enabled in turn. -/
def execute (step : S → A → Option S) (s : S) : List A → Option S
  | [] => some s
  | a :: as => (step s a).bind fun s' => execute step s' as

/-- Every step of the run is taken in a state that meets the condition. -/
def Meets (step : S → A → Option S) (ok : S → A → Prop) (s : S) : List A → Prop
  | [] => True
  | a :: as => ok s a ∧ ∀ s', step s a = some s' → Meets step ok s' as

/-- The property holds in every state of the run, the first and the last included. -/
def Throughout (step : S → A → Option S) (P : S → Prop) (s : S) : List A → Prop
  | [] => P s
  | a :: as => P s ∧ ∀ s', step s a = some s' → Throughout step P s' as

variable {step : S → A → Option S} {ok : S → A → Prop} {P Inv : S → Prop}

instance decidableMeets [∀ s a, Decidable (ok s a)] :
    ∀ s as, Decidable (Meets step ok s as)
  | _, [] => .isTrue trivial
  | s, a :: as =>
    match h : step s a with
    | none => decidable_of_iff (ok s a) (by simp [Meets, h])
    | some u =>
      have := decidableMeets u as
      decidable_of_iff (ok s a ∧ Meets step ok u as) (by simp [Meets, h])

@[simp] theorem execute_nil (s : S) : execute step s [] = some s := rfl

theorem execute_cons {s s' : S} {a : A} {as : List A} :
    execute step s (a :: as) = some s' ↔ ∃ u, step s a = some u ∧ execute step u as = some s' := by
  simp [execute, Option.bind_eq_some_iff]

theorem execute_append {s s' : S} {as bs : List A} :
    execute step s (as ++ bs) = some s' ↔
      ∃ u, execute step s as = some u ∧ execute step u bs = some s' := by
  induction as generalizing s with
  | nil => simp
  | cons a as ih =>
    simp only [List.cons_append, execute_cons, ih]
    constructor
    · rintro ⟨u, hu, v, hv, hs⟩
      exact ⟨v, ⟨u, hu, hv⟩, hs⟩
    · rintro ⟨v, ⟨u, hu, hv⟩, hs⟩
      exact ⟨u, hu, v, hv, hs⟩

theorem meets_of_forall (h : ∀ s a, ok s a) {s : S} {as : List A} : Meets step ok s as := by
  induction as generalizing s with
  | nil => trivial
  | cons a as ih => exact ⟨h s a, fun _ _ => ih⟩

theorem meets_append {s : S} {as bs : List A} :
    Meets step ok s (as ++ bs) ↔
      Meets step ok s as ∧ ∀ s', execute step s as = some s' → Meets step ok s' bs := by
  induction as generalizing s with
  | nil => simp [Meets]
  | cons a as ih =>
    simp only [List.cons_append, Meets, ih, execute_cons]
    constructor
    · rintro ⟨ha, h⟩
      exact ⟨⟨ha, fun u hu => (h u hu).1⟩, fun s' ⟨u, hu, hs⟩ => (h u hu).2 s' hs⟩
    · rintro ⟨⟨ha, h⟩, hb⟩
      exact ⟨ha, fun u hu => ⟨h u hu, fun s' hs => hb s' ⟨u, hu, hs⟩⟩⟩

/-- What one step preserves, a whole run preserves. -/
theorem execute_invariant
    (hstep : ∀ s a s', Inv s → ok s a → step s a = some s' → Inv s')
    {s s' : S} {as : List A} (h : Inv s) (hok : Meets step ok s as)
    (hrun : execute step s as = some s') : Inv s' := by
  induction as generalizing s with
  | nil =>
    cases hrun
    exact h
  | cons a as ih =>
    obtain ⟨u, hu, hrest⟩ := execute_cons.mp hrun
    exact ih (hstep s a u h hok.1 hu) (hok.2 u hu) hrest

theorem throughout_of_invariant
    (hstep : ∀ s a s', Inv s → ok s a → step s a = some s' → Inv s')
    (hP : ∀ s, Inv s → P s) {s : S} {as : List A} (h : Inv s) (hok : Meets step ok s as) :
    Throughout step P s as := by
  induction as generalizing s with
  | nil => exact hP s h
  | cons a as ih =>
    exact ⟨hP s h, fun u hu => ih (hstep s a u h hok.1 hu) (hok.2 u hu)⟩

theorem execute_always (hstep : ∀ s a s', Inv s → step s a = some s' → Inv s')
    {s s' : S} {as : List A} (h : Inv s) (hrun : execute step s as = some s') : Inv s' := by
  have hall : Meets step (fun _ _ => True) s as := meets_of_forall fun _ _ => trivial
  exact execute_invariant (fun s a s' hi _ hs => hstep s a s' hi hs) h hall hrun

theorem throughout_always (hstep : ∀ s a s', Inv s → step s a = some s' → Inv s')
    (hP : ∀ s, Inv s → P s) {s : S} {as : List A} (h : Inv s) : Throughout step P s as := by
  have hall : Meets step (fun _ _ => True) s as := meets_of_forall fun _ _ => trivial
  exact throughout_of_invariant (fun s a s' hi _ hs => hstep s a s' hi hs) hP h hall

theorem Throughout.first {s : S} {as : List A} (h : Throughout step P s as) : P s := by
  cases as with
  | nil => exact h
  | cons a as => exact h.1

theorem Throughout.last {s s' : S} {as : List A} (h : Throughout step P s as)
    (hrun : execute step s as = some s') : P s' := by
  induction as generalizing s with
  | nil =>
    cases hrun
    exact h
  | cons a as ih =>
    obtain ⟨u, hu, hrest⟩ := execute_cons.mp hrun
    exact ih (h.2 u hu) hrest

/-- A property that no step restores holds all along a run at whose end it holds. -/
theorem throughout_of_last (hstep : ∀ s a s', Inv s → step s a = some s' → Inv s')
    (hback : ∀ s a s', Inv s → step s a = some s' → P s' → P s) {s s' : S} {as : List A}
    (h : Inv s) (hrun : execute step s as = some s') (hlast : P s') : Throughout step P s as := by
  induction as generalizing s with
  | nil =>
    cases hrun
    exact hlast
  | cons a as ih =>
    obtain ⟨u, hu, hrest⟩ := execute_cons.mp hrun
    have hall := ih (hstep s a u h hu) hrest
    refine ⟨hback s a u h hu hall.first, fun v hv => ?_⟩
    have hvu : v = u := Option.some.inj (hv.symm.trans hu)
    subst v
    exact hall

/-- A property of every state is exactly the condition on every step, when the condition
keeps an invariant that implies the property and every step that misses it breaks the
property for good. -/
theorem throughout_iff_meets
    (hstep : ∀ s a s', Inv s → ok s a → step s a = some s' → Inv s')
    (hP : ∀ s, Inv s → P s)
    (hbad : ∀ s a s', Inv s → ¬ ok s a → step s a = some s' → ¬ P s')
    {s s' : S} {as : List A} (h : Inv s) (hrun : execute step s as = some s') :
    Throughout step P s as ↔ Meets step ok s as := by
  refine ⟨fun ht => ?_, throughout_of_invariant hstep hP h⟩
  induction as generalizing s with
  | nil => trivial
  | cons a as ih =>
    obtain ⟨u, hu, hrest⟩ := execute_cons.mp hrun
    have hpu : P u := (ht.2 u hu).first
    have hoka : ok s a := by
      by_contra hn
      exact hbad s a u h hn hu hpu
    refine ⟨hoka, fun v hv => ?_⟩
    have hvu : v = u := Option.some.inj (hv.symm.trans hu)
    subst v
    exact ih (hstep s a u h hoka hu) hrest (ht.2 u hu)

end LibPosix.Transition
