import Mathlib

/-! Machines that answer every action they accept. Two machines that agree in every pair of
related states, also in what they refuse, cannot be told apart by any run. -/
namespace LibPosix.Simulation
variable {S S' A O : Type}

/-- An action that is not accepted has no answer. -/
abbrev Machine (S A O : Type) := S → A → Option (S × O)

namespace Machine

/-- The last state of a run and the answers on the way. -/
def run (M : Machine S A O) (s : S) : List A → Option (S × List O)
  | [] => some (s, [])
  | a :: as => (M s a).bind fun r => (run M r.1 as).map fun q => (q.1, r.2 :: q.2)

def answers (M : Machine S A O) (s : S) (as : List A) : Option (List O) :=
  (M.run s as).map Prod.snd

end Machine

/-- Both refuse, or both give the same answer and stay related. -/
inductive Agree (R : S → S' → Prop) : Option (S × O) → Option (S' × O) → Prop
  | refused : Agree R none none
  | answered {s : S} {t : S'} {o : O} (h : R s t) : Agree R (some (s, o)) (some (t, o))

section Runs
variable {M : Machine S A O} {N : Machine S' A O} {R : S → S' → Prop} {ok : A → Prop}

theorem Agree.map_snd {x : Option (S × O)} {y : Option (S' × O)} (h : Agree R x y) :
    x.map Prod.snd = y.map Prod.snd := by
  cases h with
  | refused => rfl
  | answered _ => rfl

theorem Agree.run (hstep : ∀ s t a, R s t → ok a → Agree R (M s a) (N t a)) {as : List A}
    (hok : ∀ a ∈ as, ok a) {s : S} {t : S'} (h : R s t) : Agree R (M.run s as) (N.run t as) := by
  induction as generalizing s t with
  | nil => exact .answered h
  | cons a as ih =>
    have hrest : ∀ b ∈ as, ok b := fun b hb => hok b (List.mem_cons_of_mem a hb)
    have hfirst := hstep s t a h (hok a List.mem_cons_self)
    rw [Machine.run, Machine.run]
    generalize M s a = x at hfirst ⊢
    generalize N t a = y at hfirst ⊢
    cases hfirst with
    | refused => exact .refused
    | answered h' =>
      have htail := ih hrest h'
      rw [Option.bind_some, Option.bind_some]
      generalize M.run _ as = x at htail ⊢
      generalize N.run _ as = y at htail ⊢
      cases htail with
      | refused => exact .refused
      | answered h'' => exact .answered h''

theorem answers_eq (hstep : ∀ s t a, R s t → ok a → Agree R (M s a) (N t a)) {as : List A}
    (hok : ∀ a ∈ as, ok a) {s : S} {t : S'} (h : R s t) : M.answers s as = N.answers t as :=
  (Agree.run hstep hok h).map_snd

end Runs

/-! Objects at addresses: what is related address by address, and what may be missing. -/
section Objects
variable {ι B B' : Type} {Q : B → B' → Prop} {R : S → S' → Prop}

theorem pointwise_update [DecidableEq ι] {f : ι → B} {g : ι → B'} (h : ∀ i, Q (f i) (g i)) (j : ι)
    {x : B} {y : B'} (hxy : Q x y) (i : ι) :
    Q (Function.update f j x i) (Function.update g j y i) := by
  by_cases hij : i = j
  · subst i
    simpa using hxy
  · simpa [hij] using h i

theorem isSome_eq {x : Option B} {y : Option B'} (h : Option.Rel Q x y) : x.isSome = y.isSome := by
  cases h with
  | some _ => rfl
  | none => rfl

/-- An action on an object that is accepted if the object is there. -/
theorem Agree.map {x : Option B} {y : Option B'} (h : Option.Rel Q x y) {g : B → S × O}
    {g' : B' → S' × O} (hg : ∀ b b', Q b b' → R (g b).1 (g' b').1 ∧ (g b).2 = (g' b').2) :
    Agree R (x.map g) (y.map g') := by
  cases h with
  | none => exact .refused
  | @some b b' hb =>
    obtain ⟨hstate, hanswer⟩ := hg b b' hb
    rw [Option.map_some, Option.map_some, ← Prod.mk.eta (p := g b), hanswer]
    exact .answered hstate

end Objects

end LibPosix.Simulation
