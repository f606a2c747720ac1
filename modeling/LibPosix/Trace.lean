import LibPosix.Program

/-! The requests of a run. Next to the state of an environment it is written down which requests
it has answered, in their order. -/
namespace LibPosix.Trace
open Program
variable {E : Type} {R : E → Type} {α σ : Type}

def traced (exec : (e : E) → σ → Option (R e × σ)) (e : E) (x : σ × List E) :
    Option (R e × σ × List E) :=
  (exec e x.1).map fun r => (r.1, r.2, x.2 ++ [e])

/-- Every request of the log comes after a part of the log that admits it. -/
def Along (ok : List E → E → Prop) (log : List E) : Prop := ∀ l e, l ++ [e] <+: log → ok l e

section Logs
variable {ok : List E → E → Prop} {log log' : List E} {e : E}

theorem along_nil : Along ok [] := by simp [Along]

theorem Along.of_prefix (h : Along ok log') (hp : log <+: log') : Along ok log :=
  fun l e hl => h l e (hl.trans hp)

theorem along_concat : Along ok (log ++ [e]) ↔ Along ok log ∧ ok log e := by
  constructor
  · intro h
    exact ⟨h.of_prefix (List.prefix_append _ _), h log e (List.prefix_refl _)⟩
  · rintro ⟨h, he⟩ l e' hl
    rcases List.prefix_concat_iff.mp hl with heq | hp
    · obtain ⟨rfl, hee⟩ := List.append_inj' heq rfl
      cases hee
      exact he
    · exact h l e' hp

end Logs

/-- Every request may be issued; the view is the requests so far. -/
def recording (E : Type) (R : E → Type) : Protocol E R (List E) where
  safe _ _ := True
  after l e _ l' := l' = l ++ [e]

@[simp] theorem recording_safe (l : List E) (e : E) : (recording E R).safe l e ↔ True := Iff.rfl

@[simp] theorem recording_after (l : List E) (e : E) (r : R e) (l' : List E) :
    (recording E R).after l e r l' ↔ l' = l ++ [e] := Iff.rfl

section Runs
variable {exec : (e : E) → σ → Option (R e × σ)} {p : Prog E R α} {s s' : σ} {a : α}
  {log log' : List E}

theorem traced_some {e : E} {x x' : σ × List E} {r : R e} :
    traced exec e x = some (r, x') ↔ exec e x.1 = some (r, x'.1) ∧ x'.2 = x.2 ++ [e] := by
  unfold traced
  rw [Option.map_eq_some_iff]
  constructor
  · rintro ⟨q, hq, heq⟩
    cases heq
    exact ⟨hq, rfl⟩
  · intro h
    refine ⟨(r, x'.1), h.1, ?_⟩
    rw [← h.2]

theorem eval_traced (h : p.eval (traced exec) (s, log) = some (a, s', log')) :
    p.eval exec s = some (a, s') := by
  induction p generalizing s log with
  | ret b =>
    cases h
    rfl
  | call e k ih =>
    obtain ⟨⟨r, u, log1⟩, hu, hrest⟩ := Option.bind_eq_some_iff.mp h
    rw [Prog.eval_call, (traced_some.mp hu).1]
    exact ih r hrest

theorem log_prefix (h : p.eval (traced exec) (s, log) = some (a, s', log')) : log <+: log' := by
  induction p generalizing s log with
  | ret b =>
    cases h
    exact List.prefix_rfl
  | call e k ih =>
    obtain ⟨⟨r, u, log1⟩, hu, hrest⟩ := Option.bind_eq_some_iff.mp h
    obtain rfl : log1 = log ++ [e] := (traced_some.mp hu).2
    exact (List.prefix_append log [e]).trans (ih r hrest)

/-- What is recorded whatever the answers are is recorded in every run. -/
theorem recorded {post : α → List E → Prop} (hp : p.Obeys (recording E R) log post)
    (h : p.eval (traced exec) (s, log) = some (a, s', log')) : post a log' := by
  have hexec : ∀ e x r x', True → (recording E R).safe x.2 e →
      traced exec e x = some (r, x') → True ∧ (recording E R).after x.2 e r x'.2 :=
    fun _ _ _ _ _ _ hx => ⟨trivial, (traced_some.mp hx).2⟩
  exact (Prog.Obeys.eval (v := fun x : σ × List E => x.2) hexec trivial hp h).2

end Runs

end LibPosix.Trace
