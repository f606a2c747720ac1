import Mathlib

/-! Programs that talk to their environment through typed requests. A program is a tree: it
returns, or it issues one request and continues with the answer. The same tree is run alone
(`eval`), under an environment that answers as it likes (`Obeys`), or interleaved with
others. -/
namespace LibPosix.Program

inductive Prog (E : Type) (R : E → Type) (α : Type) where
  | ret (a : α)
  | call (e : E) (k : R e → Prog E R α)

namespace Prog
variable {E : Type} {R : E → Type} {α β σ L : Type}

def bind : Prog E R α → (α → Prog E R β) → Prog E R β
  | .ret a, f => f a
  | .call e k, f => .call e fun r => (k r).bind f

instance : Monad (Prog E R) where
  pure := .ret
  bind := bind

def request (e : E) : Prog E R (R e) := .call e .ret

@[simp] theorem pure_eq (a : α) : (pure a : Prog E R α) = .ret a := rfl

@[simp] theorem ret_bind (a : α) (f : α → Prog E R β) : Prog.ret a >>= f = f a := rfl

@[simp] theorem call_bind (e : E) (k : R e → Prog E R α) (f : α → Prog E R β) :
    Prog.call e k >>= f = .call e fun r => k r >>= f := rfl

@[simp] theorem request_bind (e : E) (f : R e → Prog E R β) :
    request e >>= f = .call e f := rfl

theorem bind_ret (p : Prog E R α) : p >>= .ret = p := by
  induction p with
  | ret a => rfl
  | call e k ih => simp [ih]

theorem bind_assoc {γ : Type} (p : Prog E R α) (f : α → Prog E R β) (g : β → Prog E R γ) :
    p >>= f >>= g = p >>= fun a => f a >>= g := by
  induction p with
  | ret a => rfl
  | call e k ih => simp [ih]

/-- Run alone: every request is answered by `exec`, which may also refuse it (the caller
blocks for ever). -/
def eval (exec : (e : E) → σ → Option (R e × σ)) : Prog E R α → σ → Option (α × σ)
  | .ret a, s => some (a, s)
  | .call e k, s => (exec e s).bind fun rs => (k rs.1).eval exec rs.2

@[simp] theorem eval_ret (exec : (e : E) → σ → Option (R e × σ)) (a : α) (s : σ) :
    (Prog.ret a : Prog E R α).eval exec s = some (a, s) := rfl

@[simp] theorem eval_call (exec : (e : E) → σ → Option (R e × σ)) (e : E)
    (k : R e → Prog E R α) (s : σ) :
    (Prog.call e k).eval exec s = (exec e s).bind fun rs => (k rs.1).eval exec rs.2 := rfl

@[simp] theorem eval_request (exec : (e : E) → σ → Option (R e × σ)) (e : E) (s : σ) :
    (request e : Prog E R (R e)).eval exec s = exec e s := by
  cases h : exec e s with
  | none => simp [request, h]
  | some rs => simp [request, h]

theorem eval_bind (exec : (e : E) → σ → Option (R e × σ)) (p : Prog E R α)
    (f : α → Prog E R β) (s : σ) :
    (p >>= f).eval exec s = (p.eval exec s).bind fun as => (f as.1).eval exec as.2 := by
  induction p generalizing s with
  | ret a => rfl
  | call e k ih =>
    simp only [call_bind, eval_call]
    cases exec e s with
    | none => rfl
    | some rs => exact ih rs.1 rs.2

/-- Replace every request by a program over another set of requests. -/
def interp {E' : Type} {R' : E' → Type} (h : (e : E) → Prog E' R' (R e)) :
    Prog E R α → Prog E' R' α
  | .ret a => .ret a
  | .call e k => h e >>= fun r => (k r).interp h

@[simp] theorem interp_ret {E' : Type} {R' : E' → Type} (h : (e : E) → Prog E' R' (R e))
    (a : α) : (Prog.ret a : Prog E R α).interp h = .ret a := rfl

@[simp] theorem interp_call {E' : Type} {R' : E' → Type} (h : (e : E) → Prog E' R' (R e))
    (e : E) (k : R e → Prog E R α) :
    (Prog.call e k).interp h = h e >>= fun r => (k r).interp h := rfl

@[simp] theorem interp_bind {E' : Type} {R' : E' → Type} (h : (e : E) → Prog E' R' (R e))
    (p : Prog E R α) (f : α → Prog E R β) :
    (p >>= f).interp h = p.interp h >>= fun a => (f a).interp h := by
  induction p with
  | ret a => rfl
  | call e k ih => simp [ih, bind_assoc]

@[simp] theorem interp_request {E' : Type} {R' : E' → Type} (h : (e : E) → Prog E' R' (R e))
    (e : E) : (request e).interp h = h e >>= .ret := rfl

@[simp] theorem interp_ite {E' : Type} {R' : E' → Type} (h : (e : E) → Prog E' R' (R e))
    {c : Prop} [Decidable c] (p q : Prog E R α) :
    (if c then p else q).interp h = if c then p.interp h else q.interp h := by
  split_ifs
  · rfl
  · rfl

end Prog

/-- What one participant may request, and which answers it can get together with its own
view of the shared state after them. -/
structure Protocol (E : Type) (R : E → Type) (L : Type) where
  safe : L → E → Prop
  after : L → (e : E) → R e → L → Prop

/-- Two protocols at once, each with its own view. -/
def Protocol.prod {E : Type} {R : E → Type} {L L' : Type} (P : Protocol E R L)
    (P' : Protocol E R L') : Protocol E R (L × L') where
  safe l e := P.safe l.1 e ∧ P'.safe l.2 e
  after l e r l' := P.after l.1 e r l'.1 ∧ P'.after l.2 e r l'.2

namespace Prog
variable {E : Type} {R : E → Type} {α β L : Type}

/-- Whatever the possible answers are, the program issues safe requests only and returns a
value and a final view that satisfy `post`. -/
def Obeys (P : Protocol E R L) : Prog E R α → L → (α → L → Prop) → Prop
  | .ret a, l, post => post a l
  | .call e k, l, post => P.safe l e ∧ ∀ r l', P.after l e r l' → (k r).Obeys P l' post

variable {P : Protocol E R L}

@[simp] theorem obeys_ret {a : α} {l : L} {post : α → L → Prop} :
    (Prog.ret a : Prog E R α).Obeys P l post ↔ post a l := Iff.rfl

@[simp] theorem obeys_call {e : E} {k : R e → Prog E R α} {l : L} {post : α → L → Prop} :
    (Prog.call e k).Obeys P l post ↔
      P.safe l e ∧ ∀ r l', P.after l e r l' → (k r).Obeys P l' post := Iff.rfl

theorem Obeys.mono {p : Prog E R α} {l : L} {post post' : α → L → Prop}
    (h : p.Obeys P l post) (hp : ∀ a l, post a l → post' a l) : p.Obeys P l post' := by
  induction p generalizing l with
  | ret a => exact hp a l h
  | call e k ih => exact ⟨h.1, fun r l' hr => ih r (h.2 r l' hr)⟩

theorem Obeys.prod {L' : Type} {P' : Protocol E R L'} {p : Prog E R α} {l : L} {l' : L'}
    {post : α → L → Prop} {post' : α → L' → Prop} (h : p.Obeys P l post)
    (h' : p.Obeys P' l' post') :
    p.Obeys (P.prod P') (l, l') fun a m => post a m.1 ∧ post' a m.2 := by
  induction p generalizing l l' with
  | ret a => exact ⟨h, h'⟩
  | call e k ih =>
    exact ⟨⟨h.1, h'.1⟩, fun r m hm => ih r (h.2 r m.1 hm.1) (h'.2 r m.2 hm.2)⟩

/-- Sequencing: what the second program needs is what the first one has to establish. -/
@[simp] theorem obeys_bind {p : Prog E R α} {f : α → Prog E R β} {l : L}
    {post : β → L → Prop} : (p >>= f).Obeys P l post ↔
      p.Obeys P l fun a l' => (f a).Obeys P l' post := by
  induction p generalizing l with
  | ret a => rfl
  | call e k ih =>
    simp only [call_bind, obeys_call, ih]

@[simp] theorem obeys_request {e : E} {l : L} {post : R e → L → Prop} :
    (request e : Prog E R (R e)).Obeys P l post ↔
      P.safe l e ∧ ∀ r l', P.after l e r l' → post r l' := Iff.rfl

@[simp] theorem obeys_ite {c : Prop} [Decidable c] {p q : Prog E R α} {l : L}
    {post : α → L → Prop} : (if c then p else q).Obeys P l post ↔
      (c → p.Obeys P l post) ∧ (¬ c → q.Obeys P l post) := by
  split_ifs with h
  · simp [h]
  · simp [h]

theorem obeys_interp {E' : Type} {R' : E' → Type} {P : Protocol E' R' L} {Q : L → Prop}
    {h : (e : E) → Prog E' R' (R e)}
    (hh : ∀ e l, Q l → (h e).Obeys P l fun _ l' => Q l') (p : Prog E R α) {l : L} (hl : Q l) :
    (p.interp h).Obeys P l fun _ l' => Q l' := by
  induction p generalizing l with
  | ret a => exact hl
  | call e k ih =>
    rw [interp_call, obeys_bind]
    exact (hh e l hl).mono fun r l' hl' => ih r hl'

/-- Handlers that answer as a protocol allows may take the place of its requests. -/
theorem Obeys.interp {E' : Type} {R' : E' → Type} {P' : Protocol E' R' L}
    {h : (e : E) → Prog E' R' (R e)}
    (hh : ∀ e l, P.safe l e → (h e).Obeys P' l (P.after l e)) {p : Prog E R α} {l : L}
    {post : α → L → Prop} (hp : p.Obeys P l post) : (p.interp h).Obeys P' l post := by
  induction p generalizing l with
  | ret a => exact hp
  | call e k ih =>
    rw [interp_call, obeys_bind]
    exact (hh e l hp.1).mono fun r l' hr => ih r (hp.2 r l' hr)

/-- A program that obeys a protocol does so in particular when it runs alone against
answers the protocol allows. -/
theorem Obeys.eval {σ : Type} {v : σ → L} {I : σ → Prop}
    {exec : (e : E) → σ → Option (R e × σ)}
    (hexec : ∀ e s r s', I s → P.safe (v s) e → exec e s = some (r, s') →
      I s' ∧ P.after (v s) e r (v s'))
    {p : Prog E R α} {s s' : σ} {a : α} {post : α → L → Prop} (hs : I s)
    (h : p.Obeys P (v s) post) (hrun : p.eval exec s = some (a, s')) :
    I s' ∧ post a (v s') := by
  induction p generalizing s with
  | ret b =>
    cases hrun
    exact ⟨hs, h⟩
  | call e k ih =>
    obtain ⟨⟨r, u⟩, hu, hrest⟩ := Option.bind_eq_some_iff.mp hrun
    obtain ⟨hi, ha⟩ := hexec e s r u hs h.1 hu
    exact ih r hi (h.2 r (v u) ha) hrest

end Prog

/-- Requests of one kind only, whatever the answers are. -/
def requesting {E : Type} (R : E → Type) (ok : E → Prop) : Protocol E R Unit where
  safe _ e := ok e
  after _ _ _ _ := True

namespace Prog
variable {E : Type} {R : E → Type} {α β σ τ : Type} {ok : E → Prop}

def Asks (ok : E → Prop) (q : Prog E R α) : Prop :=
  q.Obeys (requesting R ok) () fun _ _ => True

theorem Asks.bind {q : Prog E R α} {f : α → Prog E R β} (hq : q.Asks ok)
    (hf : ∀ a, (f a).Asks ok) : (q >>= f).Asks ok :=
  Prog.obeys_bind.mpr (hq.mono fun a _ _ => hf a)

theorem asks_ret (a : α) : (Prog.ret a : Prog E R α).Asks ok := trivial

theorem asks_request {e : E} {f : R e → Prog E R α} (he : ok e) (hf : ∀ r, (f r).Asks ok) :
    (request e >>= f).Asks ok := ⟨he, fun r _ _ => hf r⟩

theorem asks_ite {c : Prop} [Decidable c] {q q' : Prog E R α} (hq : q.Asks ok)
    (hq' : q'.Asks ok) : (if c then q else q').Asks ok := by
  split_ifs
  · exact hq
  · exact hq'

theorem Asks.mono {ok' : E → Prop} {q : Prog E R α} (hq : q.Asks ok)
    (h : ∀ e, ok e → ok' e) : q.Asks ok' := by
  induction q with
  | ret a => trivial
  | call e k ih => exact ⟨h e hq.1, fun r _ _ => ih r (hq.2 r () trivial)⟩

/-- Where the requests are answered from a part of the state and change nothing else, so is the
program. -/
theorem Asks.eval_part {exec : (e : E) → σ → Option (R e × σ)}
    {exec' : (e : E) → τ → Option (R e × τ)} (get : τ → σ) (put : σ → τ → τ)
    (hget : ∀ s x, get (put s x) = s) (hput : ∀ s s' x, put s' (put s x) = put s' x)
    (hself : ∀ x, put (get x) x = x)
    (hexec : ∀ e x, ok e → exec' e x = (exec e (get x)).map fun r => (r.1, put r.2 x))
    {q : Prog E R α} (hq : q.Asks ok) (x : τ) :
    q.eval exec' x = (q.eval exec (get x)).map fun r => (r.1, put r.2 x) := by
  induction q generalizing x with
  | ret a => simp [hself]
  | call e k ih =>
    rw [eval_call, eval_call, hexec e x hq.1]
    cases exec e (get x) with
    | none => rfl
    | some r =>
      have hrest := ih r.1 (hq.2 r.1 () trivial) (put r.2 x)
      simpa [hget, hput] using hrest

end Prog

end LibPosix.Program
