import LibPosix.Mqueue
import LibPosix.Transition

/-! What each call of `posix_mqueue.c` does to the registry of message queues when it runs
alone: one lemma for every outcome of a call. -/
namespace LibPosix.MqueueCalls
open Program Transition TimeUtils Kernel MachineInt Mqueue
variable {T : Type} [DecidableEq T]

/-- The static variables of `posix_mqueue.c`, the queue objects by their addresses and the
blocks that are allocated. -/
structure Registry (T : Type) where
  inited : Bool
  mux : Mut T
  allq : List Ptr
  obj : Ptr → MqdInternal
  live : Finset (PosixObj × Ptr)

/-- What the environment of one call decides: the blocks the allocator hands out, the tick
counter and whether a kernel queue operation succeeds. -/
structure Env where
  queueBlock : Option Ptr
  bufBlock : Option Ptr
  tick : ℕ
  accept : Bool
  deriving DecidableEq, Repr

namespace Registry

@[simps]
def withMux (m : Mut T) (s : Registry T) : Registry T := { s with mux := m }

def modify (mq : Ptr) (f : MqdInternal → MqdInternal) (s : Registry T) : Registry T :=
  { s with obj := Function.update s.obj mq (f (s.obj mq)) }

def unlink (mq : Ptr) (s : Registry T) : Registry T := { s with allq := s.allq.erase mq }

def allocate (type : PosixObj) (block : Option Ptr) (s : Registry T) :
    Option (Option Ptr × Registry T) :=
  match block with
  | none => some (none, s)
  | some p =>
    if (type, p) ∈ s.live then none else some (some p, { s with live := insert (type, p) s.live })

def release (type : PosixObj) (p : Ptr) (s : Registry T) : Registry T :=
  { s with live := s.live.erase (type, p) }

def find (name : CString) (s : Registry T) : Option Ptr :=
  s.allq.find? fun p => name = (s.obj p).name

end Registry

def emptyName : CString := ⟨[], by simp⟩

def zeroQueue : MqdInternal := ⟨⟨0, 0, 0⟩, 0, emptyName, ⟨false, false, false⟩, 0, false⟩

/-- What a request does to the registry. `storeName` keeps the whole name and changes nothing
else: the bytes that `strcpy` writes past the `char name[16]` of a queue are left out here
and are in `MqueueNames`. A kernel queue operation is answered at once, as `accept` says;
where it has to wait is in `MqueueLocking` and `MqueueTransfers`. -/
def mqExec (relock : Bool) (P : Platform) (t : T) (c : Env) :
    (e : MqOp) → Registry T → Option (MqAns e × Registry T)
  | .loadInited, s => some (s.inited, s)
  | .llInit, s => some ((), { s with allq := [] })
  | .mutInit, s => some ((), s.withMux mutInit)
  | .storeInited, s => some ((), { s with inited := true })
  | .muxLock, s =>
    (mutLock relock P.WAIT t P.WAIT false s.mux).map fun r => ((), s.withMux r.2)
  | .muxUnlock, s => some ((), s.withMux (mutUnlock s.mux))
  | .allq, s => some (s.allq, s)
  | .load mq, s => some (s.obj mq, s)
  | .storeOpenCount mq n, s => some ((), s.modify mq fun o => { o with openCount := n })
  | .storePendingUnlink mq, s => some ((), s.modify mq fun o => { o with pendingUnlink := true })
  | .lleDel mq, s => some ((), s.unlink mq)
  | .allocQueue, s => s.allocate .POSIX_MQUEUE c.queueBlock
  | .clearQueue mq, s => some ((), s.modify mq fun _ => zeroQueue)
  | .allocBuf _, s => s.allocate .POSIX_MQUEUE_BUF c.bufBlock
  | .storeBuf mq buf, s => some ((), s.modify mq fun o => { o with buf := buf })
  | .clearBuf _ _, s => some ((), s)
  | .storeName mq name, s => some ((), s.modify mq fun o => { o with name := name })
  | .storeFlags mq flags, s => some ((), s.modify mq fun o => { o with flags := flags })
  | .lleInit _, s => some ((), s)
  | .mqInit mq isz _ sz, s => some ((), s.modify mq fun o => { o with q := ⟨isz, sz, 0⟩ })
  | .free type p, s => some ((), s.release type p)
  | .tmrTicks, s => some (c.tick, s)
  | .mqPut mq _ _, s =>
    some (c.accept, if c.accept = true then
      s.modify mq fun o => { o with q := { o.q with n := o.q.n + 1 } } else s)
  | .mqGet mq _ _, s =>
    some (c.accept, if c.accept = true then
      s.modify mq fun o => { o with q := { o.q with n := o.q.n - 1 } } else s)

section Effects
variable (mq : Ptr) (s : Registry T)

def freed : Registry T :=
  (s.release .POSIX_MQUEUE_BUF (s.obj mq).buf).release .POSIX_MQUEUE mq

/-- `mq_close` removes a queue whose last descriptor it closes if that has been marked
before. -/
def closeRemoves : Bool := (s.obj mq).openCount ≤ 1 && (s.obj mq).pendingUnlink

/-- The object after `mq_close`: the mark is also set when the count gets to 0. -/
def closedObj (o : MqdInternal) : MqdInternal :=
  { o with
    openCount := o.openCount - 1
    pendingUnlink := o.pendingUnlink || o.openCount ≤ 1 }

def closed : Registry T :=
  let s' := s.modify mq closedObj
  if closeRemoves mq s = true then freed mq (s'.unlink mq) else s'

def unlinked : Registry T :=
  if (s.obj mq).openCount = 0 then freed mq (s.unlink mq)
  else s.modify mq fun o => { o with pendingUnlink := true }

def opened : Registry T :=
  s.modify mq fun o => { o with openCount := unsigned 16 (o.openCount + 1) }

end Effects

section Calls
variable {relock : Bool} {P : Platform} {t : T} {c : Env} {s s' : Registry T}

omit [DecidableEq T] in
@[simp] theorem modify_obj_self (mq : Ptr) (f : MqdInternal → MqdInternal) :
    (s.modify mq f).obj mq = f (s.obj mq) := by
  simp [Registry.modify]

omit [DecidableEq T] in
@[simp] theorem modify_modify (mq : Ptr) (f g : MqdInternal → MqdInternal) :
    (s.modify mq f).modify mq g = s.modify mq (g ∘ f) := by
  simp [Registry.modify]

omit [DecidableEq T] in
theorem modify_congr {mq : Ptr} {f g : MqdInternal → MqdInternal}
    (h : f (s.obj mq) = g (s.obj mq)) :
    s.modify mq f = s.modify mq g := by
  simp [Registry.modify, h]

omit [DecidableEq T] in
theorem modify_eq_self {mq : Ptr} {f : MqdInternal → MqdInternal} (h : f (s.obj mq) = s.obj mq) :
    s.modify mq f = s := by
  simp [Registry.modify, h]

theorem find_self (mq : Ptr) (l : List Ptr) :
    l.find? (· = mq) = if mq ∈ l then some mq else none := by
  split_ifs with h
  · cases hf : l.find? (· = mq) with
    | none => simpa [h] using List.find?_eq_none.mp hf mq h
    | some p => simpa using List.find?_some hf
  · rw [List.find?_eq_none]
    intro p hp
    have hne : p ≠ mq := fun heq => h (heq ▸ hp)
    simpa using hne

theorem mqFindFrom_eval (name : CString) (l : List Ptr) :
    (mqFindFrom name l).eval (mqExec relock P t c) s =
      some (l.find? fun p => name = (s.obj p).name, s) := by
  induction l with
  | nil => rfl
  | cons p ps ih =>
    simp only [mqFindFrom, Prog.request_bind, Prog.eval_call, mqExec, Option.bind_some]
    by_cases h : name = (s.obj p).name
    · simp [h]
    · simp [h, ih]

theorem mqFindLocked_eval (name : CString) :
    (mqFindLocked name).eval (mqExec relock P t c) s = some (s.find name, s) := by
  simp [mqFindLocked, mqExec, mqFindFrom_eval, Registry.find]

theorem mqExtractLocked_eval (mq : Ptr) :
    (mqExtractLocked mq).eval (mqExec relock P t c) s =
      some (if mq ∈ s.allq then some mq else none, s) := by
  simp [mqExtractLocked, mqExec, find_self]

theorem mqCheckInit_eval (hi : s.inited = true) :
    mqCheckInit.eval (mqExec relock P t c) s = some ((), s) := by
  simp [mqCheckInit, mqExec, hi]

theorem muxLock_some {u : Unit} (h : mqExec relock P t c .muxLock s = some (u, s')) :
    ∃ m, s' = s.withMux m := by
  obtain ⟨r, -, heq⟩ := Option.map_eq_some_iff.mp h
  cases heq
  exact ⟨r.2, rfl⟩

theorem muxLock_eval {u : Unit}
    (h : (ask .muxLock).eval (mqExec relock P t c) s = some (u, s')) : ∃ m, s' = s.withMux m := by
  rw [Prog.eval_request] at h
  exact muxLock_some h

theorem mqPut_some {mq msg : Ptr} {ticks : ℕ} {ok : Bool}
    (h : mqExec relock P t c (.mqPut mq msg ticks) s = some (ok, s')) :
    ∃ f : ℕ → ℕ, s' = s.modify mq fun o => { o with q := { o.q with n := f o.q.n } } := by
  cases h
  split_ifs
  · exact ⟨(· + 1), rfl⟩
  · exact ⟨id, by simp [Registry.modify]⟩

theorem mqGet_some {mq msg : Ptr} {ticks : ℕ} {ok : Bool}
    (h : mqExec relock P t c (.mqGet mq msg ticks) s = some (ok, s')) :
    ∃ f : ℕ → ℕ, s' = s.modify mq fun o => { o with q := { o.q with n := f o.q.n } } := by
  cases h
  split_ifs
  · exact ⟨(· - 1), rfl⟩
  · exact ⟨id, by simp [Registry.modify]⟩

/-- A free lock is taken at once, -/
theorem muxLock_free (hm : s.mux = mutInit) :
    mqExec relock P t c .muxLock s = some ((), s.withMux ⟨some t, 1⟩) := by
  simp [mqExec, hm, mutLock, mutInit]

omit [DecidableEq T] in
/-- and releasing it again leaves no trace. -/
theorem withMux_back (hm : s.mux = mutInit) :
    (s.withMux ⟨some t, 1⟩).withMux (mutUnlock ⟨some t, 1⟩) = s := by
  cases s with
  | mk inited mux allq obj live =>
    obtain rfl : mux = mutInit := hm
    rfl

theorem mqFree_eval (mq : Ptr) :
    (mqFree mq).eval (mqExec relock P t c) s = some ((), freed mq s) := by
  simp [mqFree, mqExec, freed]

theorem mqCloseLocked_eval (mq : Ptr) :
    (mqCloseLocked mq).eval (mqExec relock P t c) s =
      some (closeRemoves mq s, if closeRemoves mq s = true then (s.modify mq closedObj).unlink mq
        else s.modify mq closedObj) := by
  obtain ⟨inited, mux, allq, obj, live⟩ := s
  cases ho : obj mq with
  | mk q buf name flags openCount pendingUnlink =>
    rcases openCount with _ | _ | n
    · cases pendingUnlink with
      | true =>
        have hm : Registry.modify mq closedObj ⟨inited, mux, allq, obj, live⟩ =
            ⟨inited, mux, allq, obj, live⟩ := modify_eq_self (by simp [closedObj, ho])
        simp [mqCloseLocked, mqExec, closeRemoves, ho, hm]
      | false =>
        have hm : Registry.modify mq closedObj ⟨inited, mux, allq, obj, live⟩ =
            Registry.modify mq (fun o => { o with pendingUnlink := true })
              ⟨inited, mux, allq, obj, live⟩ := modify_congr (by simp [closedObj, ho])
        simp [mqCloseLocked, mqExec, closeRemoves, ho, hm]
    · cases pendingUnlink with
      | true =>
        have hm : Registry.modify mq closedObj ⟨inited, mux, allq, obj, live⟩ =
            Registry.modify mq (fun o => { o with openCount := 0 })
              ⟨inited, mux, allq, obj, live⟩ := modify_congr (by simp [closedObj, ho])
        simp [mqCloseLocked, mqExec, closeRemoves, ho, hm]
      | false =>
        have hm : Registry.modify mq closedObj ⟨inited, mux, allq, obj, live⟩ =
            Registry.modify mq (fun o => { o with openCount := 0, pendingUnlink := true })
              ⟨inited, mux, allq, obj, live⟩ := modify_congr (by simp [closedObj, ho])
        simp [mqCloseLocked, mqExec, closeRemoves, ho, hm]
        rfl
    · have hm : Registry.modify mq closedObj ⟨inited, mux, allq, obj, live⟩ =
          Registry.modify mq (fun o => { o with openCount := n + 1 })
            ⟨inited, mux, allq, obj, live⟩ := modify_congr (by simp [closedObj, ho])
      simp [mqCloseLocked, mqExec, closeRemoves, ho, hm]

theorem mqClose_spec (hi : s.inited = true) {mq : Ptr} {r : Status}
    (h : (mqClose mq).eval (mqExec relock P t c) s = some (r, s')) :
    ∃ m, (mq ∈ s.allq ∧ r = .ok ∧ s' = (closed mq s).withMux m) ∨
      (mq ∉ s.allq ∧ r = .EBADF ∧ s' = s.withMux m) := by
  simp only [mqClose, Prog.eval_bind, mqCheckInit_eval hi, Option.bind_some] at h
  obtain ⟨⟨u, s1⟩, hlock, h⟩ := Option.bind_eq_some_iff.mp h
  obtain ⟨m, rfl⟩ := muxLock_eval hlock
  simp only [mqExtractLocked_eval, Option.bind_some] at h
  by_cases hq : mq ∈ s.allq
  · have hq' : mq ∈ (s.withMux m).allq := hq
    simp only [if_pos hq', Prog.eval_bind, mqCloseLocked_eval, Option.bind_some,
      Prog.eval_request] at h
    have hr : closeRemoves mq (s.withMux m) = closeRemoves mq s := rfl
    by_cases hrm : closeRemoves mq s = true
    · simp only [hr, if_pos hrm, mqExec, Option.bind_some, Prog.eval_bind, mqFree_eval] at h
      cases h
      exact ⟨mutUnlock m, .inl ⟨hq, rfl, by rw [closed, if_pos hrm]; rfl⟩⟩
    · simp only [hr, if_neg hrm, mqExec, Option.bind_some] at h
      cases h
      exact ⟨mutUnlock m, .inl ⟨hq, rfl, by rw [closed, if_neg hrm]; rfl⟩⟩
  · have hq' : mq ∉ (s.withMux m).allq := hq
    simp only [if_neg hq', Prog.eval_bind, Prog.eval_request] at h
    cases h
    exact ⟨_, .inr ⟨hq, rfl, rfl⟩⟩

theorem mqUnlinkLocked_eval (mq : Ptr) :
    (mqUnlinkLocked mq).eval (mqExec relock P t c) s =
      some (decide ((s.obj mq).openCount = 0), if (s.obj mq).openCount = 0 then s.unlink mq
        else s.modify mq fun o => { o with pendingUnlink := true }) := by
  by_cases hc : (s.obj mq).openCount = 0
  · simp [mqUnlinkLocked, mqExec, hc]
  · simp [mqUnlinkLocked, mqExec, hc]

theorem mqUnlink_spec (hi : s.inited = true) {name : CString} {r : Status}
    (h : (mqUnlink name).eval (mqExec relock P t c) s = some (r, s')) :
    (r ≠ .ok ∧ ∃ m, s' = s.withMux m) ∨
      ∃ m mq, r = .ok ∧ s.find name = some mq ∧ s' = (unlinked mq s).withMux m := by
  simp only [mqUnlink, Prog.eval_bind, mqCheckInit_eval hi, Option.bind_some] at h
  by_cases hv : validateName name = false
  · rw [if_pos hv] at h
    cases h
    exact .inl ⟨by simp, s.mux, rfl⟩
  · rw [if_neg hv, Prog.eval_bind] at h
    obtain ⟨⟨u, s1⟩, hlock, h⟩ := Option.bind_eq_some_iff.mp h
    obtain ⟨m, rfl⟩ := muxLock_eval hlock
    have hf : (s.withMux m).find name = s.find name := rfl
    simp only [Prog.eval_bind, mqFindLocked_eval, Option.bind_some, hf] at h
    cases hq : s.find name with
    | none =>
      rw [hq] at h
      simp only [Prog.eval_bind, Prog.eval_request] at h
      cases h
      exact .inl ⟨by simp, _, rfl⟩
    | some mq =>
      rw [hq] at h
      simp only [Prog.eval_bind, mqUnlinkLocked_eval, Prog.eval_request, Option.bind_some] at h
      refine .inr ⟨mutUnlock m, mq, ?_⟩
      have hobj : (s.withMux m).obj = s.obj := rfl
      by_cases hc : (s.obj mq).openCount = 0
      · simp only [hobj, hc, if_true, decide_true, mqExec, Option.bind_some, Prog.eval_bind,
          mqFree_eval] at h
        cases h
        exact ⟨rfl, rfl, by rw [unlinked, if_pos hc]; rfl⟩
      · simp only [hobj, if_neg hc, decide_eq_true_eq, mqExec, Option.bind_some] at h
        cases h
        exact ⟨rfl, rfl, by rw [unlinked, if_neg hc]; rfl⟩

/-- What a call keeps that neither links, counts nor marks: the registry list and, of the
queues in use, names, counts and marks. -/
structure Keeps (s s' : Registry T) : Prop where
  inited : s'.inited = s.inited
  allq : s'.allq = s.allq
  live : s.live ⊆ s'.live
  book : ∀ q, (PosixObj.POSIX_MQUEUE, q) ∈ s.live → (s'.obj q).name = (s.obj q).name ∧
    (s'.obj q).openCount = (s.obj q).openCount ∧
      (s'.obj q).pendingUnlink = (s.obj q).pendingUnlink

omit [DecidableEq T] in
theorem keeps_withMux (m : Mut T) : Keeps s (s.withMux m) :=
  ⟨rfl, rfl, subset_rfl, fun _ _ => ⟨rfl, rfl, rfl⟩⟩

omit [DecidableEq T] in
theorem keeps_refl : Keeps s s := ⟨rfl, rfl, subset_rfl, fun _ _ => ⟨rfl, rfl, rfl⟩⟩

omit [DecidableEq T] in
theorem Keeps.trans {s₁ s₂ s₃ : Registry T} (h : Keeps s₁ s₂) (h' : Keeps s₂ s₃) :
    Keeps s₁ s₃ := by
  refine ⟨h'.inited.trans h.inited, h'.allq.trans h.allq, h.live.trans h'.live, fun q hq => ?_⟩
  obtain ⟨hname, hcount, hmark⟩ := h.book q hq
  obtain ⟨hname', hcount', hmark'⟩ := h'.book q (h.live hq)
  exact ⟨hname'.trans hname, hcount'.trans hcount, hmark'.trans hmark⟩

omit [DecidableEq T] in
theorem keeps_modify {mq : Ptr} {f : MqdInternal → MqdInternal}
    (hf : ∀ o, (f o).name = o.name ∧ (f o).openCount = o.openCount ∧
      (f o).pendingUnlink = o.pendingUnlink) : Keeps s (s.modify mq f) := by
  refine ⟨rfl, rfl, subset_rfl, fun p _ => ?_⟩
  by_cases hp : p = mq
  · subst hp
    simpa using hf (s.obj p)
  · simp [Registry.modify, Function.update_of_ne hp]

omit [DecidableEq T] in
theorem keeps_of_fresh {q : Ptr} (hq : (PosixObj.POSIX_MQUEUE, q) ∉ s.live)
    (hi : s'.inited = s.inited) (ha : s'.allq = s.allq) (hl : s.live ⊆ s'.live)
    (ho : ∀ p, p ≠ q → s'.obj p = s.obj p) : Keeps s s' := by
  refine ⟨hi, ha, hl, fun p hp => ?_⟩
  have hne : p ≠ q := fun heq => hq (heq ▸ hp)
  rw [ho p hne]
  exact ⟨rfl, rfl, rfl⟩

structure KeepsLinks (s s' : Registry T) : Prop where
  inited : s'.inited = s.inited
  allq : s'.allq = s.allq
  live : s.live ⊆ s'.live
  names : ∀ q, (PosixObj.POSIX_MQUEUE, q) ∈ s.live → (s'.obj q).name = (s.obj q).name

omit [DecidableEq T] in
theorem Keeps.links (h : Keeps s s') : KeepsLinks s s' :=
  ⟨h.inited, h.allq, h.live, fun q hq => (h.book q hq).1⟩

omit [DecidableEq T] in
theorem keepsLinks_modify {mq : Ptr} {f : MqdInternal → MqdInternal} (m : Mut T)
    (hf : ∀ o, (f o).name = o.name) : KeepsLinks s ((s.modify mq f).withMux m) := by
  refine ⟨rfl, rfl, subset_rfl, fun p _ => ?_⟩
  by_cases hp : p = mq
  · subst hp
    simpa using hf (s.obj p)
  · simp [Registry.modify, Function.update_of_ne hp]

structure Removes (mq : Ptr) (s s' : Registry T) : Prop where
  inited : s'.inited = s.inited
  allq : s'.allq = s.allq.erase mq
  live : ∀ p, (PosixObj.POSIX_MQUEUE, p) ∈ s'.live ↔
    p ≠ mq ∧ (PosixObj.POSIX_MQUEUE, p) ∈ s.live
  obj : ∀ p, p ≠ mq → s'.obj p = s.obj p

omit [DecidableEq T] in
theorem removes_freed (mq : Ptr) (m : Mut T) :
    Removes mq s ((freed mq (s.unlink mq)).withMux m) := by
  refine ⟨rfl, rfl, fun p => ?_, fun _ _ => rfl⟩
  simp [freed, Registry.release, Registry.unlink]

omit [DecidableEq T] in
theorem removes_closed {mq : Ptr} (m : Mut T) (h : closeRemoves mq s = true) :
    Removes mq s ((closed mq s).withMux m) := by
  have hr := removes_freed (s := s.modify mq closedObj) mq m
  rw [closed, if_pos h]
  exact ⟨hr.inited, hr.allq, hr.live, fun p hp => by
    rw [hr.obj p hp]
    exact Function.update_of_ne hp _ _⟩

omit [DecidableEq T] in
theorem closed_stays {mq : Ptr} (h : closeRemoves mq s = false) :
    closed mq s = s.modify mq closedObj := by
  simp [closed, h]

omit [DecidableEq T] in
theorem removes_unlinked {mq : Ptr} (m : Mut T) (h : (s.obj mq).openCount = 0) :
    Removes mq s ((unlinked mq s).withMux m) := by
  rw [unlinked, if_pos h]
  exact removes_freed mq m

omit [DecidableEq T] in
theorem unlinked_stays {mq : Ptr} (h : (s.obj mq).openCount ≠ 0) :
    unlinked mq s = s.modify mq fun o => { o with pendingUnlink := true } := if_neg h

omit [DecidableEq T] in
theorem allocate_none {type : PosixObj} : s.allocate type none = some (none, s) := rfl

omit [DecidableEq T] in
theorem allocate_some {type : PosixObj} {p : Ptr} {b : Option Ptr}
    (h : s.allocate type (some p) = some (b, s')) :
    (type, p) ∉ s.live ∧ b = some p ∧
      s' = ⟨s.inited, s.mux, s.allq, s.obj, insert (type, p) s.live⟩ := by
  simp only [Registry.allocate] at h
  split_ifs at h with hp
  cases h
  exact ⟨hp, rfl, rfl⟩

omit [DecidableEq T] in
theorem allocate_grows {type : PosixObj} {block b : Option Ptr}
    (h : s.allocate type block = some (b, s')) :
    ∃ live, s.live ⊆ live ∧ s' = ⟨s.inited, s.mux, s.allq, s.obj, live⟩ := by
  cases block with
  | none =>
    rw [allocate_none] at h
    cases h
    exact ⟨s.live, subset_rfl, rfl⟩
  | some p =>
    obtain ⟨-, -, rfl⟩ := allocate_some h
    exact ⟨_, Finset.subset_insert _ _, rfl⟩

/-- The kernel queue `mq_open` makes for the attributes, its sizes in words. -/
def createdQueue (P : Platform) (attr : MqAttr) : Mq :=
  let nwords := unsigned 32 (signed P.longBits (attr.mqMsgsize + 3) >>> 2)
  ⟨nwords, unsigned 32 (attr.mqMaxmsg * nwords), 0⟩

def createdObj (P : Platform) (name : CString) (oflag : OFlag) (attr : MqAttr) (buf : Ptr) :
    MqdInternal :=
  ⟨createdQueue P attr, buf, name, oflag, 0, false⟩

/-- The creating branch: without its two blocks it gives up, and otherwise it returns a new
object in a block that was not in use. It never touches the list. -/
theorem mqCreateLocked_spec {name : CString} {oflag : OFlag} {attr : MqAttr}
    {r : Except Status Ptr}
    (h : (mqCreateLocked P name oflag attr).eval (mqExec relock P t c) s = some (r, s')) :
    Keeps s s' ∧
      ((c.queueBlock = none ∨ c.bufBlock = none) ∧ r = .error .ENOENT ∨
      ∃ q b, c.queueBlock = some q ∧ c.bufBlock = some b ∧ r = .ok q ∧
        (PosixObj.POSIX_MQUEUE, q) ∉ s.live ∧ (PosixObj.POSIX_MQUEUE, q) ∈ s'.live ∧
        s'.obj q = createdObj P name oflag attr b) := by
  cases hq : c.queueBlock with
  | none =>
    simp only [mqCreateLocked, Prog.eval_bind, Prog.eval_request, mqExec, hq, allocate_none,
      Option.bind_some, Prog.pure_eq, Prog.eval_ret] at h
    cases h
    exact ⟨keeps_refl, .inl ⟨.inl rfl, rfl⟩⟩
  | some q =>
    simp only [mqCreateLocked, Prog.eval_bind, Prog.eval_request, mqExec, hq] at h
    obtain ⟨⟨_, s1⟩, halloc, h⟩ := Option.bind_eq_some_iff.mp h
    obtain ⟨hfresh, rfl, rfl⟩ := allocate_some halloc
    simp only [Prog.eval_bind, Prog.eval_request, mqExec, Option.bind_some] at h
    cases hb : c.bufBlock with
    | none =>
      simp only [hb, allocate_none, Option.bind_some, Prog.pure_eq, Prog.eval_ret] at h
      cases h
      have hk : Keeps s (Registry.modify q (fun _ => zeroQueue)
          ⟨s.inited, s.mux, s.allq, s.obj, insert (.POSIX_MQUEUE, q) s.live⟩) :=
        keeps_of_fresh hfresh rfl rfl (Finset.subset_insert _ _)
          fun p hp => Function.update_of_ne hp _ _
      exact ⟨hk, .inl ⟨.inr rfl, rfl⟩⟩
    | some b =>
      rw [hb] at h
      obtain ⟨⟨_, s2⟩, halloc', h⟩ := Option.bind_eq_some_iff.mp h
      obtain ⟨-, rfl, rfl⟩ := allocate_some halloc'
      simp only [Prog.eval_bind, Prog.eval_request, mqExec, Option.bind_some,
        Prog.pure_eq, Prog.eval_ret, Option.some.injEq, Prod.mk.injEq] at h
      obtain ⟨rfl, rfl⟩ := h
      refine ⟨keeps_of_fresh hfresh rfl rfl ?_ fun p hp => ?_,
        .inr ⟨q, b, rfl, rfl, rfl, hfresh, ?_, ?_⟩⟩
      · exact (Finset.subset_insert _ _).trans (Finset.subset_insert _ _)
      · simp [Registry.modify, Registry.withMux, Function.update_of_ne hp]
      · simp [Registry.modify, Registry.withMux]
      · simp [createdObj, createdQueue, zeroQueue, Registry.modify, Registry.withMux]

theorem mqOpen_refused (hi : s.inited = true) {name : CString} {oflag : OFlag}
    {attr : Option MqAttr} (hv : validateName name = false ∨ validateAttr attr = false) :
    (mqOpen P name oflag attr).eval (mqExec relock P t c) s = some (.error .EINVAL, s) := by
  simp only [mqOpen, Prog.eval_bind, mqCheckInit_eval hi, Option.bind_some]
  by_cases h : validateName name = false
  · rw [if_pos h]
    rfl
  · rw [if_neg h, if_pos (hv.resolve_left h)]
    rfl

section Open
variable {name : CString} {oflag : OFlag} {attr : Option MqAttr} {r : Except Status Ptr}
  (hi : s.inited = true) (hv : validateName name = true) (ha : validateAttr attr = true)
include hi hv ha

theorem mqOpen_found {q : Ptr} (hf : s.find name = some q)
    (h : (mqOpen P name oflag attr).eval (mqExec relock P t c) s = some (r, s')) :
    ∃ m, (oflag.O_EXCL = true ∧ oflag.O_CREAT = true ∧ r = .error .EEXIST ∧ s' = s.withMux m) ∨
      (¬ (oflag.O_EXCL = true ∧ oflag.O_CREAT = true) ∧ r = .ok q ∧
        s' = (opened q s).withMux m) := by
  simp only [mqOpen, Prog.eval_bind, mqCheckInit_eval hi, Option.bind_some, hv, ha,
    Bool.true_eq_false, if_false] at h
  obtain ⟨⟨u, s1⟩, hlock, h⟩ := Option.bind_eq_some_iff.mp h
  obtain ⟨m, rfl⟩ := muxLock_eval hlock
  have hf' : (s.withMux m).find name = some q := hf
  simp only [mqFindLocked_eval, Option.bind_some, hf'] at h
  by_cases hx : oflag.O_EXCL = true ∧ oflag.O_CREAT = true
  · simp only [if_pos hx, Prog.eval_bind, Prog.eval_request, mqExec, Option.bind_some] at h
    cases h
    exact ⟨_, .inl ⟨hx.1, hx.2, rfl, rfl⟩⟩
  · simp only [if_neg hx, Prog.eval_bind, Prog.eval_request, mqExec, Option.bind_some] at h
    cases h
    exact ⟨_, .inr ⟨hx, rfl, rfl⟩⟩

theorem mqOpen_missing (hf : s.find name = none) (hc : oflag.O_CREAT = false)
    (h : (mqOpen P name oflag attr).eval (mqExec relock P t c) s = some (r, s')) :
    ∃ m, r = .error .ENOENT ∧ s' = s.withMux m := by
  simp only [mqOpen, Prog.eval_bind, mqCheckInit_eval hi, Option.bind_some, hv, ha,
    Bool.true_eq_false, if_false] at h
  obtain ⟨⟨u, s1⟩, hlock, h⟩ := Option.bind_eq_some_iff.mp h
  obtain ⟨m, rfl⟩ := muxLock_eval hlock
  have hf' : (s.withMux m).find name = none := hf
  simp only [mqFindLocked_eval, Option.bind_some, hf', hc, Bool.false_eq_true, if_false,
    Prog.eval_bind, Prog.eval_request, mqExec] at h
  cases h
  exact ⟨_, rfl, rfl⟩

theorem mqOpen_create (hf : s.find name = none) (hc : oflag.O_CREAT = true)
    (h : (mqOpen P name oflag attr).eval (mqExec relock P t c) s = some (r, s')) :
    Keeps s s' ∧
      ((c.queueBlock = none ∨ c.bufBlock = none) ∧ r = .error .ENOENT ∨
      ∃ q b, c.queueBlock = some q ∧ c.bufBlock = some b ∧ r = .ok q ∧
        (PosixObj.POSIX_MQUEUE, q) ∉ s.live ∧ (PosixObj.POSIX_MQUEUE, q) ∈ s'.live ∧
        s'.obj q = createdObj P name oflag (attr.getD defAttr) b) := by
  simp only [mqOpen, Prog.eval_bind, mqCheckInit_eval hi, Option.bind_some, hv, ha,
    Bool.true_eq_false, if_false] at h
  obtain ⟨⟨u, s1⟩, hlock, h⟩ := Option.bind_eq_some_iff.mp h
  obtain ⟨m, rfl⟩ := muxLock_eval hlock
  have hf' : (s.withMux m).find name = none := hf
  simp only [mqFindLocked_eval, Option.bind_some, hf', if_pos hc] at h
  obtain ⟨hkeeps, hout⟩ := mqCreateLocked_spec h
  exact ⟨(keeps_withMux m).trans hkeeps, hout⟩

end Open

/-- The requests of the calls that leave the list and its bookkeeping alone. The view is the
list itself. -/
def quiet : Protocol MqOp MqAns (List Ptr) where
  safe _ e := match e with
    | .loadInited | .muxLock | .muxUnlock | .allq | .load _ | .tmrTicks | .mqPut .. | .mqGet .. =>
      True
    | _ => False
  after l e r l' := l' = l ∧ match e, r with
    | .loadInited, r => r = true
    | .allq, r => r = l
    | _, _ => True

theorem quiet_exec (s₀ : Registry T) (hi : s₀.inited = true) (e : MqOp) (s : Registry T)
    (r : MqAns e) (s' : Registry T) (hk : Keeps s₀ s) (he : quiet.safe s.allq e)
    (h : mqExec relock P t c e s = some (r, s')) :
    Keeps s₀ s' ∧ quiet.after s.allq e r s'.allq := by
  cases e with
  | loadInited =>
    cases h
    exact ⟨hk, rfl, hk.inited.trans hi⟩
  | muxLock =>
    obtain ⟨m, rfl⟩ := muxLock_some h
    exact ⟨hk.trans (keeps_withMux _), rfl, trivial⟩
  | muxUnlock =>
    cases h
    exact ⟨hk.trans (keeps_withMux _), rfl, trivial⟩
  | allq =>
    cases h
    exact ⟨hk, rfl, rfl⟩
  | load mq =>
    cases h
    exact ⟨hk, rfl, trivial⟩
  | tmrTicks =>
    cases h
    exact ⟨hk, rfl, trivial⟩
  | mqPut mq msg ticks =>
    obtain ⟨f, rfl⟩ := mqPut_some h
    exact ⟨hk.trans (keeps_modify fun _ => ⟨rfl, rfl, rfl⟩), rfl, trivial⟩
  | mqGet mq msg ticks =>
    obtain ⟨f, rfl⟩ := mqGet_some h
    exact ⟨hk.trans (keeps_modify fun _ => ⟨rfl, rfl, rfl⟩), rfl, trivial⟩
  | _ => exact he.elim

theorem keeps_of_quiet (hi : s.inited = true) {α : Type} {p : Prog MqOp MqAns α} {a : α}
    {post : α → Prop} (hp : p.Obeys quiet s.allq fun a _ => post a)
    (h : p.eval (mqExec relock P t c) s = some (a, s')) : Keeps s s' ∧ post a :=
  Prog.Obeys.eval (v := Registry.allq) (I := Keeps s)
    (fun e u r u' hk he => quiet_exec s hi e u r u' hk he) keeps_refl hp h

section Quiet
variable {mq : Ptr} {l : List Ptr}

theorem mqGetattr_quiet :
    (mqGetattr P mq).Obeys quiet l fun r _ => mq ∈ l → r ≠ .error .EBADF := by
  by_cases hq : mq ∈ l
  · simp [mqGetattr, mqCheckInit, mqExtractLocked, quiet, find_self, hq]
  · simp [mqGetattr, mqCheckInit, mqExtractLocked, quiet, find_self, hq]

theorem getTickTimeout_quiet (flags : OFlag) (timeout : Option Timespec) (ptimeout : ℕ) :
    (getTickTimeout P flags timeout ptimeout).Obeys quiet l
      fun r l' => l' = l ∧ r.1 ≠ .EBADF := by
  cases timeout with
  | none => simp [getTickTimeout]
  | some timeout =>
    simp only [getTickTimeout, quiet]
    by_cases hn : flags.O_NONBLOCK = true
    · simp [hn]
    · by_cases hv : validateTimespec timeout = false
      · simp [hn, hv]
      · simp [hn, hv]
        intro r
        split_ifs with hok
        · simp [hok]
        · simp

theorem mqFailure_quiet : (mqFailure mq).Obeys quiet l fun r _ => r ≠ .EBADF := by
  simp [mqFailure, quiet]
  intro obj
  split_ifs
  · simp
  · simp

theorem mqPrepare_quiet (msgPtr : Ptr) (badLen : ℕ → Bool) (abstime : Option Timespec) :
    (mqPrepare P mq msgPtr badLen abstime).Obeys quiet l
      fun r l' => l' = l ∧ (mq ∈ l → r.1 ≠ .EBADF) := by
  simp only [mqPrepare, mqExtractLocked, Prog.obeys_bind, Prog.obeys_request]
  refine ⟨trivial, fun _ l' h => ⟨trivial, fun found l'' h' => ?_⟩⟩
  obtain rfl : l' = l := h.1
  obtain ⟨rfl, rfl⟩ : l'' = l' ∧ found = l' := h'
  by_cases ha : msgPtr % 4 = 0
  · by_cases hq : mq ∈ found
    · simp [ha, hq, find_self]
      refine ⟨trivial, fun obj l h => ?_⟩
      obtain rfl : l = found := h.1
      by_cases hb : badLen obj.q.isz = true
      · simp [hb, quiet]
      · simp [hb]
        refine ⟨trivial, fun obj' l' h => ?_⟩
        obtain rfl : l' = l := h.1
        apply (getTickTimeout_quiet obj'.flags abstime 0).mono
        rintro r l'' ⟨rfl, hr⟩
        simp [quiet, hr]
    · simp [ha, hq, find_self, quiet]
  · simp [ha, quiet]

theorem mqTimedsend_quiet (msgPtr : Ptr) (msgLen : ℕ) (abstime : Option Timespec) :
    (mqTimedsend P mq msgPtr msgLen abstime).Obeys quiet l
      fun r _ => mq ∈ l → r ≠ .EBADF := by
  rw [mqTimedsend, Prog.obeys_bind]
  apply (mqPrepare_quiet msgPtr _ abstime).mono
  rintro ⟨ret, ticks⟩ l' ⟨rfl, hret⟩
  by_cases hok : ret = .ok
  · simp [hok, quiet]
    exact mqFailure_quiet.mono fun r _ hr _ => by simpa using hr
  · simp [hok]
    exact hret

theorem mqTimedreceive_quiet (msgPtr : Ptr) (msgLen : ℕ) (abstime : Option Timespec) :
    (mqTimedreceive P mq msgPtr msgLen abstime).Obeys quiet l
      fun r _ => mq ∈ l → r ≠ .error .EBADF := by
  rw [mqTimedreceive, Prog.obeys_bind]
  apply (mqPrepare_quiet msgPtr _ abstime).mono
  rintro ⟨ret, ticks⟩ l' ⟨rfl, hret⟩
  by_cases hok : ret = .ok
  · simp [hok, quiet]
    exact mqFailure_quiet.mono fun r _ hr _ => by simpa using hr
  · simp [hok]
    exact hret

end Quiet

end Calls

def emptyRegistry : Registry T := ⟨true, mutInit, [], fun _ => zeroQueue, ∅⟩

def nameQ : CString := ⟨[47, 113], by decide⟩

def someEnv : Env := ⟨none, none, 5, true⟩

end LibPosix.MqueueCalls
