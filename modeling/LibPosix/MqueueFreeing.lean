import LibPosix.MqueueCustody

/-! Freeing message queues. Both `mq_close` and `mq_unlink` take a queue from the list under the
lock and free it after they have given the lock back. -/
namespace LibPosix.MqueueFreeing
open Program ThreadPool Transition Kernel Mqueue MqueueCalls MqueueCustody
open MqueueRegistry (MqCall MqRes plainOpen)
variable {T : Type} [DecidableEq T]

/-- Closing any descriptor, unlinking and opening any name, but no call that creates a queue or
transfers messages. -/
def nonCreating (_s : Custody T) (_t : T) : MqCall → Bool
  | .mqClose _ => true
  | .mqUnlink _ => true
  | .mqGetattr _ => true
  | .mqOpen _ oflag _ => !oflag.O_CREAT
  | _ => false

def idleCustody (r : Registry T) (descs : List (T × Ptr)) : Custody T :=
  ⟨r, fun _ => none, descs, fun _ => none, fun _ => none, []⟩

/-- What is freed was on the list, has been taken off it and is freed once; this counts the
queues that a thread has taken off to free them. -/
structure FreedOnce (origin : List Ptr) (s : Custody T) : Prop where
  once : s.freed.Nodup
  unlinked : ∀ q ∈ s.freed, q ∈ origin ∧ q ∉ s.reg.allq
  pending : ∀ t q, s.doomed t = some q → q ∈ origin ∧ q ∉ s.reg.allq ∧ q ∉ s.freed
  alone : ∀ t u q, s.doomed t = some q → s.doomed u = some q → t = u

def addressed (r : Registry T) : MqCall → Option Ptr
  | .mqOpen name .. => r.find name
  | .mqUnlink name => r.find name
  | k => k.queue

/-- The queue addressed by the call that takes a step. -/
def target (p : Pool T MqOp MqAns (Custody T) MqCall MqRes) : Action T Env MqCall → Option Ptr
  | .run t _ => (p.thread t).bind fun x => addressed p.shared.reg x.1
  | _ => none

/-- Nothing is put on the list. Except for one queue, the list is the same and in the same
order, with the same names, flags and counts. -/
structure KeepsOthers (target : Option Ptr) (r r' : Registry T) : Prop where
  sub : r'.allq ⊆ r.allq
  allq : (r'.allq.filter fun q => target ≠ some q) = r.allq.filter fun q => target ≠ some q
  obj : ∀ q ∈ r.allq, target ≠ some q → (r'.obj q).name = (r.obj q).name ∧
    (r'.obj q).flags = (r.obj q).flags ∧ (r'.obj q).openCount = (r.obj q).openCount

def writes : MqOp → Option Ptr
  | .storeOpenCount mq _ => some mq
  | .lleDel mq => some mq
  | _ => none

section Frame
variable {cr : Prop} {origin : List Ptr} {s s' : Custody T} {t : T} {mq : Ptr} {r r' : Registry T}
  {x y : Option Ptr}

omit [DecidableEq T] in
theorem KeepsOthers.of_obj (hq : r'.allq = r.allq) (ho : r'.obj = r.obj) : KeepsOthers x r r' :=
  ⟨hq ▸ List.Subset.refl _, by rw [hq], fun q _ _ => by rw [ho]; exact ⟨rfl, rfl, rfl⟩⟩

omit [DecidableEq T] in
theorem KeepsOthers.of_modify {f : MqdInternal → MqdInternal}
    (h : ∀ q ∈ r.allq, x ≠ some q → q = mq → (f (r.obj q)).name = (r.obj q).name ∧
      (f (r.obj q)).flags = (r.obj q).flags ∧ (f (r.obj q)).openCount = (r.obj q).openCount) :
    KeepsOthers x r (r.modify mq f) := by
  refine ⟨List.Subset.refl _, rfl, fun q hq hx => ?_⟩
  by_cases hqm : q = mq
  · subst hqm
    simpa using h q hq hx rfl
  · simp [Registry.modify, Function.update_of_ne hqm]

omit [DecidableEq T] in
theorem KeepsOthers.of_unlink : KeepsOthers (some mq) r (r.unlink mq) := by
  refine ⟨List.erase_subset, ?_, fun q _ _ => ⟨rfl, rfl, rfl⟩⟩
  have herase (l : List Ptr) : (l.erase mq).filter (fun q => some mq ≠ some q) =
      l.filter fun q => some mq ≠ some q := by
    induction l with
    | nil => rfl
    | cons a l ih =>
      by_cases ha : a = mq
      · simp [ha]
      · rw [List.erase_cons_tail (by simpa using ha)]
        simp only [List.filter_cons, ih]
  exact herase r.allq

omit [DecidableEq T] in
theorem KeepsOthers.mono (h : KeepsOthers x r r') (hxy : ∀ q ∈ r.allq, x = some q → y = some q) :
    KeepsOthers y r r' := by
  have hne (q : Ptr) (hq : q ∈ r.allq) (hy : y ≠ some q) : x ≠ some q := fun hx => hy (hxy q hq hx)
  have hfilter (l : List Ptr) (hl : l ⊆ r.allq) :
      (l.filter fun q => y ≠ some q) =
        (l.filter fun q => x ≠ some q).filter fun q => y ≠ some q := by
    rw [List.filter_filter]
    refine List.filter_congr fun q hq => ?_
    by_cases hy : y = some q
    · simp [hy]
    · simp [hy, hne q (hl hq) hy]
  refine ⟨h.sub, ?_, fun q hq hy => h.obj q hq (hne q hq hy)⟩
  rw [hfilter _ h.sub, hfilter _ (List.Subset.refl _), h.allq]

/-- One request changes nothing about the queues that it does not write to. -/
theorem custodyExec_frame (h : Kept cr origin s) {relock : Bool} {P : Platform} {c : Env}
    {e : MqOp} {a : MqAns e} (hsafe : (custody cr).safe (localOf s t) e)
    (hs : custodyExec relock P t e c s = some (a, s')) :
    KeepsOthers (writes e) s.reg s'.reg := by
  obtain ⟨r, hr, rfl⟩ := custodyExec_some hs
  rw [Custody.withReg_reg]
  have hbuilt {mq q : Ptr} (hb : Builds (localOf s t) mq) (hq : q ∈ s.reg.allq) : q ≠ mq := by
    rintro rfl
    exact h.fresh t q hb.2 hq
  cases e with
  | llInit => exact hsafe.elim
  | mutInit => exact hsafe.elim
  | storeInited => exact hsafe.elim
  | muxLock =>
    obtain ⟨m, rfl⟩ := muxLock_some hr
    exact .of_obj rfl rfl
  | allocQueue =>
    obtain ⟨-, -, -, hq, ho, -⟩ := allocate_fresh h hsafe.1 hr
    exact .of_obj hq ho
  | allocBuf sz =>
    obtain ⟨live, -, rfl⟩ := allocate_grows hr
    exact .of_obj rfl rfl
  | storeOpenCount mq n =>
    cases hr
    exact .of_modify fun q _ hx hq => absurd (congrArg some hq.symm) hx
  | lleDel mq =>
    cases hr
    exact .of_unlink
  | clearQueue mq =>
    cases hr
    exact .of_modify fun q hq _ heq => absurd heq (hbuilt hsafe hq)
  | storeName mq name =>
    cases hr
    exact .of_modify fun q hq _ heq => absurd heq (hbuilt hsafe hq)
  | storeFlags mq flags =>
    cases hr
    exact .of_modify fun q hq _ heq => absurd heq (hbuilt hsafe hq)
  | storePendingUnlink mq =>
    cases hr
    exact .of_modify fun _ _ _ _ => ⟨rfl, rfl, rfl⟩
  | storeBuf mq buf =>
    cases hr
    exact .of_modify fun _ _ _ _ => ⟨rfl, rfl, rfl⟩
  | mqInit mq isz buf sz =>
    cases hr
    exact .of_modify fun _ _ _ _ => ⟨rfl, rfl, rfl⟩
  | mqPut mq msg ticks =>
    obtain ⟨f, rfl⟩ := mqPut_some hr
    exact .of_modify fun _ _ _ _ => ⟨rfl, rfl, rfl⟩
  | mqGet mq msg ticks =>
    obtain ⟨f, rfl⟩ := mqGet_some hr
    exact .of_modify fun _ _ _ _ => ⟨rfl, rfl, rfl⟩
  | _ =>
    cases hr
    exact .of_obj rfl rfl

theorem addressed_of_addresses {b : Book} {k : MqCall} (h : Addresses (localOf s t) b k mq) :
    addressed s.reg k = some mq := by
  obtain ⟨hb, -, ht⟩ := h
  obtain rfl := (localOf_book hb).2
  rw [← ht]
  cases k <;> rfl

theorem writes_addressed (h : Kept cr origin s) {e : MqOp} {k : MqCall} (hk : s.call t = some k)
    (hsafe : (custody cr).safe (localOf s t) e) {q : Ptr} (hq : q ∈ s.reg.allq)
    (hw : writes e = some q) : addressed s.reg k = some q := by
  have hcall {b : Book} {k' : MqCall} (ha : Addresses (localOf s t) b k' q) :
      addressed s.reg k = some q := by
    obtain rfl : k = k' := Option.some.inj (hk.symm.trans ha.2.1)
    exact addressed_of_addresses ha
  cases e with
  | storeOpenCount mq n =>
    cases hw
    rcases hsafe with ⟨b, k', ha, -⟩ | ⟨hb, -⟩
    · exact hcall ha
    · exact absurd hq (h.fresh t q hb.2)
  | lleDel mq =>
    cases hw
    obtain ⟨b, k', ha, -⟩ := hsafe
    exact hcall ha
  | _ => cases hw

end Frame

section Freeing
variable {origin : List Ptr} {s : Custody T}

omit [DecidableEq T] in
theorem kept_freedOnce {cr : Prop} (h : Kept cr origin s) : FreedOnce origin s :=
  ⟨h.once, h.freed, h.doomed, h.alone⟩

omit [DecidableEq T] in
theorem idleCustody_kept {cr : Prop} {r : Registry T} (hi : r.inited = true) (hm : r.mux.Valid)
    (hn : r.allq.Nodup) (hl : cr → ∀ q ∈ r.allq, (PosixObj.POSIX_MQUEUE, q) ∈ r.live)
    (descs : List (T × Ptr)) : Kept cr r.allq (idleCustody r descs) :=
  ⟨hi, hm, hn, fun _ hq => hq, List.nodup_nil, nofun, nofun, nofun, nofun, hl⟩

/-- Whatever threads close, unlink and open, in any order and with any descriptors: a queue is
freed once, after it has been taken from the list, and a step changes nothing about the queues
that its call does not address. -/
theorem mqueue_freedOnce (relock : Bool) (P : Platform) (r : Registry T) (hi : r.inited = true)
    (hm : r.mux.Valid) (hn : r.allq.Nodup) (as : List (Action T Env MqCall))
    (p : Pool T MqOp MqAns (Custody T) MqCall MqRes)
    (hrun : execute (step (mqThreads relock P nonCreating)) (idlePool (idleCustody r [])) as =
      some p) :
    FreedOnce r.allq p.shared ∧
      ∀ a p', step (mqThreads relock P nonCreating) p a = some p' →
        KeepsOthers (target p a) p.shared.reg p'.shared.reg := by
  have hcreate (s : Custody T) (t : T) (k : MqCall) (ha : nonCreating s t k = true)
      (hk : mayCreate k = true) : False := by
    cases k with
    | mqOpen name oflag attr =>
      have hc : oflag.O_CREAT = true := hk
      simp [nonCreating, hc] at ha
    | _ => simp [mayCreate] at hk
  have hstart : (custodyDiscipline relock P r.allq hcreate).Inv (idlePool (idleCustody r [])) :=
    Discipline.idle_inv _ (idleCustody_kept hi hm hn (fun hf => hf.elim) []) fun _ => rfl
  have hinv := hstart.execute_all (fun _ _ _ _ => trivial) hrun
  have htracked : Tracked p :=
    execute_always (fun _ _ _ hq hs => hq.step hs) (idle_tracked _) hrun
  refine ⟨kept_freedOnce hinv.shared, fun a p' hstep => ?_⟩
  cases a with
  | enter t k =>
    obtain ⟨-, s, hs, rfl⟩ := step_enter.mp hstep
    obtain ⟨-, rfl⟩ := enter_admits hs
    exact .of_obj rfl rfl
  | leave t =>
    obtain ⟨k, v, -, rfl⟩ := step_leave.mp hstep
    exact .of_obj rfl rfl
  | run t c =>
    obtain ⟨k, e, f, ht, a, s, hs, rfl⟩ := step_run.mp hstep
    have hobeys := hinv.threads t
    rw [ht] at hobeys
    refine (custodyExec_frame hinv.shared hobeys.1 hs).mono fun q hq hw => ?_
    simp only [target, ht, Option.bind_some]
    exact writes_addressed hinv.shared (htracked t k _ ht) hobeys.1 hq hw

end Freeing

section Runs

def markedRegistry : Registry Bool where
  inited := true
  mux := mutInit
  allq := [1]
  obj _ := { zeroQueue with buf := 2, name := nameQ, openCount := 1, pendingUnlink := true }
  live := {(.POSIX_MQUEUE, 1), (.POSIX_MQUEUE_BUF, 2)}

/-- Two threads close the same descriptor; the second one finds it stale while the first one
has yet to free the queue. -/
def closeTwice : List (Action Bool Env MqCall) :=
  [.enter false (.mqClose 1), .enter true (.mqClose 1)] ++
    List.replicate 9 (.run false someEnv) ++ List.replicate 4 (.run true someEnv) ++
      [.leave true, .run false someEnv, .run false someEnv, .leave false]

theorem mqueue_freedOnce_closeTwice : ∃ p,
    execute (step (mqThreads true platform1000 nonCreating))
      (idlePool (idleCustody markedRegistry [])) closeTwice = some p ∧
    p.shared.freed = [1] ∧ FreedOnce [1] p.shared := by
  have hfreed : ((execute (step (mqThreads true platform1000 nonCreating))
      (idlePool (idleCustody markedRegistry [])) closeTwice).map fun p => p.shared.freed) =
        some [1] := by
    decide +kernel
  obtain ⟨p, hrun, hp⟩ := Option.map_eq_some_iff.mp hfreed
  exact ⟨p, hrun, hp, (mqueue_freedOnce true platform1000 markedRegistry rfl mutInit_valid
    (by decide) closeTwice p hrun).1⟩

end Runs

end LibPosix.MqueueFreeing
