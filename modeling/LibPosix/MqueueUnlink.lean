import LibPosix.MqueueCounting

/-! What `mq_unlink` leaves of a name. A queue without descriptors is taken from the list at
once; one that has some is only marked, and no lookup by name looks at the mark. -/
namespace LibPosix.MqueueUnlink
open Program Transition Kernel Mqueue MqueueCalls MqueueRegistry
variable {T : Type} [DecidableEq T]

structure Listed (r : Registry T) : Prop where
  inited : r.inited = true
  nodup : r.allq.Nodup
  live : ∀ q ∈ r.allq, (PosixObj.POSIX_MQUEUE, q) ∈ r.live

structure Distinct (r : Registry T) : Prop extends Listed r where
  range : ∀ q ∈ r.allq, (r.obj q).openCount < 65536
  names : ∀ p ∈ r.allq, ∀ q ∈ r.allq, (r.obj p).name = (r.obj q).name → p = q

/-- No call finds a queue of this name: opening and unlinking fail, and an exclusive `mq_open`
that gets its blocks returns one that was not in use. -/
structure Hidden (relock : Bool) (P : Platform) (name : CString) (w : World T) : Prop where
  find : ∀ t c, (mqFindLocked name).eval (mqExec relock P t c) w.reg = some (none, w.reg)
  opening : ∀ t c oflag attr res s, oflag.O_CREAT = false → validateAttr attr = true →
    (mqOpen P name oflag attr).eval (mqExec relock P t c) w.reg = some (res, s) →
      res = .error .ENOENT
  creating : ∀ t c oflag attr res s q b, oflag.O_CREAT = true → oflag.O_EXCL = true →
    validateAttr attr = true → c.queueBlock = some q → c.bufBlock = some b →
    (mqOpen P name oflag attr).eval (mqExec relock P t c) w.reg = some (res, s) →
      res = .ok q ∧ (PosixObj.POSIX_MQUEUE, q) ∉ w.reg.live
  unlinking : ∀ t c res s, (mqUnlink name).eval (mqExec relock P t c) w.reg = some (res, s) →
    res = .ENOENT

/-- A world, and how often `mq_close` has been called on one queue. -/
abbrev Watch (T : Type) := World T × ℕ

def recreates (name : CString) (w : World T) (a : Action T) : Bool :=
  creates w.reg a.env a.call && match a.call with
    | .mqOpen name' _ _ => name' = name
    | _ => false

/-- Any call, until an `mq_open` of the name creates a queue. -/
def watchStep (relock : Bool) (P : Platform) (name : CString) (mq : Ptr) (v : Watch T)
    (a : Action T) : Option (Watch T) :=
  if recreates name v.1 a = true then none
  else (mqStep relock P v.1 a).map fun w => (w, if a.call = .mqClose mq then v.2 + 1 else v.2)

def unlinkedWatch (name : CString) (w : World T) (s : Registry T) : Watch T :=
  ((w.noteUnlink name).settle s, 0)

/-- The descriptors that a queue had, `n` of them, keep working until they are closed. -/
def Works (mq : Ptr) (n : ℕ) (v : Watch T) : Prop := v.2 < n → mq ∈ v.1.reg.allq

section Missing
variable {relock : Bool} {P : Platform} {w w' : World T} {name : CString} {s : Registry T}
  {t : T} {c : Env}

theorem mqUnlink_missing (hi : s.inited = true) (hv : validateName name = true)
    (hf : s.find name = none) {res : Status} {s' : Registry T}
    (h : (mqUnlink name).eval (mqExec relock P t c) s = some (res, s')) : res = .ENOENT := by
  simp only [mqUnlink, Prog.eval_bind, mqCheckInit_eval hi, Option.bind_some, hv,
    Bool.true_eq_false, if_false] at h
  obtain ⟨⟨u, s₁⟩, hlock, h⟩ := Option.bind_eq_some_iff.mp h
  obtain ⟨m, rfl⟩ := muxLock_eval hlock
  have hf' : (s.withMux m).find name = none := hf
  simp only [mqFindLocked_eval, Option.bind_some, hf', Prog.eval_bind, Prog.eval_request,
    mqExec] at h
  cases h
  rfl

theorem mqUnlink_valid (hi : s.inited = true) {s' : Registry T}
    (h : (mqUnlink name).eval (mqExec relock P t c) s = some (.ok, s')) :
    validateName name = true := by
  by_contra hv
  have hv : validateName name = false := by simpa using hv
  simp [mqUnlink, Prog.eval_bind, mqCheckInit_eval hi, hv] at h

theorem hidden_of_missing (hi : w.reg.inited = true) (hv : validateName name = true)
    (hf : w.reg.find name = none) : Hidden relock P name w where
  find := by
    intro t c
    rw [mqFindLocked_eval, hf]
  opening := by
    intro t c oflag attr res s hc ha h
    obtain ⟨m, rfl, -⟩ := mqOpen_missing hi hv ha hf hc h
    rfl
  creating := by
    intro t c oflag attr res s q b hc hx ha hq hb h
    obtain ⟨-, ⟨hnone, -⟩ | ⟨q', b', hq', -, rfl, hfresh, -⟩⟩ := mqOpen_create hi hv ha hf hc h
    · simp [hq, hb] at hnone
    · obtain rfl : q = q' := Option.some.inj (hq.symm.trans hq')
      exact ⟨rfl, hfresh⟩
  unlinking := fun t c res s h => mqUnlink_missing hi hv hf h

end Missing

section Lists
variable {w w' : World T} {name : CString} {s : Registry T} {call : MqCall} {c : Env} {q : Ptr}
omit [DecidableEq T]

theorem effect_links (he : Effect w call c w') :
    KeepsLinks w.reg w'.reg ∨ ∃ mq, Removes mq w.reg w'.reg := by
  cases he with
  | quiet hk hopen hcreate hclose => exact .inl hk.links
  | opens hf hv hopen => exact .inl (keepsLinks_modify _ fun _ => rfl)
  | creates hk hcreate hfresh hlive hcount => exact .inl hk.links
  | @closes q c m hq =>
    cases hr : closeRemoves q w.reg with
    | true => exact .inr ⟨q, removes_closed m hr⟩
    | false =>
      rw [closed_stays hr]
      exact .inl (keepsLinks_modify m fun _ => rfl)
  | @unlinks name c q m hf =>
    by_cases hz : (w.reg.obj q).openCount = 0
    · exact .inr ⟨q, removes_unlinked m hz⟩
    · rw [unlinked_stays hz]
      exact .inl (keepsLinks_modify m fun _ => rfl)

theorem Listed.removes {mq : Ptr} (h : Listed w.reg) (hr : Removes mq w.reg s) : Listed s where
  inited := hr.inited.trans h.inited
  nodup := hr.allq ▸ h.nodup.erase mq
  live := by
    intro q hq
    rw [hr.allq] at hq
    obtain ⟨hne, hmem⟩ := h.nodup.mem_erase_iff.mp hq
    exact (hr.live q).mpr ⟨hne, h.live q hmem⟩

theorem Listed.effect (h : Listed w.reg) (he : Effect w call c w') : Listed w'.reg := by
  rcases effect_links he with hk | ⟨mq, hr⟩
  · exact ⟨hk.inited.trans h.inited, hk.allq ▸ h.nodup,
      fun q hq => hk.live (h.live q (hk.allq ▸ hq))⟩
  · exact h.removes hr

/-- A name that nothing on the list has comes back by no call: even a created queue is not put
on the list. -/
theorem missing_effect (h : Listed w.reg) (hf : w.reg.find name = none)
    (he : Effect w call c w') : w'.reg.find name = none := by
  rcases effect_links he with hk | ⟨mq, hr⟩
  · rw [find_links h.live hk name, hf]
  · refine List.find?_eq_none.mpr fun p hp => ?_
    rw [hr.allq] at hp
    obtain ⟨hne, hmem⟩ := h.nodup.mem_erase_iff.mp hp
    rw [hr.obj p hne]
    exact List.find?_eq_none.mp hf p hmem

theorem Distinct.missing (h : Distinct w.reg) (hq : w.reg.find name = some q)
    (hr : Removes q w.reg s) : s.find name = none := by
  have hname : name = (w.reg.obj q).name := by simpa using List.find?_some hq
  refine List.find?_eq_none.mpr fun p hp => ?_
  rw [hr.allq] at hp
  obtain ⟨hne, hmem⟩ := h.nodup.mem_erase_iff.mp hp
  rw [hr.obj p hne]
  have hother : name ≠ (w.reg.obj p).name := by
    intro heq
    exact hne (h.names p hmem q (find_mem hq) (heq.symm.trans hname))
  simpa using hother

end Lists

section Watching
variable {relock : Bool} {P : Platform} {w : World T} {v v' : Watch T} {name : CString}
  {s : Registry T} {t : T} {c : Env} {mq : Ptr} {n : ℕ} {a : Action T}

theorem watchStep_some (h : watchStep relock P name mq v a = some v') :
    mqStep relock P v.1 a = some v'.1 ∧
      v'.2 = if a.call = .mqClose mq then v.2 + 1 else v.2 := by
  unfold watchStep at h
  by_cases hr : recreates name v.1 a = true
  · simp [hr] at h
  · rw [if_neg hr] at h
    obtain ⟨w, hw, rfl⟩ := Option.map_eq_some_iff.mp h
    exact ⟨hw, rfl⟩

/-- After `k` closes the queue is on the list with a count that makes up for the rest of its
`n` descriptors. -/
structure Retained (mq : Ptr) (n k : ℕ) (r : Registry T) : Prop where
  mem : mq ∈ r.allq
  count : n ≤ (r.obj mq).openCount + k
  range : (r.obj mq).openCount < 65536

omit [DecidableEq T] in
theorem Retained.congr {r r' : Registry T} {k k' : ℕ} (h : Retained mq n k r) (hq : mq ∈ r'.allq)
    (hc : (r'.obj mq).openCount = (r.obj mq).openCount) (hk : k ≤ k') : Retained mq n k' r' := by
  refine ⟨hq, ?_, hc ▸ h.range⟩
  have hcount := h.count
  omega

omit [DecidableEq T] in
theorem Retained.keeps {r r' : Registry T} {k k' : ℕ} (h : Retained mq n k r) (hl : Listed r)
    (hkeep : Keeps r r') (hk : k ≤ k') : Retained mq n k' r' :=
  h.congr (hkeep.allq ▸ h.mem) (hkeep.book mq (hl.live mq h.mem)).2.1 hk

omit [DecidableEq T] in
theorem Retained.modify_other {r : Registry T} {k : ℕ} (h : Retained mq n k r) {q : Ptr}
    (hne : mq ≠ q) (f : MqdInternal → MqdInternal) (m : Mut T) :
    Retained mq n k ((r.modify q f).withMux m) :=
  h.congr h.mem (by simp [Registry.modify, Function.update_of_ne hne]) le_rfl

omit [DecidableEq T] in
theorem Retained.removes_other {r r' : Registry T} {k : ℕ} (h : Retained mq n k r) (hl : Listed r)
    {q : Ptr} (hne : mq ≠ q) (hr : Removes q r r') : Retained mq n k r' :=
  h.congr (hr.allq ▸ hl.nodup.mem_erase_iff.mpr ⟨hne, h.mem⟩) (by rw [hr.obj mq hne]) le_rfl

omit [DecidableEq T] in
theorem Retained.effect {w w' : World T} {call : MqCall} {k : ℕ} (h : Retained mq n k w.reg)
    (hl : Listed w.reg) (hw : MqueueCounting.wraps w.reg call = false)
    (he : Effect w call c w') :
    n ≤ (if call = .mqClose mq then k + 1 else k) ∨
      Retained mq n (if call = .mqClose mq then k + 1 else k) w'.reg := by
  have hcount := h.count
  have hrange := h.range
  cases he with
  | quiet hk hopen hcreate hclose =>
    refine .inr (h.keeps hl hk ?_)
    split_ifs
    · exact Nat.le_succ k
    · exact le_rfl
  | creates hk hcreate hfresh hlive hc => exact .inr (h.keeps hl hk le_rfl)
  | @opens name oflag attr c q m hf hv hopen =>
    by_cases hq : mq = q
    · subst hq
      have hmax : (w.reg.obj mq).openCount ≠ 65535 := by
        simpa [MqueueCounting.wraps, hopen] using hw
      have hnext : (((opened mq w.reg).withMux m).obj mq).openCount =
          (w.reg.obj mq).openCount + 1 := by
        have hval := MachineInt.unsigned_of_nonneg (w := 16)
          (x := (((w.reg.obj mq).openCount : ℕ) : ℤ) + 1) (by omega) (by omega)
        simp only [opened, Registry.withMux_obj, modify_obj_self]
        omega
      refine .inr ⟨h.mem, ?_, ?_⟩
      · change n ≤ (((opened mq w.reg).withMux m).obj mq).openCount + k
        omega
      · change (((opened mq w.reg).withMux m).obj mq).openCount < 65536
        omega
    · exact .inr (h.modify_other hq _ m)
  | @closes q c m hmem =>
    by_cases hq : mq = q
    · subst hq
      -- one of the closes that are counted; a removal leaves no descriptor of the `n`
      rw [if_pos rfl]
      cases hr : closeRemoves mq w.reg with
      | true =>
        have hle : (w.reg.obj mq).openCount ≤ 1 := by
          simp only [closeRemoves, Bool.and_eq_true, decide_eq_true_eq] at hr
          exact hr.1
        exact .inl (by omega)
      | false =>
        have hobj : (((closed mq w.reg).withMux m).obj mq).openCount =
            (w.reg.obj mq).openCount - 1 := by
          rw [closed_stays hr]
          simp [closedObj]
        refine .inr ⟨?_, ?_, ?_⟩
        · rw [closed_stays hr]
          exact h.mem
        · change n ≤ (((closed mq w.reg).withMux m).obj mq).openCount + (k + 1)
          omega
        · change (((closed mq w.reg).withMux m).obj mq).openCount < 65536
          omega
    · have hcall : MqCall.mqClose q ≠ .mqClose mq := by simpa using Ne.symm hq
      rw [if_neg hcall]
      cases hr : closeRemoves q w.reg with
      | true => exact .inr (h.removes_other hl hq (removes_closed m hr))
      | false =>
        rw [closed_stays hr]
        exact .inr (h.modify_other hq closedObj m)
  | @unlinks name c q m hf =>
    by_cases hq : mq = q
    · subst hq
      by_cases hz : (w.reg.obj mq).openCount = 0
      · exact .inl (by simpa [hz] using hcount)
      · rw [unlinked_stays hz]
        exact .inr (h.congr h.mem (by simp [World.settle]) le_rfl)
    · by_cases hz : (w.reg.obj q).openCount = 0
      · exact .inr (h.removes_other hl hq (removes_unlinked m hz))
      · rw [unlinked_stays hz]
        exact .inr (h.modify_other hq _ m)

/-- The descriptors that a queue had when it was unlinked keep working until they are closed, if
no count overflows. -/
theorem works_throughout (h : n ≤ 0 ∨ Retained mq n 0 s) (hl : Listed s) {as : List (Action T)}
    (hok : Meets (watchStep relock P name mq)
      (fun v a => MqueueCounting.wraps v.1.reg a.call = false) (unlinkedWatch name w s) as) :
    Throughout (watchStep relock P name mq) (Works mq n) (unlinkedWatch name w s) as := by
  have hstep (v : Watch T) (a : Action T) (v' : Watch T)
      (hv : Listed v.1.reg ∧ (n ≤ v.2 ∨ Retained mq n v.2 v.1.reg))
      (hw : MqueueCounting.wraps v.1.reg a.call = false)
      (hs : watchStep relock P name mq v a = some v') :
      Listed v'.1.reg ∧ (n ≤ v'.2 ∨ Retained mq n v'.2 v'.1.reg) := by
    obtain ⟨hm, hk⟩ := watchStep_some hs
    have he := mqStep_effect hv.1.inited hm
    refine ⟨hv.1.effect he, ?_⟩
    rcases hv.2 with hle | hr
    · left
      rw [hk]
      split_ifs
      · exact hle.trans (Nat.le_succ _)
      · exact hle
    · rw [hk]
      exact hr.effect hv.1 hw he
  refine throughout_of_invariant hstep (fun v hv hlt => ?_) ⟨hl, h⟩ hok
  rcases hv.2 with hle | hr
  · omega
  · exact hr.mem

/-- Once nothing has the name, no call brings it back. There were no descriptors. -/
theorem hidden_throughout (hv : validateName name = true) (hl : Listed s)
    (hf : s.find name = none) (as : List (Action T)) :
    Throughout (watchStep relock P name mq) (fun v => Hidden relock P name v.1 ∧ Works mq 0 v)
      (unlinkedWatch name w s) as := by
  have hstep (v : Watch T) (a : Action T) (v' : Watch T)
      (h : Listed v.1.reg ∧ v.1.reg.find name = none)
      (hs : watchStep relock P name mq v a = some v') :
      Listed v'.1.reg ∧ v'.1.reg.find name = none := by
    have he := mqStep_effect h.1.inited (watchStep_some hs).1
    exact ⟨h.1.effect he, missing_effect h.1 h.2 he⟩
  have hshown (v : Watch T) (h : Listed v.1.reg ∧ v.1.reg.find name = none) :
      Hidden relock P name v.1 ∧ Works mq 0 v :=
    ⟨hidden_of_missing h.1.inited hv h.2, fun hlt => absurd hlt (Nat.not_lt_zero _)⟩
  exact throughout_always hstep hshown ⟨hl, hf⟩

omit [DecidableEq T] in
/-- What `mq_unlink` leaves: without descriptors the name is gone, and otherwise the queue is
where it was, with its count. -/
theorem unlinked_cases (h : Distinct w.reg) (hq : w.reg.find name = some mq) (m : Mut T) :
    Listed ((unlinked mq w.reg).withMux m) ∧
      ((w.reg.obj mq).openCount = 0 ∧ ((unlinked mq w.reg).withMux m).find name = none ∨
      ((unlinked mq w.reg).withMux m).find name = some mq ∧
        Retained mq (w.reg.obj mq).openCount 0 ((unlinked mq w.reg).withMux m)) := by
  have hmem := find_mem hq
  by_cases hz : (w.reg.obj mq).openCount = 0
  · have hr := removes_unlinked m hz
    exact ⟨h.toListed.removes hr, .inl ⟨hz, h.missing hq hr⟩⟩
  · rw [unlinked_stays hz]
    have hk : KeepsLinks w.reg
        ((w.reg.modify mq fun o => { o with pendingUnlink := true }).withMux m) :=
      keepsLinks_modify m fun _ => rfl
    refine ⟨⟨h.inited, h.nodup, h.live⟩, .inr ⟨(find_links h.live hk name).trans hq, hmem, ?_, ?_⟩⟩
    · simp
    · simpa using h.range mq hmem

/-- After `mq_unlink` has returned 0, and until an `mq_open` of the name creates a queue, the name
is hidden and the descriptors work exactly if the queue had no descriptors. Those that it had
keep working in any case, unless a count overflows. -/
theorem mqUnlink_hides_iff (h : Distinct w.reg) {q : Ptr} (hq : w.reg.find name = some q)
    (hu : (mqUnlink name).eval (mqExec relock P t c) w.reg = some (.ok, s))
    (as : List (Action T)) :
    (Throughout (watchStep relock P name q)
        (fun v => Hidden relock P name v.1 ∧ Works q (w.reg.obj q).openCount v)
        (unlinkedWatch name w s) as ↔ (w.reg.obj q).openCount = 0) ∧
      (Meets (watchStep relock P name q)
          (fun v a => MqueueCounting.wraps v.1.reg a.call = false) (unlinkedWatch name w s) as →
        Throughout (watchStep relock P name q) (Works q (w.reg.obj q).openCount)
          (unlinkedWatch name w s) as) := by
  have hvalid := mqUnlink_valid h.inited hu
  obtain ⟨hne, -⟩ | ⟨m, q', -, hq', rfl⟩ := mqUnlink_spec h.inited hu
  · exact absurd rfl hne
  obtain rfl : q = q' := Option.some.inj (hq.symm.trans hq')
  obtain ⟨hl, ⟨hz, hf⟩ | ⟨hf, hr⟩⟩ := unlinked_cases h hq m
  · rw [hz]
    exact ⟨iff_of_true (hidden_throughout hvalid hl hf as) rfl, works_throughout (.inl le_rfl) hl⟩
  · refine ⟨⟨fun ht => ?_, fun hz => ?_⟩, works_throughout (.inr hr) hl⟩
    · have hgone := ht.first.1.find t c
      rw [mqFindLocked_eval] at hgone
      have hstill : (unlinkedWatch name w ((unlinked q w.reg).withMux m)).1.reg.find name =
        some q := hf
      simp [hstill] at hgone
    · have hr' := removes_unlinked m hz
      rw [h.missing hq hr'] at hf
      cases hf

end Watching

section Runs

def namedWorld (n : ℕ) : World Unit where
  reg := ⟨true, mutInit, [1], fun _ => { zeroQueue with buf := 2, name := nameQ, openCount := n },
    {(.POSIX_MQUEUE, 1), (.POSIX_MQUEUE_BUF, 2)}⟩
  opened := {1}
  named := {(nameQ, 1)}
  balance q := if q = 1 then n else 0

theorem namedWorld_distinct {n : ℕ} (hn : n < 65536) : Distinct (namedWorld n).reg where
  inited := rfl
  nodup := by simp [namedWorld]
  live := by simp [namedWorld]
  range := by simpa [namedWorld] using hn
  names := by
    intro p hp q hq _
    obtain rfl : p = 1 := by simpa [namedWorld] using hp
    simpa [namedWorld, eq_comm] using hq

/-- A queue without descriptors is unlinked; then its name is opened and unlinked again. -/
theorem mqUnlink_hides_closed : ∃ s,
    (mqUnlink nameQ).eval (mqExec true platform1000 () closeQ.env) (namedWorld 0).reg =
      some (.ok, s) ∧
    Throughout (watchStep true platform1000 nameQ 1)
      (fun v => Hidden true platform1000 nameQ v.1 ∧ Works 1 0 v)
      (unlinkedWatch nameQ (namedWorld 0) s)
      [openQ plainOpen, ⟨(), .mqUnlink nameQ, closeQ.env⟩] := by
  have hok : ((mqUnlink nameQ).eval (mqExec true platform1000 () closeQ.env)
      (namedWorld 0).reg).map Prod.fst = some .ok := by
    decide +kernel
  obtain ⟨⟨res, s⟩, hu, hres⟩ := Option.map_eq_some_iff.mp hok
  obtain rfl : res = .ok := hres
  exact ⟨s, hu, (mqUnlink_hides_iff (namedWorld_distinct (by decide)) (by decide) hu _).1.mpr rfl⟩

/-- With one descriptor, `mq_unlink` returns 0 and `mq_open` of the name still returns the
queue. -/
theorem mqUnlink_leaves_name :
    Distinct (namedWorld 1).reg ∧ ∃ s,
      (mqUnlink nameQ).eval (mqExec true platform1000 () closeQ.env) (namedWorld 1).reg =
        some (.ok, s) ∧
      ((mqOpen platform1000 nameQ plainOpen none).eval (mqExec true platform1000 () closeQ.env)
        s).map Prod.fst = some (.ok 1) ∧
      ¬ Throughout (watchStep true platform1000 nameQ 1)
        (fun v => Hidden true platform1000 nameQ v.1 ∧ Works 1 1 v)
        (unlinkedWatch nameQ (namedWorld 1) s) [] := by
  have hout : (((mqUnlink nameQ).eval (mqExec true platform1000 () closeQ.env)
      (namedWorld 1).reg).map fun r => (r.1, ((mqOpen platform1000 nameQ plainOpen none).eval
        (mqExec true platform1000 () closeQ.env) r.2).map Prod.fst)) =
          some (.ok, some (.ok 1)) := by
    decide +kernel
  obtain ⟨⟨res, s⟩, hu, hr⟩ := Option.map_eq_some_iff.mp hout
  obtain ⟨rfl, hopen⟩ := Prod.mk.inj hr
  refine ⟨namedWorld_distinct (by decide), s, hu, hopen, fun ht => ?_⟩
  obtain ⟨⟨res, s'⟩, hs', hres⟩ := Option.map_eq_some_iff.mp hopen
  have hgone := ht.first.1.opening () closeQ.env plainOpen none res s' rfl rfl hs'
  rw [hgone] at hres
  cases hres

end Runs

end LibPosix.MqueueUnlink
