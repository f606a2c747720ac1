import LibPosix.MqueueRegistry

/-! The descriptor count of a queue: what it has to do with the calls that returned, and
what it means for the life of the queue. -/
namespace LibPosix.MqueueCounting
open Program Transition TimeUtils Kernel MachineInt Mqueue MqueueCalls MqueueRegistry
variable {T : Type} [DecidableEq T]

/-- The count of a queue is the number of its descriptors. -/
def Counts (w : World T) : Prop :=
  ∀ q ∈ w.opened, ((w.reg.obj q).openCount : ℤ) = w.balance q

def wraps (s : Registry T) (call : MqCall) : Bool :=
  match reopens s call with
  | some q => (s.obj q).openCount = 65535
  | none => false

/-- The queue has `n` descriptors, and if it has none left it is marked. -/
structure Exact (o : MqdInternal) (n : ℤ) : Prop where
  count : (o.openCount : ℤ) = n
  range : o.openCount < 65536
  marked : o.openCount = 0 → o.pendingUnlink = true

structure Counted (w : World T) : Prop where
  sound : Sound w
  book : ∀ q ∈ w.reg.allq, Exact (w.reg.obj q) (w.balance q)
  dead : ∀ q, (PosixObj.POSIX_MQUEUE, q) ∉ w.reg.live → w.balance q = 0

section Book
variable {o : MqdInternal} {n : ℤ}

theorem Exact.congr {o' : MqdInternal} (h : Exact o n) (hc : o'.openCount = o.openCount)
    (hp : o'.pendingUnlink = o.pendingUnlink) : Exact o' n :=
  ⟨hc ▸ h.count, hc ▸ h.range, fun hz => hp.trans (h.marked (hc ▸ hz))⟩

theorem Exact.reopened (h : Exact o n) (hc : o.openCount ≠ 65535) :
    Exact { o with openCount := unsigned 16 (o.openCount + 1) } (n + 1) := by
  have hn := h.count
  have hr := h.range
  have hu : unsigned 16 (o.openCount + 1) = o.openCount + 1 := by
    rw [unsigned_of_nonneg (by omega) (by omega)]
    omega
  refine ⟨?_, ?_, fun hz => ?_⟩
  · simp only [hu]
    omega
  · simp only [hu]
    omega
  · simp only [hu] at hz
    omega

theorem Exact.closed (h : Exact o n) (hc : (o.openCount ≤ 1 && o.pendingUnlink) = false) :
    Exact (closedObj o) (n - 1) := by
  have hpos : 1 ≤ o.openCount := by
    by_contra hz
    have hz' : o.openCount = 0 := by omega
    simp [hz', h.marked hz'] at hc
  have hn := h.count
  have hr := h.range
  refine ⟨?_, ?_, fun hz => ?_⟩
  · simp only [closedObj]
    omega
  · simp only [closedObj]
    omega
  · simp only [closedObj] at hz
    have hle : o.openCount ≤ 1 := by omega
    simp [closedObj, hle]

theorem Exact.unlinked (h : Exact o n) : Exact { o with pendingUnlink := true } n :=
  ⟨h.count, h.range, fun _ => rfl⟩

end Book

section Settle
variable {w : World T} {s : Registry T} {mq : Ptr}
omit [DecidableEq T]

theorem settle_balance {q : Ptr} (h : (PosixObj.POSIX_MQUEUE, q) ∈ s.live) :
    (w.settle s).balance q = w.balance q := if_pos h

theorem settle_dead {q : Ptr} (h : (PosixObj.POSIX_MQUEUE, q) ∉ s.live) :
    (w.settle s).balance q = 0 := if_neg h

theorem Counted.settle_keeps (h : Counted w) (hk : Keeps w.reg s) : Counted (w.settle s) where
  sound := h.sound.settle_links hk.links
  book := by
    intro q hq
    have hq' : q ∈ w.reg.allq := hk.allq ▸ hq
    have hlive := h.sound.live q hq'
    obtain ⟨-, hcount, hmark⟩ := hk.book q hlive
    rw [settle_balance (hk.live hlive)]
    exact (h.book q hq').congr hcount hmark
  dead := fun q hq => settle_dead hq

theorem Sound.settle_counted (h : Sound w)
    (hother : ∀ q ∈ w.reg.allq, q ≠ mq → Exact (w.reg.obj q) (w.balance q))
    (hr : Removes mq w.reg s) : Counted (w.settle s) where
  sound := h.settle_removes hr
  book := by
    intro q hq
    have hq' : q ∈ w.reg.allq.erase mq := hr.allq ▸ hq
    obtain ⟨hne, hmem⟩ := h.nodup.mem_erase_iff.mp hq'
    rw [settle_balance ((hr.live q).mpr ⟨hne, h.live q hmem⟩)]
    exact hr.obj q hne ▸ hother q hmem hne
  dead := fun q hq => settle_dead hq

theorem Sound.modify_counted {f : MqdInternal → MqdInternal} (m : Mut T) (h : Sound w)
    (hname : ∀ o, (f o).name = o.name)
    (hother : ∀ q ∈ w.reg.allq, q ≠ mq → Exact (w.reg.obj q) (w.balance q))
    (hmq : mq ∈ w.reg.allq → Exact (f (w.reg.obj mq)) (w.balance mq)) :
    Counted (w.settle ((w.reg.modify mq f).withMux m)) where
  sound := h.settle_links (keepsLinks_modify m hname)
  book := by
    intro q hq
    have hlive : (PosixObj.POSIX_MQUEUE, q) ∈ ((w.reg.modify mq f).withMux m).live := h.live q hq
    rw [settle_balance hlive]
    by_cases hne : q = mq
    · subst hne
      simpa [World.settle] using hmq hq
    · simpa [World.settle, Registry.modify, Function.update_of_ne hne] using hother q hq hne
  dead := fun q hq => settle_dead hq

end Settle

section Counting
variable {relock : Bool} {P : Platform} {w w' : World T}

omit [DecidableEq T] in
/-- A step that neither creates a queue nor overflows a count keeps all counts right. -/
theorem Counted.effect {call : MqCall} {c : Env} (h : Counted w)
    (hc : creates w.reg c call = false ∧ wraps w.reg call = false) (he : Effect w call c w') :
    Counted w' := by
  cases he with
  | quiet hk hopen hcreate hclose => exact h.settle_keeps hk
  | @opens name oflag attr c q m hf hv hopen =>
    have hmem := find_mem hf
    have hne : (w.reg.obj q).openCount ≠ 65535 := by
      simpa [wraps, hopen] using hc.2
    refine Sound.modify_counted m (h.sound.noteOpen hf hv) (fun _ => rfl) ?_ fun _ => ?_
    · intro p hp hne
      simpa [World.noteOpen, Function.update_of_ne hne] using h.book p hp
    · simpa [World.noteOpen] using (h.book q hmem).reopened hne
  | creates hk hcreate hfresh hlive hcount => simp [hc.1] at hcreate
  | @closes q c m hq =>
    have hother : ∀ p ∈ w.reg.allq, p ≠ q → Exact (w.reg.obj p) ((w.noteClose q).balance p) := by
      intro p hp hne
      simpa [World.noteClose, Function.update_of_ne hne] using h.book p hp
    cases hr : closeRemoves q w.reg with
    | true => exact Sound.settle_counted h.sound.noteClose hother (removes_closed m hr)
    | false =>
      rw [closed_stays hr]
      refine Sound.modify_counted m h.sound.noteClose (fun _ => rfl) hother fun _ => ?_
      simpa [World.noteClose] using (h.book q hq).closed hr
  | @unlinks name c q m hf =>
    by_cases hz : (w.reg.obj q).openCount = 0
    · exact Sound.settle_counted h.sound.noteUnlink (fun p hp _ => h.book p hp)
        (removes_unlinked m hz)
    · rw [unlinked_stays hz]
      exact Sound.modify_counted m h.sound.noteUnlink (fun _ => rfl) (fun p hp _ => h.book p hp)
        fun hq => (h.book q hq).unlinked

omit [DecidableEq T] in
theorem Counted.counts (h : Counted w) : Counts w :=
  fun q hq => (h.book q (h.sound.opened q hq)).count

omit [DecidableEq T] in
/-- A created queue starts with a count of 0 for its first descriptor, and the largest count
is followed by 0. -/
theorem Counted.miscounted {call : MqCall} {c : Env} (h : Counted w)
    (hc : ¬ (creates w.reg c call = false ∧ wraps w.reg call = false))
    (he : Effect w call c w') : ¬ Counts w' := by
  intro hcounts
  cases he with
  | quiet hk hopen hcreate hclose => exact hc ⟨hcreate, by simp [wraps, hopen]⟩
  | @opens name oflag attr c q m hf hv hopen =>
    have hmem := find_mem hf
    have hlive : (PosixObj.POSIX_MQUEUE, q) ∈ ((opened q w.reg).withMux m).live :=
      h.sound.live q hmem
    have hmax : (w.reg.obj q).openCount = 65535 := by
      have hcreate : creates w.reg c (.mqOpen name oflag attr) = false := by simp [creates, hf]
      simpa [wraps, hopen, hcreate] using hc
    have hwrong := hcounts q (Finset.mem_filter.mpr ⟨Finset.mem_insert_self _ _, hlive⟩)
    have hbal := (h.book q hmem).count
    rw [settle_balance hlive] at hwrong
    simp [World.settle, World.noteOpen, opened, hmax, ← hbal, unsigned] at hwrong
  | @creates name oflag attr c q s hk hcreate hfresh hlive hcount =>
    have hwrong := hcounts q (Finset.mem_filter.mpr ⟨Finset.mem_insert_self _ _, hlive⟩)
    rw [settle_balance hlive] at hwrong
    simp [World.settle, World.noteOpen, hcount, h.dead q hfresh] at hwrong
  | closes hq => exact hc ⟨rfl, rfl⟩
  | unlinks hf => exact hc ⟨rfl, rfl⟩

/-- In a run from a counted registry every count is right exactly when no `mq_open` of the
run creates a queue or opens one that has 65535 descriptors. -/
theorem mqueue_counts_iff (h : Counted w) {as : List (Action T)}
    (hrun : execute (mqStep relock P) w as = some w') :
    Throughout (mqStep relock P) Counts w as ↔
      Meets (mqStep relock P) (fun v a => creates v.reg a.env a.call = false ∧
        wraps v.reg a.call = false) w as := by
  have hstep : ∀ (v : World T) (a : Action T) v', Counted v →
      (creates v.reg a.env a.call = false ∧ wraps v.reg a.call = false) →
        mqStep relock P v a = some v' → Counted v' := by
    intro v a v' hv hc hs
    have he := mqStep_effect hv.sound.inited hs
    exact hv.effect hc he
  have hbad : ∀ (v : World T) (a : Action T) v', Counted v →
      ¬ (creates v.reg a.env a.call = false ∧ wraps v.reg a.call = false) →
        mqStep relock P v a = some v' → ¬ Counts v' := by
    intro v a v' hv hc hs
    have he := mqStep_effect hv.sound.inited hs
    exact hv.miscounted hc he
  exact throughout_iff_meets hstep (fun v hv => hv.counts) hbad h hrun

omit [DecidableEq T] in
theorem emptyWorld_counted : Counted (emptyWorld : World T) where
  sound := emptyWorld_sound
  book := nofun
  dead := fun _ _ => rfl

theorem linkedWorld_counted : Counted linkedWorld where
  sound := linkedWorld_sound
  book := by
    intro q hq
    obtain rfl : q = 1 := by simpa [linkedWorld] using hq
    exact ⟨by decide, by decide, by decide⟩
  dead := by
    intro q hq
    have hne : q ≠ 1 := fun heq => hq (by simp [linkedWorld, heq])
    simp [linkedWorld, hne]

theorem mqueue_counts_reopened :
    ∃ w', execute (mqStep true platform1000) linkedWorld reopenRun = some w' ∧
      Throughout (mqStep true platform1000) Counts linkedWorld reopenRun := by
  have hopened : (execute (mqStep true platform1000) linkedWorld reopenRun).map World.opened =
      some {1} := by
    decide +kernel
  obtain ⟨w', hrun, -⟩ := Option.map_eq_some_iff.mp hopened
  exact ⟨w', hrun, (mqueue_counts_iff linkedWorld_counted hrun).mpr (by decide +kernel)⟩

/-- The `mq_open` that creates a queue is not counted. -/
theorem mqOpen_uncounted : Counted (emptyWorld : World Unit) ∧
    ∃ w', execute (mqStep true platform1000) emptyWorld [openQ ⟨true, false, false⟩] = some w' ∧
      1 ∈ w'.opened ∧ (w'.reg.obj 1).openCount = 0 ∧ w'.balance 1 = 1 ∧
        ¬ Throughout (mqStep true platform1000) Counts emptyWorld
          [openQ ⟨true, false, false⟩] := by
  have hout : (execute (mqStep true platform1000) emptyWorld [openQ ⟨true, false, false⟩]).map
      (fun w => (w.opened, (w.reg.obj 1).openCount, w.balance 1)) = some ({1}, 0, 1) := by
    decide +kernel
  obtain ⟨w', hrun, hw⟩ := Option.map_eq_some_iff.mp hout
  simp only [Prod.mk.injEq] at hw
  obtain ⟨hopened, hcount, hbal⟩ := hw
  have hmem : 1 ∈ w'.opened := by simp [hopened]
  refine ⟨emptyWorld_counted, w', hrun, hmem, hcount, hbal, fun ht => ?_⟩
  have hwrong := ht.last hrun 1 hmem
  simp [hcount, hbal] at hwrong

end Counting

/-- The calls of a history that opens the queue's name and closes descriptors it has. -/
def onQueue (name : CString) (mq : Ptr) (w : World T) : MqCall → Bool
  | .mqOpen name' _ _ => name' = name
  | .mqClose q => q = mq && 0 < w.balance mq
  | _ => false

def queueStep (relock : Bool) (P : Platform) (name : CString) (mq : Ptr) (w : World T)
    (a : Action T) : Option (World T) :=
  if onQueue name mq w a.call = true then mqStep relock P w a else none

def Kept (mq : Ptr) (w : World T) : Prop :=
  mq ∈ w.reg.allq ∧ (PosixObj.POSIX_MQUEUE, mq) ∈ w.reg.live

structure Linked (name : CString) (mq : Ptr) (w : World T) : Prop where
  inited : w.reg.inited = true
  kept : Kept mq w
  name : (w.reg.obj mq).name = name

/-- An `mq_close` on the queue that finds it marked and with at most one descriptor. -/
def destroys (mq : Ptr) (w : World T) (call : MqCall) : Bool :=
  call = .mqClose mq && (w.reg.obj mq).pendingUnlink && (w.reg.obj mq).openCount ≤ 1

section Closing
variable {relock : Bool} {P : Platform} {name : CString} {mq : Ptr} {w w' : World T}

omit [DecidableEq T] in
theorem Linked.settle_links {s : Registry T} (h : Linked name mq w) (hk : KeepsLinks w.reg s) :
    Linked name mq (w.settle s) :=
  ⟨hk.inited.trans h.inited, ⟨hk.allq ▸ h.kept.1, hk.live h.kept.2⟩,
    (hk.names mq h.kept.2).trans h.name⟩

omit [DecidableEq T] in
theorem Linked.found (h : Linked name mq w) : w.reg.find name ≠ none := by
  intro hf
  have hne := List.find?_eq_none.mp hf mq h.kept.1
  simp [h.name] at hne

theorem queueStep_some {a : Action T} (h : queueStep relock P name mq w a = some w') :
    onQueue name mq w a.call = true ∧ mqStep relock P w a = some w' := by
  unfold queueStep at h
  split_ifs at h with hq
  exact ⟨hq, h⟩

omit [DecidableEq T] in
theorem Linked.effect {call : MqCall} {c : Env} (h : Linked name mq w)
    (hq : onQueue name mq w call = true) (hd : destroys mq w call = false)
    (he : Effect w call c w') : Linked name mq w' := by
  cases he with
  | quiet hk hopen hcreate hclose => exact h.settle_links hk.links
  | @opens name' oflag attr c q m hf hv hopen =>
    have hl : Linked name mq (w.noteOpen name' q) := ⟨h.inited, h.kept, h.name⟩
    exact hl.settle_links (keepsLinks_modify m fun _ => rfl)
  | @creates name' oflag attr c q s hk hcreate hfresh hlive hcount =>
    obtain rfl : name' = name := by simpa [onQueue] using hq
    cases hf : w.reg.find name' with
    | none => exact absurd hf h.found
    | some p => simp [creates, hf] at hcreate
  | @closes q c m hmem =>
    obtain ⟨rfl, -⟩ : q = mq ∧ 0 < w.balance mq := by simpa [onQueue] using hq
    have hr : closeRemoves q w.reg = false := by
      simpa [destroys, closeRemoves, Bool.and_comm] using hd
    have hl : Linked name q (w.noteClose q) := ⟨h.inited, h.kept, h.name⟩
    rw [closed_stays hr]
    exact hl.settle_links (keepsLinks_modify m fun _ => rfl)
  | unlinks hf => simp [onQueue] at hq

omit [DecidableEq T] in
theorem Linked.destroyed {call : MqCall} {c : Env} (h : Linked name mq w)
    (hd : destroys mq w call = true) (he : Effect w call c w') : ¬ Kept mq w' := by
  intro hkept
  cases he with
  | quiet hk hopen hcreate hclose =>
    obtain ⟨⟨rfl, -⟩, -⟩ : (call = .mqClose mq ∧ _) ∧ _ := by simpa [destroys] using hd
    exact hclose mq rfl h.kept.1
  | opens hf hv hopen => simp [destroys] at hd
  | creates hk hcreate hfresh hlive hcount => simp [destroys] at hd
  | @closes q c m hmem =>
    obtain ⟨⟨rfl, hp⟩, hle⟩ : (q = mq ∧ _) ∧ _ := by simpa [destroys] using hd
    have hrm : closeRemoves q w.reg = true := by simp [closeRemoves, hp, hle]
    exact (((removes_closed m hrm).live q).mp hkept.2).1 rfl
  | unlinks hf => simp [destroys] at hd

/-- A queue that is not unlinked outlives a history of opens and closes exactly when no
`mq_close` of the history finds it marked and with at most one descriptor. -/
theorem mqClose_keeps_iff (h : Linked name mq w) {as : List (Action T)}
    (hrun : execute (queueStep relock P name mq) w as = some w') :
    Throughout (queueStep relock P name mq) (Kept mq) w as ↔
      Meets (queueStep relock P name mq) (fun v a => destroys mq v a.call = false) w as := by
  have hstep : ∀ (v : World T) (a : Action T) v', Linked name mq v →
      destroys mq v a.call = false → queueStep relock P name mq v a = some v' →
        Linked name mq v' := by
    intro v a v' hv hd hs
    obtain ⟨hq, hs⟩ := queueStep_some hs
    have he := mqStep_effect hv.inited hs
    exact hv.effect hq hd he
  have hbad : ∀ (v : World T) (a : Action T) v', Linked name mq v →
      ¬ destroys mq v a.call = false → queueStep relock P name mq v a = some v' →
        ¬ Kept mq v' := by
    intro v a v' hv hd hs
    have he := mqStep_effect hv.inited (queueStep_some hs).2
    exact hv.destroyed (by simpa using hd) he
  exact throughout_iff_meets hstep (fun v hv => hv.kept) hbad h hrun

theorem linkedWorld_linked : Linked nameQ 1 linkedWorld :=
  ⟨rfl, ⟨by simp [linkedWorld], by simp [linkedWorld]⟩, rfl⟩

theorem mqClose_keeps_reopened :
    ∃ w', execute (queueStep true platform1000 nameQ 1) linkedWorld
        [openQ plainOpen, closeQ, openQ plainOpen, closeQ] = some w' ∧
      Throughout (queueStep true platform1000 nameQ 1) (Kept 1) linkedWorld
        [openQ plainOpen, closeQ, openQ plainOpen, closeQ] := by
  have hopened : (execute (queueStep true platform1000 nameQ 1) linkedWorld
      [openQ plainOpen, closeQ, openQ plainOpen, closeQ]).map World.opened = some {1} := by
    decide +kernel
  obtain ⟨w', hrun, -⟩ := Option.map_eq_some_iff.mp hopened
  exact ⟨w', hrun, (mqClose_keeps_iff linkedWorld_linked hrun).mpr (by decide +kernel)⟩

/-- Closing the only descriptor marks the queue, and after a reopen the next close frees
it, with no `mq_unlink` in between. -/
theorem mqClose_destroys :
    (linkedWorld.reg.obj 1).pendingUnlink = false ∧
      ((linkedWorld.reg.obj 1).openCount : ℤ) = linkedWorld.balance 1 ∧
      ∃ w', execute (queueStep true platform1000 nameQ 1) linkedWorld
          [closeQ, openQ plainOpen, closeQ] = some w' ∧
        w'.reg.allq = [] ∧ w'.reg.live = ∅ ∧
          ¬ Throughout (queueStep true platform1000 nameQ 1) (Kept 1) linkedWorld
            [closeQ, openQ plainOpen, closeQ] := by
  have hout : (execute (queueStep true platform1000 nameQ 1) linkedWorld
      [closeQ, openQ plainOpen, closeQ]).map (fun w => (w.reg.allq, w.reg.live)) =
        some ([], ∅) := by
    decide +kernel
  obtain ⟨w', hrun, hw⟩ := Option.map_eq_some_iff.mp hout
  obtain ⟨hallq, hlive⟩ := Prod.mk.inj hw
  refine ⟨rfl, rfl, w', hrun, hallq, hlive, fun ht => ?_⟩
  have hkept := ht.last hrun
  simp [Kept, hallq] at hkept

end Closing

end LibPosix.MqueueCounting
