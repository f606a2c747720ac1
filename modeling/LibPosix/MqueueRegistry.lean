import LibPosix.MqueueCalls

/-! Runs of whole calls on the message queues, and which queues a call can find. The world
keeps next to the registry what the returned values promise to the callers: the descriptors
they hold, the names they know and how often each queue is open. -/
namespace LibPosix.MqueueRegistry
open Program Transition TimeUtils Kernel MachineInt Mqueue MqueueCalls
variable {T : Type} [DecidableEq T]

inductive MqCall where
  | mqOpen (name : CString) (oflag : OFlag) (attr : Option MqAttr)
  | mqClose (mq : Ptr)
  | mqUnlink (name : CString)
  | mqGetattr (mq : Ptr)
  | mqTimedsend (mq msgPtr : Ptr) (msgLen : ℕ) (abstime : Option Timespec)
  | mqTimedreceive (mq msgPtr : Ptr) (msgLen : ℕ) (abstime : Option Timespec)
  | mqSend (mq msgPtr : Ptr) (msgLen : ℕ)
  | mqReceive (mq msgPtr : Ptr) (msgLen : ℕ)
  deriving DecidableEq, Repr

inductive MqRes where
  | desc (mq : Ptr)
  | attr (attr : MqAttr)
  | length (n : ℕ)
  | status (ret : Status)
  deriving DecidableEq, Repr

def MqRes.of {α : Type} (f : α → MqRes) : Except Status α → MqRes
  | .ok a => f a
  | .error e => .status e

theorem MqRes.of_ne {α : Type} {f : α → MqRes} {r : Except Status α} {e : Status}
    (hf : ∀ a, f a ≠ .status e) (h : r ≠ .error e) : MqRes.of f r ≠ .status e := by
  cases r with
  | ok a => exact hf a
  | error e' => simpa [MqRes.of] using h

def mqCode (P : Platform) : MqCall → Prog MqOp MqAns MqRes
  | .mqOpen name oflag attr => do return .of .desc (← mqOpen P name oflag attr)
  | .mqClose mq => do return .status (← mqClose mq)
  | .mqUnlink name => do return .status (← mqUnlink name)
  | .mqGetattr mq => do return .of .attr (← mqGetattr P mq)
  | .mqTimedsend mq msgPtr msgLen abstime => do
    return .status (← mqTimedsend P mq msgPtr msgLen abstime)
  | .mqTimedreceive mq msgPtr msgLen abstime => do
    return .of .length (← mqTimedreceive P mq msgPtr msgLen abstime)
  | .mqSend mq msgPtr msgLen => do return .status (← mqSend P mq msgPtr msgLen)
  | .mqReceive mq msgPtr msgLen => do return .of .length (← mqReceive P mq msgPtr msgLen)

def MqCall.queue : MqCall → Option Ptr
  | .mqOpen .. => none
  | .mqClose mq => some mq
  | .mqUnlink _ => none
  | .mqGetattr mq => some mq
  | .mqTimedsend mq .. => some mq
  | .mqTimedreceive mq .. => some mq
  | .mqSend mq .. => some mq
  | .mqReceive mq .. => some mq

/-- `opened` are the queues that an `mq_open` has returned, `named` the names under which it
did so and that have not been unlinked since, both as long as the queue has not been freed.
`balance` counts the descriptors of a queue. -/
structure World (T : Type) where
  reg : Registry T
  opened : Finset Ptr
  named : Finset (CString × Ptr)
  balance : Ptr → ℤ

structure Action (T : Type) where
  thread : T
  call : MqCall
  env : Env

namespace World

def noteOpen (name : CString) (mq : Ptr) (w : World T) : World T :=
  ⟨w.reg, insert mq w.opened, insert (name, mq) w.named,
    Function.update w.balance mq (w.balance mq + 1)⟩

def noteClose (mq : Ptr) (w : World T) : World T :=
  ⟨w.reg, w.opened, w.named, Function.update w.balance mq (w.balance mq - 1)⟩

def noteUnlink (name : CString) (w : World T) : World T :=
  ⟨w.reg, w.opened, w.named.filter fun b => b.1 ≠ name, w.balance⟩

def note : MqCall → MqRes → World T → World T
  | .mqOpen name _ _, .desc mq, w => w.noteOpen name mq
  | .mqClose mq, .status .ok, w => w.noteClose mq
  | .mqUnlink name, .status .ok, w => w.noteUnlink name
  | _, _, w => w

/-- Continue with this registry and forget the queues that it has freed. -/
def settle (reg : Registry T) (w : World T) : World T where
  reg := reg
  opened := w.opened.filter fun q => (.POSIX_MQUEUE, q) ∈ reg.live
  named := w.named.filter fun b => (.POSIX_MQUEUE, b.2) ∈ reg.live
  balance q := if (.POSIX_MQUEUE, q) ∈ reg.live then w.balance q else 0

end World

/-- One call, run from its first to its last request. -/
def mqStep (relock : Bool) (P : Platform) (w : World T) (a : Action T) : Option (World T) :=
  ((mqCode P a.call).eval (mqExec relock P a.thread a.env) w.reg).map fun r =>
    (w.note a.call r.1).settle r.2

def reopens (s : Registry T) : MqCall → Option Ptr
  | .mqOpen name oflag attr =>
    if validateName name = true ∧ validateAttr attr = true ∧
      ¬ (oflag.O_EXCL = true ∧ oflag.O_CREAT = true) then s.find name else none
  | _ => none

def creates (s : Registry T) (c : Env) : MqCall → Bool
  | .mqOpen name oflag attr =>
    validateName name && validateAttr attr && oflag.O_CREAT && (s.find name).isNone &&
      c.queueBlock.isSome && c.bufBlock.isSome
  | _ => false

/-- Everything a step can do: one case for each effect on the registry. -/
inductive Effect (w : World T) : MqCall → Env → World T → Prop
  | quiet {call : MqCall} {c : Env} {s : Registry T} (hk : Keeps w.reg s)
      (hopen : reopens w.reg call = none) (hcreate : creates w.reg c call = false)
      (hclose : ∀ q, call = .mqClose q → q ∉ w.reg.allq) : Effect w call c (w.settle s)
  | opens {name : CString} {oflag : OFlag} {attr : Option MqAttr} {c : Env} {q : Ptr}
      {m : Mut T} (hf : w.reg.find name = some q) (hv : validateName name = true)
      (hopen : reopens w.reg (.mqOpen name oflag attr) = some q) :
      Effect w (.mqOpen name oflag attr) c
        ((w.noteOpen name q).settle ((opened q w.reg).withMux m))
  | creates {name : CString} {oflag : OFlag} {attr : Option MqAttr} {c : Env} {q : Ptr}
      {s : Registry T} (hk : Keeps w.reg s)
      (hcreate : creates w.reg c (.mqOpen name oflag attr) = true)
      (hfresh : (.POSIX_MQUEUE, q) ∉ w.reg.live) (hlive : (.POSIX_MQUEUE, q) ∈ s.live)
      (hcount : (s.obj q).openCount = 0) :
      Effect w (.mqOpen name oflag attr) c ((w.noteOpen name q).settle s)
  | closes {q : Ptr} {c : Env} {m : Mut T} (hq : q ∈ w.reg.allq) :
      Effect w (.mqClose q) c ((w.noteClose q).settle ((closed q w.reg).withMux m))
  | unlinks {name : CString} {c : Env} {q : Ptr} {m : Mut T}
      (hf : w.reg.find name = some q) :
      Effect w (.mqUnlink name) c ((w.noteUnlink name).settle ((unlinked q w.reg).withMux m))

section Steps
variable {relock : Bool} {P : Platform} {w w' : World T}

theorem mqStep_some {a : Action T} (h : mqStep relock P w a = some w') :
    ∃ res s, (mqCode P a.call).eval (mqExec relock P a.thread a.env) w.reg = some (res, s) ∧
      w' = (w.note a.call res).settle s := by
  obtain ⟨⟨res, s⟩, hrun, rfl⟩ := Option.map_eq_some_iff.mp h
  exact ⟨res, s, hrun, rfl⟩

theorem eval_map {α : Type} {f : α → MqRes} {p : Prog MqOp MqAns α} {t : T} {c : Env}
    {s s' : Registry T} {res : MqRes}
    (h : (p >>= fun a => pure (f a)).eval (mqExec relock P t c) s = some (res, s')) :
    ∃ a, p.eval (mqExec relock P t c) s = some (a, s') ∧ res = f a := by
  rw [Prog.eval_bind] at h
  obtain ⟨⟨a, s1⟩, hp, heq⟩ := Option.bind_eq_some_iff.mp h
  cases heq
  exact ⟨a, hp, rfl⟩

theorem mqOpen_effect (hi : w.reg.inited = true) {name : CString} {oflag : OFlag}
    {attr : Option MqAttr} {t : T} {c : Env} {r : Except Status Ptr} {s : Registry T}
    (h : (mqOpen P name oflag attr).eval (mqExec relock P t c) w.reg = some (r, s)) :
    Effect w (.mqOpen name oflag attr) c
      ((w.note (.mqOpen name oflag attr) (.of .desc r)).settle s) := by
  by_cases hv : validateName name = true ∧ validateAttr attr = true
  · obtain ⟨hname, hattr⟩ := hv
    cases hf : w.reg.find name with
    | some q =>
      rcases mqOpen_found hi hname hattr hf h with ⟨m, ⟨hx, hc, rfl, rfl⟩ | ⟨hx, rfl, rfl⟩⟩
      · exact .quiet (keeps_withMux m) (by simp [reopens, hx, hc]) (by simp [creates, hf]) nofun
      · exact .opens hf hname (by simp only [reopens, hname, hattr, hf, hx]; simp)
    | none =>
      by_cases hc : oflag.O_CREAT = true
      · obtain ⟨hk, ⟨hnone, rfl⟩ | ⟨q, b, hq, hb, rfl, hfresh, hlive, hobj⟩⟩ :=
          mqOpen_create hi hname hattr hf hc h
        · refine .quiet hk (by simp [reopens, hf]) ?_ nofun
          rcases hnone with hq | hb
          · simp [creates, hq]
          · simp [creates, hb]
        · have hcount : (s.obj q).openCount = 0 := congrArg MqdInternal.openCount hobj
          exact .creates hk (by simp [creates, hname, hattr, hf, hc, hq, hb]) hfresh hlive hcount
      · obtain ⟨m, rfl, rfl⟩ := mqOpen_missing hi hname hattr hf (by simpa using hc) h
        exact .quiet (keeps_withMux m) (by simp [reopens, hf]) (by simp [creates, hc]) nofun
  · have hv' : validateName name = false ∨ validateAttr attr = false := by
      by_cases hname : validateName name = true
      · exact .inr (by simpa [hname] using hv)
      · exact .inl (by simpa using hname)
    rw [mqOpen_refused hi hv'] at h
    cases h
    refine .quiet keeps_refl ?_ ?_ nofun
    · exact if_neg fun hn => hv ⟨hn.1, hn.2.1⟩
    · rcases hv' with hname | hattr
      · simp [creates, hname]
      · simp [creates, hattr]

def MqCall.updates : MqCall → Bool
  | .mqOpen .. | .mqClose _ | .mqUnlink _ => true
  | _ => false

omit [DecidableEq T] in
theorem quiet_effect {call : MqCall} {c : Env} {s : Registry T} {res : MqRes}
    (hk : Keeps w.reg s) (hcall : call.updates = false) :
    Effect w call c ((w.note call res).settle s) := by
  cases call with
  | mqOpen name oflag attr => simp [MqCall.updates] at hcall
  | mqClose q => simp [MqCall.updates] at hcall
  | mqUnlink name => simp [MqCall.updates] at hcall
  | _ => exact .quiet hk rfl rfl nofun

theorem mqStep_effect (hi : w.reg.inited = true) {a : Action T}
    (h : mqStep relock P w a = some w') : Effect w a.call a.env w' := by
  obtain ⟨t, call, c⟩ := a
  obtain ⟨res, s, hrun, rfl⟩ := mqStep_some h
  cases call with
  | mqOpen name oflag attr =>
    obtain ⟨r, hr, rfl⟩ := eval_map hrun
    exact mqOpen_effect hi hr
  | mqClose q =>
    obtain ⟨r, hr, rfl⟩ := eval_map hrun
    rcases mqClose_spec hi hr with ⟨m, ⟨hq, rfl, rfl⟩ | ⟨hq, rfl, rfl⟩⟩
    · exact .closes hq
    · refine .quiet (keeps_withMux m) rfl rfl ?_
      rintro p hp
      cases hp
      exact hq
  | mqUnlink name =>
    obtain ⟨r, hr, rfl⟩ := eval_map hrun
    rcases mqUnlink_spec hi hr with ⟨hne, m, rfl⟩ | ⟨m, q, rfl, hf, rfl⟩
    · have hnote : w.note (.mqUnlink name) (.status r) = w := by
        cases r with
        | ok => exact absurd rfl hne
        | _ => rfl
      rw [hnote]
      exact .quiet (keeps_withMux m) rfl rfl nofun
    · exact .unlinks hf
  | mqGetattr q =>
    obtain ⟨r, hr, rfl⟩ := eval_map hrun
    exact quiet_effect (keeps_of_quiet hi mqGetattr_quiet hr).1 rfl
  | mqTimedsend q msgPtr msgLen abstime =>
    obtain ⟨r, hr, rfl⟩ := eval_map hrun
    exact quiet_effect (keeps_of_quiet hi (mqTimedsend_quiet _ _ _) hr).1 rfl
  | mqTimedreceive q msgPtr msgLen abstime =>
    obtain ⟨r, hr, rfl⟩ := eval_map hrun
    exact quiet_effect (keeps_of_quiet hi (mqTimedreceive_quiet _ _ _) hr).1 rfl
  | mqSend q msgPtr msgLen =>
    obtain ⟨r, hr, rfl⟩ := eval_map hrun
    exact quiet_effect (keeps_of_quiet hi (mqTimedsend_quiet _ _ _) hr).1 rfl
  | mqReceive q msgPtr msgLen =>
    obtain ⟨r, hr, rfl⟩ := eval_map hrun
    exact quiet_effect (keeps_of_quiet hi (mqTimedreceive_quiet _ _ _) hr).1 rfl

end Steps

/-- The queues that callers hold a descriptor of can be found, by address and by name. -/
structure Registered (relock : Bool) (P : Platform) (w : World T) : Prop where
  extract : ∀ q ∈ w.opened, ∀ t c,
    (mqExtractLocked q).eval (mqExec relock P t c) w.reg = some (some q, w.reg)
  valid : ∀ q ∈ w.opened, ∀ t c call res s, call.queue = some q →
    (mqCode P call).eval (mqExec relock P t c) w.reg = some (res, s) → res ≠ .status .EBADF
  reopen : ∀ name q, (name, q) ∈ w.named → ∀ t c oflag attr res s, validateAttr attr = true →
    (mqCode P (.mqOpen name oflag attr)).eval (mqExec relock P t c) w.reg = some (res, s) →
      res = if oflag.O_CREAT = true ∧ oflag.O_EXCL = true then .status .EEXIST else .desc q

/-- The registry is a list of queues in use, and it has what was promised. -/
structure Sound (w : World T) : Prop where
  inited : w.reg.inited = true
  nodup : w.reg.allq.Nodup
  live : ∀ q ∈ w.reg.allq, (PosixObj.POSIX_MQUEUE, q) ∈ w.reg.live
  opened : ∀ q ∈ w.opened, q ∈ w.reg.allq
  named : ∀ name q, (name, q) ∈ w.named →
    w.reg.find name = some q ∧ validateName name = true

section Finding
variable {w : World T} {s s' : Registry T}
omit [DecidableEq T]

theorem find_mem {name : CString} {q : Ptr} (h : s.find name = some q) : q ∈ s.allq :=
  List.mem_of_find?_eq_some h

theorem find_links (hl : ∀ q ∈ s.allq, (PosixObj.POSIX_MQUEUE, q) ∈ s.live)
    (hk : KeepsLinks s s') (name : CString) : s'.find name = s.find name := by
  rw [Registry.find, Registry.find, hk.allq]
  refine List.find?_congr fun q hq => ?_
  rw [hk.names q (hl q hq)]

theorem find?_erase_of_ne {f : Ptr → Bool} {l : List Ptr} {p q : Ptr} (hne : p ≠ q)
    (h : l.find? f = some q) : (l.erase p).find? f = some q := by
  induction l with
  | nil => cases h
  | cons a as ih =>
    by_cases ha : a = p
    · subst ha
      have hf : f a = false := by
        by_contra hn
        rw [List.find?_cons_of_pos (by simpa using hn)] at h
        exact hne (Option.some.inj h)
      rw [List.find?_cons_of_neg (by simp [hf])] at h
      simpa using h
    · rw [List.erase_cons_tail (by simpa using ha)]
      by_cases hf : f a = true
      · rw [List.find?_cons_of_pos hf] at h ⊢
        exact h
      · rw [List.find?_cons_of_neg hf] at h ⊢
        exact ih h

theorem find_removes {mq q : Ptr} (hn : s.allq.Nodup) (hr : Removes mq s s') (hne : q ≠ mq)
    {name : CString} (h : s.find name = some q) : s'.find name = some q := by
  rw [Registry.find, hr.allq, ← find?_erase_of_ne hne.symm h]
  refine List.find?_congr fun p hp => ?_
  rw [hr.obj p (hn.mem_erase_iff.mp hp).1]

theorem Sound.settle_links (h : Sound w) (hk : KeepsLinks w.reg s) : Sound (w.settle s) where
  inited := hk.inited.trans h.inited
  nodup := hk.allq ▸ h.nodup
  live := by
    intro q hq
    exact hk.live (h.live q (hk.allq ▸ hq))
  opened := by
    intro q hq
    exact hk.allq ▸ h.opened q (Finset.mem_filter.mp hq).1
  named := by
    intro name q hq
    obtain ⟨hf, hv⟩ := h.named name q (Finset.mem_filter.mp hq).1
    exact ⟨(find_links h.live hk name).trans hf, hv⟩

theorem Sound.settle_removes {mq : Ptr} (h : Sound w) (hr : Removes mq w.reg s) :
    Sound (w.settle s) where
  inited := hr.inited.trans h.inited
  nodup := hr.allq ▸ h.nodup.erase mq
  live := by
    intro q hq
    have hq' : q ∈ w.reg.allq.erase mq := hr.allq ▸ hq
    obtain ⟨hne, hmem⟩ := h.nodup.mem_erase_iff.mp hq'
    exact (hr.live q).mpr ⟨hne, h.live q hmem⟩
  opened := by
    intro q hq
    obtain ⟨hopen, hlive⟩ := Finset.mem_filter.mp hq
    have hne := ((hr.live q).mp hlive).1
    exact hr.allq ▸ h.nodup.mem_erase_iff.mpr ⟨hne, h.opened q hopen⟩
  named := by
    intro name q hq
    obtain ⟨hname, hlive⟩ := Finset.mem_filter.mp hq
    obtain ⟨hf, hv⟩ := h.named name q hname
    exact ⟨find_removes h.nodup hr ((hr.live q).mp hlive).1 hf, hv⟩

theorem Sound.noteOpen {name : CString} {mq : Ptr} (h : Sound w)
    (hf : w.reg.find name = some mq) (hv : validateName name = true) :
    Sound (w.noteOpen name mq) where
  inited := h.inited
  nodup := h.nodup
  live := h.live
  opened := by
    intro q hq
    rcases Finset.mem_insert.mp hq with rfl | hq
    · exact find_mem hf
    · exact h.opened q hq
  named := by
    intro name' q hq
    rcases Finset.mem_insert.mp hq with heq | hq
    · cases heq
      exact ⟨hf, hv⟩
    · exact h.named name' q hq

theorem Sound.noteClose {mq : Ptr} (h : Sound w) : Sound (w.noteClose mq) :=
  ⟨h.inited, h.nodup, h.live, h.opened, h.named⟩

theorem Sound.noteUnlink {name : CString} (h : Sound w) : Sound (w.noteUnlink name) :=
  ⟨h.inited, h.nodup, h.live, h.opened,
    fun name' q hq => h.named name' q (Finset.mem_filter.mp hq).1⟩

theorem Sound.effect {w' : World T} {call : MqCall} {c : Env} (h : Sound w)
    (hc : creates w.reg c call = false) (he : Effect w call c w') : Sound w' := by
  cases he with
  | quiet hk hopen hcreate hclose => exact h.settle_links hk.links
  | opens hf hv hopen =>
    exact (h.noteOpen hf hv).settle_links (keepsLinks_modify _ fun _ => rfl)
  | creates hk hcreate hfresh hlive hcount => simp [hc] at hcreate
  | @closes q c m hq =>
    cases hr : closeRemoves q w.reg with
    | true => exact h.noteClose.settle_removes (removes_closed m hr)
    | false =>
      rw [closed_stays hr]
      exact h.noteClose.settle_links (keepsLinks_modify m fun _ => rfl)
  | @unlinks name c q m hf =>
    by_cases hz : (w.reg.obj q).openCount = 0
    · exact h.noteUnlink.settle_removes (removes_unlinked m hz)
    · rw [unlinked_stays hz]
      exact h.noteUnlink.settle_links (keepsLinks_modify m fun _ => rfl)

/-- A created queue is promised but not in the list. -/
theorem Sound.created {w' : World T} {call : MqCall} {c : Env} (h : Sound w)
    (hc : creates w.reg c call = true) (he : Effect w call c w') :
    ∃ q ∈ w'.opened, q ∉ w'.reg.allq := by
  cases he with
  | quiet hk hopen hcreate hclose => simp [hc] at hcreate
  | opens hf hv hopen => simp [creates, hf] at hc
  | @creates name oflag attr c q s hk hcreate hfresh hlive hcount =>
    refine ⟨q, Finset.mem_filter.mpr ⟨Finset.mem_insert_self _ _, hlive⟩, fun hq => hfresh ?_⟩
    exact h.live q (hk.allq ▸ hq)
  | closes hq => simp [creates] at hc
  | unlinks hf => simp [creates] at hc

end Finding

section Registration
variable {relock : Bool} {P : Platform} {w w' : World T}

theorem Sound.valid (h : Sound w) {q : Ptr} (hq : q ∈ w.reg.allq) {t : T} {c : Env}
    {call : MqCall} {res : MqRes} {s : Registry T} (hcall : call.queue = some q)
    (hrun : (mqCode P call).eval (mqExec relock P t c) w.reg = some (res, s)) :
    res ≠ .status .EBADF := by
  cases call with
  | mqOpen name oflag attr => cases hcall
  | mqUnlink name => cases hcall
  | mqClose mq =>
    cases hcall
    obtain ⟨r, hr, rfl⟩ := eval_map hrun
    rcases mqClose_spec h.inited hr with ⟨m, ⟨-, rfl, -⟩ | ⟨hn, -, -⟩⟩
    · simp
    · exact absurd hq hn
  | mqGetattr mq =>
    cases hcall
    obtain ⟨r, hr, rfl⟩ := eval_map hrun
    exact MqRes.of_ne nofun ((keeps_of_quiet h.inited mqGetattr_quiet hr).2 hq)
  | mqTimedsend mq msgPtr msgLen abstime =>
    cases hcall
    obtain ⟨r, hr, rfl⟩ := eval_map hrun
    simpa using (keeps_of_quiet h.inited (mqTimedsend_quiet _ _ _) hr).2 hq
  | mqTimedreceive mq msgPtr msgLen abstime =>
    cases hcall
    obtain ⟨r, hr, rfl⟩ := eval_map hrun
    exact MqRes.of_ne nofun ((keeps_of_quiet h.inited (mqTimedreceive_quiet _ _ _) hr).2 hq)
  | mqSend mq msgPtr msgLen =>
    cases hcall
    obtain ⟨r, hr, rfl⟩ := eval_map hrun
    simpa using (keeps_of_quiet h.inited (mqTimedsend_quiet _ _ _) hr).2 hq
  | mqReceive mq msgPtr msgLen =>
    cases hcall
    obtain ⟨r, hr, rfl⟩ := eval_map hrun
    exact MqRes.of_ne nofun ((keeps_of_quiet h.inited (mqTimedreceive_quiet _ _ _) hr).2 hq)

theorem Sound.reopen (h : Sound w) {name : CString} {q : Ptr} (hq : (name, q) ∈ w.named) {t : T}
    {c : Env} {oflag : OFlag} {attr : Option MqAttr} {res : MqRes} {s : Registry T}
    (ha : validateAttr attr = true)
    (hrun : (mqCode P (.mqOpen name oflag attr)).eval (mqExec relock P t c) w.reg =
      some (res, s)) :
    res = if oflag.O_CREAT = true ∧ oflag.O_EXCL = true then .status .EEXIST else .desc q := by
  obtain ⟨hf, hv⟩ := h.named name q hq
  obtain ⟨r, hr, rfl⟩ := eval_map hrun
  rcases mqOpen_found h.inited hv ha hf hr with ⟨m, ⟨hx, hc, rfl, -⟩ | ⟨hn, rfl, -⟩⟩
  · rw [if_pos ⟨hc, hx⟩]
    rfl
  · rw [if_neg fun hb => hn hb.symm]
    rfl

theorem Sound.registered (h : Sound w) : Registered relock P w where
  extract := by
    intro q hq t c
    rw [mqExtractLocked_eval, if_pos (h.opened q hq)]
  valid := fun q hq t c call res s hcall hrun => h.valid (h.opened q hq) hcall hrun
  reopen := fun name q hq t c oflag attr res s ha hrun => h.reopen hq ha hrun

/-- In a run from a sound registry the queues that calls returned stay registered exactly
when no `mq_open` of the run creates one. -/
theorem mqueue_registered_iff (h : Sound w) {as : List (Action T)}
    (hrun : execute (mqStep relock P) w as = some w') :
    Throughout (mqStep relock P) (Registered relock P) w as ↔
      Meets (mqStep relock P) (fun v a => creates v.reg a.env a.call = false) w as := by
  have hstep : ∀ (v : World T) (a : Action T) v', Sound v → creates v.reg a.env a.call = false →
      mqStep relock P v a = some v' → Sound v' := by
    intro v a v' hv hc hs
    have he := mqStep_effect hv.inited hs
    exact hv.effect hc he
  have hbad : ∀ (v : World T) (a : Action T) v', Sound v →
      ¬ creates v.reg a.env a.call = false → mqStep relock P v a = some v' →
        ¬ Registered relock P v' := by
    intro v a v' hv hc hs hreg
    obtain ⟨q, hq, hn⟩ := hv.created (by simpa using hc) (mqStep_effect hv.inited hs)
    have hfound := hreg.extract q hq a.thread a.env
    rw [mqExtractLocked_eval, if_neg hn] at hfound
    cases hfound
  exact throughout_iff_meets hstep (fun v hv => hv.registered) hbad h hrun

def emptyWorld : World T := ⟨emptyRegistry, ∅, ∅, fun _ => 0⟩

omit [DecidableEq T] in
theorem emptyWorld_sound : Sound (emptyWorld : World T) where
  inited := rfl
  nodup := List.nodup_nil
  live := nofun
  opened := nofun
  named := nofun

end Registration

section Runs

def linkedWorld : World Unit where
  reg := ⟨true, mutInit, [1], fun _ => { zeroQueue with buf := 2, name := nameQ, openCount := 1 },
    {(.POSIX_MQUEUE, 1), (.POSIX_MQUEUE_BUF, 2)}⟩
  opened := {1}
  named := {(nameQ, 1)}
  balance q := if q = 1 then 1 else 0

theorem linkedWorld_sound : Sound linkedWorld where
  inited := rfl
  nodup := by simp [linkedWorld]
  live := by simp [linkedWorld]
  opened := by simp [linkedWorld]
  named := by
    intro name q hq
    obtain ⟨rfl, rfl⟩ : name = nameQ ∧ q = 1 := by simpa [linkedWorld] using hq
    exact ⟨by decide, by decide⟩

def plainOpen : OFlag := ⟨false, false, false⟩

def openQ (oflag : OFlag) : Action Unit :=
  ⟨(), .mqOpen nameQ oflag none, ⟨some 1, some 2, 5, true⟩⟩

def closeQ : Action Unit := ⟨(), .mqClose 1, ⟨none, none, 5, true⟩⟩

/-- An existing queue is opened again, written to and closed twice. -/
def reopenRun : List (Action Unit) :=
  [openQ plainOpen, ⟨(), .mqSend 1 0 0, ⟨none, none, 5, true⟩⟩, closeQ, closeQ]

theorem mqueue_registered_reopened :
    ∃ w', execute (mqStep true platform1000) linkedWorld reopenRun = some w' ∧
      Throughout (mqStep true platform1000) (Registered true platform1000) linkedWorld
        reopenRun := by
  have hopened : (execute (mqStep true platform1000) linkedWorld reopenRun).map World.opened =
      some {1} := by
    decide +kernel
  obtain ⟨w', hrun, -⟩ := Option.map_eq_some_iff.mp hopened
  exact ⟨w', hrun, (mqueue_registered_iff linkedWorld_sound hrun).mpr (by decide +kernel)⟩

/-- `mq_open` returns a queue that it has not put on the list: closing it fails. -/
theorem mqOpen_unregistered :
    ∃ w', execute (mqStep true platform1000) emptyWorld [openQ ⟨true, false, false⟩] = some w' ∧
      1 ∈ w'.opened ∧
        ((mqCode platform1000 closeQ.call).eval (mqExec true platform1000 () closeQ.env)
          w'.reg).map Prod.fst = some (.status .EBADF) ∧
        ¬ Throughout (mqStep true platform1000) (Registered true platform1000) emptyWorld
          [openQ ⟨true, false, false⟩] := by
  have hout : (execute (mqStep true platform1000) emptyWorld [openQ ⟨true, false, false⟩]).map
      (fun w => (w.opened, ((mqCode platform1000 closeQ.call).eval
        (mqExec true platform1000 () closeQ.env) w.reg).map Prod.fst)) =
        some ({1}, some (.status .EBADF)) := by
    decide +kernel
  obtain ⟨w', hrun, hw⟩ := Option.map_eq_some_iff.mp hout
  obtain ⟨hopened, hclose⟩ := Prod.mk.inj hw
  refine ⟨w', hrun, by simp [hopened], hclose, fun ht => ?_⟩
  obtain ⟨⟨res, s⟩, hs, hres⟩ := Option.map_eq_some_iff.mp hclose
  exact (ht.last hrun).valid 1 (by simp [hopened]) () closeQ.env closeQ.call res s rfl hs hres

end Runs

end LibPosix.MqueueRegistry
