import LibPosix.MqueueRegistry
import LibPosix.ThreadPool
import LibPosix.Trace

/-! The lazy initialisation of `posix_mqueue.c`. `mq_check_init` tests `inited` and initialises
without a lock, and the functions that send and receive do not call it. -/
namespace LibPosix.MqueueInit
open Program ThreadPool Transition Trace Kernel Mqueue MqueueCalls
open TimeUtils (Timespec)
open MqueueRegistry (MqCall MqRes mqCode)
variable {T : Type} [DecidableEq T]

def recordedCalls (relock : Bool) (P : Platform) :
    System T MqOp MqAns Env (Registry T × List MqOp) MqCall MqRes where
  code _ k := mqCode P k
  exec t e c := traced (mqExec relock P t c) e
  enter _ _ s := some s
  leave _ _ _ s := s

abbrev MqPool (T : Type) : Type := Pool T MqOp MqAns (Registry T × List MqOp) MqCall MqRes

def SetUp (log : List MqOp) : Prop := .llInit ∈ log ∧ .mutInit ∈ log

def Timely (log : List MqOp) : MqOp → Prop
  | .muxLock | .allq => SetUp log
  | .llInit | .mutInit => .muxLock ∉ log
  | _ => True

/-- The lock is taken and the list traversed after both have been set up, and neither is set up
again once the lock has been taken. -/
def InitOnce (p : MqPool T) : Prop := Along Timely p.shared.2

def checksInit : MqCall → Bool
  | .mqOpen .. | .mqClose _ | .mqGetattr _ | .mqUnlink _ => true
  | _ => false

/-- The thread has read 0 in `inited` and still has to set up the list or its lock. -/
def Initialising (p : MqPool T) (t : T) : Prop :=
  p.request t = some .llInit ∨ p.request t = some .mutInit

/-- `inited` is set, or some thread has set up everything and sets it next. -/
def Initialised (p : MqPool T) : Prop :=
  p.shared.1.inited = true ∨ ∃ t, p.request t = some .storeInited

def Unchecked (p : MqPool T) (t : T) : Prop :=
  (p.thread t).map (fun x => checksInit x.1) = some false

/-- A thread reads `inited` before anyone has taken the lock, or reads 1. It takes the lock
while no thread is about to set something up, and without `mq_check_init` only when everything
is. -/
def Orderly (p : MqPool T) : Action T Env MqCall → Prop
  | .run t _ =>
    (p.request t = some .loadInited → p.shared.1.inited = true ∨ .muxLock ∉ p.shared.2) ∧
      (p.request t = some .muxLock →
        (Unchecked p t → Initialised p) ∧ ∀ u, ¬ Initialising p u)
  | _ => True

instance (p : MqPool T) (t : T) : Decidable (Initialising p t) :=
  inferInstanceAs (Decidable (_ ∨ _))

instance [Fintype T] (p : MqPool T) : Decidable (Initialised p) :=
  inferInstanceAs (Decidable (_ ∨ _))

instance (p : MqPool T) (t : T) : Decidable (Unchecked p t) := inferInstanceAs (Decidable (_ = _))

instance decidableOrderly [Fintype T] (p : MqPool T) :
    ∀ a : Action T Env MqCall, Decidable (Orderly p a)
  | .enter _ _ => .isTrue trivial
  | .leave _ => .isTrue trivial
  | .run _ _ => inferInstanceAs (Decidable (_ ∧ _))

/-- How far a thread has come with the initialisation: it has not read `inited`, has read 0,
has set up the list, has set up the lock too, or has seen that everything is set up. -/
inductive Phase where
  | unread
  | absent
  | listed
  | muxed
  | known
  deriving DecidableEq, Repr

/-- Only a thread that checks nothing locks without having read `inited`. -/
def lazyInit (checks : Bool) : Protocol MqOp MqAns Phase where
  safe
    | l, .loadInited => l = .unread
    | l, .llInit => l = .absent
    | l, .mutInit => l = .listed
    | l, .storeInited => l = .muxed
    | l, .muxLock => l = .known ∨ l = .unread ∧ checks = false
    | l, _ => l = .known
  after
    | _, .loadInited, r, l' => l' = if r = true then .known else .absent
    | _, .llInit, _, l' => l' = .listed
    | _, .mutInit, _, l' => l' = .muxed
    | _, _, _, l' => l' = .known

section Calls
variable {b : Bool} {P : Platform} {mq : Ptr} {name : CString}

theorem bind_known {α β : Type} {p : Prog MqOp MqAns α} {f : α → Prog MqOp MqAns β} {ph : Phase}
    {post : β → Phase → Prop} (hp : p.Obeys (lazyInit b) ph fun _ l => l = .known)
    (hf : ∀ a, (f a).Obeys (lazyInit b) .known post) : (p >>= f).Obeys (lazyInit b) ph post := by
  rw [Prog.obeys_bind]
  apply hp.mono
  intro a l hl
  subst hl
  exact hf a

theorem muxLock_lazy : (ask .muxLock).Obeys (lazyInit b) .known fun _ l => l = .known :=
  ⟨.inl rfl, fun _ _ h => h⟩

theorem load_lazy : (ask (.load mq)).Obeys (lazyInit b) .known fun _ l => l = .known :=
  ⟨rfl, fun _ _ h => h⟩

theorem allq_lazy : (ask .allq).Obeys (lazyInit b) .known fun _ l => l = .known :=
  ⟨rfl, fun _ _ h => h⟩

theorem mqCheckInit_lazy : mqCheckInit.Obeys (lazyInit b) .unread fun _ l => l = .known := by
  simp only [mqCheckInit, Prog.request_bind, Prog.obeys_call]
  refine ⟨rfl, ?_⟩
  rintro r l rfl
  cases r with
  | true => simp
  | false => simp [lazyInit]

theorem mqExtractLocked_lazy :
    (mqExtractLocked mq).Obeys (lazyInit b) .known fun _ l => l = .known := by
  simp [mqExtractLocked, lazyInit]

theorem mqFindFrom_lazy (ps : List Ptr) :
    (mqFindFrom name ps).Obeys (lazyInit b) .known fun _ l => l = .known := by
  induction ps with
  | nil => simp [mqFindFrom]
  | cons p ps ih =>
    rw [mqFindFrom]
    apply bind_known load_lazy
    intro obj
    by_cases hname : name = obj.name
    · simp [hname]
    · rw [if_neg hname]
      exact ih

theorem mqFindLocked_lazy :
    (mqFindLocked name).Obeys (lazyInit b) .known fun _ l => l = .known := by
  rw [mqFindLocked]
  exact bind_known allq_lazy mqFindFrom_lazy

theorem mqCloseLocked_lazy :
    (mqCloseLocked mq).Obeys (lazyInit b) .known fun _ l => l = .known := by
  simp [mqCloseLocked, lazyInit]

theorem mqUnlinkLocked_lazy :
    (mqUnlinkLocked mq).Obeys (lazyInit b) .known fun _ l => l = .known := by
  simp [mqUnlinkLocked, lazyInit]

theorem unlockFree_lazy (removed : Bool) :
    (do
      ask .muxUnlock
      if removed = true then
        mqFree mq
      return Status.ok : Prog MqOp MqAns Status).Obeys (lazyInit b) .known
        fun _ l => l = .known := by
  cases removed with
  | true => simp [mqFree, lazyInit]
  | false => simp [lazyInit]

theorem mqClose_lazy : (mqClose mq).Obeys (lazyInit b) .unread fun _ l => l = .known := by
  rw [mqClose]
  apply bind_known mqCheckInit_lazy
  intro _
  apply bind_known muxLock_lazy
  intro _
  apply bind_known mqExtractLocked_lazy
  intro found
  cases found with
  | some mq => exact bind_known mqCloseLocked_lazy unlockFree_lazy
  | none => simp [lazyInit]

theorem mqUnlink_lazy : (mqUnlink name).Obeys (lazyInit b) .unread fun _ l => l = .known := by
  rw [mqUnlink]
  apply bind_known mqCheckInit_lazy
  intro _
  by_cases hv : validateName name = false
  · simp [hv]
  rw [if_neg hv]
  apply bind_known muxLock_lazy
  intro _
  apply bind_known mqFindLocked_lazy
  intro found
  cases found with
  | some mq => exact bind_known mqUnlinkLocked_lazy unlockFree_lazy
  | none => simp [lazyInit]

theorem mqGetattr_lazy : (mqGetattr P mq).Obeys (lazyInit b) .unread fun _ l => l = .known := by
  rw [mqGetattr]
  apply bind_known mqCheckInit_lazy
  intro _
  apply bind_known muxLock_lazy
  intro _
  apply bind_known mqExtractLocked_lazy
  intro found
  cases found with
  | some mq => simp [lazyInit]
  | none => simp [lazyInit]

theorem mqCreateLocked_lazy (oflag : OFlag) (attr : MqAttr) :
    (mqCreateLocked P name oflag attr).Obeys (lazyInit b) .known fun _ l => l = .known := by
  simp only [mqCreateLocked, Prog.request_bind, Prog.obeys_call]
  refine ⟨rfl, ?_⟩
  rintro block l rfl
  cases block with
  | none => simp
  | some mq =>
    simp only [Prog.obeys_call]
    refine ⟨rfl, ?_⟩
    rintro - l rfl
    refine ⟨rfl, ?_⟩
    rintro buf l rfl
    cases buf with
    | none => simp
    | some buf => simp [lazyInit]

theorem mqOpen_lazy (oflag : OFlag) (attr : Option MqAttr) :
    (mqOpen P name oflag attr).Obeys (lazyInit b) .unread fun _ l => l = .known := by
  rw [mqOpen]
  apply bind_known mqCheckInit_lazy
  intro _
  by_cases hv : validateName name = false
  · simp [hv]
  by_cases ha : validateAttr attr = false
  · simp [hv, ha]
  rw [if_neg hv, if_neg ha]
  apply bind_known muxLock_lazy
  intro _
  apply bind_known mqFindLocked_lazy
  intro found
  cases found with
  | some mq => simp [lazyInit]
  | none =>
    rw [Prog.obeys_ite]
    exact ⟨fun _ => mqCreateLocked_lazy oflag _, fun _ => by simp [lazyInit]⟩

theorem getTickTimeout_lazy (flags : OFlag) (timeout : Option Timespec) (ptimeout : ℕ) :
    (getTickTimeout P flags timeout ptimeout).Obeys (lazyInit b) .known
      fun _ l => l = .known := by
  cases timeout with
  | none => simp [getTickTimeout]
  | some timeout => simp [getTickTimeout, lazyInit]

theorem mqPrepare_lazy (msgPtr : Ptr) (badLen : ℕ → Bool) (abstime : Option Timespec) :
    (mqPrepare P mq msgPtr badLen abstime).Obeys (lazyInit false) .unread
      fun _ l => l = .known := by
  simp only [mqPrepare, Prog.obeys_bind, Prog.obeys_request, Prog.obeys_ite, Prog.pure_eq,
    Prog.obeys_ret]
  refine ⟨.inr ⟨rfl, rfl⟩, ?_⟩
  rintro - l rfl
  apply mqExtractLocked_lazy.mono
  rintro found l rfl
  refine ⟨fun _ => ⟨rfl, ?_⟩, fun hret => ⟨fun hok => absurd hok hret, fun _ => ?_⟩⟩
  · rintro obj l rfl
    refine ⟨fun _ => ⟨rfl, ?_⟩, fun _ => by simp [lazyInit]⟩
    rintro obj' l rfl
    apply (getTickTimeout_lazy obj'.flags abstime 0).mono
    rintro conv l rfl
    simp [lazyInit]
  · simp [lazyInit]

theorem mqTimedsend_lazy (msgPtr : Ptr) (msgLen : ℕ) (abstime : Option Timespec) :
    (mqTimedsend P mq msgPtr msgLen abstime).Obeys (lazyInit false) .unread
      fun _ l => l = .known := by
  rw [mqTimedsend]
  apply bind_known (mqPrepare_lazy msgPtr _ abstime)
  intro conv
  simp [mqFailure, lazyInit]

theorem mqTimedreceive_lazy (msgPtr : Ptr) (msgLen : ℕ) (abstime : Option Timespec) :
    (mqTimedreceive P mq msgPtr msgLen abstime).Obeys (lazyInit false) .unread
      fun _ l => l = .known := by
  rw [mqTimedreceive]
  apply bind_known (mqPrepare_lazy msgPtr _ abstime)
  intro conv
  simp [mqFailure, lazyInit]

theorem mqCode_lazy (k : MqCall) :
    (mqCode P k).Obeys (lazyInit (checksInit k)) .unread fun _ l => l = .known := by
  cases k with
  | mqOpen name oflag attr =>
    rw [mqCode, Prog.obeys_bind]
    exact mqOpen_lazy oflag attr
  | mqClose mq =>
    rw [mqCode, Prog.obeys_bind]
    exact mqClose_lazy
  | mqUnlink name =>
    rw [mqCode, Prog.obeys_bind]
    exact mqUnlink_lazy
  | mqGetattr mq =>
    rw [mqCode, Prog.obeys_bind]
    exact mqGetattr_lazy
  | mqTimedsend mq msgPtr msgLen abstime =>
    rw [mqCode, Prog.obeys_bind]
    exact mqTimedsend_lazy msgPtr msgLen abstime
  | mqTimedreceive mq msgPtr msgLen abstime =>
    rw [mqCode, Prog.obeys_bind]
    exact mqTimedreceive_lazy msgPtr msgLen abstime
  | mqSend mq msgPtr msgLen =>
    rw [mqCode, Prog.obeys_bind]
    exact mqTimedsend_lazy msgPtr msgLen none
  | mqReceive mq msgPtr msgLen =>
    rw [mqCode, Prog.obeys_bind]
    exact mqTimedreceive_lazy msgPtr msgLen none

end Calls

def Phase.next : Phase → Option MqOp
  | .absent => some .llInit
  | .listed => some .mutInit
  | .muxed => some .storeInited
  | _ => none

def Phase.Shows (log : List MqOp) : Phase → Prop
  | .unread => True
  | .absent => .muxLock ∉ log
  | .listed => .muxLock ∉ log ∧ .llInit ∈ log
  | .muxed | .known => SetUp log

def Stands (log : List MqOp) (ph : Phase) : Option (MqCall × Prog MqOp MqAns MqRes) → Prop
  | none => True
  | some (k, q) => q.Obeys (lazyInit (checksInit k)) ph (fun _ l => l = .known) ∧ ph.Shows log

structure Staged (l : T → Phase) (p : MqPool T) : Prop where
  once : InitOnce p
  inited : p.shared.1.inited = true → SetUp p.shared.2
  setUp : .mutInit ∈ p.shared.2 → Initialised p
  threads : ∀ t, Stands p.shared.2 (l t) (p.thread t)

section Phases
variable {log : List MqOp} {e : MqOp} {ph : Phase} {b : Bool} {q : Prog MqOp MqAns MqRes}

theorem SetUp.concat (h : SetUp log) : SetUp (log ++ [e]) :=
  ⟨List.mem_append_left _ h.1, List.mem_append_left _ h.2⟩

theorem Phase.Shows.concat (h : ph.Shows log)
    (he : e = .muxLock → ph ≠ .absent ∧ ph ≠ .listed) : ph.Shows (log ++ [e]) := by
  cases ph with
  | unread => trivial
  | absent =>
    have hne : e ≠ .muxLock := fun heq => (he heq).1 rfl
    simpa [Shows, hne.symm] using h
  | listed =>
    have hne : e ≠ .muxLock := fun heq => (he heq).2 rfl
    exact ⟨by simpa [hne.symm] using h.1, List.mem_append_left _ h.2⟩
  | muxed => exact SetUp.concat h
  | known => exact SetUp.concat h

theorem safe_next (hs : (lazyInit b).safe ph e) {e' : MqOp} (hn : ph.next = some e') :
    e' = e := by
  cases e with
  | muxLock =>
    rcases hs with rfl | ⟨rfl, -⟩
    · cases hn
    · cases hn
  | llInit =>
    cases hs
    cases hn
    rfl
  | mutInit =>
    cases hs
    cases hn
    rfl
  | storeInited =>
    cases hs
    cases hn
    rfl
  | _ =>
    cases hs
    cases hn

theorem obeys_next (h : q.Obeys (lazyInit b) ph fun _ l => l = .known) (hn : ph.next = some e) :
    ∃ f, q = .call e f := by
  cases q with
  | ret v =>
    obtain rfl : ph = .known := h
    cases hn
  | call e' f =>
    obtain rfl := safe_next h.1 hn
    exact ⟨f, rfl⟩

end Phases

section Steps
variable {relock : Bool} {P : Platform} {t u : T} {k : MqCall} {c : Env} {e : MqOp} {r : MqAns e}
  {s : Registry T} {p : MqPool T} {l : T → Phase} {f : MqAns e → Prog MqOp MqAns MqRes}

theorem mqExec_inited {s' : Registry T} (h : mqExec relock P t c e s = some (r, s')) :
    s'.inited = true ↔ s.inited = true ∨ e = .storeInited := by
  cases e with
  | storeInited =>
    cases h
    simp
  | muxLock =>
    obtain ⟨m, rfl⟩ := muxLock_some h
    simp
  | allocQueue =>
    obtain ⟨live, -, rfl⟩ := allocate_grows h
    simp
  | allocBuf sz =>
    obtain ⟨live, -, rfl⟩ := allocate_grows h
    simp
  | mqPut mq msg ticks =>
    obtain ⟨f, rfl⟩ := mqPut_some h
    simp [Registry.modify]
  | mqGet mq msg ticks =>
    obtain ⟨f, rfl⟩ := mqGet_some h
    simp [Registry.modify]
  | _ =>
    cases h
    simp [Registry.modify, Registry.unlink, Registry.release]

theorem Initialised.set (h : Initialised p) {s : Registry T × List MqOp}
    {x : Option (MqCall × Prog MqOp MqAns MqRes)}
    (hs : p.shared.1.inited = true ∨ p.request t = some .storeInited → s.1.inited = true) :
    Initialised (p.set s t x) := by
  rcases h with hi | ⟨u, hu⟩
  · exact .inl (hs (.inl hi))
  · by_cases hut : u = t
    · subst hut
      exact .inl (hs (.inr hu))
    · exact .inr ⟨u, by rw [Pool.set_request_of_ne p s hut, hu]⟩

theorem staged_set {s : Registry T × List MqOp} {ph : Phase}
    {x : Option (MqCall × Prog MqOp MqAns MqRes)} (ho : Along Timely s.2)
    (hi : s.1.inited = true → SetUp s.2) (hm : .mutInit ∈ s.2 → Initialised (p.set s t x))
    (hx : Stands s.2 ph x) (hu : ∀ u, u ≠ t → Stands s.2 (l u) (p.thread u)) :
    Staged (Function.update l t ph) (p.set s t x) := by
  refine ⟨ho, hi, hm, fun u => ?_⟩
  by_cases hut : u = t
  · subst hut
    simpa using hx
  · rw [Pool.set_thread_of_ne p s hut, Function.update_of_ne hut]
    exact hu u hut

omit [DecidableEq T] in
theorem Staged.setUp_of_initialised (h : Staged l p) (hi : Initialised p) : SetUp p.shared.2 := by
  rcases hi with hi | ⟨u, hu⟩
  · exact h.inited hi
  · obtain ⟨k, f, ht⟩ := Pool.request_eq.mp hu
    have hstands := h.threads u
    rw [ht] at hstands
    obtain ⟨⟨hsafe, -⟩, hshows⟩ := hstands
    have hph : l u = .muxed := hsafe
    rwa [hph] at hshows

omit [DecidableEq T] in
theorem Staged.timely (h : Staged l p) (ht : p.thread t = some (k, .call e f))
    (hok : Orderly p (.run t c)) : Timely p.shared.2 e := by
  have hreq : p.request t = some e := Pool.request_eq.mpr ⟨k, f, ht⟩
  have hstands := h.threads t
  rw [ht] at hstands
  obtain ⟨⟨hsafe, -⟩, hshows⟩ := hstands
  cases e with
  | muxLock =>
    rcases hsafe with hph | ⟨-, hchecks⟩
    · rwa [hph] at hshows
    · exact h.setUp_of_initialised ((hok.2 hreq).1 (by simp [Unchecked, ht, hchecks]))
  | allq =>
    have hph : l t = .known := hsafe
    rwa [hph] at hshows
  | llInit =>
    have hph : l t = .absent := hsafe
    rwa [hph] at hshows
  | mutInit =>
    have hph : l t = .listed := hsafe
    rw [hph] at hshows
    exact hshows.1
  | _ => trivial

omit [DecidableEq T] in
theorem Staged.answered (h : Staged l p) (ht : p.thread t = some (k, .call e f))
    (hok : Orderly p (.run t c)) (hr : e = .loadInited → HEq r p.shared.1.inited) :
    ∃ ph, (lazyInit (checksInit k)).after (l t) e r ph ∧ ph.Shows (p.shared.2 ++ [e]) := by
  have hreq : p.request t = some e := Pool.request_eq.mpr ⟨k, f, ht⟩
  have htimely := h.timely ht hok
  have hstands := h.threads t
  rw [ht] at hstands
  obtain ⟨⟨hsafe, -⟩, hshows⟩ := hstands
  cases e with
  | loadInited =>
    obtain rfl : r = p.shared.1.inited := eq_of_heq (hr rfl)
    cases hi : p.shared.1.inited with
    | true => exact ⟨.known, rfl, (h.inited hi).concat⟩
    | false =>
      have hfree : .muxLock ∉ p.shared.2 := (hok.1 hreq).resolve_left (by simp [hi])
      exact ⟨.absent, rfl, by simpa [Phase.Shows] using hfree⟩
  | llInit => exact ⟨.listed, rfl, by simpa [Timely] using htimely, by simp⟩
  | mutInit =>
    have hph : l t = .listed := hsafe
    rw [hph] at hshows
    exact ⟨.muxed, rfl, List.mem_append_left _ hshows.2, by simp⟩
  | storeInited =>
    have hph : l t = .muxed := hsafe
    rw [hph] at hshows
    exact ⟨.known, rfl, SetUp.concat hshows⟩
  | muxLock => exact ⟨.known, rfl, SetUp.concat htimely⟩
  | _ =>
    have hph : l t = .known := hsafe
    rw [hph] at hshows
    exact ⟨.known, rfl, SetUp.concat hshows⟩

theorem Staged.run (h : Staged l p) (ht : p.thread t = some (k, .call e f))
    (hok : Orderly p (.run t c)) (hx : mqExec relock P t c e p.shared.1 = some (r, s)) :
    ∃ ph, Staged (Function.update l t ph) (p.set (s, p.shared.2 ++ [e]) t (some (k, f r))) := by
  have hreq : p.request t = some e := Pool.request_eq.mpr ⟨k, f, ht⟩
  have hinited := mqExec_inited hx
  have hr (he : e = .loadInited) : HEq r p.shared.1.inited := by
    subst he
    cases hx
    rfl
  obtain ⟨ph, hafter, hshows⟩ := h.answered (r := r) ht hok hr
  have hstands := h.threads t
  rw [ht] at hstands
  have hobeys : (f r).Obeys (lazyInit (checksInit k)) ph fun _ l => l = .known :=
    hstands.1.2 r ph hafter
  refine ⟨ph, staged_set (along_concat.mpr ⟨h.once, h.timely ht hok⟩) ?_ ?_ ⟨hobeys, hshows⟩ ?_⟩
  · intro hi
    rcases hinited.mp hi with hi | rfl
    · exact (h.inited hi).concat
    · have hph : l t = .muxed := hstands.1.1
      have hmuxed := hstands.2
      rw [hph] at hmuxed
      exact SetUp.concat hmuxed
  · intro hm
    rcases List.mem_append.mp hm with hm | hm
    · refine (h.setUp hm).set fun hi => hinited.mpr ?_
      rcases hi with hi | hi
      · exact .inl hi
      · exact .inr (Option.some.inj (hreq.symm.trans hi))
    · obtain rfl : .mutInit = e := by simpa using hm
      obtain rfl : ph = .muxed := hafter
      obtain ⟨g, hg⟩ := obeys_next hobeys rfl
      exact .inr ⟨t, Pool.request_eq.mpr ⟨k, g, by rw [Pool.set_thread_self, hg]⟩⟩
  · intro u hu
    have hother := h.threads u
    rcases hq : p.thread u with _ | ⟨k', q⟩
    · trivial
    rw [hq] at hother
    refine ⟨hother.1, hother.2.concat ?_⟩
    rintro rfl
    have hidle := (hok.2 hreq).2 u
    constructor
    · intro hph
      rw [hph] at hother
      obtain ⟨g, rfl⟩ := obeys_next hother.1 rfl
      exact hidle (.inl (Pool.request_eq.mpr ⟨k', g, hq⟩))
    · intro hph
      rw [hph] at hother
      obtain ⟨g, rfl⟩ := obeys_next hother.1 rfl
      exact hidle (.inr (Pool.request_eq.mpr ⟨k', g, hq⟩))

theorem Staged.next {p' : MqPool T} {a : Action T Env MqCall} (h : Staged l p)
    (hok : Orderly p a) (hstep : step (recordedCalls relock P) p a = some p') :
    ∃ l', Staged l' p' := by
  cases a with
  | enter t k =>
    obtain ⟨ht, s, hs, rfl⟩ := step_enter.mp hstep
    cases hs
    have hfirst : Stands p.shared.2 .unread (some (k, mqCode P k)) := ⟨mqCode_lazy k, trivial⟩
    refine ⟨_, staged_set h.once h.inited (fun hm => (h.setUp hm).set fun hi => ?_) hfirst
      fun u _ => h.threads u⟩
    rcases hi with hi | hi
    · exact hi
    · simp [Pool.request, ht] at hi
  | leave t =>
    obtain ⟨k, v, ht, rfl⟩ := step_leave.mp hstep
    have hlast : Stands p.shared.2 .known none := trivial
    refine ⟨_, staged_set h.once h.inited (fun hm => (h.setUp hm).set fun hi => ?_) hlast
      fun u _ => h.threads u⟩
    rcases hi with hi | hi
    · exact hi
    · simp [Pool.request, ht] at hi
  | run t c =>
    obtain ⟨k, e, f, ht, r, s, hs, rfl⟩ := step_run.mp hstep
    obtain ⟨hx, hlog⟩ := traced_some.mp hs
    obtain ⟨ph, hstaged⟩ := h.run ht hok hx
    rw [← hlog] at hstaged
    exact ⟨_, hstaged⟩

end Steps

structure Clean (p : MqPool T) : Prop where
  once : InitOnce p
  idle : .muxLock ∈ p.shared.2 → ∀ t, ¬ Initialising p t

section Runs
variable {relock : Bool} {P : Platform} {t : T} {p p' : MqPool T} {a : Action T Env MqCall}
  {as : List (Action T Env MqCall)} {l : T → Phase}

omit [DecidableEq T] in
theorem Staged.clean (h : Staged l p) : Clean p := by
  refine ⟨h.once, fun hlock t ht => ?_⟩
  have hstands := h.threads t
  rcases ht with ht | ht
  · obtain ⟨k, f, hq⟩ := Pool.request_eq.mp ht
    rw [hq] at hstands
    have hph : l t = .absent := hstands.1.1
    have hshows := hstands.2
    rw [hph] at hshows
    exact hshows hlock
  · obtain ⟨k, f, hq⟩ := Pool.request_eq.mp ht
    rw [hq] at hstands
    have hph : l t = .listed := hstands.1.1
    have hshows := hstands.2
    rw [hph] at hshows
    exact hshows.1 hlock

/-- A disorderly step breaks the order at once, or leaves a thread behind that will. -/
theorem Staged.disorder (h : Staged l p) (hno : ¬ Orderly p a)
    (hstep : step (recordedCalls relock P) p a = some p') : ¬ Clean p' := by
  intro hclean
  cases a with
  | enter t k => exact hno trivial
  | leave t => exact hno trivial
  | run t c =>
    obtain ⟨k, e, f, ht, r, ⟨s, log⟩, hs, rfl⟩ := step_run.mp hstep
    have hreq : p.request t = some e := Pool.request_eq.mpr ⟨k, f, ht⟩
    obtain ⟨hx, hlog : log = _⟩ := traced_some.mp hs
    subst hlog
    refine hno ⟨fun he => ?_, fun he => ⟨fun _ => ?_, fun u hu => ?_⟩⟩
    · obtain rfl : e = .loadInited := Option.some.inj (hreq.symm.trans he)
      obtain ⟨rfl, rfl⟩ : p.shared.1.inited = r ∧ p.shared.1 = s := by simpa [mqExec] using hx
      by_contra hor
      obtain ⟨hi, hlock⟩ := not_or.mp hor
      rw [not_not] at hlock
      have hstands := h.threads t
      rw [ht] at hstands
      have habsent : (f p.shared.1.inited).Obeys (lazyInit (checksInit k)) .absent
          fun _ l => l = .known := hstands.1.2 _ _ (by simp [lazyInit, hi])
      obtain ⟨g, hg⟩ := obeys_next habsent rfl
      refine hclean.idle (List.mem_append_left _ hlock) t (.inl ?_)
      exact Pool.request_eq.mpr ⟨k, g, by rw [Pool.set_thread_self, hg]⟩
    · obtain rfl : e = .muxLock := Option.some.inj (hreq.symm.trans he)
      exact h.setUp (along_concat.mp hclean.once).2.2
    · obtain rfl : e = .muxLock := Option.some.inj (hreq.symm.trans he)
      have hut : u ≠ t := by
        rintro rfl
        simp [Initialising, hreq] at hu
      refine hclean.idle (List.mem_append_right _ (List.mem_singleton_self _)) u ?_
      rwa [Initialising, Pool.set_request_of_ne _ _ hut]

theorem log_step (hstep : step (recordedCalls relock P) p a = some p') :
    p.shared.2 <+: p'.shared.2 := by
  cases a with
  | enter t k =>
    obtain ⟨-, s, hs, rfl⟩ := step_enter.mp hstep
    cases hs
    exact List.prefix_refl _
  | leave t =>
    obtain ⟨k, v, -, rfl⟩ := step_leave.mp hstep
    exact List.prefix_refl _
  | run t c =>
    obtain ⟨k, e, f, -, r, s, hs, rfl⟩ := step_run.mp hstep
    rw [Pool.set_shared, (traced_some.mp hs).2]
    exact List.prefix_append _ _

theorem log_execute (hrun : execute (step (recordedCalls relock P)) p as = some p') :
    p.shared.2 <+: p'.shared.2 := by
  have hstep (q : MqPool T) (a : Action T Env MqCall) (q' : MqPool T)
      (h : p.shared.2 <+: q.shared.2) (hs : step (recordedCalls relock P) q a = some q') :
      p.shared.2 <+: q'.shared.2 := h.trans (log_step hs)
  exact execute_always hstep (List.prefix_refl _) hrun

/-- A thread that sets something up next does so before anything else happens to it. -/
theorem initialising_step (ht : Initialising p t)
    (hstep : step (recordedCalls relock P) p a = some p') :
    Initialising p' t ∨ p'.shared.2 = p.shared.2 ++ [.llInit] ∨
      p'.shared.2 = p.shared.2 ++ [.mutInit] := by
  have hbusy {u : T} (hu : u ≠ t) {s : Registry T × List MqOp}
      {x : Option (MqCall × Prog MqOp MqAns MqRes)} : Initialising (p.set s u x) t := by
    rwa [Initialising, Pool.set_request_of_ne _ _ hu.symm]
  cases a with
  | enter u k =>
    obtain ⟨hq, s, -, rfl⟩ := step_enter.mp hstep
    refine .inl (hbusy ?_)
    rintro rfl
    simp [Initialising, Pool.request, hq] at ht
  | leave u =>
    obtain ⟨k, v, hq, rfl⟩ := step_leave.mp hstep
    refine .inl (hbusy ?_)
    rintro rfl
    simp [Initialising, Pool.request, hq] at ht
  | run u c =>
    obtain ⟨k, e, f, hq, r, s, hs, rfl⟩ := step_run.mp hstep
    by_cases hut : u = t
    · subst hut
      have hreq : p.request u = some e := Pool.request_eq.mpr ⟨k, f, hq⟩
      rw [Pool.set_shared, (traced_some.mp hs).2]
      rw [Initialising, hreq] at ht
      rcases ht with ht | ht
      · cases ht
        exact .inr (.inl rfl)
      · cases ht
        exact .inr (.inr rfl)
    · exact .inl (hbusy hut)

/-- Once the lock has been taken, a thread that sets something up next breaks the order. -/
theorem initialising_breaks (hlock : .muxLock ∈ p.shared.2) (ht : Initialising p t)
    (hrun : execute (step (recordedCalls relock P)) p as = some p')
    (hend : ¬ Initialising p' t) : ¬ InitOnce p' := by
  induction as generalizing p with
  | nil =>
    cases hrun
    exact absurd ht hend
  | cons a as ih =>
    obtain ⟨u, hu, hrest⟩ := execute_cons.mp hrun
    have hlate {e : MqOp} (he : ¬ Timely p.shared.2 e) (heq : u.shared.2 = p.shared.2 ++ [e]) :
        ¬ InitOnce p' := by
      intro honce
      have hu' := Along.of_prefix honce (log_execute hrest)
      rw [heq, along_concat] at hu'
      exact he hu'.2
    rcases initialising_step ht hu with hinit | hinit | hinit
    · exact ih ((log_step hu).subset hlock) hinit hrest
    · exact hlate (e := .llInit) (fun hn => hn hlock) hinit
    · exact hlate (e := .mutInit) (fun hn => hn hlock) hinit

/-- A run that keeps the order to its end, where nobody is setting anything up, was clean. -/
theorem clean_throughout (hrun : execute (step (recordedCalls relock P)) p as = some p')
    (honce : InitOnce p') (hend : ∀ t, ¬ Initialising p' t) :
    Throughout (step (recordedCalls relock P)) Clean p as := by
  have hclean {q : MqPool T} {bs : List (Action T Env MqCall)}
      (hq : execute (step (recordedCalls relock P)) q bs = some p') : Clean q :=
    ⟨Along.of_prefix honce (log_execute hq),
      fun hlock t ht => initialising_breaks hlock ht hq (hend t) honce⟩
  induction as generalizing p with
  | nil => exact hclean hrun
  | cons a as ih =>
    refine ⟨hclean hrun, fun u hu => ?_⟩
    obtain ⟨v, hv, hrest⟩ := execute_cons.mp hrun
    obtain rfl : v = u := Option.some.inj (hv.symm.trans hu)
    exact ih hrest

omit [DecidableEq T] in
theorem start_staged {r : Registry T} (hi : r.inited = false) :
    Staged (fun _ => .unread) (idlePool (r, []) : MqPool T) :=
  ⟨along_nil, fun h => absurd h (by simp [idlePool, hi]), fun h => by simp [idlePool] at h,
    fun _ => trivial⟩

/-- The initialisation happens once and before use in every orderly run, however many threads
there are. Only such runs keep that order to an end at which nobody is initialising. -/
theorem lazyInit_iff (relock : Bool) (P : Platform) (r : Registry T) (hi : r.inited = false)
    (as : List (Action T Env MqCall)) :
    (Meets (step (recordedCalls relock P)) Orderly (idlePool (r, [])) as →
      Throughout (step (recordedCalls relock P)) InitOnce (idlePool (r, [])) as) ∧
    ∀ p, execute (step (recordedCalls relock P)) (idlePool (r, [])) as = some p →
      (∀ t, ¬ Initialising p t) →
      (Throughout (step (recordedCalls relock P)) InitOnce (idlePool (r, [])) as ↔
        Meets (step (recordedCalls relock P)) Orderly (idlePool (r, [])) as) := by
  have hstart : ∃ l, Staged l (idlePool (r, []) : MqPool T) := ⟨_, start_staged hi⟩
  have hstep (p : MqPool T) (a : Action T Env MqCall) (p' : MqPool T) (h : ∃ l, Staged l p)
      (hok : Orderly p a) (hs : step (recordedCalls relock P) p a = some p') :
      ∃ l, Staged l p' := by
    obtain ⟨l, hl⟩ := h
    exact hl.next hok hs
  have hsufficient : Meets (step (recordedCalls relock P)) Orderly (idlePool (r, [])) as →
      Throughout (step (recordedCalls relock P)) InitOnce (idlePool (r, [])) as :=
    throughout_of_invariant hstep (fun p ⟨l, hl⟩ => hl.once) hstart
  refine ⟨hsufficient, fun p hrun hend => ⟨fun honce => ?_, hsufficient⟩⟩
  have hclean := clean_throughout hrun (honce.last hrun) hend
  refine (throughout_iff_meets hstep (fun p ⟨l, hl⟩ => hl.clean) ?_ hstart hrun).mp hclean
  rintro p a p' ⟨l, hl⟩ hno hs
  exact hl.disorder hno hs

def unset : Registry Bool := ⟨false, mutInit, [], fun _ => zeroQueue, ∅⟩

/-- One thread asks for the attributes of a queue, and another one sends when the first one
has done all but set `inited`. -/
def checkThenSend : List (Action Bool Env MqCall) :=
  .enter false (.mqGetattr 1) :: List.replicate 3 (.run false someEnv) ++
    .enter true (.mqSend 1 0 4) :: List.replicate 2 (.run true someEnv)

theorem lazyInit_checkThenSend :
    Throughout (step (recordedCalls true platform1000)) InitOnce (idlePool (unset, []))
      checkThenSend ∧
    (execute (step (recordedCalls true platform1000)) (idlePool (unset, []))
      checkThenSend).map (fun p => p.shared.2) =
        some [.loadInited, .llInit, .mutInit, .muxLock, .allq] := by
  refine ⟨(lazyInit_iff true platform1000 unset rfl checkThenSend).1 ?_, by decide +kernel⟩
  decide +kernel

def sendFirst : List (Action Bool Env MqCall) :=
  [.enter false (.mqSend 1 0 4), .run false someEnv]

/-- Two threads find `inited` to be 0, and the second one starts to initialise when the first
one has taken the lock. -/
def checkTwice : List (Action Bool Env MqCall) :=
  .enter false (.mqGetattr 1) :: .enter true (.mqGetattr 1) :: .run true someEnv ::
    List.replicate 5 (.run false someEnv) ++ [.run true someEnv]

/-- A send locks before anything has been set up, and a second thread in `mq_check_init` empties
the list under the lock of the first. -/
theorem mqSend_unset :
    (∃ p, execute (step (recordedCalls true platform1000)) (idlePool (unset, [])) sendFirst =
      some p ∧ ¬ InitOnce p) ∧
    ∃ p, execute (step (recordedCalls true platform1000)) (idlePool (unset, [])) checkTwice =
      some p ∧ ¬ InitOnce p := by
  have hsend : (execute (step (recordedCalls true platform1000)) (idlePool (unset, []))
      sendFirst).map (fun p => p.shared.2) = some ([] ++ [.muxLock]) := by
    decide +kernel
  have htwice : (execute (step (recordedCalls true platform1000)) (idlePool (unset, []))
      checkTwice).map (fun p => p.shared.2) =
        some ([.loadInited, .loadInited, .llInit, .mutInit, .storeInited, .muxLock] ++
          [.llInit]) := by
    decide +kernel
  obtain ⟨p, hrun, hp⟩ := Option.map_eq_some_iff.mp hsend
  obtain ⟨p', hrun', hp'⟩ := Option.map_eq_some_iff.mp htwice
  refine ⟨⟨p, hrun, fun h => ?_⟩, p', hrun', fun h => ?_⟩
  · rw [InitOnce, hp, along_concat] at h
    simp [Timely, SetUp] at h
  · rw [InitOnce, hp', along_concat] at h
    simp [Timely] at h

end Runs

end LibPosix.MqueueInit
