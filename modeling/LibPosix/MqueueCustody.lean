import LibPosix.MqueueRegistry
import LibPosix.ThreadPool

/-! Threads that call the message queue functions in any order. A queue that has been taken from
the list is in the custody of the thread that took it until that thread has freed it, and the
bookkeeping of the list changes only at the hands of the thread that holds the lock. -/
namespace LibPosix.MqueueCustody
open Program ThreadPool Transition TimeUtils Kernel MachineInt Mqueue MqueueCalls
open MqueueRegistry (MqCall MqRes mqCode)
variable {T : Type} [DecidableEq T]

/-- The registry, and who does what with it: the call each thread is in, the open descriptors,
the queue a thread has taken from the list and not yet freed, the block it has allocated last,
and the queues that have been freed. -/
structure Custody (T : Type) where
  reg : Registry T
  call : T → Option MqCall
  descs : List (T × Ptr)
  doomed : T → Option Ptr
  fresh : T → Option Ptr
  freed : List Ptr

namespace Custody

@[simps] def withReg (r : Registry T) (s : Custody T) : Custody T := { s with reg := r }

@[simps] def setCall (t : T) (k : Option MqCall) (s : Custody T) : Custody T :=
  { s with call := Function.update s.call t k }

@[simps] def setDescs (d : List (T × Ptr)) (s : Custody T) : Custody T := { s with descs := d }

@[simps] def doom (t : T) (mq : Ptr) (s : Custody T) : Custody T :=
  { s with doomed := Function.update s.doomed t (some mq) }

@[simps] def bury (t : T) (mq : Ptr) (s : Custody T) : Custody T :=
  { s with doomed := Function.update s.doomed t none, freed := s.freed ++ [mq] }

@[simps] def setFresh (t : T) (b : Option Ptr) (s : Custody T) : Custody T :=
  { s with fresh := Function.update s.fresh t b }

/-- A descriptor is open from the store of `open_count` in `mq_open` to the one in
`mq_close`. -/
def recount (t : T) (mq : Ptr) (s : Custody T) : List (T × Ptr) :=
  match s.call t with
  | some (.mqClose _) => s.descs.erase (t, mq)
  | _ => (t, mq) :: s.descs

def track (t : T) : (e : MqOp) → MqAns e → Custody T → Custody T
  | .storeOpenCount mq _, _, s => s.setDescs (s.recount t mq)
  | .lleDel mq, _, s => s.doom t mq
  | .free .POSIX_MQUEUE mq, _, s => s.bury t mq
  | .allocQueue, r, s => s.setFresh t r
  | _, _, s => s

end Custody

def custodyExec (relock : Bool) (P : Platform) (t : T) (e : MqOp) (c : Env) (s : Custody T) :
    Option (MqAns e × Custody T) :=
  (mqExec relock P t c e s.reg).map fun r => (r.1, (s.track t e r.1).withReg r.2)

def mqThreads (relock : Bool) (P : Platform) (admits : Custody T → T → MqCall → Bool) :
    System T MqOp MqAns Env (Custody T) MqCall MqRes where
  code _ k := mqCode P k
  exec := custodyExec relock P
  enter t k s := if admits s t k = true then some (s.setCall t (some k)) else none
  leave t _ _ s := s.setCall t none

structure Book where
  allq : List Ptr
  name : Ptr → CString
  count : Ptr → ℕ

namespace Book

def find (name : CString) (b : Book) : Option Ptr := b.allq.find? fun p => name = b.name p

@[simps] def unlink (mq : Ptr) (b : Book) : Book := { b with allq := b.allq.erase mq }

@[simps] def setCount (mq : Ptr) (n : ℕ) (b : Book) : Book :=
  { b with count := Function.update b.count mq n }

def target (b : Book) : MqCall → Option Ptr
  | .mqOpen name .. => b.find name
  | .mqUnlink name => b.find name
  | k => k.queue

end Book

/-- What a thread knows: its call, how often it holds the lock, the book while it does, and
the blocks it has to look after. -/
structure Local where
  call : Option MqCall
  depth : ℕ
  book : Option Book
  doomed : Option Ptr
  fresh : Option Ptr

/-- The value a call may store in the count of a queue on the list. -/
def NewCount (b : Book) (mq : Ptr) (n : ℕ) : MqCall → Prop
  | .mqOpen .. => n = unsigned 16 (b.count mq + 1)
  | .mqClose _ => b.count mq = n + 1
  | _ => False

/-- The thread holds the lock, and its call addresses this queue. -/
def Addresses (l : Local) (b : Book) (k : MqCall) (mq : Ptr) : Prop :=
  l.book = some b ∧ l.call = some k ∧ b.target k = some mq

def Builds (l : Local) (mq : Ptr) : Prop := 0 < l.depth ∧ l.fresh = some mq

def opens : MqCall → Bool
  | .mqOpen .. => true
  | _ => false

def custody (creating : Prop) : Protocol MqOp MqAns Local where
  safe
    | _, .llInit | _, .mutInit | _, .storeInited => False
    | l, .muxUnlock => 0 < l.depth
    | l, .storeOpenCount mq n => (∃ b k, Addresses l b k mq ∧ mq ∈ b.allq ∧ NewCount b mq n k) ∨
        Builds l mq ∧ ∃ k, l.call = some k ∧ opens k = true
    | l, .storePendingUnlink mq => ∃ b k, Addresses l b k mq
    | l, .lleDel mq => ∃ b k, Addresses l b k mq ∧ mq ∈ b.allq ∧ b.count mq = 0
    | l, .allocQueue => creating ∧ 0 < l.depth
    | l, .clearQueue mq | l, .storeBuf mq _ | l, .storeName mq _ | l, .storeFlags mq _
    | l, .lleInit mq | l, .mqInit mq _ _ _ => Builds l mq
    | l, .free type mq => type = .POSIX_MQUEUE → l.doomed = some mq
    | _, _ => True
  after
    | l, .loadInited, r, l' => r = true ∧ l' = l
    | l, .muxLock, _, l' => ∃ b, l' = { l with depth := l.depth + 1, book := some b }
    | l, .muxUnlock, _, l' => ∃ b, l' = { l with depth := l.depth - 1, book := b }
    | l, .allq, r, l' => l' = l ∧ ∀ b, l.book = some b → r = b.allq
    | l, .load mq, r, l' => l' = l ∧
        ∀ b, l.book = some b → r.name = b.name mq ∧ r.openCount = b.count mq
    | l, .storeOpenCount mq n, _, l' => l' = { l with book := l.book.map (·.setCount mq n) }
    | l, .lleDel mq, _, l' =>
      l' = { l with book := l.book.map (·.unlink mq), doomed := some mq }
    | l, .free type _, _, l' =>
      l' = if type = .POSIX_MQUEUE then { l with doomed := none } else l
    | l, .allocQueue, r, l' => l' = { l with fresh := r }
    | l, .clearQueue _, _, l' | l, .storeName _ _, _, l' => ∃ b, l' = { l with book := b }
    | l, _, _, l' => l' = l

section Calls
variable {cr : Prop} {P : Platform} {l : Local} {b : Book} {mq : Ptr} {name : CString}

theorem mqCheckInit_custody : mqCheckInit.Obeys (custody cr) l fun _ l' => l' = l := by
  simp [mqCheckInit, custody]

theorem mqExtractLocked_custody (hb : l.book = some b) :
    (mqExtractLocked mq).Obeys (custody cr) l
      fun r l' => l' = l ∧ r = if mq ∈ b.allq then some mq else none := by
  simp [mqExtractLocked, custody, hb, find_self]

theorem mqFindFrom_custody (hb : l.book = some b) (ps : List Ptr) :
    (mqFindFrom name ps).Obeys (custody cr) l
      fun r l' => l' = l ∧ r = ps.find? fun p => name = b.name p := by
  induction ps with
  | nil => simp [mqFindFrom]
  | cons p ps ih =>
    simp only [mqFindFrom, Prog.obeys_bind, Prog.obeys_request, Prog.obeys_ite, Prog.pure_eq,
      Prog.obeys_ret]
    refine ⟨trivial, ?_⟩
    rintro r l' ⟨rfl, hr⟩
    obtain ⟨hname, -⟩ := hr b hb
    rw [hname]
    refine ⟨fun heq => ⟨rfl, by simp [heq]⟩, fun hne => ?_⟩
    rw [List.find?_cons_of_neg (by simpa using hne)]
    exact ih

theorem mqFindLocked_custody (hb : l.book = some b) :
    (mqFindLocked name).Obeys (custody cr) l fun r l' => l' = l ∧ r = b.find name := by
  rw [mqFindLocked, Prog.obeys_bind]
  refine ⟨trivial, ?_⟩
  rintro r l' ⟨rfl, hr⟩
  obtain rfl := hr b hb
  exact mqFindFrom_custody hb b.allq

theorem mqFree_custody (hd : l.doomed = some mq) :
    (mqFree mq).Obeys (custody cr) l fun _ l' => l'.doomed = none := by
  simp [mqFree, custody, hd]

theorem unlockFree_custody {removed : Bool} (hpos : 0 < l.depth)
    (hdoom : l.doomed = if removed = true then some mq else none) :
    (do
      ask .muxUnlock
      if removed = true then
        mqFree mq
      return Status.ok : Prog MqOp MqAns Status).Obeys (custody cr) l
        fun _ l' => l'.doomed = none := by
  simp only [Prog.obeys_bind, Prog.obeys_request, Prog.obeys_ite, Prog.pure_eq, Prog.obeys_ret]
  refine ⟨hpos, ?_⟩
  intro _ l' hl
  obtain ⟨b, rfl⟩ := hl
  constructor
  · intro hr
    rw [if_pos hr] at hdoom
    exact mqFree_custody hdoom
  · intro hr
    rw [if_neg hr] at hdoom
    exact hdoom

def closeCounted (mq : Ptr) : Prog MqOp MqAns Bool := do
  let obj ← ask (.load mq)
  if obj.openCount = 0 then
    if obj.pendingUnlink = true then
      ask (.lleDel mq)
      return true
    else
      ask (.storePendingUnlink mq)
      return false
  else
    return false

theorem mqCloseLocked_eq (mq : Ptr) : mqCloseLocked mq = (do
    let count := (← ask (.load mq)).openCount
    if count > 0 then
      ask (.storeOpenCount mq (count - 1))
    closeCounted mq) := rfl

theorem closeCounted_custody (hb : l.book = some b) (hk : l.call = some (.mqClose mq))
    (hmem : mq ∈ b.allq) (hd : l.doomed = none) (hpos : 0 < l.depth) :
    (closeCounted mq).Obeys (custody cr) l
      fun removed l' => 0 < l'.depth ∧ l'.doomed = if removed = true then some mq else none := by
  simp only [closeCounted, Prog.obeys_bind, Prog.obeys_request, Prog.obeys_ite, Prog.pure_eq,
    Prog.obeys_ret]
  refine ⟨trivial, ?_⟩
  rintro obj l' ⟨rfl, hobj⟩
  obtain ⟨-, hcount⟩ := hobj b hb
  have ha : Addresses l' b (.mqClose mq) mq := ⟨hb, hk, rfl⟩
  refine ⟨fun hz => ⟨fun _ => ⟨⟨b, _, ha, hmem, ?_⟩, ?_⟩, fun _ => ⟨⟨b, _, ha⟩, ?_⟩⟩,
    fun _ => ⟨hpos, by simpa using hd⟩⟩
  · exact hcount.symm.trans hz
  · rintro - l rfl
    exact ⟨hpos, rfl⟩
  · rintro - l rfl
    exact ⟨hpos, by simpa using hd⟩

/-- A queue that `mq_close` has taken from the list is the thread's to free. -/
theorem mqCloseLocked_custody (hb : l.book = some b) (hk : l.call = some (.mqClose mq))
    (hmem : mq ∈ b.allq) (hd : l.doomed = none) (hpos : 0 < l.depth) :
    (mqCloseLocked mq).Obeys (custody cr) l
      fun removed l' => 0 < l'.depth ∧ l'.doomed = if removed = true then some mq else none := by
  rw [mqCloseLocked_eq, Prog.obeys_bind]
  refine ⟨trivial, ?_⟩
  rintro obj l' ⟨rfl, hobj⟩
  obtain ⟨-, hcount⟩ := hobj b hb
  by_cases hpc : obj.openCount > 0
  · have hnew : NewCount b mq (obj.openCount - 1) (.mqClose mq) := by
      simp only [NewCount]
      omega
    simp only [Prog.obeys_ret, if_pos hpc]
    refine ⟨.inl ⟨b, _, ⟨hb, hk, rfl⟩, hmem, hnew⟩, ?_⟩
    rintro - l rfl
    exact closeCounted_custody (b := b.setCount mq (obj.openCount - 1)) (by simp [hb]) hk hmem hd
      hpos
  · simp only [Prog.obeys_ret, if_neg hpc]
    exact closeCounted_custody hb hk hmem hd hpos

theorem mqClose_custody (hk : l.call = some (.mqClose mq)) (hd : l.doomed = none) :
    (mqClose mq).Obeys (custody cr) l fun _ l' => l'.doomed = none := by
  rw [mqClose, Prog.obeys_bind]
  apply mqCheckInit_custody.mono
  rintro - l' rfl
  rw [Prog.obeys_bind, Prog.obeys_request]
  refine ⟨trivial, ?_⟩
  rintro - l ⟨b, rfl⟩
  rw [Prog.obeys_bind]
  apply (mqExtractLocked_custody rfl).mono
  rintro r l ⟨rfl, rfl⟩
  by_cases hmem : mq ∈ b.allq
  · rw [if_pos hmem, Prog.obeys_bind]
    refine Prog.Obeys.mono (mqCloseLocked_custody rfl hk hmem hd (Nat.succ_pos _)) ?_
    intro removed l h
    exact unlockFree_custody h.1 h.2
  · rw [if_neg hmem]
    refine ⟨Nat.succ_pos _, ?_⟩
    rintro - l ⟨b', rfl⟩
    exact hd

theorem mqUnlinkLocked_custody (hb : l.book = some b) (hk : l.call = some (.mqUnlink name))
    (hf : b.find name = some mq) (hd : l.doomed = none) (hpos : 0 < l.depth) :
    (mqUnlinkLocked mq).Obeys (custody cr) l
      fun removed l' => 0 < l'.depth ∧ l'.doomed = if removed = true then some mq else none := by
  have ha : Addresses l b (.mqUnlink name) mq := ⟨hb, hk, hf⟩
  have hmem : mq ∈ b.allq := List.mem_of_find?_eq_some hf
  simp only [mqUnlinkLocked, Prog.obeys_bind, Prog.obeys_request, Prog.obeys_ite, Prog.pure_eq,
    Prog.obeys_ret]
  refine ⟨trivial, ?_⟩
  rintro obj l' ⟨rfl, hobj⟩
  obtain ⟨-, hcount⟩ := hobj b hb
  refine ⟨fun hz => ⟨⟨b, _, ha, hmem, hcount.symm.trans hz⟩, ?_⟩, fun _ => ⟨⟨b, _, ha⟩, ?_⟩⟩
  · rintro - l rfl
    exact ⟨hpos, rfl⟩
  · rintro - l rfl
    exact ⟨hpos, by simpa using hd⟩

theorem mqUnlink_custody (hk : l.call = some (.mqUnlink name)) (hd : l.doomed = none) :
    (mqUnlink name).Obeys (custody cr) l fun _ l' => l'.doomed = none := by
  rw [mqUnlink, Prog.obeys_bind]
  apply mqCheckInit_custody.mono
  rintro - l' rfl
  by_cases hv : validateName name = false
  · rw [if_pos hv]
    exact hd
  rw [if_neg hv, Prog.obeys_bind, Prog.obeys_request]
  refine ⟨trivial, ?_⟩
  rintro - l ⟨b, rfl⟩
  rw [Prog.obeys_bind]
  apply (mqFindLocked_custody rfl).mono
  rintro r l ⟨rfl, hr⟩
  cases r with
  | some mq =>
    rw [Prog.obeys_bind]
    refine Prog.Obeys.mono (mqUnlinkLocked_custody rfl hk hr.symm hd (Nat.succ_pos _)) ?_
    intro removed l h
    exact unlockFree_custody h.1 h.2
  | none =>
    refine ⟨Nat.succ_pos _, ?_⟩
    rintro - l ⟨b', rfl⟩
    exact hd

theorem mqGetattr_custody (hd : l.doomed = none) :
    (mqGetattr P mq).Obeys (custody cr) l fun _ l' => l'.doomed = none := by
  rw [mqGetattr, Prog.obeys_bind]
  apply mqCheckInit_custody.mono
  rintro - l' rfl
  rw [Prog.obeys_bind, Prog.obeys_request]
  refine ⟨trivial, ?_⟩
  rintro - l ⟨b, rfl⟩
  rw [Prog.obeys_bind]
  apply (mqExtractLocked_custody rfl).mono
  rintro r l ⟨rfl, rfl⟩
  by_cases hmem : mq ∈ b.allq
  · simp [hmem, custody]
    intro obj _ _
    exact hd
  · simpa [hmem, custody] using hd

/-- The creating branch writes to its own block only. Its failures keep the lock. -/
theorem mqCreateLocked_custody (hcr : cr) {k : MqCall} (hk : l.call = some k)
    (ho : opens k = true) (hd : l.doomed = none) (hpos : 0 < l.depth) {oflag : OFlag}
    {attr : MqAttr} :
    (mqCreateLocked P name oflag attr).Obeys (custody cr) l fun _ l' => l'.doomed = none := by
  rw [mqCreateLocked, Prog.obeys_bind, Prog.obeys_request]
  refine ⟨⟨hcr, hpos⟩, ?_⟩
  rintro r l' rfl
  cases r with
  | none => exact hd
  | some mq =>
    simp only [Prog.obeys_bind, Prog.obeys_request]
    refine ⟨⟨hpos, rfl⟩, ?_⟩
    rintro - l' ⟨b, rfl⟩
    refine ⟨trivial, ?_⟩
    rintro r l' rfl
    cases r with
    | none => exact hd
    | some buf =>
      simp only [Prog.obeys_bind, Prog.obeys_request, Prog.pure_eq, Prog.obeys_ret]
      refine ⟨⟨hpos, rfl⟩, ?_⟩
      rintro - l' rfl
      refine ⟨trivial, ?_⟩
      rintro - l' rfl
      refine ⟨⟨hpos, rfl⟩, ?_⟩
      rintro - l' ⟨b, rfl⟩
      refine ⟨⟨hpos, rfl⟩, ?_⟩
      rintro - l' rfl
      refine ⟨⟨hpos, rfl⟩, ?_⟩
      rintro - l' rfl
      refine ⟨.inr ⟨⟨hpos, rfl⟩, k, hk, ho⟩, ?_⟩
      rintro - l' rfl
      refine ⟨⟨hpos, rfl⟩, ?_⟩
      rintro - l' rfl
      refine ⟨hpos, ?_⟩
      rintro - l' ⟨b, rfl⟩
      exact hd

theorem mqOpen_custody {oflag : OFlag} {attr : Option MqAttr} (hcr : oflag.O_CREAT = true → cr)
    (hk : l.call = some (.mqOpen name oflag attr)) (hd : l.doomed = none) :
    (mqOpen P name oflag attr).Obeys (custody cr) l fun _ l' => l'.doomed = none := by
  rw [mqOpen, Prog.obeys_bind]
  apply mqCheckInit_custody.mono
  rintro - l' rfl
  by_cases hv : validateName name = false
  · rw [if_pos hv]
    exact hd
  by_cases ha : validateAttr attr = false
  · rw [if_neg hv, if_pos ha]
    exact hd
  rw [if_neg hv, if_neg ha, Prog.obeys_bind, Prog.obeys_request]
  refine ⟨trivial, ?_⟩
  rintro - l ⟨b, rfl⟩
  rw [Prog.obeys_bind]
  apply (mqFindLocked_custody rfl).mono
  rintro r l ⟨rfl, hr⟩
  cases r with
  | some mq =>
    simp only [Prog.obeys_bind, Prog.obeys_request, Prog.obeys_ite, Prog.pure_eq, Prog.obeys_ret]
    refine ⟨fun _ => ⟨Nat.succ_pos _, ?_⟩, fun _ => ⟨trivial, ?_⟩⟩
    · rintro - l ⟨b', rfl⟩
      exact hd
    · rintro obj l ⟨rfl, hobj⟩
      obtain ⟨-, hcount⟩ := hobj b rfl
      have hmem : mq ∈ b.allq := List.mem_of_find?_eq_some hr.symm
      refine ⟨.inl ⟨b, _, ⟨rfl, hk, hr.symm⟩, hmem, ?_⟩, ?_⟩
      · simp only [NewCount, hcount]
      · rintro - l rfl
        refine ⟨Nat.succ_pos _, ?_⟩
        rintro - l ⟨b', rfl⟩
        exact hd
  | none =>
    rw [Prog.obeys_ite]
    refine ⟨fun hc => ?_, fun _ => ⟨Nat.succ_pos _, ?_⟩⟩
    · have hpos : 0 < l'.depth + 1 := Nat.succ_pos _
      exact mqCreateLocked_custody (l := ⟨l'.call, l'.depth + 1, some b, l'.doomed, l'.fresh⟩)
        (hcr hc) hk rfl hd hpos
    · rintro - l ⟨b', rfl⟩
      exact hd

theorem getTickTimeout_custody (flags : OFlag) (timeout : Option Timespec) (ptimeout : ℕ) :
    (getTickTimeout P flags timeout ptimeout).Obeys (custody cr) l fun _ l' => l' = l := by
  cases timeout with
  | none => simp [getTickTimeout]
  | some timeout => simp [getTickTimeout, custody]

theorem mqPrepare_custody (msgPtr : Ptr) (badLen : ℕ → Bool) (abstime : Option Timespec)
    (hd : l.doomed = none) :
    (mqPrepare P mq msgPtr badLen abstime).Obeys (custody cr) l fun _ l' => l'.doomed = none := by
  have hunlock (l₁ : Local) (hl : 0 < l₁.depth ∧ l₁.doomed = none) :
      (custody cr).safe l₁ .muxUnlock ∧ ∀ (r : Unit) (l₂ : Local),
        (custody cr).after l₁ .muxUnlock r l₂ → l₂.doomed = none := by
    refine ⟨hl.1, ?_⟩
    rintro - l₂ ⟨b, rfl⟩
    exact hl.2
  simp only [mqPrepare, Prog.obeys_bind, Prog.obeys_request, Prog.obeys_ite, Prog.pure_eq,
    Prog.obeys_ret]
  refine ⟨trivial, ?_⟩
  rintro - l ⟨b, rfl⟩
  apply (mqExtractLocked_custody rfl).mono
  rintro r l ⟨rfl, -⟩
  have hheld : 0 < l.depth + 1 ∧ l.doomed = none := ⟨Nat.succ_pos _, hd⟩
  refine ⟨fun _ => ⟨trivial, ?_⟩, fun hret => ⟨fun hok => absurd hok hret, fun _ => ?_⟩⟩
  · rintro obj l₁ ⟨rfl, -⟩
    refine ⟨fun _ => ⟨trivial, ?_⟩, fun _ => hunlock _ hheld⟩
    rintro obj' l₁ ⟨rfl, -⟩
    apply (getTickTimeout_custody obj'.flags abstime 0).mono
    rintro conv l₁ rfl
    exact hunlock _ hheld
  · exact hunlock _ hheld

theorem mqFailure_custody (hd : l.doomed = none) :
    (mqFailure mq).Obeys (custody cr) l fun _ l' => l'.doomed = none := by
  simp [mqFailure, custody]
  intro obj _
  exact hd

theorem mqTimedsend_custody (msgPtr : Ptr) (msgLen : ℕ) (abstime : Option Timespec)
    (hd : l.doomed = none) :
    (mqTimedsend P mq msgPtr msgLen abstime).Obeys (custody cr) l fun _ l' => l'.doomed = none := by
  rw [mqTimedsend, Prog.obeys_bind]
  apply (mqPrepare_custody msgPtr _ abstime hd).mono
  intro conv l' hl'
  simp only [Prog.obeys_bind, Prog.obeys_request, Prog.obeys_ite, Prog.pure_eq, Prog.obeys_ret]
  refine ⟨fun _ => ⟨trivial, ?_⟩, fun _ => hl'⟩
  rintro r l'' rfl
  exact ⟨fun _ => hl', fun _ => mqFailure_custody hl'⟩

theorem mqTimedreceive_custody (msgPtr : Ptr) (msgLen : ℕ) (abstime : Option Timespec)
    (hd : l.doomed = none) :
    (mqTimedreceive P mq msgPtr msgLen abstime).Obeys (custody cr) l
      fun _ l' => l'.doomed = none := by
  rw [mqTimedreceive, Prog.obeys_bind]
  apply (mqPrepare_custody msgPtr _ abstime hd).mono
  intro conv l' hl'
  simp only [Prog.obeys_bind, Prog.obeys_request, Prog.obeys_ite, Prog.pure_eq, Prog.obeys_ret]
  refine ⟨fun _ => ⟨trivial, ?_⟩, fun _ => hl'⟩
  rintro r l'' rfl
  refine ⟨fun _ => ⟨trivial, ?_⟩, fun _ => mqFailure_custody hl'⟩
  rintro obj l'' ⟨rfl, -⟩
  exact hl'

def mayCreate : MqCall → Bool
  | .mqOpen _ oflag _ => oflag.O_CREAT
  | _ => false

theorem mqCode_custody {k : MqCall} (hcr : mayCreate k = true → cr) (hk : l.call = some k)
    (hd : l.doomed = none) :
    (mqCode P k).Obeys (custody cr) l fun _ l' => l'.doomed = none := by
  cases k with
  | mqOpen name oflag attr =>
    rw [mqCode, Prog.obeys_bind]
    exact mqOpen_custody hcr hk hd
  | mqClose mq =>
    rw [mqCode, Prog.obeys_bind]
    exact mqClose_custody hk hd
  | mqUnlink name =>
    rw [mqCode, Prog.obeys_bind]
    exact mqUnlink_custody hk hd
  | mqGetattr mq =>
    rw [mqCode, Prog.obeys_bind]
    exact mqGetattr_custody hd
  | mqTimedsend mq msgPtr msgLen abstime =>
    rw [mqCode, Prog.obeys_bind]
    exact mqTimedsend_custody msgPtr msgLen abstime hd
  | mqTimedreceive mq msgPtr msgLen abstime =>
    rw [mqCode, Prog.obeys_bind]
    exact mqTimedreceive_custody msgPtr msgLen abstime hd
  | mqSend mq msgPtr msgLen =>
    rw [mqCode, Prog.obeys_bind]
    exact mqTimedsend_custody msgPtr msgLen none hd
  | mqReceive mq msgPtr msgLen =>
    rw [mqCode, Prog.obeys_bind]
    exact mqTimedreceive_custody msgPtr msgLen none hd

end Calls

def bookOf (r : Registry T) : Book :=
  ⟨r.allq, fun q => (r.obj q).name, fun q => (r.obj q).openCount⟩

def localOf (s : Custody T) (t : T) : Local where
  call := s.call t
  depth := s.reg.mux.held t
  book := if 0 < s.reg.mux.held t then some (bookOf s.reg) else none
  doomed := s.doomed t
  fresh := s.fresh t

/-- The list holds distinct queues. What has been freed or is about to be was on the list
before, is not on it any more and is freed once. -/
structure Kept (creating : Prop) (origin : List Ptr) (s : Custody T) : Prop where
  inited : s.reg.inited = true
  mux : s.reg.mux.Valid
  nodup : s.reg.allq.Nodup
  linked : ∀ q ∈ s.reg.allq, q ∈ origin
  once : s.freed.Nodup
  freed : ∀ q ∈ s.freed, q ∈ origin ∧ q ∉ s.reg.allq
  doomed : ∀ t q, s.doomed t = some q → q ∈ origin ∧ q ∉ s.reg.allq ∧ q ∉ s.freed
  alone : ∀ t u q, s.doomed t = some q → s.doomed u = some q → t = u
  fresh : ∀ t q, s.fresh t = some q → q ∉ s.reg.allq
  live : creating → ∀ q ∈ s.reg.allq, (PosixObj.POSIX_MQUEUE, q) ∈ s.reg.live

structure SameBook (s s' : Custody T) : Prop where
  inited : s'.reg.inited = s.reg.inited
  mux : s'.reg.mux = s.reg.mux
  book : bookOf s'.reg = bookOf s.reg
  live : ∀ q, (PosixObj.POSIX_MQUEUE, q) ∈ s.reg.live → (PosixObj.POSIX_MQUEUE, q) ∈ s'.reg.live
  call : s'.call = s.call
  doomed : s'.doomed = s.doomed
  fresh : s'.fresh = s.fresh
  freed : s'.freed = s.freed

section Steps
variable {cr : Prop} {origin : List Ptr} {s s' : Custody T} {t : T} {mq : Ptr} {r : Registry T}

omit [DecidableEq T] in
theorem bookOf_modify {f : MqdInternal → MqdInternal}
    (hf : ∀ o, (f o).name = o.name ∧ (f o).openCount = o.openCount) :
    bookOf (r.modify mq f) = bookOf r := by
  simp only [bookOf, Registry.modify, Book.mk.injEq, true_and]
  constructor
  · funext q
    by_cases hq : q = mq
    · simp [hq, hf]
    · simp [hq]
  · funext q
    by_cases hq : q = mq
    · simp [hq, hf]
    · simp [hq]

omit [DecidableEq T] in
theorem bookOf_setCount (n : ℕ) :
    bookOf (r.modify mq fun o => { o with openCount := n }) = (bookOf r).setCount mq n := by
  simp only [bookOf, Registry.modify, Book.setCount, Book.mk.injEq, true_and]
  constructor
  · funext q
    by_cases hq : q = mq
    · simp [hq]
    · simp [hq]
  · funext q
    by_cases hq : q = mq
    · simp [hq]
    · simp [hq]

theorem SameBook.view (h : SameBook s s') (u : T) : localOf s' u = localOf s u := by
  simp only [localOf, h.mux, h.book, h.call, h.doomed, h.fresh]

omit [DecidableEq T] in
theorem Kept.same (h : Kept cr origin s) (hs : SameBook s s') : Kept cr origin s' := by
  have hq : s'.reg.allq = s.reg.allq := congrArg Book.allq hs.book
  refine ⟨hs.inited.trans h.inited, hs.mux ▸ h.mux, hq ▸ h.nodup, hq ▸ h.linked,
    hs.freed ▸ h.once, ?_, ?_, hs.doomed ▸ h.alone, ?_, fun hc q hm => ?_⟩
  · rw [hs.freed, hq]
    exact h.freed
  · rw [hs.doomed, hs.freed, hq]
    exact h.doomed
  · rw [hs.fresh, hq]
    exact h.fresh
  · exact hs.live q (h.live hc q (hq ▸ hm))

/-- While a thread holds the lock, its writes are not seen by the others. -/
theorem localOf_other (ht : 0 < s.reg.mux.held t) {u : T} (hu : u ≠ t)
    (hmux : s'.reg.mux = s.reg.mux) (hcall : s'.call u = s.call u)
    (hdoomed : s'.doomed u = s.doomed u) (hfresh : s'.fresh u = s.fresh u) :
    localOf s' u = localOf s u := by
  have hown := Mut.held_pos ht
  have hzero : s.reg.mux.held u = 0 := by
    simp [Mut.held, hown, hu.symm]
  simp [localOf, hmux, hcall, hdoomed, hfresh, hzero]

theorem localOf_book {b : Book} (h : (localOf s t).book = some b) :
    0 < s.reg.mux.held t ∧ b = bookOf s.reg := by
  simp only [localOf] at h
  split_ifs at h with hp
  exact ⟨hp, (Option.some.inj h).symm⟩

theorem Addresses.held {b : Book} {k : MqCall} (h : Addresses (localOf s t) b k mq) :
    0 < s.reg.mux.held t := (localOf_book h.1).1

omit [DecidableEq T] in
theorem sameBook_reg (hi : r.inited = s.reg.inited) (hm : r.mux = s.reg.mux)
    (hb : bookOf r = bookOf s.reg)
    (hl : ∀ q, (PosixObj.POSIX_MQUEUE, q) ∈ s.reg.live → (PosixObj.POSIX_MQUEUE, q) ∈ r.live) :
    SameBook s (s.withReg r) :=
  ⟨hi, hm, hb, hl, rfl, rfl, rfl, rfl⟩

theorem SameBook.step (hs : SameBook s s') (h : Kept cr origin s) :
    Kept cr origin s' ∧ localOf s' t = localOf s t ∧ ∀ u, u ≠ t → localOf s' u = localOf s u :=
  ⟨h.same hs, hs.view t, fun u _ => hs.view u⟩

/-- A write to a field of an object that the lock does not protect. -/
theorem Kept.modify (h : Kept cr origin s) (mq : Ptr) (f : MqdInternal → MqdInternal)
    (hf : ∀ o, (f o).name = o.name ∧ (f o).openCount = o.openCount) :
    Kept cr origin (s.withReg (s.reg.modify mq f)) ∧
      localOf (s.withReg (s.reg.modify mq f)) t = localOf s t ∧
      ∀ u, u ≠ t → localOf (s.withReg (s.reg.modify mq f)) u = localOf s u := by
  have hs : SameBook s (s.withReg (s.reg.modify mq f)) :=
    sameBook_reg rfl rfl (bookOf_modify hf) fun _ hq => hq
  exact hs.step h

omit [DecidableEq T] in
theorem Kept.setMux (h : Kept cr origin s) {m : Mut T} (hm : m.Valid) :
    Kept cr origin (s.withReg (s.reg.withMux m)) :=
  { h with mux := hm }

theorem muxLock_kept (h : Kept cr origin s) {relock : Bool} {P : Platform} {c : Env}
    {u : MqAns .muxLock} (hs : custodyExec relock P t .muxLock c s = some (u, s')) :
    Kept cr origin s' ∧ (custody cr).after (localOf s t) .muxLock u (localOf s' t) ∧
      ∀ u, u ≠ t → localOf s' u = localOf s u := by
  obtain ⟨x, hx, heq⟩ := Option.map_eq_some_iff.mp hs
  obtain ⟨⟨ok, m⟩, hlock, rfl⟩ := Option.map_eq_some_iff.mp hx
  cases heq
  have hok : ok = true := by
    by_contra hn
    obtain rfl : ok = false := by simpa using hn
    exact (mutLock_refused hlock).2.2.1 rfl
  subst hok
  obtain ⟨hv, hself, hother⟩ := mutLock_acquired h.mux hlock
  refine ⟨h.setMux hv, ⟨bookOf s.reg, ?_⟩, fun u hu => ?_⟩
  · simp only [localOf, Custody.track, Custody.withReg_reg, Registry.withMux_mux, hself,
      Nat.succ_pos, if_true]
    rfl
  · simp only [localOf, Custody.track, Custody.withReg_reg, Registry.withMux_mux, hother u hu]
    rfl

theorem muxUnlock_kept (h : Kept cr origin s) (hp : 0 < s.reg.mux.held t) {relock : Bool}
    {P : Platform} {c : Env} {u : MqAns .muxUnlock}
    (hs : custodyExec relock P t .muxUnlock c s = some (u, s')) :
    Kept cr origin s' ∧ (custody cr).after (localOf s t) .muxUnlock u (localOf s' t) ∧
      ∀ u, u ≠ t → localOf s' u = localOf s u := by
  cases hs
  obtain ⟨hv, hself, hother⟩ := mutUnlock_held hp
  refine ⟨h.setMux hv, ⟨if 0 < s.reg.mux.held t - 1 then some (bookOf s.reg) else none, ?_⟩,
    fun u hu => ?_⟩
  · simp only [localOf, Custody.track, Custody.withReg_reg, Registry.withMux_mux, hself]
    rfl
  · simp only [localOf, Custody.track, Custody.withReg_reg, Registry.withMux_mux, hother u hu]
    rfl

theorem lleDel_kept (h : Kept cr origin s) (hmem : mq ∈ s.reg.allq) :
    Kept cr origin ((s.doom t mq).withReg (s.reg.unlink mq)) := by
  have hmq : mq ∉ s.reg.allq.erase mq := fun hm => (h.nodup.mem_erase_iff.mp hm).1 rfl
  have hsub (q : Ptr) (hq : q ∈ s.reg.allq.erase mq) : q ∈ s.reg.allq := List.mem_of_mem_erase hq
  have hnew (u : T) (hu : u ≠ t) : s.doomed u ≠ some mq := fun hum => (h.doomed u mq hum).2.1 hmem
  refine ⟨h.inited, h.mux, h.nodup.erase mq, fun q hq => h.linked q (hsub q hq), h.once,
    fun q hq => ⟨(h.freed q hq).1, fun hm => (h.freed q hq).2 (hsub q hm)⟩, fun u q hu => ?_,
    fun u v q hu hv => ?_, fun u q hu hm => h.fresh u q hu (hsub q hm),
    fun hc q hm => h.live hc q (hsub q hm)⟩
  · simp only [Custody.withReg_doomed, Custody.doom_doomed] at hu
    by_cases hut : u = t
    · subst hut
      obtain rfl : mq = q := by simpa using hu
      exact ⟨h.linked mq hmem, hmq, fun hf => (h.freed mq hf).2 hmem⟩
    · rw [Function.update_of_ne hut] at hu
      obtain ⟨hl, hn, hf⟩ := h.doomed u q hu
      exact ⟨hl, fun hm => hn (hsub q hm), hf⟩
  · simp only [Custody.withReg_doomed, Custody.doom_doomed] at hu hv
    by_cases hut : u = t
    · by_cases hvt : v = t
      · exact hut.trans hvt.symm
      · rw [hut, Function.update_self] at hu
        rw [Function.update_of_ne hvt, ← Option.some.inj hu] at hv
        exact absurd hv (hnew v hvt)
    · rw [Function.update_of_ne hut] at hu
      by_cases hvt : v = t
      · rw [hvt, Function.update_self] at hv
        rw [← Option.some.inj hv] at hu
        exact absurd hu (hnew u hut)
      · rw [Function.update_of_ne hvt] at hv
        exact h.alone u v q hu hv

theorem bury_kept (h : Kept cr origin s) (hd : s.doomed t = some mq) :
    Kept cr origin ((s.bury t mq).withReg (s.reg.release .POSIX_MQUEUE mq)) := by
  obtain ⟨hl, hn, hf⟩ := h.doomed t mq hd
  refine ⟨h.inited, h.mux, h.nodup, h.linked, ?_, ?_, ?_, ?_, h.fresh, fun hc q hm => ?_⟩
  · simpa [List.nodup_append] using ⟨h.once, fun q hq heq => hf (heq ▸ hq)⟩
  · intro q hq
    rcases List.mem_append.mp hq with hq | hq
    · exact h.freed q hq
    · obtain rfl := List.mem_singleton.mp hq
      exact ⟨hl, hn⟩
  · intro u q hu
    simp only [Custody.withReg_doomed, Custody.bury_doomed] at hu
    by_cases hut : u = t
    · simp [hut] at hu
    rw [Function.update_of_ne hut] at hu
    obtain ⟨hl', hn', hf'⟩ := h.doomed u q hu
    refine ⟨hl', hn', fun hq => ?_⟩
    rcases List.mem_append.mp hq with hq | hq
    · exact hf' hq
    · obtain rfl := List.mem_singleton.mp hq
      exact hut (h.alone u t q hu hd)
  · intro u v q hu hv
    simp only [Custody.withReg_doomed, Custody.bury_doomed] at hu hv
    by_cases hut : u = t
    · simp [hut] at hu
    by_cases hvt : v = t
    · simp [hvt] at hv
    rw [Function.update_of_ne hut] at hu
    rw [Function.update_of_ne hvt] at hv
    exact h.alone u v q hu hv
  · have hne : q ≠ mq := fun heq => hn (heq ▸ hm)
    have hlive := h.live hc q hm
    simp [Registry.release, hne, hlive]

theorem Kept.write (h : Kept cr origin s) (ht : 0 < s.reg.mux.held t) (mq : Ptr)
    (f : MqdInternal → MqdInternal) (d : List (T × Ptr)) :
    let s' := (s.setDescs d).withReg (s.reg.modify mq f)
    Kept cr origin s' ∧
      localOf s' t = { localOf s t with book := some (bookOf (s.reg.modify mq f)) } ∧
      ∀ u, u ≠ t → localOf s' u = localOf s u := by
  have hheld : 0 < (s.reg.modify mq f).mux.held t := ht
  refine ⟨⟨h.inited, h.mux, h.nodup, h.linked, h.once, h.freed, h.doomed, h.alone, h.fresh,
    h.live⟩, ?_, fun u hu => localOf_other ht hu rfl rfl rfl rfl⟩
  simp only [localOf, Custody.withReg_reg, if_pos hheld]
  rfl

omit [DecidableEq T] in
theorem allocate_fresh (h : Kept cr origin s) (hcr : cr) {c b : Option Ptr}
    (ha : s.reg.allocate .POSIX_MQUEUE c = some (b, r)) :
    (∀ q, b = some q → q ∉ s.reg.allq) ∧ r.inited = s.reg.inited ∧ r.mux = s.reg.mux ∧
      r.allq = s.reg.allq ∧ r.obj = s.reg.obj ∧ s.reg.live ⊆ r.live := by
  cases c with
  | none =>
    cases ha
    exact ⟨nofun, rfl, rfl, rfl, rfl, subset_rfl⟩
  | some p =>
    obtain ⟨hn, rfl, rfl⟩ := allocate_some ha
    refine ⟨fun q hq hm => ?_, rfl, rfl, rfl, rfl, Finset.subset_insert _ _⟩
    obtain rfl := Option.some.inj hq
    exact hn (h.live hcr p hm)

theorem allocQueue_kept (h : Kept cr origin s) (hcr : cr) {relock : Bool} {P : Platform} {c : Env}
    {b : Option Ptr} (hs : custodyExec relock P t .allocQueue c s = some (b, s')) :
    Kept cr origin s' ∧ localOf s' t = { localOf s t with fresh := b } ∧
      ∀ u, u ≠ t → localOf s' u = localOf s u := by
  obtain ⟨⟨b', r⟩, ha, heq⟩ := Option.map_eq_some_iff.mp hs
  cases heq
  obtain ⟨hnew, hi, hm, hq, ho, hlive⟩ := allocate_fresh h hcr ha
  have hbook : bookOf r = bookOf s.reg := by
    simp only [bookOf, hq, ho]
  refine ⟨⟨hi.trans h.inited, hm ▸ h.mux, hq ▸ h.nodup, hq ▸ h.linked, h.once, ?_, ?_, h.alone,
    fun u q hu => ?_, fun hc q hmem => hlive (h.live hc q (hq ▸ hmem))⟩, ?_, fun u hu => ?_⟩
  · simp only [Custody.withReg_reg, hq]
    exact h.freed
  · simp only [Custody.withReg_reg, hq]
    exact h.doomed
  · simp only [Custody.withReg_reg, hq]
    simp only [Custody.track, Custody.withReg_fresh, Custody.setFresh_fresh] at hu
    by_cases hut : u = t
    · rw [hut, Function.update_self] at hu
      exact hnew q hu
    · rw [Function.update_of_ne hut] at hu
      exact h.fresh u q hu
  · simp only [localOf, Custody.withReg_reg, hm, hbook, Custody.track, Custody.withReg_fresh,
      Custody.setFresh_fresh, Function.update_self]
    rfl
  · simp only [localOf, Custody.withReg_reg, hm, hbook, Custody.track, Custody.withReg_fresh,
      Custody.setFresh_fresh, Function.update_of_ne hu]
    rfl

theorem custodyExec_kept (h : Kept cr origin s) {relock : Bool} {P : Platform} {c : Env}
    {e : MqOp} {u : MqAns e} (hsafe : (custody cr).safe (localOf s t) e)
    (hs : custodyExec relock P t e c s = some (u, s')) :
    Kept cr origin s' ∧ (custody cr).after (localOf s t) e u (localOf s' t) ∧
      ∀ u, u ≠ t → localOf s' u = localOf s u := by
  cases e with
  | llInit => exact hsafe.elim
  | mutInit => exact hsafe.elim
  | storeInited => exact hsafe.elim
  | muxLock => exact muxLock_kept h hs
  | muxUnlock => exact muxUnlock_kept h hsafe hs
  | loadInited =>
    cases hs
    exact ⟨h, ⟨h.inited, rfl⟩, fun _ _ => rfl⟩
  | allq =>
    cases hs
    refine ⟨h, ⟨rfl, fun b hb => ?_⟩, fun _ _ => rfl⟩
    rw [(localOf_book hb).2]
    rfl
  | load mq =>
    cases hs
    refine ⟨h, ⟨rfl, fun b hb => ?_⟩, fun _ _ => rfl⟩
    rw [(localOf_book hb).2]
    exact ⟨rfl, rfl⟩
  | tmrTicks =>
    cases hs
    exact ⟨h, rfl, fun _ _ => rfl⟩
  | storeOpenCount mq n =>
    cases hs
    -- stored by a call for its queue, or for a queue that is still being made
    have hheld : 0 < s.reg.mux.held t := by
      rcases hsafe with ⟨b, k, ha, -⟩ | ⟨hb, -⟩
      · exact ha.held
      · exact hb.1
    obtain ⟨hk, hself, hother⟩ :=
      h.write hheld mq (fun o => { o with openCount := n }) (s.recount t mq)
    refine ⟨hk, hself.trans ?_, hother⟩
    simp only [localOf, if_pos hheld, bookOf_setCount, Option.map_some]
  | storePendingUnlink mq =>
    cases hs
    exact h.modify mq (fun o => { o with pendingUnlink := true }) fun _ => ⟨rfl, rfl⟩
  | lleDel mq =>
    cases hs
    obtain ⟨b, k, ha, hmem, -⟩ := hsafe
    have hheld := ha.held
    rw [(localOf_book ha.1).2] at hmem
    refine ⟨lleDel_kept h hmem, ?_, fun u hu => localOf_other hheld hu rfl rfl ?_ rfl⟩
    · have hheld' : 0 < (s.reg.unlink mq).mux.held t := hheld
      simp only [custody, localOf, Custody.withReg_reg, if_pos hheld, if_pos hheld', Custody.track,
        Custody.withReg_doomed, Custody.doom_doomed, Function.update_self]
      rfl
    · exact Function.update_of_ne hu _ _
  | allocQueue => exact allocQueue_kept h hsafe.1 hs
  | allocBuf sz =>
    obtain ⟨⟨b, r⟩, ha, heq⟩ := Option.map_eq_some_iff.mp hs
    cases heq
    obtain ⟨live, hlive, rfl⟩ := allocate_grows ha
    exact SameBook.step (sameBook_reg rfl rfl rfl fun q hq => hlive hq) h
  | clearQueue mq =>
    cases hs
    obtain ⟨hk, hself, hother⟩ := h.write hsafe.1 mq (fun _ => zeroQueue) s.descs
    exact ⟨hk, ⟨_, hself⟩, hother⟩
  | storeName mq name =>
    cases hs
    obtain ⟨hk, hself, hother⟩ := h.write hsafe.1 mq (fun o => { o with name := name }) s.descs
    exact ⟨hk, ⟨_, hself⟩, hother⟩
  | storeBuf mq buf =>
    cases hs
    exact h.modify mq (fun o => { o with buf := buf }) fun _ => ⟨rfl, rfl⟩
  | clearBuf buf sz =>
    cases hs
    exact ⟨h, rfl, fun _ _ => rfl⟩
  | storeFlags mq flags =>
    cases hs
    exact h.modify mq (fun o => { o with flags := flags }) fun _ => ⟨rfl, rfl⟩
  | lleInit mq =>
    cases hs
    exact ⟨h, rfl, fun _ _ => rfl⟩
  | mqInit mq isz buf sz =>
    cases hs
    exact h.modify mq (fun o => { o with q := ⟨isz, sz, 0⟩ }) fun _ => ⟨rfl, rfl⟩
  | free type p =>
    cases hs
    -- only the block of the object itself ends the queue
    by_cases ht : type = .POSIX_MQUEUE
    · subst ht
      refine ⟨bury_kept h (hsafe rfl), ?_, fun u hu => ?_⟩
      · simp only [custody, localOf, Custody.track, Custody.withReg_doomed, Custody.bury_doomed,
          Function.update_self, if_true]
        rfl
      · simp only [localOf, Custody.track, Custody.withReg_doomed, Custody.bury_doomed,
          Function.update_of_ne hu]
        rfl
    · have htrack : s.track t (.free type p) () = s := by
        cases type with
        | POSIX_MQUEUE => exact absurd rfl ht
        | _ => rfl
      have hsame : SameBook s (s.withReg (s.reg.release type p)) := by
        refine sameBook_reg rfl rfl rfl fun q hq => ?_
        simp [Registry.release, hq, Ne.symm ht]
      rw [htrack]
      simp only [custody, if_neg ht]
      exact hsame.step h
  | mqPut mq msg ticks =>
    obtain ⟨⟨ok, r⟩, hx, heq⟩ := Option.map_eq_some_iff.mp hs
    cases heq
    obtain ⟨f, rfl⟩ := mqPut_some hx
    exact h.modify mq (fun o => { o with q := { o.q with n := f o.q.n } }) fun _ => ⟨rfl, rfl⟩
  | mqGet mq msg ticks =>
    obtain ⟨⟨ok, r⟩, hx, heq⟩ := Option.map_eq_some_iff.mp hs
    cases heq
    obtain ⟨f, rfl⟩ := mqGet_some hx
    exact h.modify mq (fun o => { o with q := { o.q with n := f o.q.n } }) fun _ => ⟨rfl, rfl⟩

end Steps

theorem track_call (e : MqOp) (a : MqAns e) (s : Custody T) (t : T) :
    (s.track t e a).call = s.call := by
  cases e with
  | free type p => cases type <;> rfl
  | _ => rfl

theorem custodyExec_some {relock : Bool} {P : Platform} {t : T} {e : MqOp} {c : Env}
    {s s' : Custody T} {a : MqAns e} (h : custodyExec relock P t e c s = some (a, s')) :
    ∃ r, mqExec relock P t c e s.reg = some (a, r) ∧ s' = (s.track t e a).withReg r := by
  obtain ⟨⟨a', r⟩, hr, heq⟩ := Option.map_eq_some_iff.mp h
  cases heq
  exact ⟨r, hr, rfl⟩

theorem enter_admits {relock : Bool} {P : Platform} {admits : Custody T → T → MqCall → Bool}
    {s s' : Custody T} {t : T} {k : MqCall}
    (hs : (mqThreads relock P admits).enter t k s = some s') :
    admits s t k = true ∧ s' = s.setCall t (some k) := by
  simp only [mqThreads] at hs
  split_ifs at hs with ha
  exact ⟨ha, (Option.some.inj hs).symm⟩

def Tracked (p : Pool T MqOp MqAns (Custody T) MqCall MqRes) : Prop :=
  ∀ t k q, p.thread t = some (k, q) → p.shared.call t = some k

theorem Tracked.step {relock : Bool} {P : Platform} {admits : Custody T → T → MqCall → Bool}
    {p p' : Pool T MqOp MqAns (Custody T) MqCall MqRes} {a : Action T Env MqCall} (h : Tracked p)
    (hstep : ThreadPool.step (mqThreads relock P admits) p a = some p') : Tracked p' := by
  intro u k q hu
  cases a with
  | enter t k' =>
    obtain ⟨-, s, hs, rfl⟩ := step_enter.mp hstep
    obtain ⟨-, rfl⟩ := enter_admits hs
    by_cases hut : u = t
    · subst hut
      simp only [Pool.set_thread_self] at hu
      cases hu
      simp
    · rw [Pool.set_thread_of_ne _ _ hut] at hu
      simpa [Function.update_of_ne hut] using h u k q hu
  | leave t =>
    obtain ⟨k', v, -, rfl⟩ := step_leave.mp hstep
    by_cases hut : u = t
    · subst hut
      simp at hu
    · rw [Pool.set_thread_of_ne _ _ hut] at hu
      simpa [mqThreads, Function.update_of_ne hut] using h u k q hu
  | run t c =>
    obtain ⟨k', e, f, ht, a, s, hs, rfl⟩ := step_run.mp hstep
    obtain ⟨r, -, rfl⟩ := custodyExec_some hs
    simp only [Pool.set_shared, Custody.withReg_call, track_call]
    by_cases hut : u = t
    · subst hut
      simp only [Pool.set_thread_self] at hu
      cases hu
      exact h u k _ ht
    · rw [Pool.set_thread_of_ne _ _ hut] at hu
      exact h u k q hu

omit [DecidableEq T] in
theorem idle_tracked (s : Custody T) : Tracked (idlePool s) := by
  intro t k q hq
  cases hq

theorem Kept.setCall {cr : Prop} {origin : List Ptr} {s : Custody T}
    (h : Kept cr origin s) (t : T) (k : Option MqCall) : Kept cr origin (s.setCall t k) :=
  ⟨h.inited, h.mux, h.nodup, h.linked, h.once, h.freed, h.doomed, h.alone, h.fresh, h.live⟩

theorem setCall_localOf {s : Custody T} {t u : T} (hu : u ≠ t) (k : Option MqCall) :
    localOf (s.setCall t k) u = localOf s u := by
  simp only [localOf, Custody.setCall_call, Function.update_of_ne hu]
  rfl

def custodyDiscipline (relock : Bool) (P : Platform) {admits : Custody T → T → MqCall → Bool}
    {creating : Prop} (origin : List Ptr)
    (hcreate : ∀ s t k, admits s t k = true → mayCreate k = true → creating) :
    Discipline (mqThreads relock P admits) Local where
  toProtocol := custody creating
  view := localOf
  inv := Kept creating origin
  allowed _ _ _ _ := True
  between _ l := l.doomed = none
  post _ _ _ l := l.doomed = none
  enter_step := by
    intro s s' t k h hd hs
    obtain ⟨ha, rfl⟩ := enter_admits hs
    refine ⟨h.setCall t _, mqCode_custody (hcreate s t k ha) ?_ hd,
      fun u hu => setCall_localOf hu _⟩
    exact Function.update_self _ _ _
  exec_step := fun h hsafe _ hs => custodyExec_kept h hsafe hs
  leave_step := fun h hd => ⟨h.setCall _ _, hd, fun u hu => setCall_localOf hu _⟩

end LibPosix.MqueueCustody
