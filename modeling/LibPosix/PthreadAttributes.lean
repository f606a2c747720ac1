import LibPosix.Pthread

/-! Thread attributes. The detach state and the priority share one word; the stack size is a
`size_t` that is kept in 16 bits. Getters and setters are run against a record of what has been
set last. -/
namespace LibPosix.PthreadAttributes
open Pthread

def schedGetPriorityMax (P : Platform) : ℤ := P.cfgTpriNum - 1

/-- The getters return 0 and store this value. -/
def pthreadAttrGetdetachstate (attr : PthreadAttr) : ℤ :=
  if statusJoinable attr.status = true then PTHREAD_CREATE_JOINABLE.toInt
  else PTHREAD_CREATE_DETACHED.toInt

def pthreadAttrGetschedparam (attr : PthreadAttr) : ℤ := statusPriority attr.status

def pthreadAttrGetstacksize (attr : PthreadAttr) : ℕ := attr.stackSz.toNat

def pthreadAttrSetdetachstate (attr : PthreadAttr) (detach : ℤ) : Status × PthreadAttr :=
  if detach ≠ PTHREAD_CREATE_DETACHED.toInt ∧ detach ≠ PTHREAD_CREATE_JOINABLE.toInt then
    (.EINVAL, attr)
  else
    (.ok, { attr with
      status := attr.status &&& ~~~MASK_DETACH ||| BitVec.ofInt 16 detach <<< SHFT_DETACH })

/-- `none` is a null pointer. -/
def pthreadAttrSetschedparam (P : Platform) (attr : PthreadAttr) (param : Option ℤ) :
    Status × PthreadAttr :=
  match param with
  | none => (.EINVAL, attr)
  | some schedPriority =>
    if schedPriority > schedGetPriorityMax P ∨ schedPriority < 0 then (.ENOTSUP, attr)
    else
      (.ok, { attr with
        status := attr.status &&& ~~~MASK_PRIORITY ||| BitVec.ofInt 16 schedPriority })

def pthreadAttrSetstacksize (attr : PthreadAttr) (stacksize : ℕ) : Status × PthreadAttr :=
  if stacksize < PTHREAD_STACK_MIN.toNat then (.EINVAL, attr)
  else (.ok, { attr with stackSz := BitVec.ofNat 16 stacksize })

inductive AttrCall where
  | setdetachstate (detach : ℤ)
  | setschedparam (param : Option ℤ)
  | setstacksize (stacksize : ℕ)
  deriving DecidableEq, Repr

def AttrCall.run (P : Platform) (attr : PthreadAttr) : AttrCall → Status × PthreadAttr
  | .setdetachstate detach => pthreadAttrSetdetachstate attr detach
  | .setschedparam param => pthreadAttrSetschedparam P attr param
  | .setstacksize stacksize => pthreadAttrSetstacksize attr stacksize

structure AttrValues where
  detachstate : ℤ
  schedPriority : ℤ
  stacksize : ℕ
  deriving DecidableEq, Repr

def getters (attr : PthreadAttr) : AttrValues :=
  ⟨pthreadAttrGetdetachstate attr, pthreadAttrGetschedparam attr, pthreadAttrGetstacksize attr⟩

def AttrValues.note (v : AttrValues) : AttrCall → AttrValues
  | .setdetachstate detach => { v with detachstate := detach }
  | .setschedparam param => { v with schedPriority := param.getD v.schedPriority }
  | .setstacksize stacksize => { v with stacksize := stacksize }

/-- The attributes after some calls, and next to them the arguments of the last call of every
setter that has returned 0. -/
def runCalls (P : Platform) (x : PthreadAttr × AttrValues) :
    List AttrCall → PthreadAttr × AttrValues
  | [] => x
  | k :: ks =>
    let r := k.run P x.1
    runCalls P (r.2, if r.1 = .ok then x.2.note k else x.2) ks

/-- After the calls every getter returns what its own setter has been given last. -/
def Faithful (P : Platform) (attr : PthreadAttr) (calls : List AttrCall) : Prop :=
  let x := runCalls P (attr, getters attr) calls
  getters x.1 = x.2

section Status
variable (status : BitVec 16)

theorem getLsbD_detach (i : ℕ) : MASK_DETACH.getLsbD i = decide (i = 15) := by
  by_cases hi : i < 16
  · interval_cases i <;> rfl
  · rw [BitVec.getLsbD_of_ge _ _ (by omega)]
    simp
    omega

theorem getLsbD_priority (i : ℕ) : MASK_PRIORITY.getLsbD i = decide (i < 15) := by
  by_cases hi : i < 16
  · interval_cases i <;> rfl
  · rw [BitVec.getLsbD_of_ge _ _ (by omega)]
    simp
    omega

theorem setDetach_priority (detach : BitVec 16) :
    statusPriority (status &&& ~~~MASK_DETACH ||| detach <<< SHFT_DETACH) =
      statusPriority status := by
  unfold statusPriority SHFT_DETACH
  congr 1
  apply BitVec.eq_of_getLsbD_eq
  intro i hi
  simp only [BitVec.getLsbD_and, BitVec.getLsbD_or, BitVec.getLsbD_not, BitVec.getLsbD_shiftLeft,
    getLsbD_detach, getLsbD_priority]
  by_cases hlow : i < 15
  · have hne : i ≠ 15 := by omega
    simp [hlow, hne, hi]
  · simp [hlow]

theorem setDetach_joinable (detach : BitVec 16) :
    statusJoinable (status &&& ~~~MASK_DETACH ||| detach <<< SHFT_DETACH) =
      detach.getLsbD 0 := by
  have hbit : (status &&& ~~~MASK_DETACH ||| detach <<< SHFT_DETACH) &&& MASK_DETACH =
      MASK_DETACH ↔ detach.getLsbD 0 = true := by
    unfold SHFT_DETACH
    constructor
    · intro h
      have hi := congrArg (fun b => b.getLsbD 15) h
      simp only [BitVec.getLsbD_and, BitVec.getLsbD_or, BitVec.getLsbD_not,
        BitVec.getLsbD_shiftLeft, getLsbD_detach] at hi
      simpa using hi
    · intro h
      apply BitVec.eq_of_getLsbD_eq
      intro i hi
      by_cases htop : i = 15
      · subst htop
        simp [getLsbD_detach, h]
      · simp [getLsbD_detach, htop]
  rw [statusJoinable, Bool.eq_iff_iff, decide_eq_true_iff]
  exact hbit

theorem setPriority_joinable {priority : BitVec 16} (h : priority.getLsbD 15 = false) :
    statusJoinable (status &&& ~~~MASK_PRIORITY ||| priority) = statusJoinable status := by
  have hword : (status &&& ~~~MASK_PRIORITY ||| priority) &&& MASK_DETACH =
      status &&& MASK_DETACH := by
    apply BitVec.eq_of_getLsbD_eq
    intro i hi
    simp only [BitVec.getLsbD_and, BitVec.getLsbD_or, BitVec.getLsbD_not, getLsbD_detach,
      getLsbD_priority]
    by_cases htop : i = 15
    · subst htop
      rw [h]
      simp
    · simp [htop]
  rw [statusJoinable, hword]
  rfl

theorem setPriority_priority {priority : BitVec 16} (h : priority.getLsbD 15 = false) :
    statusPriority (status &&& ~~~MASK_PRIORITY ||| priority) = priority.toNat := by
  unfold statusPriority
  congr 1
  apply BitVec.eq_of_getLsbD_eq
  intro i hi
  simp only [BitVec.getLsbD_and, BitVec.getLsbD_or, BitVec.getLsbD_not, getLsbD_priority]
  by_cases hlow : i < 15
  · simp [hlow]
  · obtain rfl : i = 15 := by omega
    rw [h]
    simp

end Status

section Calls
variable {P : Platform} {attr : PthreadAttr} {v : AttrValues}

/-- The stack size is the only attribute that may have lost something. -/
structure Kept (attr : PthreadAttr) (v : AttrValues) : Prop where
  detachstate : pthreadAttrGetdetachstate attr = v.detachstate
  schedPriority : pthreadAttrGetschedparam attr = v.schedPriority
  stackSz : attr.stackSz = BitVec.ofNat 16 v.stacksize

theorem getters_kept (attr : PthreadAttr) : Kept attr (getters attr) :=
  ⟨rfl, rfl, by simp [getters, pthreadAttrGetstacksize]⟩

theorem run_failed {k : AttrCall} (h : (k.run P attr).1 ≠ .ok) : (k.run P attr).2 = attr := by
  cases k with
  | setdetachstate detach =>
    simp only [AttrCall.run, pthreadAttrSetdetachstate] at h ⊢
    split_ifs at h ⊢ with hd
    · rfl
    · exact absurd rfl h
  | setschedparam param =>
    cases param with
    | none => rfl
    | some priority =>
      simp only [AttrCall.run, pthreadAttrSetschedparam] at h ⊢
      split_ifs at h ⊢ with hp
      · rfl
      · exact absurd rfl h
  | setstacksize stacksize =>
    simp only [AttrCall.run, pthreadAttrSetstacksize] at h ⊢
    split_ifs at h ⊢ with hs
    · rfl
    · exact absurd rfl h

theorem setdetachstate_kept (hk : Kept attr v) {detach : ℤ}
    (h : (pthreadAttrSetdetachstate attr detach).1 = .ok) :
    Kept (pthreadAttrSetdetachstate attr detach).2 { v with detachstate := detach } := by
  unfold pthreadAttrSetdetachstate at h ⊢
  split_ifs at h ⊢ with hd
  constructor
  · have hcases : detach = 0 ∨ detach = 1 := by
      by_contra hn
      exact hd (not_or.mp hn)
    simp only [pthreadAttrGetdetachstate, setDetach_joinable]
    rcases hcases with rfl | rfl
    · rfl
    · rfl
  · simp only [pthreadAttrGetschedparam, setDetach_priority]
    exact hk.schedPriority
  · exact hk.stackSz

theorem setschedparam_kept (hpri : P.cfgTpriNum ≤ 2 ^ 15) (hk : Kept attr v) {param : Option ℤ}
    (h : (pthreadAttrSetschedparam P attr param).1 = .ok) :
    Kept (pthreadAttrSetschedparam P attr param).2
      { v with schedPriority := param.getD v.schedPriority } := by
  cases param with
  | none => cases h
  | some priority =>
    simp only [pthreadAttrSetschedparam] at h ⊢
    split_ifs at h ⊢ with hp
    have hbounds : 0 ≤ priority ∧ priority < 2 ^ 15 := by
      simp only [schedGetPriorityMax] at hp
      omega
    obtain ⟨n, rfl⟩ := Int.eq_ofNat_of_zero_le hbounds.1
    have hn : n < 2 ^ 15 := by omega
    have htop : (BitVec.ofInt 16 n).getLsbD 15 = false := by
      rw [BitVec.ofInt_natCast, BitVec.getLsbD_ofNat, Nat.testBit_lt_two_pow hn]
      rfl
    constructor
    · simp only [pthreadAttrGetdetachstate, setPriority_joinable _ htop]
      exact hk.detachstate
    · simp only [pthreadAttrGetschedparam, setPriority_priority _ htop]
      rw [BitVec.ofInt_natCast, BitVec.toNat_ofNat, Nat.mod_eq_of_lt (by omega)]
      rfl
    · exact hk.stackSz

theorem setstacksize_kept (hk : Kept attr v) {stacksize : ℕ}
    (h : (pthreadAttrSetstacksize attr stacksize).1 = .ok) :
    Kept (pthreadAttrSetstacksize attr stacksize).2 { v with stacksize := stacksize } := by
  unfold pthreadAttrSetstacksize at h ⊢
  split_ifs at h ⊢ with hs
  exact ⟨hk.detachstate, hk.schedPriority, rfl⟩

theorem run_kept (hpri : P.cfgTpriNum ≤ 2 ^ 15) (hk : Kept attr v) {k : AttrCall}
    (h : (k.run P attr).1 = .ok) : Kept (k.run P attr).2 (v.note k) := by
  cases k with
  | setdetachstate detach => exact setdetachstate_kept hk h
  | setschedparam param => exact setschedparam_kept hpri hk h
  | setstacksize stacksize => exact setstacksize_kept hk h

theorem runCalls_kept (hpri : P.cfgTpriNum ≤ 2 ^ 15) (calls : List AttrCall)
    {x : PthreadAttr × AttrValues} (hk : Kept x.1 x.2) :
    Kept (runCalls P x calls).1 (runCalls P x calls).2 := by
  induction calls generalizing x with
  | nil => exact hk
  | cons k ks ih =>
    rw [runCalls]
    apply ih
    by_cases hok : (k.run P x.1).1 = .ok
    · simp only [if_pos hok]
      exact run_kept hpri hk hok
    · simp only [if_neg hok, run_failed hok]
      exact hk

end Calls

def lastStacksize (old : ℕ) : List AttrCall → ℕ
  | [] => old
  | .setstacksize stacksize :: calls =>
    lastStacksize (if stacksize < PTHREAD_STACK_MIN.toNat then old else stacksize) calls
  | .setdetachstate _ :: calls => lastStacksize old calls
  | .setschedparam _ :: calls => lastStacksize old calls

theorem runCalls_stacksize (P : Platform) (calls : List AttrCall) (x : PthreadAttr × AttrValues) :
    (runCalls P x calls).2.stacksize = lastStacksize x.2.stacksize calls := by
  induction calls generalizing x with
  | nil => rfl
  | cons k ks ih =>
    rw [runCalls, ih]
    cases k with
    | setdetachstate detach =>
      rw [lastStacksize]
      split_ifs
      · rfl
      · rfl
    | setschedparam param =>
      rw [lastStacksize]
      split_ifs
      · rfl
      · rfl
    | setstacksize stacksize =>
      by_cases hmin : stacksize < PTHREAD_STACK_MIN.toNat
      · simp [lastStacksize, AttrCall.run, pthreadAttrSetstacksize, hmin]
      · simp [lastStacksize, AttrCall.run, pthreadAttrSetstacksize, hmin, AttrValues.note]

/-- The getters are faithful exactly if the last stack size that the setter has taken, if any, is
below 2^16. -/
theorem pthreadAttr_faithful_iff (P : Platform) (hpri : P.cfgTpriNum ≤ 2 ^ 15)
    (attr : PthreadAttr) (calls : List AttrCall) :
    Faithful P attr calls ↔ lastStacksize (pthreadAttrGetstacksize attr) calls < 2 ^ 16 := by
  have hk := runCalls_kept hpri calls (x := (attr, getters attr)) (getters_kept attr)
  have hlast : (runCalls P (attr, getters attr) calls).2.stacksize =
      lastStacksize (pthreadAttrGetstacksize attr) calls := runCalls_stacksize P calls _
  have hstack : pthreadAttrGetstacksize (runCalls P (attr, getters attr) calls).1 =
      (runCalls P (attr, getters attr) calls).2.stacksize % 2 ^ 16 := by
    rw [pthreadAttrGetstacksize, hk.stackSz, BitVec.toNat_ofNat]
  rw [← hlast]
  constructor
  · intro h
    have hsame : pthreadAttrGetstacksize (runCalls P (attr, getters attr) calls).1 =
        (runCalls P (attr, getters attr) calls).2.stacksize := congrArg AttrValues.stacksize h
    omega
  · intro h
    rw [Nat.mod_eq_of_lt h] at hstack
    rw [Faithful, getters, hk.detachstate, hk.schedPriority, hstack]

theorem pthreadAttr_faithful_detached : Faithful platform1000 ⟨1024#16, 0x801E#16⟩
    [.setstacksize 4096, .setschedparam (some 40), .setdetachstate 0, .setstacksize 100] :=
  (pthreadAttr_faithful_iff platform1000 (by decide) _ _).mpr (by decide)

/-- A stack of 65536 bytes is one of 0 bytes. -/
theorem pthreadAttrSetstacksize_truncates :
    pthreadAttrSetstacksize ⟨1024#16, 0x801E#16⟩ 65536 = (.ok, ⟨0#16, 0x801E#16⟩) ∧
      ¬ Faithful platform1000 ⟨1024#16, 0x801E#16⟩ [.setstacksize 65536] := by
  refine ⟨by decide, fun h => ?_⟩
  have hstack := congrArg AttrValues.stacksize h
  revert hstack
  decide

end LibPosix.PthreadAttributes
