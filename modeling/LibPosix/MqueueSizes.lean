import LibPosix.MqueueOpening

/-! The unit of message sizes. `mq_open` turns the size it is given into words, and the other
calls compare what it has stored with lengths in bytes. -/
namespace LibPosix.MqueueSizes
open Program TimeUtils Kernel MachineInt Mqueue MqueueCalls MqueueOpening
variable {T : Type} [DecidableEq T]

structure Listed (mq : Ptr) (isz : ℕ) (s : Registry T) : Prop where
  inited : s.inited = true
  linked : mq ∈ s.allq
  isz : (s.obj mq).q.isz = isz

/-- The requests of the calls on one queue, with what a listed queue makes of the answers. -/
def listed (mq : Ptr) (isz : ℕ) : Protocol MqOp MqAns Unit where
  safe _ e := match e with
    | .loadInited | .muxLock | .muxUnlock | .allq | .load _ | .tmrTicks | .mqPut .. | .mqGet .. =>
      True
    | _ => False
  after _ e r _ := match e, r with
    | .loadInited, r => r = true
    | .allq, r => mq ∈ r
    | .load q, r => q = mq → r.q.isz = isz
    | _, _ => True

section Listing
variable {relock : Bool} {P : Platform} {t : T} {c : Env} {mq msgPtr : Ptr} {isz msgLen : ℕ}
  {abstime : Option Timespec} {s s' : Registry T}

omit [DecidableEq T] in
theorem Listed.modify (h : Listed mq isz s) {q : Ptr} {f : MqdInternal → MqdInternal}
    (hf : ∀ o, (f o).q.isz = o.q.isz) : Listed mq isz (s.modify q f) := by
  refine ⟨h.inited, h.linked, ?_⟩
  by_cases hq : mq = q
  · subst hq
    simp [hf, h.isz]
  · simp [Registry.modify, Function.update_of_ne hq, h.isz]

omit [DecidableEq T] in
theorem Listed.withMux (h : Listed mq isz s) (m : Mut T) : Listed mq isz (s.withMux m) :=
  ⟨h.inited, h.linked, h.isz⟩

theorem listed_exec (e : MqOp) (s : Registry T) (r : MqAns e) (s' : Registry T)
    (h : Listed mq isz s) (he : (listed mq isz).safe () e)
    (hs : mqExec relock P t c e s = some (r, s')) :
    Listed mq isz s' ∧ (listed mq isz).after () e r () := by
  cases e with
  | loadInited =>
    cases hs
    exact ⟨h, h.inited⟩
  | muxLock =>
    obtain ⟨m, rfl⟩ := muxLock_some hs
    exact ⟨h.withMux _, trivial⟩
  | muxUnlock =>
    cases hs
    exact ⟨h.withMux _, trivial⟩
  | allq =>
    cases hs
    exact ⟨h, h.linked⟩
  | load q =>
    cases hs
    refine ⟨h, fun hq => ?_⟩
    rw [hq]
    exact h.isz
  | tmrTicks =>
    cases hs
    exact ⟨h, trivial⟩
  | mqPut q msg ticks =>
    obtain ⟨f, rfl⟩ := mqPut_some hs
    exact ⟨h.modify fun _ => rfl, trivial⟩
  | mqGet q msg ticks =>
    obtain ⟨f, rfl⟩ := mqGet_some hs
    exact ⟨h.modify fun _ => rfl, trivial⟩
  | _ => exact he.elim

/-- What is proved against every answer a listed queue allows holds of every run. -/
theorem of_listed {α : Type} {p : Prog MqOp MqAns α} {a : α} {post : α → Prop}
    (hp : p.Obeys (listed mq isz) () fun a _ => post a) (h : Listed mq isz s)
    (hrun : p.eval (mqExec relock P t c) s = some (a, s')) : post a := by
  have hexec : ∀ e u r u', Listed mq isz u → (listed mq isz).safe () e →
      mqExec relock P t c e u = some (r, u') →
        Listed mq isz u' ∧ (listed mq isz).after () e r () :=
    fun e u r u' hu he hs => listed_exec e u r u' hu he hs
  exact (Prog.Obeys.eval (v := fun _ : Registry T => ()) hexec h hp hrun).2

theorem mqGetattr_listed : (mqGetattr P mq).Obeys (listed mq isz) () fun r _ =>
    ∃ a, r = .ok a ∧ a.mqMsgsize = signed P.longBits isz := by
  simp [mqGetattr, mqCheckInit, mqExtractLocked, listed, find_self]
  intro _ _ hl
  simp [hl]
  intro obj hobj
  rw [hobj]

theorem getTickTimeout_listed (flags : OFlag) :
    (getTickTimeout P flags abstime 0).Obeys (listed mq isz) () fun r _ => r.1 ≠ .EMSGSIZE := by
  cases abstime with
  | none =>
    rw [getTickTimeout]
    split_ifs
    · simp
    · simp
  | some timeout =>
    simp only [getTickTimeout, listed]
    by_cases hn : flags.O_NONBLOCK = true
    · simp [hn]
    · by_cases hv : validateTimespec timeout = false
      · simp [hn, hv]
      · simp [hn, hv]
        intro tick hsize
        split_ifs at hsize with hok
        · simp [hok] at hsize

theorem mqPrepare_listed (ha : msgPtr % 4 = 0) (badLen : ℕ → Bool) :
    (mqPrepare P mq msgPtr badLen abstime).Obeys (listed mq isz) () fun r _ =>
      r.1 = .EMSGSIZE ↔ badLen isz = true := by
  simp only [mqPrepare, mqExtractLocked, Prog.obeys_bind, Prog.obeys_request]
  refine ⟨trivial, fun _ _ _ => ⟨trivial, fun l _ hl => ?_⟩⟩
  have hmem : mq ∈ l := hl
  simp [ha, hmem, find_self]
  refine ⟨trivial, fun obj _ hobj => ?_⟩
  have hisz : obj.q.isz = isz := hobj rfl
  rw [hisz]
  by_cases hb : badLen isz = true
  · simp [hb, listed]
  · simp [hb]
    refine ⟨trivial, fun obj' _ _ => ?_⟩
    apply (getTickTimeout_listed obj'.flags).mono
    intro r _ hr
    simpa [listed] using hr

theorem mqFailure_listed : (mqFailure mq).Obeys (listed mq isz) () fun r _ => r ≠ .EMSGSIZE := by
  simp [mqFailure, listed]
  intro obj _
  split_ifs
  · simp
  · simp

theorem mqTimedsend_listed (ha : msgPtr % 4 = 0) :
    (mqTimedsend P mq msgPtr msgLen abstime).Obeys (listed mq isz) () fun r _ =>
      r = .EMSGSIZE ↔ isz < msgLen := by
  rw [mqTimedsend, Prog.obeys_bind]
  apply (mqPrepare_listed ha _).mono
  intro conv _ hconv
  rw [decide_eq_true_eq] at hconv
  by_cases hok : conv.1 = .ok
  · have hfit : ¬ isz < msgLen := fun hlt => by simp [hconv.mpr hlt] at hok
    simp only [if_pos hok, Prog.request_bind, Prog.obeys_call]
    refine ⟨trivial, fun put _ _ => ?_⟩
    cases put with
    | true => simp [hfit]
    | false => exact mqFailure_listed.mono fun r _ hr => iff_of_false hr hfit
  · simpa [hok] using hconv

theorem mqTimedreceive_listed (ha : msgPtr % 4 = 0) :
    (mqTimedreceive P mq msgPtr msgLen abstime).Obeys (listed mq isz) () fun r _ =>
      r = .error .EMSGSIZE ↔ msgLen < isz := by
  rw [mqTimedreceive, Prog.obeys_bind]
  apply (mqPrepare_listed ha _).mono
  intro conv _ hconv
  rw [decide_eq_true_eq] at hconv
  by_cases hok : conv.1 = .ok
  · have hfit : ¬ msgLen < isz := fun hlt => by simp [hconv.mpr hlt] at hok
    simp only [if_pos hok, Prog.request_bind, Prog.obeys_call]
    refine ⟨trivial, fun got _ _ => ?_⟩
    cases got with
    | true => simp [hfit, listed]
    | false =>
      simp only [Bool.false_eq_true, if_false, Prog.obeys_bind]
      exact mqFailure_listed.mono fun r _ hr => iff_of_false (by simpa using hr) hfit
  · simpa [hok] using hconv

end Listing

/-- A queue made with a message size keeps the promise of that size: it is reported rounded up at
most to a word, messages of that size are never too long, and buffers are too small exactly if
they are smaller than what is reported. -/
structure SizesInBytes (T : Type) [DecidableEq T] (P : Platform) (attr : MqAttr) (mq : Ptr) :
    Prop where
  getattr : ∀ (relock : Bool) (t : T) (c : Env) (s s' : Registry T) (r : Except Status MqAttr),
    Listed mq (createdQueue P attr).isz s →
    (mqGetattr P mq).eval (mqExec relock P t c) s = some (r, s') →
      ∃ a, r = .ok a ∧ attr.mqMsgsize ≤ a.mqMsgsize ∧
        a.mqMsgsize ≤ (attr.mqMsgsize + 3) / 4 * 4
  send : ∀ (relock : Bool) (t : T) (c : Env) (s s' : Registry T) (msgPtr : Ptr) (msgLen : ℕ)
    (abstime : Option Timespec) (r : Status), Listed mq (createdQueue P attr).isz s →
    msgPtr % 4 = 0 → msgLen ≤ attr.mqMsgsize →
    (mqTimedsend P mq msgPtr msgLen abstime).eval (mqExec relock P t c) s = some (r, s') →
      r ≠ .EMSGSIZE
  receive : ∀ (relock : Bool) (t : T) (c : Env) (s s' : Registry T) (msgPtr : Ptr) (msgLen : ℕ)
    (abstime : Option Timespec) (r : Except Status ℕ), Listed mq (createdQueue P attr).isz s →
    msgPtr % 4 = 0 →
    (mqTimedreceive P mq msgPtr msgLen abstime).eval (mqExec relock P t c) s = some (r, s') →
      (r = .error .EMSGSIZE ↔ msgLen < signed P.longBits (createdQueue P attr).isz)

section Units
variable {P : Platform} {attr : MqAttr}

/-- The stored item size for a message size, as a function of the width of `long`. -/
def itemWords (w : ℕ) (size : ℤ) : ℕ := unsigned 32 (signed w (size + 3) >>> 2)

theorem createdQueue_isz (P : Platform) (attr : MqAttr) :
    (createdQueue P attr).isz = itemWords P.longBits attr.mqMsgsize := rfl

/-- Where the sum is out of range the item size is no message size either. -/
theorem itemWords_wraps {w : ℕ} (hw : 32 ≤ w) {size : ℤ} (hsize : Fits w size)
    (h0 : 0 ≤ size) (hsum : ¬ Fits w (size + 3)) : signed w (itemWords w size) < size := by
  have hlarge : 2 ^ (w - 1) ≤ size + 3 := by
    by_contra hlt
    have hlow := hsize.1
    exact hsum ⟨by omega, by omega⟩
  have hlt := hsize.2
  obtain rfl | rfl | hw34 : w = 32 ∨ w = 33 ∨ 34 ≤ w := by omega
  · norm_num at hlarge hlt
    have hge : 2147483645 ≤ size := by omega
    interval_cases size
    · decide +kernel
    · decide +kernel
    · decide +kernel
  · norm_num at hlarge hlt
    have hge : 4294967293 ≤ size := by omega
    interval_cases size
    · decide +kernel
    · decide +kernel
    · decide +kernel
  · have hpow : (2 : ℤ) ^ 33 ≤ 2 ^ (w - 1) := pow_le_pow_right₀ (by norm_num) (by omega)
    have hwords : itemWords w size < 2 ^ 32 := unsigned_lt 32 _
    have hle : signed w (itemWords w size) ≤ itemWords w size := signed_le (by positivity)
    omega

theorem itemWords_one {w : ℕ} (hw : 32 ≤ w) : itemWords w 1 = 1 := by
  have hfits : Fits w 4 := Fits.mono hw (by decide)
  have hsum : signed w (1 + 3) = 4 := signed_of_fits (by omega) hfits
  rw [itemWords, hsum]
  decide

/-- Only messages of one byte have an item size that is reported in bytes. -/
theorem reported_iff (P : Platform) (hpos : 1 ≤ attr.mqMsgsize)
    (hsize : Fits P.longBits attr.mqMsgsize) :
    attr.mqMsgsize ≤ signed P.longBits (createdQueue P attr).isz ↔ attr.mqMsgsize = 1 := by
  constructor
  · intro h
    by_cases hsum : Fits P.longBits (attr.mqMsgsize + 3)
    · have hisz := createdQueue_isz_le P (by omega) hsum
      have hle : signed P.longBits (createdQueue P attr).isz ≤ (createdQueue P attr).isz :=
        signed_le (by positivity)
      omega
    · have hwrap := itemWords_wraps P.longBits_ge hsize (by omega) hsum
      rw [createdQueue_isz] at h
      omega
  · intro h
    have hbits := P.longBits_ge
    have hone : signed P.longBits 1 = 1 :=
      signed_of_fits (by omega) (Fits.mono hbits (by decide))
    rw [createdQueue_isz, h, itemWords_one hbits, Nat.cast_one, hone]

end Units

section Sizes
variable {P : Platform} {attr : MqAttr}

def onlyQueue (T : Type) (P : Platform) (attr : MqAttr) (mq : Ptr) : Registry T :=
  ⟨true, mutInit, [mq], fun _ => { zeroQueue with q := createdQueue P attr }, ∅⟩

omit [DecidableEq T] in
theorem onlyQueue_listed (P : Platform) (attr : MqAttr) (mq : Ptr) :
    Listed mq (createdQueue P attr).isz (onlyQueue T P attr mq) :=
  ⟨rfl, List.mem_singleton_self mq, rfl⟩

theorem mqGetattr_onlyQueue (t : T) (P : Platform) (attr : MqAttr) (mq : Ptr) : ∃ r s',
    (mqGetattr P mq).eval (mqExec true P t ⟨none, none, 5, true⟩) (onlyQueue T P attr mq) =
      some (r, s') := by
  simp [mqGetattr, mqCheckInit, mqExtractLocked, mqExec, onlyQueue, mutLock, mutInit]

/-- The sizes are sizes in bytes for queues of one-byte messages only. -/
theorem sizesInBytes_iff (t : T) (P : Platform) {attr : MqAttr} (mq : Ptr)
    (hpos : 1 ≤ attr.mqMsgsize) (hsize : Fits P.longBits attr.mqMsgsize) :
    SizesInBytes T P attr mq ↔ attr.mqMsgsize = 1 := by
  have hreported := reported_iff P hpos hsize
  constructor
  · intro h
    have hlisted := onlyQueue_listed (T := T) P attr mq
    obtain ⟨r, s', hrun⟩ := mqGetattr_onlyQueue t P attr mq
    obtain ⟨a, ha, hlow, -⟩ := h.getattr _ _ _ _ _ _ hlisted hrun
    obtain ⟨a', ha', hisz⟩ := of_listed mqGetattr_listed hlisted hrun
    obtain rfl : a = a' := Except.ok.inj (ha.symm.trans ha')
    rw [hisz] at hlow
    exact hreported.mp hlow
  · intro hone
    have hreport := hreported.mpr hone
    have hisz : (createdQueue P attr).isz = 1 := by
      rw [createdQueue_isz, hone, itemWords_one P.longBits_ge]
    constructor
    · intro relock t c s s' r hlisted hrun
      obtain ⟨a, ha, hsz⟩ := of_listed mqGetattr_listed hlisted hrun
      rw [hisz] at hsz hreport
      have hle : signed P.longBits (1 : ℕ) ≤ (1 : ℕ) := signed_le (by norm_num)
      exact ⟨a, ha, by omega, by omega⟩
    · intro relock t c s s' msgPtr msgLen abstime r hlisted ha hlen hrun hr
      have hlong := (of_listed (mqTimedsend_listed ha) hlisted hrun).mp hr
      omega
    · intro relock t c s s' msgPtr msgLen abstime r hlisted ha hrun
      rw [of_listed (mqTimedreceive_listed ha) hlisted hrun]
      rw [hisz] at hreport ⊢
      have hle : signed P.longBits (1 : ℕ) ≤ (1 : ℕ) := signed_le (by norm_num)
      omega

def attrByte : MqAttr := ⟨⟨false, false, false⟩, 4, 1, 0⟩

theorem sizesInBytes_byte : SizesInBytes Unit platform1000 attrByte 1 := by
  have hpos : 1 ≤ attrByte.mqMsgsize := by decide
  have hsize : Fits platform1000.longBits attrByte.mqMsgsize := by decide
  exact (sizesInBytes_iff () platform1000 1 hpos hsize).mpr rfl

/-- A queue of messages of 16 bytes reports a message size of 4, and refuses a message of 16
bytes. -/
theorem mqTimedsend_refuses :
    let s := onlyQueue Unit platform1000 attr10 1
    let c : Env := ⟨none, none, 5, true⟩
    ((mqGetattr platform1000 1).eval (mqExec true platform1000 () c) s).map (·.1.toOption) =
        some (some ⟨⟨false, false, false⟩, 40, 4, 0⟩) ∧
      ((mqTimedsend platform1000 1 64 16 none).eval (mqExec true platform1000 () c) s).map (·.1) =
        some .EMSGSIZE ∧
      ¬ SizesInBytes Unit platform1000 attr10 1 := by
  intro s c
  have hsend : ((mqTimedsend platform1000 1 64 16 none).eval (mqExec true platform1000 () c) s).map
      (·.1) = some .EMSGSIZE := by
    decide +kernel
  refine ⟨by decide +kernel, hsend, fun h => ?_⟩
  obtain ⟨⟨r, s'⟩, hrun, hr⟩ := Option.map_eq_some_iff.mp hsend
  exact h.send _ _ _ _ _ _ _ _ _ (onlyQueue_listed _ _ _) (by decide) (by decide) hrun hr

end Sizes

end LibPosix.MqueueSizes
