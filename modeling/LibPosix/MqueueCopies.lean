import LibPosix.MqueueMessages
import LibPosix.Trace

/-! The memory that the kernel reads and writes for the message queues. A message is copied as a
whole item, whatever length the caller has passed. -/
namespace LibPosix.MqueueCopies
open Program Trace TimeUtils Mqueue MqueueCalls MqueueMessages Memory
variable {T : Type} [DecidableEq T]

/-- The block of memory, address and length, that the kernel copies from or to: an item is `isz`
words long. -/
@[simp] def copyOf (isz : Ptr → ℕ) : MqOp → Option (Ptr × ℕ)
  | .mqPut mq msg _ => some (msg, 4 * isz mq)
  | .mqGet mq msg _ => some (msg, 4 * isz mq)
  | _ => none

def copies (isz : Ptr → ℕ) (log : List MqOp) : List (Ptr × ℕ) := log.filterMap (copyOf isz)

/-- Everything that is copied lies in the caller's buffer. -/
def StaysInside (msgPtr msgLen : ℕ) (blocks : List (Ptr × ℕ)) : Prop :=
  ∀ b ∈ blocks, msgPtr ≤ b.1 ∧ b.1 + b.2 ≤ msgPtr + msgLen

section Recording
variable {P : Platform} {mq msgPtr : Ptr} {msgLen : ℕ} {abstime : Option Timespec}
  {isz : Ptr → ℕ} {l : List MqOp}

theorem getTickTimeout_copies (isz : Ptr → ℕ) (flags : OFlag) :
    (getTickTimeout P flags abstime 0).Obeys (recording MqOp MqAns) l fun _ l' =>
      copies isz l' = copies isz l := by
  cases abstime with
  | none =>
    rw [getTickTimeout]
    split_ifs
    · simp
    · simp
  | some timeout =>
    by_cases hn : flags.O_NONBLOCK = true
    · simp [getTickTimeout, hn]
    · by_cases hv : validateTimespec timeout = false
      · simp [getTickTimeout, hn, hv]
      · simp [getTickTimeout, hn, hv, copies]

theorem mqPrepare_copies (isz : Ptr → ℕ) (badLen : ℕ → Bool) :
    (mqPrepare P mq msgPtr badLen abstime).Obeys (recording MqOp MqAns) l fun _ l' =>
      copies isz l' = copies isz l := by
  simp only [mqPrepare, mqExtractLocked, Prog.obeys_bind, Prog.obeys_request]
  refine ⟨trivial, ?_⟩
  rintro - l' rfl
  refine ⟨trivial, ?_⟩
  rintro queues l' rfl
  by_cases ha : msgPtr % 4 = 0
  · by_cases hq : mq ∈ queues
    · simp [find_self, ha, hq]
      intro obj
      by_cases hb : badLen obj.q.isz = true
      · simp [hb, copies]
      · simp [hb]
        intro obj'
        apply (getTickTimeout_copies isz obj'.flags).mono
        intro conv l' h
        simpa [copies, List.filterMap_cons] using h
    · simp [ha, hq, find_self, copies]
  · simp [ha, copies]

theorem mqFailure_copies : (mqFailure mq).Obeys (recording MqOp MqAns) l fun r _ => r ≠ .ok := by
  simp [mqFailure]
  intro obj
  split_ifs
  · simp
  · simp

theorem mqTimedreceive_copies (isz : Ptr → ℕ) :
    (mqTimedreceive P mq msgPtr msgLen abstime).Obeys (recording MqOp MqAns) l fun r l' =>
      ∀ n, r = .ok n → copies isz l' = copies isz l ++ [(msgPtr, 4 * isz mq)] := by
  rw [mqTimedreceive, Prog.obeys_bind]
  apply (mqPrepare_copies isz _).mono
  intro conv l₁ h₁
  by_cases hok : conv.1 = .ok
  · simp only [if_pos hok, Prog.request_bind, Prog.obeys_call, recording_safe, recording_after]
    refine ⟨trivial, ?_⟩
    rintro got l' rfl
    cases got with
    | true =>
      unfold copies at h₁
      simp [copies, h₁]
    | false => simp [mqFailure]
  · simp [hok]

theorem mqTimedsend_copies (isz : Ptr → ℕ) :
    (mqTimedsend P mq msgPtr msgLen abstime).Obeys (recording MqOp MqAns) l fun r l' =>
      r = .ok → copies isz l' = copies isz l ++ [(msgPtr, 4 * isz mq)] := by
  rw [mqTimedsend, Prog.obeys_bind]
  apply (mqPrepare_copies isz _).mono
  intro conv l₁ h₁
  by_cases hok : conv.1 = .ok
  · simp only [if_pos hok, Prog.request_bind, Prog.obeys_call, recording_safe, recording_after]
    refine ⟨trivial, ?_⟩
    rintro put l' rfl
    cases put with
    | true =>
      unfold copies at h₁
      simp [copies, h₁]
    | false => exact mqFailure_copies.mono fun r _ hr hr' => absurd hr' hr
  · simp [hok]

end Recording

section Buffers
variable {msgPtr msgLen n : ℕ}

theorem staysInside_single : StaysInside msgPtr msgLen [(msgPtr, n)] ↔ n ≤ msgLen := by
  simp [StaysInside]

/-- A copy stays inside the buffer exactly if the buffer holds a whole item in words. -/
theorem mqueue_copies_iff (relock : Bool) (P : Platform) (t : T) (c : Env) (mq msgPtr : Ptr)
    (msgLen : ℕ) (abstime : Option Timespec) (x x' : Exchange T) (log : List MqOp) :
    (∀ n, (mqTimedreceive P mq msgPtr msgLen abstime).eval (traced (msgExec relock P t c))
        (x, []) = some (.ok n, x', log) →
      (StaysInside msgPtr msgLen (copies (x.isz ·) log) ∧ n ≤ msgLen ↔
        4 * x.isz mq ≤ msgLen)) ∧
    ((mqTimedsend P mq msgPtr msgLen abstime).eval (traced (msgExec relock P t c))
        (x, []) = some (.ok, x', log) →
      (StaysInside msgPtr msgLen (copies (x.isz ·) log) ↔ 4 * x.isz mq ≤ msgLen)) := by
  constructor
  · intro n h
    have hlog : copies (x.isz ·) log = [(msgPtr, 4 * x.isz mq)] :=
      recorded (mqTimedreceive_copies (x.isz ·)) h n rfl
    rw [hlog, staysInside_single]
    rcases mqTimedreceive_spec (eval_traced h) with ⟨ht, hn, -⟩ | ⟨-, e, reg, hr, -⟩
    · have hfits : x.isz mq ≤ msgLen := by simpa [Exchange.isz] using ht.ready.fits
      obtain rfl : n = x.isz mq := Except.ok.inj hn
      omega
    · cases hr
  · intro h
    have hlog : copies (x.isz ·) log = [(msgPtr, 4 * x.isz mq)] :=
      recorded (mqTimedsend_copies (x.isz ·)) h rfl
    rw [hlog, staysInside_single]

/-- The block that is recorded is all the memory a receive changes, as long as the kernel's items
have the size of its queue. -/
theorem mqTimedreceive_memory {relock : Bool} {P : Platform} {t : T} {c : Env} {mq : Ptr}
    {abstime : Option Timespec} {x x' : Exchange T}
    (hitems : ∀ item ∈ x.items mq, item.length = 4 * x.isz mq)
    (h : (mqTimedreceive P mq msgPtr msgLen abstime).eval (msgExec relock P t c) x =
      some (.ok n, x')) {a : ℕ} (ha : a < msgPtr ∨ msgPtr + 4 * x.isz mq ≤ a) :
    x'.mem a = x.mem a := by
  rcases mqTimedreceive_spec h with ⟨-, -, item, items, reg, hx, -, rfl⟩ | ⟨-, e, reg, hr, -⟩
  · have hlen : item.length = 4 * x.isz mq := hitems item (by simp [hx])
    exact store_outside (by rw [hlen]; exact ha)
  · cases hr

end Buffers

section Runs

def oneMessage : Exchange Unit :=
  (freshExchange platform1000 attr16 1).setItems 1 [List.replicate 16 7]

def receiveInto (msgLen : ℕ) : Option (Option ℕ × List (Ptr × ℕ)) :=
  ((mqTimedreceive platform1000 1 128 msgLen none).eval
    (traced (msgExec true platform1000 () ⟨none, none, 5, true⟩)) (oneMessage, [])).map
      fun r => (r.1.toOption, copies (oneMessage.isz ·) r.2.2)

theorem mqueue_copies_sixteen : ∃ x' log,
    (mqTimedreceive platform1000 1 128 16 none).eval
      (traced (msgExec true platform1000 () ⟨none, none, 5, true⟩)) (oneMessage, []) =
        some (.ok 4, x', log) ∧
    StaysInside 128 16 (copies (oneMessage.isz ·) log) ∧
    ∀ a, a < 128 ∨ 144 ≤ a → x'.mem a = oneMessage.mem a := by
  have hout : receiveInto 16 = some (some 4, [(128, 16)]) := by decide +kernel
  obtain ⟨⟨r, x', log⟩, hrun, hr⟩ := Option.map_eq_some_iff.mp hout
  obtain ⟨hlen, -⟩ := Prod.mk.inj hr
  cases r with
  | error e => cases hlen
  | ok n =>
    obtain rfl : n = 4 := Option.some.inj hlen
    have hinside := ((mqueue_copies_iff true platform1000 () _ 1 128 16 none oneMessage x' log).1 4
      hrun).mpr (by decide)
    have hitems : ∀ item ∈ oneMessage.items 1, item.length = 4 * oneMessage.isz 1 := by decide
    exact ⟨x', log, hrun, hinside.1, fun a ha =>
      mqTimedreceive_memory hitems (eval_traced hrun) ha⟩

/-- A buffer of four bytes is accepted for an item of four words: twelve bytes are written behind
it. -/
theorem mqTimedreceive_overruns :
    receiveInto 4 = some (some 4, [(128, 16)]) ∧ ¬ StaysInside 128 4 [(128, 16)] := by
  refine ⟨by decide +kernel, fun h => ?_⟩
  exact absurd (h _ (List.mem_singleton_self _)).2 (by decide)

end Runs

end LibPosix.MqueueCopies
