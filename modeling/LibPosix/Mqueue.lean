import LibPosix.Kernel
import LibPosix.TimeUtils
import LibPosix.Program

/-! The message queues of `posix_mqueue.c`. Every access to the registry or to a queue object
and every kernel or allocator call is one request. A function that returns -1 with `errno`
set returns the `Status` in `errno`; a status of `ok` is the return value 0. -/
namespace LibPosix.Mqueue
open Program TimeUtils Kernel MachineInt

/-- Addresses of blocks; `mqd_t` is the address of the queue object. -/
abbrev Ptr := ℕ

structure CString where
  bytes : List UInt8
  noNul : (0 : UInt8) ∉ bytes
  deriving DecidableEq, Repr

structure OFlag where
  O_CREAT : Bool
  O_EXCL : Bool
  O_NONBLOCK : Bool
  deriving DecidableEq, Repr

structure MqAttr where
  mqFlags : OFlag
  mqMaxmsg : ℤ
  mqMsgsize : ℤ
  mqCurmsgs : ℤ
  deriving DecidableEq, Repr

/-- `mq_t`: item size, capacity and number of messages. -/
structure Mq where
  isz : ℕ
  sz : ℕ
  n : ℕ
  deriving DecidableEq, Repr

/-- `mqd_internal_t`; `open_count` is an `unsigned short`. -/
structure MqdInternal where
  q : Mq
  buf : Ptr
  name : CString
  flags : OFlag
  openCount : ℕ
  pendingUnlink : Bool
  deriving DecidableEq, Repr

def POSIX_NAME_MAX : ℕ := 64

def POSIX_MQUEUE_DEF_MSG_MAX : ℤ := 128

def POSIX_MQUEUE_DEF_MSG_SZ : ℤ := 4

inductive MqOp where
  | loadInited
  | llInit
  | mutInit
  | storeInited
  | muxLock
  | muxUnlock
  | allq
  | load (mq : Ptr)
  | storeOpenCount (mq : Ptr) (n : ℕ)
  | storePendingUnlink (mq : Ptr)
  | lleDel (mq : Ptr)
  | allocQueue
  | clearQueue (mq : Ptr)
  | allocBuf (sz : ℕ)
  | storeBuf (mq : Ptr) (buf : Ptr)
  | clearBuf (buf : Ptr) (sz : ℕ)
  | storeName (mq : Ptr) (name : CString)
  | storeFlags (mq : Ptr) (flags : OFlag)
  | lleInit (mq : Ptr)
  | mqInit (mq : Ptr) (isz : ℕ) (buf : Ptr) (sz : ℕ)
  | free (type : PosixObj) (p : Ptr)
  | tmrTicks
  | mqPut (mq : Ptr) (msg : Ptr) (ticks : ℕ)
  | mqGet (mq : Ptr) (msg : Ptr) (ticks : ℕ)
  deriving DecidableEq, Repr

/-- The answer of a kernel call is whether it returned 0, that of an allocation is `none` for
a null pointer. -/
abbrev MqAns : MqOp → Type
  | .loadInited => Bool
  | .allq => List Ptr
  | .load _ => MqdInternal
  | .allocQueue => Option Ptr
  | .allocBuf _ => Option Ptr
  | .tmrTicks => ℕ
  | .mqPut .. => Bool
  | .mqGet .. => Bool
  | _ => Unit

abbrev ask (e : MqOp) : Prog MqOp MqAns (MqAns e) := Prog.request e

def getTickTimeout (P : Platform) (flags : OFlag) (timeout : Option Timespec) (ptimeout : ℕ) :
    Prog MqOp MqAns (Status × ℕ) :=
  if flags.O_NONBLOCK = true then pure (.ok, 0)
  else
    match timeout with
    | none => pure (.ok, P.WAIT)
    | some timeout =>
      if validateTimespec timeout = false then pure (.EINVAL, ptimeout)
      else do
        let cur := clockGettime P (← ask .tmrTicks)
        let conv := absTimespec2ticks P timeout cur ptimeout
        -- whatever the conversion reports, also a deadline too far away
        return if conv.1 ≠ .ok then (.ETIMEDOUT, conv.2) else conv

/-- A name starts with a slash and is at most `POSIX_NAME_MAX` bytes longer than that. -/
def validateName (name : CString) : Bool :=
  if name.bytes.head? ≠ some 47 then false
  else min name.bytes.length (POSIX_NAME_MAX + 2) ≠ POSIX_NAME_MAX + 2

def mqCheckInit : Prog MqOp MqAns Unit := do
  if (← ask .loadInited) = false then
    ask .llInit
    ask .mutInit
    ask .storeInited

def mqExtractLocked (mq : Ptr) : Prog MqOp MqAns (Option Ptr) := do
  return (← ask .allq).find? (· = mq)

/-- The loop of `mq_find_locked` over the rest of the list. -/
def mqFindFrom (name : CString) : List Ptr → Prog MqOp MqAns (Option Ptr)
  | [] => pure none
  | p :: ps => do
    if name = (← ask (.load p)).name then
      return some p
    else
      mqFindFrom name ps

def mqFindLocked (name : CString) : Prog MqOp MqAns (Option Ptr) := do
  mqFindFrom name (← ask .allq)

def mqFree (mq : Ptr) : Prog MqOp MqAns Unit := do
  ask (.free .POSIX_MQUEUE_BUF (← ask (.load mq)).buf)
  ask (.free .POSIX_MQUEUE mq)

/-- What `mq_close` does to a queue it has found; tells whether it was removed. -/
def mqCloseLocked (mq : Ptr) : Prog MqOp MqAns Bool := do
  let count := (← ask (.load mq)).openCount
  if count > 0 then
    ask (.storeOpenCount mq (count - 1))
  let obj ← ask (.load mq)
  if obj.openCount = 0 then
    if obj.pendingUnlink = true then
      ask (.lleDel mq)
      return true
    else
      -- the mark of `mq_unlink`, set by the last close
      ask (.storePendingUnlink mq)
      return false
  else
    return false

def mqClose (mq : Ptr) : Prog MqOp MqAns Status := do
  mqCheckInit
  ask .muxLock
  match ← mqExtractLocked mq with
  | some mq =>
    let removed ← mqCloseLocked mq
    ask .muxUnlock
    if removed = true then
      mqFree mq
    return .ok
  | none =>
    ask .muxUnlock
    return .EBADF

/-- The sizes are `unsigned` and the attributes `long`. -/
def mqGetattr (P : Platform) (mq : Ptr) : Prog MqOp MqAns (Except Status MqAttr) := do
  mqCheckInit
  ask .muxLock
  match ← mqExtractLocked mq with
  | some mq =>
    let obj ← ask (.load mq)
    ask .muxUnlock
    return .ok ⟨obj.flags, signed P.longBits obj.q.sz, signed P.longBits obj.q.isz,
      signed P.longBits obj.q.n⟩
  | none =>
    ask .muxUnlock
    return .error .EBADF

/-- The creating branch of `mq_open`. Both failures leave without unlocking. -/
def mqCreateLocked (P : Platform) (name : CString) (oflag : OFlag) (attr : MqAttr) :
    Prog MqOp MqAns (Except Status Ptr) := do
  match ← ask .allocQueue with
  | none => return .error .ENOENT
  | some mq =>
    ask (.clearQueue mq)
    let nwords := unsigned 32 (signed P.longBits (attr.mqMsgsize + 3) >>> 2)
    let bufSz := unsigned 32 (attr.mqMaxmsg * nwords)
    match ← ask (.allocBuf bufSz) with
    | none => return .error .ENOENT
    | some buf =>
      ask (.storeBuf mq buf)
      ask (.clearBuf buf bufSz)
      ask (.storeName mq name)
      ask (.storeFlags mq oflag)
      ask (.lleInit mq)
      -- no descriptor is counted, and the queue is not put on the list
      ask (.storeOpenCount mq 0)
      ask (.mqInit mq nwords buf bufSz)
      ask .muxUnlock
      return .ok mq

def defAttr : MqAttr :=
  ⟨⟨false, false, false⟩, POSIX_MQUEUE_DEF_MSG_MAX, POSIX_MQUEUE_DEF_MSG_SZ, 0⟩

/-- Attributes may be missing; given ones must not be negative. -/
def validateAttr : Option MqAttr → Bool
  | none => true
  | some attr => !(attr.mqMaxmsg < 0 || attr.mqMsgsize < 0)

def mqOpen (P : Platform) (name : CString) (oflag : OFlag) (attr : Option MqAttr) :
    Prog MqOp MqAns (Except Status Ptr) := do
  mqCheckInit
  if validateName name = false then
    return .error .EINVAL
  if validateAttr attr = false then
    return .error .EINVAL
  ask .muxLock
  match ← mqFindLocked name with
  | some mq =>
    if oflag.O_EXCL = true ∧ oflag.O_CREAT = true then
      ask .muxUnlock
      return .error .EEXIST
    else
      ask (.storeOpenCount mq (unsigned 16 ((← ask (.load mq)).openCount + 1)))
      ask .muxUnlock
      return .ok mq
  | none =>
    if oflag.O_CREAT = true then
      mqCreateLocked P name oflag (attr.getD defAttr)
    else
      ask .muxUnlock
      return .error .ENOENT

/-- The locked part of `mq_timedsend` and `mq_timedreceive`: the checks, in their order, and
the tick timeout. `badLen` compares the item size with the caller's length. -/
def mqPrepare (P : Platform) (mq : Ptr) (msgPtr : Ptr) (badLen : ℕ → Bool)
    (abstime : Option Timespec) : Prog MqOp MqAns (Status × ℕ) := do
  ask .muxLock
  let found ← mqExtractLocked mq
  let ret : Status := if found = none then .EBADF else .ok
  -- takes the place of `EBADF`
  let ret : Status := if msgPtr % 4 ≠ 0 then .EINVAL else ret
  let ret ←
    if ret = .ok then do
      pure (if badLen (← ask (.load mq)).q.isz = true then Status.EMSGSIZE else .ok)
    else pure ret
  let conv ←
    if ret = .ok then do
      getTickTimeout P (← ask (.load mq)).flags abstime 0
    else pure (ret, 0)
  ask .muxUnlock
  return conv

def mqFailure (mq : Ptr) : Prog MqOp MqAns Status := do
  return if (← ask (.load mq)).flags.O_NONBLOCK = true then .EAGAIN else .ETIMEDOUT

def mqTimedsend (P : Platform) (mq : Ptr) (msgPtr : Ptr) (msgLen : ℕ)
    (abstime : Option Timespec) : Prog MqOp MqAns Status := do
  let conv ← mqPrepare P mq msgPtr (fun isz => decide (msgLen > isz)) abstime
  if conv.1 = .ok then
    if (← ask (.mqPut mq msgPtr conv.2)) = true then
      return .ok
    else
      mqFailure mq
  else
    return conv.1

def mqTimedreceive (P : Platform) (mq : Ptr) (msgPtr : Ptr) (msgLen : ℕ)
    (abstime : Option Timespec) : Prog MqOp MqAns (Except Status ℕ) := do
  let conv ← mqPrepare P mq msgPtr (fun isz => decide (msgLen < isz)) abstime
  if conv.1 = .ok then
    if (← ask (.mqGet mq msgPtr conv.2)) = true then
      return .ok (← ask (.load mq)).q.isz
    else
      return .error (← mqFailure mq)
  else
    return .error conv.1

def mqSend (P : Platform) (mq : Ptr) (msgPtr : Ptr) (msgLen : ℕ) : Prog MqOp MqAns Status :=
  mqTimedsend P mq msgPtr msgLen none

def mqReceive (P : Platform) (mq : Ptr) (msgPtr : Ptr) (msgLen : ℕ) :
    Prog MqOp MqAns (Except Status ℕ) :=
  mqTimedreceive P mq msgPtr msgLen none

/-- What `mq_unlink` does to a queue it has found; tells whether it was removed. -/
def mqUnlinkLocked (mq : Ptr) : Prog MqOp MqAns Bool := do
  if (← ask (.load mq)).openCount = 0 then
    ask (.lleDel mq)
    return true
  else
    ask (.storePendingUnlink mq)
    return false

def mqUnlink (name : CString) : Prog MqOp MqAns Status := do
  mqCheckInit
  if validateName name = false then
    return .ENAMETOOLONG
  ask .muxLock
  match ← mqFindLocked name with
  | some mq =>
    let removed ← mqUnlinkLocked mq
    ask .muxUnlock
    if removed = true then
      mqFree mq
    return .ok
  | none =>
    ask .muxUnlock
    return .ENOENT

end LibPosix.Mqueue
