import LibPosix.MachineInt

/-! What libposix takes from the kernel and the compiler: configuration constants, error
codes and the kind of a block handed out by the application's allocator. -/
namespace LibPosix

/-- Build-time constants. `longBits` is the width of the C type `long`; `time_t` has 64
bits and `unsigned` has 32. -/
structure Platform where
  tmrHz : ℕ
  longBits : ℕ
  WAIT : ℕ
  cfgTpriNum : ℕ
  tmrHz_pos : 1 ≤ tmrHz
  tmrHz_le : tmrHz ≤ 1000000000
  longBits_ge : 32 ≤ longBits

/-- A 32-bit processor with a tick of one millisecond. -/
def platform1000 : Platform := ⟨1000, 32, 4294967295, 32, by decide, by decide, by decide⟩

/-- The value of an `int` that carries an error number; `ok` is 0. -/
inductive Status where
  | ok
  | EPERM
  | ENOENT
  | EAGAIN
  | ENOMEM
  | EBUSY
  | EEXIST
  | EINVAL
  | EBADF
  | EMSGSIZE
  | EDEADLK
  | ENOTSUP
  | ENAMETOOLONG
  | ETIMEDOUT
  deriving DecidableEq, Repr

inductive PosixObj where
  | POSIX_TIMER
  | POSIX_THREAD
  | POSIX_STACK
  | POSIX_MQUEUE
  | POSIX_MQUEUE_BUF
  deriving DecidableEq, Repr

end LibPosix
