import Mathlib.Data.Int.Notation

/-! The error numbers the modelled functions use. -/

namespace Defuse

def EPERM : ℤ := 1
def ENOENT : ℤ := 2
def EIO : ℤ := 5
def ENXIO : ℤ := 6
def EBADF : ℤ := 9
def EAGAIN : ℤ := 11
def ENOMEM : ℤ := 12
def EACCES : ℤ := 13
def EEXIST : ℤ := 17
def EINVAL : ℤ := 22
def EMFILE : ℤ := 24
def ENOSPC : ℤ := 28
def ENOSYS : ℤ := 38
def ENOTEMPTY : ℤ := 39
def EBADR : ℤ := 53
def EPROTO : ℤ := 71
def EBADMSG : ℤ := 74
def EPROTONOSUPPORT : ℤ := 93
def EOPNOTSUPP : ℤ := 95
def ECONNABORTED : ℤ := 103
def ENOTCONN : ℤ := 107
def ESTALE : ℤ := 116

end Defuse
