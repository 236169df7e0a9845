import Defuse.Lib.Words
import Mathlib.Data.FinEnum
import Mathlib.Data.List.Basic

/-! `defuse_module/defuse_impl.c`: the mount options, and the line of `/proc/mounts` they
are printed in. -/

namespace Defuse

open CSem

def space : UInt8 := 0x20
def newline : UInt8 := 0x0a
def comma : UInt8 := 0x2c
def equals : UInt8 := 0x3d
def backslash : UInt8 := 0x5c

def modeName : List UInt8 := [0x6d, 0x6f, 0x64, 0x65]
def backendName : List UInt8 := [0x62, 0x61, 0x63, 0x6b, 0x65, 0x6e, 0x64]
def libraryName : List UInt8 := [0x6c, 0x69, 0x62, 0x72, 0x61, 0x72, 0x79]

def modeKey : List UInt8 := modeName ++ [equals]
def backendKey : List UInt8 := backendName ++ [equals]
def libraryKey : List UInt8 := libraryName ++ [equals]

/-- `struct defuse_mount_opts`. -/
structure MountOpts where
  mode : ℕ
  backendPath : List UInt8
  userLibraryPath : List UInt8
  deriving DecidableEq, Repr

/-- The value of `%o`, for a text of octal digits. -/
def octal (s : List UInt8) : Option ℕ :=
  if s ≠ [] ∧ ∀ c ∈ s, 0x30 ≤ c ∧ c ≤ 0x37 then
    some (s.foldl (fun v c => v * 8 + (c.toNat - 0x30)) 0)
  else none

/-- What `match_token` finds in `tokens`; `%s` needs a byte. -/
inductive Token
  | mode (value : ℕ)
  | backend (value : List UInt8)
  | library (value : List UInt8)
  | err
  deriving DecidableEq, Repr

def matchToken (p : List UInt8) : Token :=
  if modeKey <+: p then
    match octal (p.drop modeKey.length) with
    | some value => .mode value
    | none => .err
  else if backendKey <+: p ∧ p.drop backendKey.length ≠ [] then
    .backend (p.drop backendKey.length)
  else if libraryKey <+: p ∧ p.drop libraryKey.length ≠ [] then
    .library (p.drop libraryKey.length)
  else .err

/-- `match_octal`: the value has wrapped to a `long`, which must be an `int`. -/
def matchOctal (value : ℕ) : Option ℤ :=
  if -INT_MAX - 1 ≤ asI64 value ∧ asI64 value ≤ INT_MAX then some (asI64 value) else none

def DEFUSE_DEFAULT_MODE : ℕ := 0o777

structure ParsedOpts where
  mode : ℕ := DEFUSE_DEFAULT_MODE
  backendPath : Option (List UInt8) := none
  userLibraryPath : Option (List UInt8) := none
  deriving DecidableEq, Repr

/-- One round of the loop of `defuse_parse_options`; an unknown option is passed over. -/
def parseOption (opts : ParsedOpts) (p : List UInt8) : Option ParsedOpts :=
  if p = [] then some opts
  else
    match matchToken p with
    | .mode value => (matchOctal value).map fun v => { opts with mode := (v % 0o10000).toNat }
    | .backend value => some { opts with backendPath := some value }
    | .library value => some { opts with userLibraryPath := some value }
    | .err => some opts

/-- `defuse_parse_options`; `data` may be NULL, and `none` is `-EINVAL`. -/
def parseOptions (data : Option (List UInt8)) : Option MountOpts := do
  let opts ← (data.elim [] (·.splitOn comma)).foldlM parseOption {}
  return ⟨opts.mode, ← opts.backendPath, ← opts.userLibraryPath⟩

def showOptions (opts : MountOpts) : List UInt8 :=
  [comma] ++ backendKey ++ opts.backendPath ++ ([comma] ++ libraryKey ++ opts.userLibraryPath)

def mountType : List UInt8 := [0x64, 0x65, 0x66, 0x75, 0x73, 0x65]

def escapeByte (c : UInt8) : List UInt8 :=
  if c = space ∨ c = 0x09 ∨ c = newline ∨ c = backslash then
    [backslash, 0x30 + c / 64, 0x30 + c / 8 % 8, 0x30 + c % 8]
  else [c]

def escape (s : List UInt8) : List UInt8 := s.flatMap escapeByte

/-- The line of `/proc/mounts`, without the newline; `generic` are the options every file
system has. -/
def mountsLine (mountPoint generic : List UInt8) (opts : MountOpts) : List UInt8 :=
  mountType ++ [space] ++ escape mountPoint ++ [space] ++ mountType ++ [space] ++ generic ++
    showOptions opts ++ [space, 0x30, space, 0x30]

end Defuse
