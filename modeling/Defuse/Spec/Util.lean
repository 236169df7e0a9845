import Defuse.Lib.Buffer
import Defuse.Lib.Paths
import Defuse.Spec.MountPoints

/-! `libdefuse/util.c`: `resolve_path` and the two rewriters it runs over its
`PATH_MAX`-byte array, and the dispatch of `DEFUSE_OP`. The loops carry a step limit. -/

namespace Defuse

open CSem

def PATH_MAX : ℕ := 4096

/-- The loop of `remove_path_string`, with `p_len` and the step limit. -/
def removePathStringLoop (str : List UInt8) :
    ℕ → List UInt8 → ℕ → Checked (List UInt8)
  | 0, _, _ => .error .stepLimit
  | limit + 1, buf, pLen => do
    match strstr (← loadString buf 0) str with
    | none => return buf
    | some k =>
      let strLen := str.length - 1
      let buf ← memmove buf k (k + strLen) (pLen - k) >>= fun buf => store buf (pLen - strLen) 0
      removePathStringLoop str limit buf (pLen - strLen)

def removePathString (buf str : List UInt8) : Checked (List UInt8) := do
  let pLen := (← loadString buf 0).length
  removePathStringLoop str (pLen + 1) buf pLen

/-- `p_start` for a match at `k`: the last slash before it, or `-1`. -/
def slashBefore (buf : List UInt8) : ℕ → ℤ
  | 0 => -1
  | k + 1 => if buf[k]? = some slash then k else slashBefore buf k

/-- The loop of `remove_dot_dot`. -/
def removeDotDotLoop : ℕ → List UInt8 → ℕ → Checked (List UInt8)
  | 0, _, _ => .error .stepLimit
  | limit + 1, buf, pLen => do
    match strstr (← loadString buf 0) (inner dotdot) with
    | none => return buf
    | some k =>
      if k = 0 then return buf
      else
        let pEnd := k + 3
        let pStart := slashBefore buf k
        let charsToRemove := ((pEnd : ℤ) - pStart).toNat
        let buf ← memmove buf pStart pEnd (pLen - charsToRemove) >>=
          fun buf => store buf (pLen - charsToRemove) 0
        removeDotDotLoop limit buf (pLen - charsToRemove)

def removeDotDot (buf : List UInt8) : Checked (List UInt8) := do
  let pLen := (← loadString buf 0).length
  removeDotDotLoop (pLen + 1) buf pLen

def roomFrom (pPos : ℕ) : ℕ := asU64 ((PATH_MAX : ℤ) - pPos)

/-- The array `path` after the copies: the argument, behind the working directory and a
slash unless it is absolute. -/
def joinPath (cwd p : List UInt8) : Checked (List UInt8) :=
  let path := List.replicate PATH_MAX 0
  if p.head? ≠ some slash then do
    let path ← strncpy path 0 cwd PATH_MAX
    let path ← strncpy path cwd.length [slash] (roomFrom cwd.length)
    strncpy path (cwd.length + 1) p (roomFrom (cwd.length + 1))
  else strncpy path 0 p PATH_MAX

/-- `resolve_path`; `none` is the NULL it returns for an empty argument. -/
def resolvePath (cwd p : List UInt8) : Checked (Option (List UInt8)) :=
  if p = [] then return none
  else do
    let path ← joinPath cwd p
    let path ← removePathString path (inner dot)
    let path ← removePathString path (inner [])
    let path ← removeDotDot path
    return some (← loadString path 0)

/-- `DEFUSE_OP`: the mount that serves the call, by its place, and the path passed on to
it; `none` when the real call is made. A NULL path is searched like any other. -/
def dispatch (mounts : List MountPointData) (cwd p : List UInt8) :
    Checked (Option (ℕ × List UInt8)) := do
  match ← resolvePath cwd p with
  | none => if mounts = [] then return none else .error .nullDeref
  | some path => return findMountAndStripPath mounts path

end Defuse
