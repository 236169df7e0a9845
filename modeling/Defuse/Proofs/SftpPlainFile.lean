import Defuse.Proofs.SftpReads

/-! An open file of the server against a plain file, over whole runs of reads and writes. -/

namespace Defuse.Sshfs

open CSem

section PlainFile

/-- A plain file that is at hand until the connection is lost. -/
structure PlainFile where
  contents : List UInt8
  connected : Bool

/-- What a call does to a plain file. -/
def FileCall.effect : FileCall → PlainFile → PlainFile
  | .read _ _ _, f => f
  | .write wbuf offset, f =>
    if f.connected ∧ wbuf ≠ [] then { f with contents := overlay f.contents offset wbuf } else f
  | .hangup, f => { f with connected := false }

/-- What a call on a plain file returns, with what it puts into the buffer. -/
def FileCall.plain : FileCall → PlainFile → Option (ℤ × List UInt8)
  | .read _ size offset, f =>
    let bytes := (f.contents.drop offset).take size
    some (if f.connected then ((bytes.length : ℤ), bytes) else (- EIO, []))
  | .write wbuf _, f => some (if f.connected then (wbuf.length : ℤ) else - EIO, [])
  | .hangup, _ => none

/-- Sizes that an `int` can count, offsets with which an `off_t` does not overflow, and servers
that say nothing false; with `P` they answer everything in full. -/
def FileCall.Proper (P : Prop) : FileCall → Prop
  | .read server size offset => Serves P server ∧ size < 2 ^ 31 ∧ offset + 2 * size < 2 ^ 63
  | .write wbuf offset => wbuf.length < 2 ^ 31 ∧ offset + wbuf.length < 2 ^ 63
  | .hangup => True

/-- What a call on the file `f` returns. -/
def FileCall.Answered (P : Prop) (syncRead : Bool) (f : PlainFile) (call : FileCall)
    (result : Option (ℤ × List UInt8)) : Prop :=
  match call with
  | .read _ size offset =>
    if f.connected then ∃ res bytes, result = some (res, bytes) ∧
      ReadsAt P f.contents offset size res bytes ∧ (syncRead → 0 ≤ res)
    else result = call.plain f
  | .write _ _ | .hangup => result = call.plain f

variable {P L : Prop} {s : OpenFile} {object : ℕ}

theorem FileInv.written {held : Multiset ℕ} (h : FileInv P L held s) (contents : List UInt8) :
    FileInv P L held { s with modifver := s.modifver + 1, contents } := by
  refine ⟨h.covers, h.bound, ?_, h.lost⟩
  intro p ch hch
  have hle := (h.current p ch hch).1
  exact ⟨Nat.le_succ_of_le hle, fun hcurrent => absurd hcurrent (by dsimp only; omega)⟩

/-- Between two synchronous reads there is no chunk. -/
structure NoChunks (L : Prop) (s : OpenFile) : Prop where
  readahead : s.readahead = none
  chunks : ∀ p, s.chunks p = none
  lost : s.pending ≠ 0 → L

/-- Between two calls. -/
structure OpenFile.Sound (P L : Prop) (syncRead : Bool) (s : OpenFile) : Prop where
  chunks : if syncRead then NoChunks L s else FileInv P L s.kept s
  lost : s.pending ≠ 0 → L
  locked : s.link.locked = true → L
  connver : s.link.fileConnver ≤ s.link.connver

end PlainFile

end Defuse.Sshfs
