import Defuse.Proofs.SftpFields
import Defuse.Spec.SftpFile

/-! What the requests of a chunk hold: pieces of the file, one behind the other. A wait takes them
from the front, and stops at the first that was not answered in full. -/

namespace Defuse.Sshfs

open CSem

section Answers

def SftpBuffer.Carries (buf : SftpBuffer) (bytes : List UInt8) : Prop :=
  bytes.length < 2 ^ 32 ∧ wordData bytes <+: buf.unread

/-- Nothing false is said about the file. The request may fail, and the reply may be short, or no
reply at all to a read. -/
def Outcome.Truthful (F : List UInt8) (offset : ℕ) : Outcome → Prop
  | .unsent | .lost => True
  | .reply type buf =>
    buf.Received ∧ (type = SSH_FXP_DATA → ∀ bytes, buf.Carries bytes → bytes <+: F.drop offset)

/-- All that was asked for, or the end of the file. -/
def Outcome.Complete (F : List UInt8) (offset size : ℕ) : Outcome → Prop
  | .unsent | .lost => False
  | .reply type buf =>
    if offset < F.length then type = SSH_FXP_DATA ∧ buf.Carries ((F.drop offset).take size)
    else type = SSH_FXP_STATUS ∧ word32 SSH_FX_EOF <+: buf.unread

/-- A request with what its reply left in it. -/
structure ReadReq.Truthful (F : List UInt8) (offset : ℕ) (rreq : ReadReq) : Prop where
  size_pos : 0 < rreq.size
  size_lt : rreq.size < 2 ^ 31
  res_le : rreq.res ≤ rreq.size
  data : 0 < rreq.res → rreq.data.Received ∧ ∃ piece rest, rreq.data.unread = piece ++ rest ∧
    (piece.length : ℤ) = rreq.res ∧ piece <+: F.drop offset

variable {F : List UInt8} {offset size : ℕ}

end Answers

section Pieces

def Fetched (P : Prop) (F : List UInt8) (offset n : ℕ) (bytes : List UInt8) : Prop :=
  bytes.length ≤ n ∧ bytes <+: F.drop offset ∧ (P → bytes = (F.drop offset).take n)

variable {P : Prop} {F : List UInt8}

/-- The requests for the `size` bytes at `offset`, one behind the other; `P` tells that all were
answered in full. -/
def Pieces (P : Prop) (F : List UInt8) : ℕ → ℕ → List ReadReq → Prop
  | _, size, [] => P → size = 0
  | offset, size, rreq :: reqs =>
    rreq.Truthful F offset ∧ rreq.size ≤ size ∧ (P → rreq.res = min rreq.size (F.length - offset)) ∧
      Pieces P F (offset + rreq.size) (size - rreq.size) reqs

/-- What a chunk holds: the pieces, or the error at which they ended. -/
def Readable (P : Prop) (F : List UInt8) (offset size : ℕ) (reqs : List ReadReq) (error : ℤ) :
    Prop :=
  (error = 0 ∧ Pieces P F offset size reqs) ∨ (error = MY_EOF ∧ (P → F.length ≤ offset)) ∨
    (error < 0 ∧ ¬ P)

/-- A server that says nothing false, and answers everything in full when `P` holds. -/
def Serves (P : Prop) (server : List UInt8 → ℕ → ℕ → Outcome) : Prop :=
  ∀ F offset size, 0 < size → size ≤ maxRead → (server F offset size).Truthful F offset ∧
    (P → (server F offset size).Complete F offset size)

theorem Fetched.append {offset n : ℕ} {piece more : List UInt8} (hpiece : piece <+: F.drop offset)
    (hle : piece.length ≤ n) (hmore : Fetched P F (offset + piece.length) (n - piece.length) more) :
    Fetched P F offset n (piece ++ more) := by
  obtain ⟨hlength, hstart, hfull⟩ := hmore
  obtain ⟨t, ht⟩ := hpiece
  rw [← List.drop_drop, ← ht, List.drop_left] at hstart hfull
  rw [Fetched, ← ht]
  refine ⟨?_, (List.prefix_append_right_inj piece).mpr hstart, ?_⟩
  · rw [List.length_append]
    omega
  · intro hP
    rw [hfull hP, List.take_append, List.take_of_length_le hle]

def ReadChunk.Holds (P L : Prop) (F : List UInt8) (ch : ReadChunk) : Prop :=
  Readable P F ch.offset ch.size ch.reqs ch.error ∧ (ch.numReqs ≠ 0 → L)

def ReadsAt (P : Prop) (F : List UInt8) (offset n : ℕ) (res : ℤ) (bytes : List UInt8) : Prop :=
  (res = bytes.length ∧ Fetched P F offset n bytes) ∨ (res < 0 ∧ ¬ P)

end Pieces

end Defuse.Sshfs
