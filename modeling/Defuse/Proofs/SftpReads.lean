import Defuse.Lib.Refs
import Defuse.Proofs.SftpChunks

/-! Reads with read-ahead against a plain file. A chunk of the current version holds the current
contents, and a chunk is freed only with the last reference to it. -/

namespace Defuse.Sshfs

open CSem

section Chunks

/-- The chunks of an open file, with the references that are held. -/
structure FileInv (P L : Prop) (held : Multiset ℕ) (s : OpenFile) : Prop where
  covers : Covers ReadChunk.refs s.chunks held
  bound : ∀ p ∈ held, p < s.next
  current : ∀ p ch, s.chunks p = some ch → ch.modifver ≤ s.modifver ∧
    (ch.modifver = s.modifver → ch.Holds P L s.contents)
  lost : s.pending ≠ 0 → L

def Placed (s : OpenFile) (p offset size : ℕ) : Prop :=
  ∃ ch, s.chunks p = some ch ∧ ch.offset = offset ∧ ch.size = size ∧ ch.modifver = s.modifver

variable {P L : Prop} {held : Multiset ℕ} {s : OpenFile} {p : ℕ} {ch : ReadChunk}

@[simp] theorem withChunk_self (ch : Option ReadChunk) : (s.withChunk p ch).chunks p = ch :=
  Function.update_self ..

theorem withChunk_of_ne {q : ℕ} (h : q ≠ p) (ch : Option ReadChunk) :
    (s.withChunk p ch).chunks q = s.chunks q :=
  Function.update_of_ne h ..

theorem put_keeps {ch' : ReadChunk} (h : ch.put = some ch') : ch' = { ch with refs := ch.refs - 1 } := by
  unfold ReadChunk.put at h
  split_ifs at h
  exact (Option.some.inj h).symm

theorem FileInv.withChunk {held' : Multiset ℕ} {new : Option ReadChunk} (h : FileInv P L held s)
    (hcovers : Covers ReadChunk.refs (s.withChunk p new).chunks held')
    (hbound : ∀ q ∈ held', q < s.next)
    (hnew : ∀ ch', new = some ch' → ch'.modifver ≤ s.modifver ∧
      (ch'.modifver = s.modifver → ch'.Holds P L s.contents)) :
    FileInv P L held' (s.withChunk p new) := by
  refine ⟨hcovers, hbound, ?_, h.lost⟩
  intro q ch' hq
  rcases eq_or_ne q p with rfl | hqp
  · rw [withChunk_self] at hq
    exact hnew ch' hq
  · rw [withChunk_of_ne hqp] at hq
    exact h.current q ch' hq

theorem FileInv.put (h : FileInv P L (p ::ₘ held) s) (hch : s.chunks p = some ch) :
    FileInv P L held (s.withChunk p ch.put) := by
  apply h.withChunk
  · exact h.covers.put hch rfl
  · exact fun q hq => h.bound q (Multiset.mem_cons_of_mem hq)
  · intro ch' hput
    rw [put_keeps hput]
    exact h.current p ch hch

def refsOf (chunkp : Option ℕ) : Multiset ℕ := chunkp.toList

/-- The same file at the server, and the same connection. -/
structure SameFile (s s' : OpenFile) : Prop where
  contents : s'.contents = s.contents
  modifver : s'.modifver = s.modifver
  readahead : s'.readahead = s.readahead
  link : s'.link = s.link

end Chunks

section AsyncReads

variable {P L : Prop} {s : OpenFile} {server : List UInt8 → ℕ → ℕ → Outcome} {size offset : ℕ}

/-- The references that are left between two reads: that of `readahead`, and one for every chunk
that was ever submitted, which nobody gives up. -/
def OpenFile.kept (s : OpenFile) : Multiset ℕ := Multiset.range s.next + refsOf s.readahead

def Awaited.refs (awaited : Awaited) : Multiset ℕ :=
  awaited.chunk ::ₘ refsOf (awaited.prev.map Prod.fst)

theorem SameFile.trans {s₁ s₂ s₃ : OpenFile} (h : SameFile s₁ s₂) (h' : SameFile s₂ s₃) :
    SameFile s₁ s₃ :=
  ⟨h'.contents.trans h.contents, h'.modifver.trans h.modifver, h'.readahead.trans h.readahead,
    h'.link.trans h.link⟩

end AsyncReads

end Defuse.Sshfs
