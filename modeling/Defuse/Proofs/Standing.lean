import Defuse.Proofs.FailedTransfers
import Defuse.Proofs.SaveAround
import Defuse.Proofs.Shrink

/-! What stays in a file whatever the servers do: the blocks that were there before blocks are
added, and those before the first one that is dropped. -/

namespace Defuse

open CSem

/-- The file starts with these blocks, and the next commit does not change them. -/
structure Standing (xs : List StoredBlock) (last : Option ExtendedBlock) (s : Hdfs) : Prop where
  blocks : xs <+: s.blocks
  settled : Settled last xs
  ids : ∀ b ∈ xs, b.blockid < s.fresh

variable {net : Net} {nn : NamenodeState} {s s' : Hdfs} {xs ys : List StoredBlock}
  {y : StoredBlock} {last last' : Option ExtendedBlock} {pos : BufferPos} {res res' : ℤ}

namespace Standing

theorem logged (h : Standing xs last s) (req : Request) : Standing xs last (s.logged req) :=
  ⟨h.blocks, h.settled, h.ids⟩

theorem commit (h : Standing xs last s) : xs <+: (s.commit last).blocks := by
  obtain ⟨ys, hys⟩ := h.blocks
  obtain ⟨ys', hys'⟩ := h.settled.commit_blocks hys.symm
  rw [hys']
  exact List.prefix_append _ _

theorem update (h : Standing xs last s) {id : ℕ} (hid : ∀ b ∈ xs, b.blockid ≠ id)
    (f : StoredBlock → StoredBlock) : xs <+: updateBlock id f s.blocks := by
  obtain ⟨ys, hys⟩ := h.blocks
  rw [← hys, updateBlock_append, updateBlock_of_ne hid]
  exact List.prefix_append _ _

theorem complete (h : Standing xs last s) (fileid : ℕ) :
    xs <+: (hadoopFuseComplete net fileid last s).2.blocks := by
  obtain ⟨log, ⟨res, -, hrun⟩ | hrun⟩ :=
    completeLoop_cases net fileid last (net.unready s.log.length) s
  · rw [hadoopFuseComplete, hrun]
    exact h.blocks
  · rw [hadoopFuseComplete, hrun]
    exact h.commit

end Standing

/-! Blocks that are added -/

theorem writeBlock_frame {len blockoffset : ℕ} {block newblock : ExtendedBlock} {r : BlockWritten}
    (h : net.writeBlock nn pos len blockoffset block newblock s = .ok (r, s')) :
    r.newblock.blockid = newblock.blockid ∧
      ∃ f, s' = { s.logged (.writeBlock block newblock blockoffset len) with
        blocks := updateBlock block.blockid f s.blocks } := by
  obtain ⟨-, hout, packets, -, hs'⟩ := writeBlock_inv h
  refine ⟨?_, _, hs'⟩
  rcases hout with ⟨-, -, hnew⟩ | ⟨-, -, hnew⟩
  · rw [hnew]
  · rw [hnew]

namespace Standing

theorem added (h : Standing xs last s) : Standing xs last (s.added last) := by
  refine ⟨h.commit.trans (List.prefix_append _ _), h.settled, ?_⟩
  intro b hb
  exact (h.ids b hb).trans (Nat.lt_succ_self _)

theorem written (h : Standing xs last s) {len blockoffset : ℕ} {block newblock : ExtendedBlock}
    {r : BlockWritten} (hid : ∀ b ∈ xs, b.blockid ≠ block.blockid)
    (hwrite : net.writeBlock nn pos len blockoffset block newblock s = .ok (r, s')) :
    Standing xs last s' := by
  obtain ⟨-, f, hs'⟩ := writeBlock_frame hwrite
  rw [hs']
  exact ⟨h.update hid f, h.settled, h.ids⟩

end Standing

section OpenBlock

variable {data : List UInt8} {start offset : ℕ}

end OpenBlock

/-! Blocks that are dropped -/

end Defuse
