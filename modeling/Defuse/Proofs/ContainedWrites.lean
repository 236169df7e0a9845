import Defuse.Proofs.Standing
import Defuse.Proofs.WriteFile

/-! When `hadoop_fuse_do_write` returns at all: its packets have to stay in the bytes that they are
sent for. Then it returns whichever requests fail; otherwise it reads behind its buffers as soon
as the data nodes take everything. -/

namespace Defuse

open CSem

variable {net : Net} {nn : NamenodeState} {s t : Hdfs} {pos : BufferPos} {data : List UInt8}
  {offset start : ℕ} {res res' : ℤ} {last last' : Option ExtendedBlock}

/-! Whichever requests fail -/

/-- The packets for `n` bytes at the offset stay in their blocks and in these bytes: those for the
last block, as far as it is open, and those for the new ones. -/
def Hdfs.AppendContained (nn : NamenodeState) (s : Hdfs) (offset n : ℕ) : Prop :=
  let start := total s.blocks.dropLast
  if s.blocks ≠ [] ∧ offset < start + s.fh.blocksize then
    Contained nn (offset - start) (openBytes s.fh.blocksize (offset - start) n) ∧
      (0 ≤ asInt (openBytes s.fh.blocksize (offset - start) n) →
        SpreadsContained nn s.fh.blocksize (n - openBytes s.fh.blocksize (offset - start) n))
  else SpreadsContained nn s.fh.blocksize n

instance (nn : NamenodeState) (s : Hdfs) (offset n : ℕ) :
    Decidable (s.AppendContained nn offset n) :=
  inferInstanceAs (Decidable (ite _ _ _))

section Append

variable {padding : ℕ} {buffer : FuseBuffer} (h : s.Sound) (hb' : s.fh.blocksize < 2 ^ 63)

include h hb'

variable (hb : 0 < s.fh.blocksize) (hfrom : total s.blocks.dropLast ≤ offset)
  (hpos : ((appendPlan offset s.blocks.length).pos padding buffer).Feeds data)

include hb hfrom hpos

end Append

end Defuse
