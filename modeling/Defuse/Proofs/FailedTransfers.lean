import Defuse.Proofs.DoWrite

/-! Transfers that fail on the way. The packets that a data node has taken are in the block; where
packets tile the bytes to be written, none of them reaches behind these bytes. -/

namespace Defuse

open CSem

variable {net : Net} {nn : NamenodeState} {s : Hdfs} {pos : BufferPos} {data : List UInt8}
  {len blockoffset i lo hi : ℕ} {packets : List SentPacket}

/-! Packets in a block -/

section Loop

variable {replies : ℕ → PacketReply} {initial sent : ℕ}

end Loop

/-! The locations of a block -/

/-- Only the last location fails once it has taken data. Behind any other one the next location
would be sent the rest of the bytes in place of all of them. -/
def FailsLast (replies : List WriteReply) : Prop :=
  ∀ reply ∈ replies.dropLast, reply.connect < 0 ∨ reply.call ≠ 0 ∨ Acknowledged reply.packets

/-- Every transfer is offered to a location, and only the last one fails behind its first data. -/
def Net.FailsLast (net : Net) : Prop :=
  ∀ k, net.writeLocs k ≠ [] ∧ ∀ location ∈ (net.writeLocs k).dropLast, ∀ op,
    (location op).connect < 0 ∨ (location op).call ≠ 0 ∨ Acknowledged (location op).packets

theorem FailsLast.tail {reply : WriteReply} {replies : List WriteReply}
    (h : FailsLast (reply :: replies)) : FailsLast replies := by
  intro r hr
  cases replies with
  | nil => cases hr
  | cons next rest =>
    exact h r (List.mem_cons_of_mem _ hr)

section Locations

variable (hd : Supplies pos.buffers data) (hroom : pos.bufferoffset + len ≤ data.length)
  (hlimit : data.length ≤ pos.flat.length)
  (htiles : nn.Supported → Tiles nn.packetsize nn.bytesperchecksum blockoffset len)

include hd hroom hlimit htiles

end Locations

def Contained (nn : NamenodeState) (blockoffset len : ℕ) : Prop :=
  nn.Supported → Tiles nn.packetsize nn.bytesperchecksum blockoffset len

/-- So do the transfers that spread `left` bytes over new blocks, up to the first one whose length
is taken for an error. -/
def SpreadsContained (nn : NamenodeState) (blocksize left : ℕ) : Prop :=
  (blocksize ≤ left → Contained nn 0 blocksize) ∧
    (left < blocksize ∨ 0 ≤ asInt blocksize → left % blocksize ≠ 0 →
      Contained nn 0 (left % blocksize))

instance (nn : NamenodeState) (blockoffset len : ℕ) : Decidable (Contained nn blockoffset len) :=
  inferInstanceAs (Decidable (_ → _))

instance (nn : NamenodeState) (blocksize left : ℕ) :
    Decidable (SpreadsContained nn blocksize left) :=
  inferInstanceAs (Decidable ((_ → _) ∧ (_ → _ → _)))

variable {blocksize left : ℕ}

end Defuse
