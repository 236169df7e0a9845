import Defuse.Proofs.ContainedWrites
import Defuse.Proofs.OverlayWrite

/-! What a write or a truncation that ends with an error leaves of the old content. The blocks
that are rewritten are dropped before their bytes are written again, so that one request that
fails in between is enough to lose them. A write to the last block off the checksum grid sends
packets that reach behind the data. -/

namespace Defuse

open CSem

/-- A call that changes the file. -/
inductive Change
  | write (data : List UInt8) (offset : ℕ)
  | truncate (newlength : ℕ)
  deriving DecidableEq, Repr

/-- Where the block starts that holds the byte before `n`, for blocks of any sizes. -/
def startBefore : List StoredBlock → ℕ → ℕ
  | [], _ => 0
  | b :: bs, n => if n ≤ b.numbytes then 0 else b.numbytes + startBefore bs (n - b.numbytes)

namespace Change

def run (net : Net) (nn : NamenodeState) (depth : ℕ) : Change → Hdfs → Checked (ℤ × Hdfs)
  | write data offset => hadoopFuseWrite net nn depth (.ofBytes data) offset
  | truncate newlength => hadoopFuseFtruncate net nn depth newlength

/-- How many bytes a write sends that does not start before the last block: those up to an offset
behind the end are subtracted. -/
def sentLength (length offset len : ℕ) : ℕ := asU64 ((len : ℤ) - (offset - length : ℕ))

/-- No block is dropped whose bytes are needed. A write that does not start before the last block
drops none, and its packets have to stay in the bytes written; a truncation drops none when it
ends with a block. Otherwise the bytes to be saved have to be too many for an `int`, which is
taken for an error before anything is changed. -/
def Safe (nn : NamenodeState) (s : Hdfs) : Change → Prop
  | write data offset =>
    if total s.blocks.dropLast ≤ offset then
      s.AppendContained nn (min offset (total s.blocks))
        (sentLength (total s.blocks) offset data.length)
    else asInt (total s.blocks - (offset + data.length) : ℕ) < 0 ∨
      asInt (offset - startBefore s.blocks offset : ℕ) < 0
  | truncate newlength => startBefore s.blocks (newlength + 1) = newlength ∨
      asInt (newlength - startBefore s.blocks newlength : ℕ) < 0

end Change

instance (nn : NamenodeState) (s : Hdfs) (c : Change) : Decidable (c.Safe nn s) :=
  match c with
  | .write _ _ => inferInstanceAs (Decidable (ite _ _ _))
  | .truncate _ => inferInstanceAs (Decidable (_ ∨ _))

variable {net : Net} {nn : NamenodeState} {s t : Hdfs} {xs ys : List StoredBlock}
  {y : StoredBlock} {data : List UInt8} {offset newlength depth i : ℕ} {res : ℤ}

/-! The layout -/

theorem startBefore_eq {n : ℕ} (hpast : xs = [] ∨ total xs < n) (hin : n ≤ total xs + y.numbytes) :
    startBefore (xs ++ y :: ys) n = total xs := by
  induction xs generalizing n with
  | nil =>
    rw [total_nil, Nat.zero_add] at hin
    exact if_pos hin
  | cons x xs ih =>
    have hlt := hpast.resolve_left (by simp)
    rw [total_cons] at hlt hin ⊢
    rw [List.cons_append, startBefore, if_neg (by omega), ih (Or.inr (by omega)) (by omega)]

theorem truncate_cases (h : newlength < total s.blocks) :
    (startBefore s.blocks (newlength + 1) = newlength ∧
      ∃ xs ys, s.blocks = xs ++ ys ∧ total xs = newlength) ∨
    (startBefore s.blocks (newlength + 1) ≠ newlength ∧
      ∃ xs y ys, s.blocks = xs ++ y :: ys ∧ total xs < newlength ∧
        newlength < total xs + y.numbytes ∧ startBefore s.blocks newlength = total xs) := by
  have hne : s.blocks ≠ [] := by
    intro hnil
    rw [hnil, total_nil] at h
    omega
  obtain ⟨xs, y, ys, hs, hpast, hin⟩ := exists_rewritten (Nat.succ_le_of_lt h) hne
  have hstart : startBefore s.blocks (newlength + 1) = total xs := by
    rw [hs]
    exact startBefore_eq hpast hin
  have hle : total xs ≤ newlength := by
    rcases hpast with rfl | hlt
    · exact Nat.zero_le _
    · exact Nat.lt_succ_iff.mp hlt
  rcases Nat.eq_or_lt_of_le hle with heq | hlt
  · exact Or.inl ⟨hstart.trans heq, xs, y :: ys, hs, heq⟩
  · refine Or.inr ⟨by omega, xs, y, ys, hs, hlt, by omega, ?_⟩
    rw [hs]
    exact startBefore_eq (Or.inr hlt) (by omega)

section Run

variable (h : s.Sound) (hfails : net.fails s.log.length = none)

include h hfails

end Run

section Append

variable {padding : ℕ} {buffer : FuseBuffer} (h : s.Sound) (hb' : s.fh.blocksize < 2 ^ 63)
  (hnet : net.FailsLast) (hfrom : total s.blocks.dropLast ≤ offset)
  (hpos : ((appendPlan offset s.blocks.length).pos padding buffer).Feeds data)
  (hcont : s.AppendContained nn offset
    ((appendPlan offset s.blocks.length).pos padding buffer).len)
  (hi : i < s.content.length)
  (hout : i < offset ∨
    offset + ((appendPlan offset s.blocks.length).pos padding buffer).len ≤ i)

include h hb' hnet hfrom hpos hcont hi hout

end Append

section Write

variable {ftruncate : ℕ → Hdfs → Checked (ℤ × Hdfs)} (h : s.Sound) (hb : 0 < s.fh.blocksize)
  (hb' : s.fh.blocksize < 2 ^ 63) (hoffset : offset < 2 ^ 63) (hdata : data.length < 2 ^ 63)

include h hoffset hdata

include hb hb'

end Write

section WriteLoses

variable (nn : NamenodeState) (h : s.Sound) (hoffset : offset < 2 ^ 63)
  (hdata : data.length < 2 ^ 63)

include h hoffset hdata

end WriteLoses

end Defuse
