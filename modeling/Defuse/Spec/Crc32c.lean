import Defuse.Lib.ShiftRegister
import Defuse.Lib.Words

/-! `usfs_wrap/hdfs/crc32c.c`. A table of 256 entries is a function of the byte that indexes it,
and `next` with `len` is the rest of the buffer. -/

namespace Defuse

open CSem

def POLY : BitVec 32 := 0x82f63b78

/-- `crc & 1 ? (crc >> 1) ^ POLY : crc >> 1`. -/
def crcShift (crc : BitVec 32) : BitVec 32 :=
  if crc &&& 1 ≠ 0 then (crc >>> 1) ^^^ POLY else crc >>> 1

/-- The rows of `crc32c_table`, as `crc32c_init_sw` fills them. -/
def crc32cTable : ℕ → BitVec 8 → BitVec 32
  | 0, n => crcShift^[8] (n.setWidth 32)
  | k + 1, n =>
    let crc := crc32cTable k n
    crc32cTable 0 (crc.setWidth 8) ^^^ (crc >>> 8)

def alignLoop (byteStep : BitVec 64 → UInt8 → BitVec 64) :
    ℕ → BitVec 64 → List UInt8 → BitVec 64 × List UInt8
  | _, crc, [] => (crc, [])
  | next, crc, b :: buf =>
    if next % 8 ≠ 0 then alignLoop byteStep (next + 1) (byteStep crc b) buf else (crc, b :: buf)

def wordLoop (wordStep : BitVec 64 → BitVec 64 → BitVec 64) (crc : BitVec 64)
    (buf : List UInt8) : Checked (BitVec 64 × List UInt8) :=
  if 8 ≤ buf.length then do
    let word ← load64 buf 0
    wordLoop wordStep (wordStep crc (BitVec.ofNat 64 word)) (buf.drop 8)
  else return (crc, buf)
termination_by buf.length
decreasing_by simp only [List.length_drop]; omega

def swByte (crc : BitVec 64) (b : UInt8) : BitVec 64 :=
  (crc32cTable 0 ((crc ^^^ b.toBitVec.setWidth 64).setWidth 8)).setWidth 64 ^^^ (crc >>> 8)

/-- A word in `crc32c_sw`. -/
def swWord (crc word : BitVec 64) : BitVec 64 :=
  let crc := crc ^^^ word
  (crc32cTable 7 (crc.setWidth 8) ^^^
    crc32cTable 6 ((crc >>> 8).setWidth 8) ^^^
    crc32cTable 5 ((crc >>> 16).setWidth 8) ^^^
    crc32cTable 4 ((crc >>> 24).setWidth 8) ^^^
    crc32cTable 3 ((crc >>> 32).setWidth 8) ^^^
    crc32cTable 2 ((crc >>> 40).setWidth 8) ^^^
    crc32cTable 1 ((crc >>> 48).setWidth 8) ^^^
    crc32cTable 0 ((crc >>> 56).setWidth 8)).setWidth 64

/-- `crc32c_sw` for a buffer at address `next`. -/
def crc32cSw (crci : BitVec 32) (next : ℕ) (buf : List UInt8) : Checked (BitVec 32) := do
  let crc := (crci ^^^ 0xffffffff).setWidth 64
  let (crc, buf) := alignLoop swByte next crc buf
  let (crc, buf) ← wordLoop swWord crc buf
  let crc := buf.foldl swByte crc
  return crc.setWidth 32 ^^^ 0xffffffff

/-- `gf2_matrix_times`, with `sum` so far. -/
def gf2MatrixTimes (sum : BitVec 32) : List (BitVec 32) → BitVec 32 → Checked (BitVec 32)
  | [], vec => if vec = 0 then return sum else .error .outOfBounds
  | row :: mat, vec =>
    if vec = 0 then return sum
    else gf2MatrixTimes (if vec &&& 1 ≠ 0 then sum ^^^ row else sum) mat (vec >>> 1)

def gf2MatrixSquare (mat : List (BitVec 32)) : Checked (List (BitVec 32)) :=
  mat.mapM (gf2MatrixTimes 0 mat)

/-- The loop of `crc32c_zeros_op`, with what it leaves in `even`. -/
def zerosLoop (odd : List (BitVec 32)) (len : ℕ) : Checked (List (BitVec 32)) := do
  let even ← gf2MatrixSquare odd
  if len / 2 = 0 then return even
  else
    let odd ← gf2MatrixSquare even
    if len / 2 / 2 ≠ 0 then zerosLoop odd (len / 2 / 2) else return odd
termination_by len
decreasing_by omega

def oneZeroBit : List (BitVec 32) := POLY :: (List.range 31).map fun n => 1 <<< n

def crc32cZerosOp (len : ℕ) : Checked (List (BitVec 32)) := do
  let even ← gf2MatrixSquare oneZeroBit
  let odd ← gf2MatrixSquare even
  zerosLoop odd len

/-- `crc32c_zeros`: entry `n` of row `k`. -/
def crc32cZeros (len k : ℕ) (n : BitVec 8) : Checked (BitVec 32) := do
  let op ← crc32cZerosOp len
  gf2MatrixTimes 0 op (n.setWidth 32 <<< (8 * k))

/-- `crc32c_shift` with the table for `len` zeros. -/
def crc32cShift (len : ℕ) (crc : BitVec 32) : Checked (BitVec 32) := do
  return (← crc32cZeros len 0 (crc.setWidth 8)) ^^^
    (← crc32cZeros len 1 ((crc >>> 8).setWidth 8)) ^^^
    (← crc32cZeros len 2 ((crc >>> 16).setWidth 8)) ^^^
    (← crc32cZeros len 3 ((crc >>> 24).setWidth 8))

/-- The instruction `crc32b`: the register takes in a byte, in the bit order of `POLY`. -/
def crc32b (crc : BitVec 64) (b : UInt8) : BitVec 64 :=
  ((lfsr POLY)^[8] (crc.setWidth 32 ^^^ b.toBitVec.setWidth 32)).setWidth 64

def crc32q (crc word : BitVec 64) : BitVec 64 :=
  (lfsr (POLY.setWidth 64))^[64] ((crc.setWidth 32).setWidth 64 ^^^ word)

inductive BlockSize
  | long
  | short

def BlockSize.bytes : BlockSize → ℕ
  | .long => 8192
  | .short => 256

theorem BlockSize.bytes_pos (size : BlockSize) : 0 < size.bytes := by cases size <;> decide

/-- `n` rounds of the loop that runs through three blocks of `size` bytes side by side. -/
def threeWay (size : ℕ) :
    ℕ → List UInt8 → BitVec 64 → BitVec 64 → BitVec 64 →
      Checked (BitVec 64 × BitVec 64 × BitVec 64)
  | 0, _, crc0, crc1, crc2 => return (crc0, crc1, crc2)
  | n + 1, next, crc0, crc1, crc2 => do
    let word0 ← load64 next 0
    let word1 ← load64 next size
    let word2 ← load64 next (2 * size)
    threeWay size n (next.drop 8) (crc32q crc0 (BitVec.ofNat 64 word0))
      (crc32q crc1 (BitVec.ofNat 64 word1)) (crc32q crc2 (BitVec.ofNat 64 word2))

/-- A set of three blocks: the registers of the second and the third start from zero and are
then joined with the first. -/
def threeBlocks (size : BlockSize) (crc0 : BitVec 64) (next : List UInt8) :
    Checked (BitVec 64) := do
  let (crc0, crc1, crc2) ← threeWay size.bytes (size.bytes / 8) next crc0 0 0
  let crc0 := (← crc32cShift size.bytes (crc0.setWidth 32)).setWidth 64 ^^^ crc1
  return (← crc32cShift size.bytes (crc0.setWidth 32)).setWidth 64 ^^^ crc2

/-- The loop of `crc32c_hw` over sets of three blocks. -/
def blockLoop (size : BlockSize) (crc0 : BitVec 64) (buf : List UInt8) :
    Checked (BitVec 64 × List UInt8) :=
  if size.bytes * 3 ≤ buf.length then do
    let crc0 ← threeBlocks size crc0 buf
    blockLoop size crc0 (buf.drop (size.bytes * 3))
  else return (crc0, buf)
termination_by buf.length
decreasing_by
  have := size.bytes_pos
  simp only [List.length_drop]
  omega

/-- `crc32c_hw` for a buffer at address `next`. -/
def crc32cHw (crc : BitVec 32) (next : ℕ) (buf : List UInt8) : Checked (BitVec 32) := do
  let crc0 := (crc ^^^ 0xffffffff).setWidth 64
  let (crc0, buf) := alignLoop crc32b next crc0 buf
  let (crc0, buf) ← blockLoop .long crc0 buf
  let (crc0, buf) ← blockLoop .short crc0 buf
  let (crc0, buf) ← wordLoop crc32q crc0 buf
  let crc0 := buf.foldl crc32b crc0
  return crc0.setWidth 32 ^^^ 0xffffffff

/-- `crc32c` on a processor with or without SSE 4.2. -/
def crc32c (sse42 : Bool) (crc : BitVec 32) (next : ℕ) (buf : List UInt8) :
    Checked (BitVec 32) :=
  if sse42 then crc32cHw crc next buf else crc32cSw crc next buf

end Defuse
