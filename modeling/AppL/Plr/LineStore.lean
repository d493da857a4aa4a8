import AppL.Settings
import AppL.Lib.Transition
import AppL.Lib.PackedArray

/-!
# The lines of a piecewise linear regression

The lines are kept in chunks.  A chunk has the position of its first line, and the other lines
have the differences to the line before them, in packed arrays.  A new chunk is begun when the
last one has `DELTA_SIZE` lines or a difference is too large for its field.  A lookup searches
the chunks and walks along the differences.
-/

namespace AppL

open Transition

namespace Plr

/-- `TICK`. -/
def tick : ℤ := 200

/-- `DELTA_SIZE`. -/
def deltaSize : ℕ := 30

/-- `CORRECTION`. -/
def correction : ℤ := 60

/-- `X_BIT`. -/
def xBit : ℕ := 11

/-- `Y_BIT`. -/
def yBit : ℕ := 9

/-- `X_FULL`. -/
def xFull : ℤ := 2 ^ xBit - 1

/-- `Y_FULL`. -/
def yFull : ℤ := 2 ^ yBit - 1

/-- The arguments of the constructor; the width of the field of an intercept is that of an
`int` at most. -/
structure Param where
  slopeBit : ℕ
  range : ℕ
  slopeBit_pos : 0 < slopeBit
  width : slopeBit + 1 + ((100 + range).log2 + 1) ≤ 31

namespace Param

variable (p : Param)

/-- `A_BIT`. -/
def aBit : ℕ := p.slopeBit

/-- `bit`. -/
def bit : ℤ := 2 ^ p.aBit

/-- `delta`. -/
def delta : ℤ := tick / 2 + p.range

/-- `B_BIT`: one bit more than the slope and as many as `delta` has. -/
def bBit : ℕ := p.slopeBit + 1 + ((100 + p.range).log2 + 1)

end Param

/-- A line: the address it begins at, the page there, the slope and the intercept. -/
structure Line where
  x : ℤ
  y : ℤ
  a : ℤ
  b : ℤ
  deriving DecidableEq, Repr

/-- The arrays of a `PLR`. -/
structure LineStore where
  xCompressed : List (BitVec 64)
  yCompressed : List (BitVec 64)
  aCompressed : List (BitVec 64)
  bCompressed : List (BitVec 64)
  chunkX : List ℤ
  chunkY : List ℤ
  chunkOffset : List ℕ
  chunkSize : ℕ
  lineCnt : ℕ
  xPrev : ℤ
  yPrev : ℤ

/-- A conversion to `int32_t`. -/
def int32 (z : ℤ) : ℤ := z.bmod (2 ^ 32)

namespace LineStore

/-- The arrays after the constructor.  `x_prev` and `y_prev` are set before they are read. -/
def new : LineStore where
  xCompressed := [0]
  yCompressed := [0]
  aCompressed := [0]
  bCompressed := [0]
  chunkX := []
  chunkY := []
  chunkOffset := []
  chunkSize := 1
  lineCnt := 0
  xPrev := 0
  yPrev := 0

variable (p : Param) (s : LineStore)

/-- `chunk_cnt`. -/
def chunkCnt : ℕ := s.chunkX.length

/-- `get_x`. -/
def getX (index : ℕ) : Except Abort (BitVec 64) :=
  orThrow .outOfBounds (PackedArray.get xBit s.xCompressed index)

/-- `get_y`. -/
def getY (index : ℕ) : Except Abort (BitVec 64) :=
  orThrow .outOfBounds (PackedArray.get yBit s.yCompressed index)

/-- `get_a`. -/
def getA (index : ℕ) : Except Abort (BitVec 64) :=
  orThrow .outOfBounds (PackedArray.get p.aBit s.aCompressed index)

/-- `get_b`. -/
def getB (index : ℕ) : Except Abort (BitVec 64) :=
  orThrow .outOfBounds (PackedArray.get p.bBit s.bCompressed index)

/-- `set_x`. -/
def setX (index : ℕ) (value : ℤ) : Except Abort LineStore := do
  let words ← orThrow .outOfBounds
    (PackedArray.set xBit s.xCompressed index (BitVec.ofInt 64 value))
  return { s with xCompressed := words }

/-- `set_y`. -/
def setY (index : ℕ) (value : ℤ) : Except Abort LineStore := do
  let words ← orThrow .outOfBounds
    (PackedArray.set yBit s.yCompressed index (BitVec.ofInt 64 value))
  return { s with yCompressed := words }

/-- `set_a`. -/
def setA (index : ℕ) (value : ℤ) : Except Abort LineStore := do
  let words ← orThrow .outOfBounds
    (PackedArray.set p.aBit s.aCompressed index (BitVec.ofInt 64 value))
  return { s with aCompressed := words }

/-- `set_b`. -/
def setB (index : ℕ) (value : ℤ) : Except Abort LineStore := do
  let words ← orThrow .outOfBounds
    (PackedArray.set p.bBit s.bCompressed index (BitVec.ofInt 64 value))
  return { s with bCompressed := words }

/-- Whether a line begins a new chunk. -/
def restarts (x y : ℤ) : Bool :=
  match s.chunkOffset[s.chunkCnt - 1]? with
  | none => true
  | some offset => s.lineCnt - offset = deltaSize ∨ x - s.xPrev > xFull ∨ y - s.yPrev > yFull

/-- The arrays of the chunks double when they are full. -/
def growChunks : LineStore :=
  if s.chunkSize ≤ s.chunkCnt then { s with chunkSize := s.chunkSize * 2 } else s

/-- The position of a line that begins a chunk. -/
def beginChunk (x y : ℤ) : Except Abort LineStore := do
  let s := s.growChunks
  require .outOfBounds (s.chunkCnt < s.chunkSize)
  let s : LineStore := { s with
    chunkX := s.chunkX ++ [int32 x]
    chunkY := s.chunkY ++ [int32 y]
    chunkOffset := s.chunkOffset ++ [s.lineCnt] }
  let s ← s.setX s.lineCnt xFull
  s.setY s.lineCnt yFull

/-- The position of a line that goes on with a chunk. -/
def pushDelta (x y : ℤ) : Except Abort LineStore := do
  let s ← s.setX s.lineCnt (x - s.xPrev)
  s.setY s.lineCnt (y - s.yPrev)

/-- The position of a line. -/
def pushPosition (x y : ℤ) : Except Abort LineStore :=
  if s.restarts x y = true then s.beginChunk x y else s.pushDelta x y

/-- The field of an intercept: a negative one is kept with its sign and magnitude. -/
def encodeB (b : ℤ) : ℤ := if b < 0 then -b + 2 ^ (p.bBit - 1) - 1 else b

/-- `line_push_back`. -/
def linePushBack (x y a b : ℤ) : Except Abort LineStore := do
  let x := x.tdiv correction
  let y := (y - tick / 2).tdiv tick
  let s ← s.pushPosition x y
  let s ← s.setA p s.lineCnt a
  let s ← s.setB p s.lineCnt (encodeB p b)
  return { s with xPrev := int32 x, yPrev := int32 y, lineCnt := s.lineCnt + 1 }

/-- The last part of `insert_end`. -/
def close : Except Abort LineStore := do
  let s ← s.setX s.lineCnt xFull
  let s ← s.setY s.lineCnt yFull
  let s := s.growChunks
  require .outOfBounds (s.chunkCnt < s.chunkSize)
  return { s with chunkOffset := s.chunkOffset ++ [s.lineCnt] }

/-! ### Lookups -/

/-- The binary search of `get` for the last chunk that does not begin after an address. -/
def searchChunk (lba : ℤ) : ℕ → ℕ → ℕ → Except Abort ℕ
  | 0, low, high => if high - low > 1 then .error .endlessLoop else .ok low
  | fuel + 1, low, high =>
      if high - low > 1 then do
        let mid := low + (high - low) / 2
        let x ← orThrow .outOfBounds s.chunkX[mid]?
        if lba ≥ x then searchChunk lba fuel mid high else searchChunk lba fuel low mid
      else
        .ok low

/-- The walk of `get` along the at most `n` lines left of a chunk. -/
def walk (lba : ℤ) : ℕ → ℤ → ℤ → ℕ → Except Abort (ℤ × ℤ × ℕ)
  | 0, x, y, index => .ok (x, y, index)
  | n + 1, x, y, index => do
      let dx ← s.getX index
      if lba ≥ x + dx.toNat then do
        let dy ← s.getY index
        walk lba n (x + dx.toNat) (y + dy.toNat) (index + 1)
      else
        .ok (x, y, index)

/-- The position that `get` stops at, and the number of the line after it. -/
def locate (lba : ℤ) : Except Abort (ℤ × ℤ × ℕ) := do
  let low ← s.searchChunk lba s.chunkCnt 0 s.chunkCnt
  let x ← orThrow .outOfBounds s.chunkX[low]?
  let y ← orThrow .outOfBounds s.chunkY[low]?
  let offset ← orThrow .outOfBounds s.chunkOffset[low]?
  let stop ← orThrow .outOfBounds s.chunkOffset[low + 1]?
  s.walk lba (stop - (offset + 1)) x y (offset + 1)

/-- The intercept of a field. -/
def decodeB (b : BitVec 64) : ℤ :=
  if b &&& ((1 : BitVec 64) <<< (p.bBit - 1)) ≠ 0 then
    -((b &&& (((1 : BitVec 64) <<< (p.bBit - 1)) - 1)).toNat + 1)
  else
    b.toNat

/-- The line that `get` uses for an address. -/
def lineAt (lba : ℤ) : Except Abort Line := do
  let (x, y, index) ← s.locate lba
  let a ← s.getA p (index - 1)
  let b ← s.getB p (index - 1)
  return ⟨x, y, a.toNat, decodeB p b⟩

/-! ### Lists of lines -/

/-- A line is pushed. -/
def pushLine (s : LineStore) (l : Line) : Except Abort LineStore :=
  s.linePushBack p (l.x * correction) (l.y * tick + tick / 2) l.a l.b

/-- Lines are pushed one after another, and the store is closed. -/
def store (lines : List Line) : Except Abort LineStore := do
  let s ← lines.foldlM (pushLine p) new
  s.close

end LineStore

end Plr

end AppL
