/-!
# Whether a JPEG is progressive

`CheckProgressiveMode` of `easydk/src/easycodec/progressive_jpeg.cpp`, with the indices of `data`
that it reads, in order. `data` is memory from the packet's first byte on; what it holds from
`length` on is not known.
-/

namespace CambriconGst.Easycodec

/-- `(data[i] << 8) | data[i + 1]`. -/
def word (data : Nat → UInt8) (i : Nat) : UInt16 :=
  (data i).toUInt16 <<< 8 ||| (data (i + 1)).toUInt16

namespace CheckProgressiveMode

def kJpegHeader : UInt16 := 0xFFD8

/-- The headers at which the loop returns. -/
def progressiveHeader (segHeader : UInt16) : Bool :=
  segHeader = 0xFFC2 ∨ segHeader = 0xFFCA

/-- The loop, from `i` on: the result, and the indices read. -/
def loop (data : Nat → UInt8) (length i : Nat) : Int × List Nat :=
  if i < length then
    if progressiveHeader (word data i) then (1, [i, i + 1])
    else
      let step := word data (i + 2)
      -- jump the header and the whole segment
      let r := loop data length (i + 2 + step.toNat)
      (r.1, [i, i + 1, i + 2, i + 3] ++ r.2)
  else (0, [])
termination_by length - i

end CheckProgressiveMode

open CheckProgressiveMode in
/-- `CheckProgressiveMode`: the result, and the indices read. -/
def checkProgressiveMode (data : Nat → UInt8) (length : Nat) : Int × List Nat :=
  let header := word data 0
  if header ≠ kJpegHeader then (-1, [0, 1])
  else
    -- jump the header
    let r := loop data length 2
    (r.1, [0, 1] ++ r.2)

end CambriconGst.Easycodec
