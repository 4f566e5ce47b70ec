import CambriconGst.Lib.BinaryFormat

/-!
# Half precision

`half::float2half` and `half::half2float` of `half.cpp`. A `float` is its bits, as `_bit32_u` gives
them.
-/

namespace CambriconGst.Easybang

open Lib

def binary32 : Format := ⟨23, 8, by decide⟩

def binary16 : Format := ⟨10, 5, by decide⟩

/-- `a - b` of the type `float`, for finite numbers. -/
def floatSub (a b : UInt32) : UInt32 :=
  UInt32.ofNat (binary32.sub a.toNat b.toNat)

def float2half (f : UInt32) : UInt16 :=
  let sign := (f >>> 31) &&& 0x00000001
  let exp := (f >>> 23) &&& 0x000000FF
  let eff := (f >>> 13) &&& 0x000003FF
  if exp = 0xFF then
    if eff ≠ 0 then if sign ≠ 0 then 0xFFFF else 0x7FFF
    else if sign ≠ 0 then 0xFC00 else 0x7C00
  else if exp = 0x00 then
    -- zero or denormal
    if sign ≠ 0 then 0x8000 else 0x0000
  else if (exp.toNat : Int) - 0x7F ≥ 0x1F - 0x0F then
    if sign ≠ 0 then 0xFC00 else 0x7C00
  else if (exp.toNat : Int) - 0x7F ≤ 0x00 - 0x0F then
    let shift : Int := 0x7F - exp.toNat - 0x0E
    let shift := if shift > 11 then 11 else shift
    ((sign <<< 15) ||| ((0x0400 ||| eff) >>> UInt32.ofNat shift.toNat)).toUInt16
  else
    let exp := ((exp - 0x7F) + 0x0F) &&& 0x1F
    ((sign <<< 15) ||| (exp <<< 10) ||| eff).toUInt16

def half2float (f : UInt16) : UInt32 :=
  let sign := ((f >>> 15) &&& 0x01).toUInt32
  let exp := ((f >>> 10) &&& 0x1F).toUInt32
  let eff := (f &&& 0x03FF).toUInt32
  if exp = 0x1F then
    if eff ≠ 0 then if sign ≠ 0 then 0xFFFFFFFF else 0x7FFFFFFF
    else if sign ≠ 0 then 0xFF800000 else 0x7F800000
  else if exp = 0x00 then
    if eff ≠ 0 then
      let result := (sign <<< 31) ||| (((0x7F - 0x0E) : UInt32) <<< 23) ||| (eff <<< (23 - 10))
      let resultBase := (sign <<< 31) ||| (((0x7F - 0x0E) : UInt32) <<< 23)
        ||| ((0x00000000 : UInt32) <<< 13)
      floatSub result resultBase
    else (sign <<< 31) ||| 0x00000000
  else
    let exp := (exp - 0x0F) + 0x7F
    (sign <<< 31) ||| (exp <<< 23) ||| (eff <<< (23 - 10))

end CambriconGst.Easybang
