import Mathlib.Data.UInt

/-!
# Zipped DFT tables

Model of `compress_dft_mat` and `decompress_dft_mat` in `easytrack/kcf/kcf.cpp`. Pointers into the
input are what is left of it, and pointers into the output positions.
-/

namespace CambriconGst.Easytrack

/-- The `half` of `kcf.h`. -/
abbrev Half := UInt16

namespace DftMat

/-- `n & 0xffff`. -/
def low (n : UInt32) : Half :=
  (n &&& 0xffff).toUInt16

/-- `(n >> 16) & 0xffff`. -/
def high (n : UInt32) : Half :=
  ((n >>> 16) &&& 0xffff).toUInt16

/-- `p[0] + (p[1] << 16)`. -/
def word (p₀ p₁ : Half) : UInt32 :=
  UInt32.ofNat (p₀.toNat + p₁.toNat <<< 16)

/-! ## `compress_dft_mat` -/

structure Encoder where
  offset : UInt32
  blockLen : UInt32
  out : List Half
  outLen : UInt32

/-- The block that ends here, as it is appended. -/
def writeBlock (input : List Half) (e : Encoder) : Encoder :=
  let blockOffset := e.offset - e.blockLen
  let start := e.offset.toNat - e.blockLen.toNat
  { e with
    out := e.out ++ [low blockOffset, high blockOffset, low e.blockLen, high e.blockLen] ++
      (input.drop start).take e.blockLen.toNat
    outLen := e.outLen + (4 + e.blockLen) }

/-- The loop body, up to the last non-zero data. -/
def encodeEntry (input : List Half) (x : Half) (e : Encoder) : Encoder :=
  let e :=
    if x = 0 then
      { if e.blockLen > 0 then writeBlock input e else e with blockLen := 0 }
    else { e with blockLen := e.blockLen + 1 }
  { e with offset := e.offset + 1 }

/-- The loop from `i` on, with the entries that are left. -/
def encodeLoop (input : List Half) (len : UInt32) : List Half → UInt32 → Encoder → Encoder
  | [], _, e => e
  | x :: xs, i, e =>
    let e := encodeEntry input x e
    let e := if i = len - 1 ∧ e.blockLen > 0 then writeBlock input e else e
    encodeLoop input len xs (i + 1) e

/-- `compress_dft_mat`: `out` is the encoding, and `outLen` its length as it is reported. -/
def compress (input : List Half) : Encoder :=
  let len := UInt32.ofNat input.length
  encodeLoop input len input 0
    { offset := 0, blockLen := 0, out := [low len, high len], outLen := 2 }

/-! ## `decompress_dft_mat` -/

/-- The output, with `out_ptr` and `out_len`. -/
structure Decoder where
  out : List Half
  ptr : Nat
  outLen : UInt32

/-- `memset` or `memcpy` to `out_ptr`, which is moved behind; none when `out` ends before. -/
def put (d : Decoder) (xs : List Half) (n : UInt32) : Option Decoder :=
  if d.ptr + xs.length ≤ d.out.length then
    some {
      out := d.out.take d.ptr ++ xs ++ d.out.drop (d.ptr + xs.length)
      ptr := d.ptr + n.toNat
      outLen := d.outLen + n }
  else none

/-- The next entries of the input, if it has so many. -/
def pull (input : List Half) (n : UInt32) : Option (List Half) :=
  if n.toNat ≤ input.length then some (input.take n.toNat) else none

/-- The loop from `i` on; none when it reads or writes outside. -/
def decodeLoop (stop : UInt32) (input : List Half) (i : UInt32) (d : Decoder) : Option Decoder :=
  if i < stop then
    match input with
    | p₀ :: p₁ :: p₂ :: p₃ :: data => do
      let offset := word p₀ p₁
      let blockLen := word p₂ p₃
      let zeroLen := UInt32.ofInt (offset.toNat - d.ptr)
      let d ← put d (List.replicate zeroLen.toNat 0) zeroLen
      let d ← put d (← pull data blockLen) blockLen
      decodeLoop stop (data.drop blockLen.toNat) (i + (4 + blockLen)) d
    | _ => none
  else some d
termination_by input.length
decreasing_by
  simp only [List.length_drop, List.length_cons]
  omega

/-- `decompress_dft_mat`: the output, and its length as it is reported. -/
def decompress (input : List Half) (len : UInt32) (out : List Half) : Option (List Half × UInt32) :=
  match input with
  | p₀ :: p₁ :: input => do
    let outputLen := word p₀ p₁
    let d ← decodeLoop (len - 2) input 0 { out, ptr := 0, outLen := 0 }
    let rest := outputLen - d.outLen
    let d ← (if d.outLen < outputLen then put d (List.replicate rest.toNat 0) rest else some d)
    return (d.out, outputLen)
  | _ => none

end DftMat

end CambriconGst.Easytrack
