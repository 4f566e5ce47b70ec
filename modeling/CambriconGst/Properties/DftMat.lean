import CambriconGst.Easytrack.DftMat
import CambriconGst.Lib.SparseBlocks
import Mathlib.Algebra.Ring.Nat

/-!
# Zipped DFT tables

* `compress_spec`: the encoding is that of blocks which hold the input
* `decodeLoop_blocks`: the loop of the decoder places blocks
* `decompress_compress`: decoding gives the table back
-/

namespace CambriconGst.Easytrack

namespace DftMat

open Lib

/-! ## Words -/

theorem toNat_ofNat_of_lt {n : Nat} (h : n < 2 ^ 32) : (UInt32.ofNat n).toNat = n :=
  UInt32.toNat_ofNat_of_lt' h

theorem word_low_high (n : UInt32) : word (low n) (high n) = n := by
  have hn : n.toNat < 2 ^ 32 := n.toNat_lt
  have hlow : (low n).toNat = n.toNat % 2 ^ 16 := by
    have hand := Nat.and_two_pow_sub_one_eq_mod (n.toNat % 2 ^ 16) 16
    simpa [low] using hand
  have hhigh : (high n).toNat = n.toNat / 2 ^ 16 % 2 ^ 16 := by
    have hand := Nat.and_two_pow_sub_one_eq_mod (n.toNat / 2 ^ 16 % 2 ^ 16) 16
    simpa [high, Nat.shiftRight_eq_div_pow] using hand
  apply UInt32.toNat_inj.mp
  rw [word, hlow, hhigh, Nat.shiftLeft_eq, UInt32.toNat_ofNat']
  omega

/-- How a block is encoded. -/
def encodeBlock (b : SparseBlock Half) : List Half :=
  let offset := UInt32.ofNat b.offset
  let blockLen := UInt32.ofNat b.data.length
  [low offset, high offset, low blockLen, high blockLen] ++ b.data

/-- The total length, as it is encoded. -/
def encodeLength (n : Nat) : List Half :=
  [low (UInt32.ofNat n), high (UInt32.ofNat n)]

theorem length_encodeBlock (b : SparseBlock Half) :
    (encodeBlock b).length = 4 + b.data.length := by
  simp [encodeBlock]
  omega

/-! ## The encoder -/

variable {input : List Half} {e : Encoder} {bs : List (SparseBlock Half)} {done : List Half}
  {i : Nat}

/-- What was appended, and the length as it is counted. -/
structure Appended (input : List Half) (e : Encoder) (bs : List (SparseBlock Half)) : Prop where
  out : e.out = encodeLength input.length ++ bs.flatMap encodeBlock
  outLen : e.outLen = UInt32.ofNat e.out.length

/-- The encoder after `i` entries: the last `blockLen` of them are not in a block yet. -/
structure Encoded (input : List Half) (i : Nat) (e : Encoder) (bs : List (SparseBlock Half))
    (done : List Half) : Prop where
  appended : Appended input e bs
  offset : e.offset.toNat = i
  blockLen_le : e.blockLen.toNat ≤ i
  holds : SparseBlock.Holds 0 input (i - e.blockLen.toNat) bs done

/-- The block that ends after `i` entries. -/
def lastBlock (input : List Half) (i : Nat) (e : Encoder) : SparseBlock Half :=
  ⟨i - e.blockLen.toNat, (input.drop (i - e.blockLen.toNat)).take e.blockLen.toNat⟩

theorem Encoded.writeBlock (h : Encoded input i e bs done) (hi : i ≤ input.length) :
    Appended input (writeBlock input e) (bs ++ [lastBlock input i e]) ∧
      SparseBlock.Holds 0 input i (bs ++ [lastBlock input i e]) (input.take i) := by
  have hle := h.blockLen_le
  have hlen : (lastBlock input i e).data.length = e.blockLen.toNat := by
    simp only [lastBlock, List.length_take, List.length_drop]
    omega
  have hoffset : UInt32.ofNat (lastBlock input i e).offset = e.offset - e.blockLen := by
    apply UInt32.toNat_inj.mp
    have hlt := e.offset.toNat_lt
    have hle' : e.blockLen ≤ e.offset := UInt32.le_iff_toNat_le.mpr (by rw [h.offset]; exact hle)
    rw [UInt32.toNat_sub_of_le _ _ hle', UInt32.toNat_ofNat', h.offset]
    exact Nat.mod_eq_of_lt (by rw [← h.offset]; exact lt_of_le_of_lt (Nat.sub_le _ _) hlt)
  have hblock : encodeBlock (lastBlock input i e) =
      [low (e.offset - e.blockLen), high (e.offset - e.blockLen), low e.blockLen,
        high e.blockLen] ++
      (input.drop (e.offset.toNat - e.blockLen.toNat)).take e.blockLen.toNat := by
    rw [encodeBlock, hoffset, hlen, UInt32.ofNat_toNat, h.offset]
    rfl
  refine ⟨⟨?_, ?_⟩, ?_⟩
  · rw [List.flatMap_append, List.flatMap_singleton, hblock, ← List.append_assoc, ← h.appended.out,
      ← List.append_assoc]
    rfl
  · have hout : (DftMat.writeBlock input e).out = e.out ++ encodeBlock (lastBlock input i e) := by
      rw [hblock, ← List.append_assoc]
      rfl
    rw [hout, List.length_append, length_encodeBlock, hlen, UInt32.ofNat_add, UInt32.ofNat_add,
      UInt32.ofNat_toNat, ← h.appended.outLen]
    rfl
  · have hn : i - e.blockLen.toNat + e.blockLen.toNat = i := Nat.sub_add_cancel hle
    have happ := h.holds.append (i := e.blockLen.toNat) (by omega)
    rwa [hn] at happ

/-- A block ends before the entry if it is zero. -/
theorem Encoded.entry (h : Encoded input i e bs done) {x : Half} (hx : input[i]? = some x)
    (hlen : input.length < 2 ^ 31) :
    ∃ bs done, Encoded input (i + 1) (encodeEntry input x e) bs done := by
  have hi : i < input.length := (List.getElem?_eq_some_iff.mp hx).1
  have hle := h.blockLen_le
  have hoff : (e.offset + 1).toNat = i + 1 := by
    rw [UInt32.toNat_add, h.offset]
    exact Nat.mod_eq_of_lt (by simp; omega)
  unfold encodeEntry
  by_cases hzero : x = 0
  · subst hzero
    simp only [if_pos]
    by_cases hpos : e.blockLen > 0
    · simp only [if_pos hpos]
      obtain ⟨happ, hh⟩ := h.writeBlock hi.le
      exact ⟨_, _, ⟨happ.out, happ.outLen⟩, hoff, Nat.zero_le _, hh.snoc hx⟩
    · simp only [if_neg hpos]
      have hnone : e.blockLen.toNat = 0 := by
        have := UInt32.not_lt.mp hpos
        exact Nat.le_zero.mp (UInt32.le_iff_toNat_le.mp this)
      have hh := h.holds
      rw [hnone] at hh
      exact ⟨_, _, ⟨h.appended.out, h.appended.outLen⟩, hoff, Nat.zero_le _, hh.snoc hx⟩
  · simp only [if_neg hzero]
    have hblock : (e.blockLen + 1).toNat = e.blockLen.toNat + 1 := by
      rw [UInt32.toNat_add]
      exact Nat.mod_eq_of_lt (by simp; omega)
    refine ⟨bs, done, ⟨h.appended.out, h.appended.outLen⟩, hoff, ?_, ?_⟩
    · show (e.blockLen + 1).toNat ≤ i + 1
      omega
    · show SparseBlock.Holds 0 input (i + 1 - (e.blockLen + 1).toNat) bs done
      rw [hblock, Nat.add_sub_add_right]
      exact h.holds

/-- The loop, with entries left. -/
theorem encodeLoop_spec (hlen : input.length < 2 ^ 31) {xs : List Half} : ∀ {i : Nat}
    {e : Encoder} {bs : List (SparseBlock Half)} {done : List Half}, xs ≠ [] → xs = input.drop i →
    Encoded input i e bs done →
    ∃ bs done, Appended input
        (encodeLoop input (UInt32.ofNat input.length) xs (UInt32.ofNat i) e) bs ∧
      SparseBlock.Holds 0 input input.length bs done := by
  induction xs with
  | nil => exact fun hne => absurd rfl hne
  | cons x xs ih =>
    intro i e bs done _ hxs h
    have hget : input[i]? = some x := by
      rw [← List.head?_drop, ← hxs]
      rfl
    have hi : i < input.length := (List.getElem?_eq_some_iff.mp hget).1
    have htail : xs = input.drop (i + 1) := by
      rw [← List.tail_drop, ← hxs]
      rfl
    have hsucc : UInt32.ofNat i + 1 = UInt32.ofNat (i + 1) := by
      rw [UInt32.ofNat_add]
      rfl
    obtain ⟨bs', done', h'⟩ := h.entry hget hlen
    unfold encodeLoop
    simp only [hsucc]
    have hlast : UInt32.ofNat i = UInt32.ofNat input.length - 1 ↔ i + 1 = input.length := by
      constructor
      · intro he
        have := congrArg UInt32.toNat he
        rw [UInt32.toNat_sub_of_le _ _ (UInt32.le_iff_toNat_le.mpr (by simp; omega))] at this
        simp at this
        omega
      · intro he
        rw [← he, ← hsucc]
        simp
    by_cases hend : i + 1 = input.length
    · -- the last entry: what is left is a block
      have hnil : xs = [] := by
        rw [htail, hend, List.drop_length]
      subst hnil
      rw [encodeLoop]
      by_cases hpos : (encodeEntry input x e).blockLen > 0
      · rw [if_pos ⟨hlast.mpr hend, hpos⟩, ← hend]
        exact ⟨_, _, h'.writeBlock hend.le⟩
      · rw [if_neg fun hc => hpos hc.2, ← hend]
        have hnone : (encodeEntry input x e).blockLen.toNat = 0 :=
          Nat.le_zero.mp (UInt32.le_iff_toNat_le.mp (UInt32.not_lt.mp hpos))
        have hh := h'.holds
        rw [hnone] at hh
        exact ⟨_, _, h'.appended, hh⟩
    · rw [if_neg fun hc => hend (hlast.mp hc.1)]
      have hne : xs ≠ [] := by
        intro hnil
        have := congrArg List.length htail
        rw [hnil, List.length_drop, List.length_nil] at this
        omega
      exact ih hne htail h'

/-- **The encoding is that of blocks which hold the input.** -/
theorem compress_spec (hlen : input.length < 2 ^ 31) :
    ∃ bs done, Appended input (compress input) bs ∧
      SparseBlock.Holds 0 input input.length bs done := by
  have hstart : Appended input ⟨0, 0, encodeLength input.length, 2⟩ [] := ⟨by simp, rfl⟩
  by_cases hne : input = []
  · subst hne
    exact ⟨[], [], hstart, .nil 0 []⟩
  · exact encodeLoop_spec hlen (i := 0) hne rfl ⟨hstart, rfl, Nat.zero_le _, .nil 0 input⟩

/-! ## The decoder -/

variable {buf : List Half}

/-- The decoder once `done` is written. -/
def written (buf done : List Half) : Decoder where
  out := done ++ buf.drop done.length
  ptr := done.length
  outLen := UInt32.ofNat done.length

theorem put_written {xs : List Half} {n : UInt32} (hn : n.toNat = xs.length)
    (hle : done.length + xs.length ≤ buf.length) :
    put (written buf done) xs n = some (written buf (done ++ xs)) := by
  have hfits : (written buf done).ptr + xs.length ≤ (written buf done).out.length := by
    simp only [written, List.length_append, List.length_drop]
    omega
  rw [put, if_pos hfits]
  have hlen : UInt32.ofNat xs.length = n := by rw [← hn, UInt32.ofNat_toNat]
  simp only [written, List.length_append, UInt32.ofNat_add, hn, hlen, List.append_assoc,
    List.take_left', List.drop_append, List.drop_drop, Nat.add_sub_cancel_left]
  rw [List.drop_of_length_le (Nat.le_add_right _ _), List.nil_append]

/-- Nothing is read or written outside when a block is decoded. -/
theorem decodeLoop_block {b : SparseBlock Half} {stop j : UInt32} {rest out : List Half}
    (hb : b.place 0 done = some out) (hout : out.length ≤ buf.length) (hlt : out.length < 2 ^ 32)
    (hj : j < stop) :
    decodeLoop stop (encodeBlock b ++ rest) j (written buf done) =
      decodeLoop stop rest (j + (4 + UInt32.ofNat b.data.length)) (written buf out) := by
  obtain ⟨hle, rfl⟩ := SparseBlock.place_eq_some.mp hb
  simp only [List.length_append, List.length_replicate] at hout hlt
  have hoffset : (UInt32.ofNat b.offset).toNat = b.offset := by
    exact toNat_ofNat_of_lt (by omega)
  have hdata : (UInt32.ofNat b.data.length).toNat = b.data.length := by
    exact toNat_ofNat_of_lt (by omega)
  have hzero : UInt32.ofInt (b.offset - (written buf done).ptr) =
      UInt32.ofNat (b.offset - done.length) := by
    apply UInt32.toNat_inj.mp
    rw [UInt32.ofInt, UInt32.toNat_ofNat', UInt32.toNat_ofNat']
    show ((b.offset - done.length : Int) % 2 ^ 32).toNat % 2 ^ 32 = _
    omega
  have hzeroLen : (UInt32.ofNat (b.offset - done.length)).toNat = b.offset - done.length := by
    exact toNat_ofNat_of_lt (by omega)
  have hpull : pull (b.data ++ rest) (UInt32.ofNat b.data.length) = some b.data := by
    rw [pull, hdata, if_pos (by simp), List.take_left]
  rw [decodeLoop.eq_def stop (encodeBlock b ++ rest), if_pos hj]
  simp only [encodeBlock, List.cons_append, List.nil_append, word_low_high, hoffset, hzero,
    hzeroLen, hdata, hpull]
  rw [put_written (by simp [hzeroLen]) (by simp; omega), Option.bind_eq_bind, Option.bind_some,
    Option.bind_eq_bind, Option.bind_some, put_written hdata (by simp; omega), Option.bind_some,
    List.drop_left]

/-- **The loop of the decoder places blocks.** -/
theorem decodeLoop_blocks {out : List Half} {stop : UInt32} (hout : out.length ≤ buf.length)
    (hlt : out.length < 2 ^ 32) : ∀ {done : List Half} {j : UInt32},
    SparseBlock.placeAll 0 bs done = some out →
    j.toNat + (bs.flatMap encodeBlock).length = stop.toNat →
    decodeLoop stop (bs.flatMap encodeBlock) j (written buf done) = some (written buf out) := by
  induction bs with
  | nil =>
    intro done j hp hj
    obtain rfl := Option.some.inj hp
    have hnot : ¬j < stop := by
      rw [UInt32.lt_iff_toNat_lt]
      simp at hj
      omega
    rw [decodeLoop.eq_def, if_neg hnot]
  | cons b bs ih =>
    intro done j hp hj
    obtain ⟨mid, hb, hrest⟩ := Option.bind_eq_some_iff.mp hp
    have hmid := (SparseBlock.prefix_of_placeAll hrest).length_le
    rw [List.flatMap_cons, List.length_append, length_encodeBlock] at hj
    have hstop := stop.toNat_lt
    have hlt' : j < stop := by
      rw [UInt32.lt_iff_toNat_lt]
      omega
    rw [List.flatMap_cons, decodeLoop_block hb (hmid.trans hout) (lt_of_le_of_lt hmid hlt) hlt']
    refine ih hrest ?_
    have hadd : (j + (4 + UInt32.ofNat b.data.length)).toNat = j.toNat + (4 + b.data.length) := by
      simp
      omega
    omega

/-- Zeros behind the last block. -/
theorem fill_written {n : Nat} (hn : done.length ≤ n) (hbuf : n ≤ buf.length) (hlt : n < 2 ^ 32) :
    (if (written buf done).outLen < UInt32.ofNat n then
        put (written buf done) (List.replicate
          (UInt32.ofNat n - (written buf done).outLen).toNat 0)
          (UInt32.ofNat n - (written buf done).outLen)
      else some (written buf done)) =
    some (written buf (done ++ List.replicate (n - done.length) 0)) := by
  have hrest : UInt32.ofNat n - (written buf done).outLen = UInt32.ofNat (n - done.length) :=
    (UInt32.ofNat_sub hn).symm
  have hlen : (UInt32.ofNat (n - done.length)).toNat = n - done.length :=
    toNat_ofNat_of_lt (by omega)
  have hiff : (written buf done).outLen < UInt32.ofNat n ↔ done.length < n := by
    rw [UInt32.lt_iff_toNat_lt, written, toNat_ofNat_of_lt (by omega),
      toNat_ofNat_of_lt hlt]
  by_cases h : done.length < n
  · rw [if_pos (hiff.mpr h), hrest, hlen]
    exact put_written (by rw [hlen, List.length_replicate]) (by rw [List.length_replicate]; omega)
  · rw [if_neg (mt hiff.mp h), Nat.sub_eq_zero_of_le (Nat.not_lt.mp h), List.replicate_zero,
      List.append_nil]

/-! ## Both -/

/--
**Decoding gives the table back.**

The encoding of a table has the length that is reported for it. Decoding it reads and writes nothing
outside, writes the table and nothing behind it, and reports its length.
-/
theorem decompress_compress (input buf : List Half) (hlen : input.length < 2 ^ 31)
    (henc : (compress input).out.length < 2 ^ 32) (hbuf : input.length ≤ buf.length) :
    (compress input).outLen.toNat = (compress input).out.length ∧
      decompress (compress input).out (compress input).outLen buf =
        some (input ++ buf.drop input.length, UInt32.ofNat input.length) := by
  obtain ⟨bs, done, happ, hh⟩ := compress_spec hlen
  have hreported : (compress input).outLen.toNat = (compress input).out.length := by
    rw [happ.outLen]
    exact toNat_ofNat_of_lt henc
  have hdone := hh.length_le
  have hout := congrArg List.length happ.out
  rw [List.length_append, show (encodeLength input.length).length = 2 from rfl] at hout
  have hloop : decodeLoop ((compress input).outLen - 2) (bs.flatMap encodeBlock) 0
      (written buf []) = some (written buf done) := by
    refine decodeLoop_blocks (hdone.trans hbuf) (by omega) hh.placed ?_
    have htwo : (2 : UInt32) ≤ (compress input).outLen := by
      rw [UInt32.le_iff_toNat_le, hreported, hout]
      exact Nat.le_add_right _ _
    rw [UInt32.toNat_sub_of_le _ _ htwo, hreported, hout]
    exact (Nat.zero_add _).trans (Nat.add_sub_cancel_left _ _).symm
  refine ⟨hreported, ?_⟩
  rw [happ.out]
  show (do
    let d ← decodeLoop ((compress input).outLen - 2) (bs.flatMap encodeBlock) 0 (written buf [])
    let outputLen := word (low (UInt32.ofNat input.length)) (high (UInt32.ofNat input.length))
    let rest := outputLen - d.outLen
    let d ← (if d.outLen < outputLen then put d (List.replicate rest.toNat 0) rest else some d)
    return (d.out, outputLen)) = _
  simp only [hloop, word_low_high, Option.bind_eq_bind, Option.bind_some]
  rw [fill_written hdone hbuf (by omega), hh.fill]
  rfl

/-- A table that starts and ends with zeros, and has some between its blocks. -/
theorem decompress_compress_two_blocks :
    decompress (compress [0, 5, 6, 0, 0, 7, 0]).out 13 (List.replicate 8 9) =
      some ([0, 5, 6, 0, 0, 7, 0, 9], 7) :=
  (decompress_compress [0, 5, 6, 0, 0, 7, 0] (List.replicate 8 9) (by decide) (by decide)
    (by decide)).2

end DftMat

end CambriconGst.Easytrack
