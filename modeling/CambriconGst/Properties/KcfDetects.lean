import CambriconGst.Easytrack.KcfDetects
import CambriconGst.Lib.Transition
import Mathlib.Algebra.Ring.Rat
import Mathlib.Order.Basic

/-!
# The detections of a KCF key frame

* `packed_iff`: when the buffer on the device is that of the detections
* `kcf_detects`: this in runs, in which nothing is written outside
* `slotsClear_of_inUse`: frames with no fewer detections than those before are packed
-/

namespace CambriconGst.TrackKcf

open Lib Easytrack

variable {K H : Type} [Add K] [IntCast K] [Zero K] [Zero H]

/-! ## What is right -/

section Defs

variable (toHalf : K → H)

/-- What row `r` has in slot `i`. -/
def cellOf (detects : List (DetectObject K)) (i r : Nat) : H :=
  match detects[i]? with
  | some obj => toHalf ((detectRows obj)[r]?.getD 0)
  | none => 0

/-- The buffer encodes the detections, and has zeros behind them. -/
structure Packed (detects : List (DetectObject K)) (device : Nat → H) : Prop where
  length_le : detects.length ≤ detectOutSize
  cell : ∀ i < detectOutSize, ∀ r < 6, device (i + r * detectOutSize) = cellOf toHalf detects i r

/-- The buffers after the key frame with these detections. -/
structure RightAfter (detects : List (DetectObject K)) (b : DetectBuffers K H) : Prop where
  inside : ∀ idx ∈ b.writes, idx < detectCells
  packed : Packed toHalf detects b.device

/-- There are slots for all detections, and those behind hold what is converted to zero. -/
def SlotsClear (b : DetectBuffers K H) (detects : List (DetectObject K)) : Prop :=
  detects = [] ∨ detects.length ≤ detectOutSize ∧
    ∀ i, detects.length ≤ i → i < detectOutSize → ∀ r < 6,
      toHalf (b.float (i + r * detectOutSize)) = 0

/-- The condition on the calls of a run. -/
def CallClear (b : DetectBuffers K H) : DetectCall K H → Prop
  | .setModel .. => True
  | .updateFrame frameId detects => OnKeyFrame frameId → SlotsClear toHalf b detects

/-- States of runs in which key frames find the slots behind their detections clear. -/
abbrev ReachedClear (b : DetectBuffers K H) : Prop :=
  Reachable (fun b => b.writes = [])
    (fun b b' => ∃ c, CallClear toHalf b c ∧ b' = callDetects toHalf b c) b

end Defs

variable {toHalf : K → H} {b b' : DetectBuffers K H} {detects : List (DetectObject K)}
  {n i r : Nat} {obj : DetectObject K}

/-! ## One frame -/

omit [Zero K] in
theorem mem_detectWrites {idx : Nat} {v : K} :
    (idx, v) ∈ detectWrites detects n ↔ ∃ i obj r, i < n ∧ detects[i]? = some obj ∧
      (detectRows obj)[r]? = some v ∧ idx = i + r * detectOutSize := by
  simp only [detectWrites, List.mem_flatMap, List.mem_map, Prod.exists,
    List.mk_mem_zipIdx_iff_getElem?, List.getElem?_take, Prod.mk.injEq]
  constructor
  · rintro ⟨obj, i, hobj, w, r, hw, rfl, rfl⟩
    split at hobj
    · next hi => exact ⟨i, obj, r, hi, hobj, hw, rfl⟩
    · cases hobj
  · rintro ⟨i, obj, r, hi, hobj, hv, rfl⟩
    exact ⟨obj, i, by rw [if_pos hi, hobj], v, r, hv, rfl, rfl⟩

omit [Zero K] in
theorem row_lt {v : K} (h : (detectRows obj)[r]? = some v) : r < 6 :=
  (List.getElem?_eq_some_iff.mp h).1

omit [Add K] [IntCast K] [Zero K] [Zero H] in
/-- Slot and row of a cell. -/
theorem cell_lt (hi : i < detectOutSize) (hr : r < 6) : i + r * detectOutSize < detectCells := by
  unfold detectCells
  unfold detectOutSize at *
  omega

theorem cell_inj {i' r' : Nat} (hi : i < detectOutSize) (hi' : i' < detectOutSize)
    (h : i + r * detectOutSize = i' + r' * detectOutSize) : i = i' ∧ r = r' := by
  unfold detectOutSize at *
  omega

omit [Zero K] in
/-- A slot of a detection. -/
theorem writeCells_detect {float : Nat → K} (hn : n ≤ detectOutSize) (hi : i < n)
    (hobj : detects[i]? = some obj) {v : K} (hv : (detectRows obj)[r]? = some v) :
    writeCells float (detectWrites detects n) (i + r * detectOutSize) = v := by
  refine writeCells_of_mem (mem_detectWrites.mpr ⟨i, obj, r, hi, hobj, hv, rfl⟩) ?_
  rintro ⟨idx, w⟩ hw he
  obtain ⟨i', obj', r', hi', hobj', hw', rfl⟩ := mem_detectWrites.mp hw
  obtain ⟨rfl, rfl⟩ := cell_inj (hi'.trans_le hn) (hi.trans_le hn) he
  obtain rfl := Option.some.inj (hobj'.symm.trans hobj)
  exact Option.some.inj (hw'.symm.trans hv)

omit [Zero K] in
/-- A slot behind the detections. -/
theorem writeCells_behind {float : Nat → K} (hn : n ≤ detectOutSize) (hi : n ≤ i)
    (hi' : i < detectOutSize) :
    writeCells float (detectWrites detects n) (i + r * detectOutSize) =
      float (i + r * detectOutSize) := by
  refine writeCells_of_ne ?_
  rintro ⟨idx, w⟩ hw he
  obtain ⟨j, obj, r', hj, -, -, rfl⟩ := mem_detectWrites.mp hw
  obtain ⟨rfl, -⟩ := cell_inj (hj.trans_le hn) hi' he
  omega

omit [Zero K] in
theorem detectWrites_inside (hn : n ≤ detectOutSize) :
    ∀ idx ∈ (detectWrites detects n).map Prod.fst, idx < detectCells := by
  intro idx hidx
  obtain ⟨⟨idx, w⟩, hw, rfl⟩ := List.mem_map.mp hidx
  obtain ⟨i, obj, r, hi, -, hr, rfl⟩ := mem_detectWrites.mp hw
  exact cell_lt (hi.trans_le hn) (row_lt hr)

omit [Add K] [IntCast K] [Zero K] [Zero H] in
theorem upload_device (hi : i < detectOutSize) (hr : r < 6) :
    (upload toHalf b).device (i + r * detectOutSize) =
      toHalf (b.float (i + r * detectOutSize)) := by
  simp only [upload, if_pos (cell_lt hi hr)]

omit [Zero H] in
/-- With slots for all detections, and with some. -/
theorem storeDetects_pos (hne : detects ≠ []) (hle : detects.length ≤ detectOutSize) :
    storeDetects b detects =
      { b with
        float := writeCells b.float (detectWrites detects detects.length)
        writes := b.writes ++ (detectWrites detects detects.length).map Prod.fst } := by
  have hmod : detects.length % 2 ^ 32 = detects.length :=
    Nat.mod_eq_of_lt (lt_of_le_of_lt hle (by decide))
  have hpos : 0 < detects.length := List.length_pos_iff.mpr hne
  rw [storeDetects, hmod]
  exact if_pos hpos

/-- **When the buffer on the device is that of the detections.** -/
theorem packed_iff (hzero : toHalf 0 = 0) :
    Packed toHalf detects (upload toHalf (storeDetects b detects)).device ↔
      SlotsClear toHalf b detects := by
  by_cases hne : detects = []
  · subst hne
    refine ⟨fun _ => .inl rfl, fun _ => ⟨Nat.zero_le _, fun i hi r hr => ?_⟩⟩
    rw [upload_device hi hr]
    simp [storeDetects, cell_lt hi hr, cellOf, hzero]
  · by_cases hle : detects.length ≤ detectOutSize
    · have hbehind : ∀ i, detects.length ≤ i → i < detectOutSize → ∀ r < 6,
          (upload toHalf (storeDetects b detects)).device (i + r * detectOutSize) =
            toHalf (b.float (i + r * detectOutSize)) := by
        intro i hge hi r hr
        rw [upload_device hi hr, storeDetects_pos hne hle]
        exact congrArg toHalf (writeCells_behind hle hge hi)
      constructor
      · intro hp
        refine .inr ⟨hle, fun i hge hi r hr => ?_⟩
        rw [← hbehind i hge hi r hr, hp.cell i hi r hr, cellOf, List.getElem?_eq_none hge]
      · rintro (he | ⟨-, hclear⟩)
        · exact absurd he hne
        · refine ⟨hle, fun i hi r hr => ?_⟩
          by_cases hlt : i < detects.length
          · have hobj := List.getElem?_eq_getElem hlt
            have hv : (detectRows detects[i])[r]? = some (detectRows detects[i])[r] :=
              List.getElem?_eq_getElem hr
            rw [upload_device hi hr, storeDetects_pos hne hle, cellOf, hobj]
            refine congrArg toHalf ((writeCells_detect hle hlt hobj hv).trans ?_)
            rw [hv]
            rfl
          · have hge := Nat.not_lt.mp hlt
            rw [hbehind i hge hi r hr, hclear i hge hi r hr, cellOf, List.getElem?_eq_none hge]
    · refine ⟨fun hp => absurd hp.length_le hle, ?_⟩
      rintro (he | ⟨hle', -⟩)
      · exact absurd he hne
      · exact absurd hle' hle

/-- Such a frame writes nothing outside. -/
theorem storeDetects_inside (hb : ∀ idx ∈ b.writes, idx < detectCells)
    (h : SlotsClear toHalf b detects) :
    ∀ idx ∈ (storeDetects b detects).writes, idx < detectCells := by
  intro idx hidx
  by_cases hne : detects = []
  · subst hne
    rcases List.mem_append.mp hidx with hidx | hidx
    · exact hb idx hidx
    · exact List.mem_range.mp hidx
  · have hle : detects.length ≤ detectOutSize := by
      rcases h with he | ⟨hle, -⟩
      · exact absurd he hne
      · exact hle
    rw [storeDetects_pos hne hle] at hidx
    rcases List.mem_append.mp hidx with hidx | hidx
    · exact hb idx hidx
    · exact detectWrites_inside hle idx hidx

/-! ## Runs -/

theorem callDetects_inside (hb : ∀ idx ∈ b.writes, idx < detectCells) {c : DetectCall K H}
    (hc : CallClear toHalf b c) : ∀ idx ∈ (callDetects toHalf b c).writes, idx < detectCells := by
  cases c with
  | setModel float half device => exact hb
  | updateFrame frameId detects =>
    unfold callDetects
    by_cases hkey : OnKeyFrame frameId
    · simp only [if_pos hkey]
      exact storeDetects_inside hb (hc hkey)
    · simp only [if_neg hkey]
      exact hb

theorem reached_inside (h : ReachedClear toHalf b) : ∀ idx ∈ b.writes, idx < detectCells := by
  refine h.invariant (I := fun b => ∀ idx ∈ b.writes, idx < detectCells) ?_ ?_
  · intro b hb idx hidx
    rw [hb] at hidx
    exact absurd hidx List.not_mem_nil
  · rintro b _ hb ⟨c, hc, rfl⟩
    exact callDetects_inside hb hc

/--
**The detections of a key frame.**

In every run in which key frames find the slots behind their detections clear, nothing is written
outside the buffer. A key frame then leaves the buffer on the device packed just when it finds them
clear; and the buffer is as after that frame in any other such run.
-/
theorem kcf_detects (hzero : toHalf 0 = 0) (h : ReachedClear toHalf b) (frameId : Int)
    (hkey : OnKeyFrame frameId) (detects : List (DetectObject K)) :
    (∀ idx ∈ b.writes, idx < detectCells) ∧
    (RightAfter toHalf detects (callDetects toHalf b (.updateFrame frameId detects)) ↔
      SlotsClear toHalf b detects) ∧
    ∀ b', ReachedClear toHalf b' → SlotsClear toHalf b detects → SlotsClear toHalf b' detects →
      ∀ i < detectOutSize, ∀ r < 6,
        (callDetects toHalf b (.updateFrame frameId detects)).device (i + r * detectOutSize) =
        (callDetects toHalf b' (.updateFrame frameId detects)).device (i + r * detectOutSize) := by
  have hinside := reached_inside h
  have hcall : ∀ b : DetectBuffers K H, callDetects toHalf b (.updateFrame frameId detects) =
      upload toHalf (storeDetects b detects) := fun b => if_pos hkey
  refine ⟨hinside, ?_, fun b' _ hb hb' i hi r hr => ?_⟩
  · rw [hcall]
    refine ⟨fun hright => (packed_iff hzero).mp hright.packed, fun hclear => ?_⟩
    exact ⟨storeDetects_inside hinside hclear, (packed_iff hzero).mpr hclear⟩
  · rw [hcall, hcall, ((packed_iff hzero).mpr hb).cell i hi r hr,
      ((packed_iff hzero).mpr hb').cell i hi r hr]

/-! ## Slots in use -/

/-- How many slots may hold something after a call, when `n` may before. -/
def slotsInUse (n : Nat) : DetectCall K H → Nat
  | .setModel .. => detectOutSize
  | .updateFrame frameId detects =>
    if OnKeyFrame frameId then if detects.isEmpty then 0 else max n detects.length else n

/-- All slots from `n` on hold zeros. -/
def ClearFrom (n : Nat) (b : DetectBuffers K H) : Prop :=
  ∀ i, n ≤ i → i < detectOutSize → ∀ r < 6, b.float (i + r * detectOutSize) = 0

omit [Zero H] in
theorem ClearFrom.call (h : ClearFrom n b) (c : DetectCall K H) :
    ClearFrom (slotsInUse n c) (callDetects toHalf b c) := by
  cases c with
  | setModel float half device => exact fun i hge hi => absurd hi (Nat.not_lt.mpr hge)
  | updateFrame frameId detects =>
    unfold slotsInUse callDetects
    by_cases hkey : OnKeyFrame frameId
    · simp only [if_pos hkey]
      by_cases hne : detects = []
      · subst hne
        intro i _ hi r hr
        exact if_pos (cell_lt hi hr)
      · rw [if_neg (by simpa using hne)]
        intro i hge hi r hr
        have hle : detects.length ≤ i := le_of_max_le_right hge
        show (storeDetects b detects).float (i + r * detectOutSize) = 0
        rw [storeDetects_pos hne (hle.trans hi.le)]
        exact (writeCells_behind (hle.trans hi.le) hle hi).trans
          (h i (le_of_max_le_left hge) hi r hr)
    · simp only [if_neg hkey]
      exact h

/-- **A key frame with no fewer detections than slots in use finds those behind them clear.** -/
theorem slotsClear_of_inUse (hzero : toHalf 0 = 0) (b : DetectBuffers K H)
    (calls : List (DetectCall K H)) (hle : detects.length ≤ detectOutSize)
    (h : calls.foldl slotsInUse detectOutSize ≤ detects.length) :
    SlotsClear toHalf (calls.foldl (callDetects toHalf) b) detects := by
  have hclear : ∀ (calls : List (DetectCall K H)) (n : Nat) (b : DetectBuffers K H),
      ClearFrom n b →
        ClearFrom (calls.foldl slotsInUse n) (calls.foldl (callDetects toHalf) b) := by
    intro calls
    induction calls with
    | nil => exact fun _ _ hb => hb
    | cons c calls ih => exact fun _ _ hb => ih _ _ (hb.call c)
  have hstart : ClearFrom detectOutSize b := fun i hge hi => absurd hi (Nat.not_lt.mpr hge)
  refine .inr ⟨hle, fun i hge hi r hr => ?_⟩
  rw [hclear calls _ b hstart i (h.trans hge) hi r hr, hzero]

/-! ## Samples -/

def wideDetect : DetectObject ℚ where
  label := 1
  score := 1
  bbox := { x := 0, y := 0, width := 1, height := 1 }
  trackId := -1
  detectId := -1
  feature := []
  featMold := -1

/-- No detections in memory that is new, three on a frame that is not a key frame, then one. -/
def growingCalls : List (DetectCall ℚ ℚ) :=
  [.setModel (fun _ => 7) (fun _ => 7) (fun _ => 7), .updateFrame 0 [],
    .updateFrame 3 [wideDetect, wideDetect, wideDetect], .updateFrame 4 [wideDetect]]

/-- Memory that happens to be zero. -/
def zeroBuffers : DetectBuffers ℚ ℚ where
  float _ := 0
  half _ := 0
  device _ := 0
  writes := []

theorem growingCalls_reached : ReachedClear id (growingCalls.foldl (callDetects id) zeroBuffers) := by
  have hinit : ReachedClear id zeroBuffers := .of_init rfl
  have hmodel := hinit.tail ⟨.setModel (fun _ => 7) (fun _ => 7) fun _ => 7, trivial, rfl⟩
  have hzero := hmodel.tail ⟨.updateFrame 0 [], fun _ => .inl rfl, rfl⟩
  have hother := hzero.tail ⟨.updateFrame 3 [wideDetect, wideDetect, wideDetect],
    fun hkey => absurd hkey (by decide), rfl⟩
  exact hother.tail ⟨.updateFrame 4 [wideDetect],
    fun _ => slotsClear_of_inUse rfl zeroBuffers (growingCalls.take 3) (by decide) (by decide), rfl⟩

/-- Two detections, on the next key frame. -/
theorem kcf_detects_growing :
    RightAfter id [wideDetect, wideDetect]
      (callDetects id (growingCalls.foldl (callDetects id) zeroBuffers)
        (.updateFrame 8 [wideDetect, wideDetect])) :=
  (kcf_detects rfl growingCalls_reached 8 (by decide) _).2.1.mpr
    (slotsClear_of_inUse rfl zeroBuffers growingCalls (by decide) (by decide))

/-- The second detection of the frame before is in the buffer of a frame with one. -/
theorem stale_detection : ¬∀ (b : DetectBuffers ℚ ℚ) (calls : List (DetectCall ℚ ℚ))
    (frameId : Int) (detects : List (DetectObject ℚ)), b.writes = [] → OnKeyFrame frameId →
    RightAfter id detects
      (callDetects id (calls.foldl (callDetects id) b) (.updateFrame frameId detects)) := by
  intro h
  have hright := h zeroBuffers [.updateFrame 0 [wideDetect, wideDetect]] 4 [wideDetect] rfl
    (by decide)
  have hcell := hright.packed.cell 1 (by decide) 4 (by decide)
  revert hcell
  decide +kernel

end CambriconGst.TrackKcf
