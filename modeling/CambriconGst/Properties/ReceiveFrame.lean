import CambriconGst.Easycodec.ReceiveFrame
import CambriconGst.Properties.VpuTimestamp

/-!
# Properties of the decoder's frames

* `run_handler`: a run of the decoder makes a run of the timestamps
* `record_iff`: a key has a record as long as nothing happened to it since it was fed
* `frame_timestamps_iff`: the frames of a run have the timestamps they should have if and only if
  each finds a record, or has the codec's timestamp 0
-/

namespace CambriconGst.ReceiveFrame

open Lib Lib.KeyedRecords Easycodec VpuTimestamp

variable {attr : Attr} {s t : VideoDecoder} {l : Label} {ls pre : List Label} {o : DecOutput}
  {f : CnFrame} {stamps : VpuTimestamps}

/-! ## One frame -/

theorem queryPts_of_some {pts : BitVec 64} (h : stamps.vpuPtsMap o.key = some pts) :
    (queryPts false stamps o).1 = pts := by
  unfold queryPts
  rw [getVpuTimestamp_of_some h]
  rfl

theorem queryPts_of_none (h : stamps.vpuPtsMap o.key = none) :
    (queryPts false stamps o).1 = 0 := by
  unfold queryPts
  rw [getVpuTimestamp_of_none h]
  rfl

/-- A frame takes the record of its key, also when it is empty. -/
theorem queryPts_stamps :
    (queryPts false stamps o).2 = (stamps.getVpuTimestamp o.key true).2 := by
  cases h : stamps.vpuPtsMap o.key with
  | some pts =>
    unfold queryPts
    rw [getVpuTimestamp_of_some h]
    rfl
  | none =>
    unfold queryPts
    rw [getVpuTimestamp_of_none h]
    rfl

theorem receiveFrame_stamps {jpegDecode : Bool} :
    (receiveFrame attr jpegDecode stamps o).2 = (queryPts jpegDecode stamps o).2 := by
  unfold receiveFrame
  by_cases hframe : o.frame.isEmpty = true
  · simp only [hframe, if_true]
  · simp only [hframe, if_false, Bool.false_eq_true]

/-- A frame is handed over when it is not empty and there is a callback. -/
theorem receiveFrame_isSome {jpegDecode : Bool} :
    (receiveFrame attr jpegDecode stamps o).1.isSome ↔
      o.frame.isEmpty = false ∧ attr.frameCallback = true := by
  unfold receiveFrame
  by_cases hframe : o.frame.isEmpty = true
  · simp [hframe]
  · by_cases hcallback : attr.frameCallback = true <;> simp [hframe, hcallback]

theorem receiveFrame_pts {jpegDecode : Bool}
    (h : (receiveFrame attr jpegDecode stamps o).1 = some f) :
    f.pts = (queryPts jpegDecode stamps o).1 := by
  obtain ⟨hframe, hcallback⟩ := receiveFrame_isSome.mp (Option.isSome_of_eq_some h)
  simp only [receiveFrame, hframe, hcallback, Bool.false_eq_true, if_false, if_true,
    Option.some.injEq] at h
  rw [← h]
  rfl

/-! ## Runs -/

theorem next_newFrame (h : next attr s (.newFrame o) = some t) :
    t.handler = { s.handler with stamps := (s.handler.stamps.getVpuTimestamp o.key true).2 } ∧
      t.delivered = s.delivered ++
        ((receiveFrame attr false s.handler.stamps o).1.map fun f => (o, f)).toList := by
  rw [next, Option.some.injEq] at h
  subst h
  refine ⟨?_, rfl⟩
  rw [receiveFrame_stamps, queryPts_stamps]

/-- A step of the decoder is one of the timestamps. -/
theorem next_handler (h : next attr s l = some t) :
    VpuTimestamp.next s.handler l.stampLabel = some t.handler := by
  cases l with
  | feedVideoData thread pts =>
    obtain ⟨handler, hh, rfl⟩ := Option.map_eq_some_iff.mp h
    exact hh
  | feedReturns thread ecode =>
    obtain ⟨handler, hh, rfl⟩ := Option.map_eq_some_iff.mp h
    exact hh
  | newFrame o =>
    rw [(next_newFrame h).1]
    rfl

theorem run_handler (h : System.run (next attr) s ls = some t) :
    System.run VpuTimestamp.next s.handler (ls.map Label.stampLabel) = some t.handler := by
  induction ls generalizing s with
  | nil =>
    cases h
    rfl
  | cons l ls ih =>
    obtain ⟨u, hu, hr⟩ := System.run_cons.mp h
    rw [List.map_cons, System.run_cons]
    exact ⟨u.handler, next_handler hu, ih hr⟩

/-- What a run of a new decoder did to the records. -/
def history (ls : List Label) : List (Op 32 (BitVec 64)) :=
  ops VpuTimestamp.initial (ls.map Label.stampLabel)

/-- **The records after a run.** -/
theorem record_iff (h : System.run (next attr) .initial ls = some s) {key : BitVec 32}
    {pts : BitVec 64} :
    s.handler.stamps.vpuPtsMap key = some pts ↔ Live (history ls) key pts := by
  have hmap := (run_performs (run_handler h)).vpuPtsMap
  rw [hmap]
  exact after_eq_some_iff

theorem no_record_iff (h : System.run (next attr) .initial ls = some s) {key : BitVec 32} :
    s.handler.stamps.vpuPtsMap key = none ↔ ∀ pts, ¬ Live (history ls) key pts := by
  rw [Option.eq_none_iff_forall_ne_some]
  exact forall_congr' fun pts => not_congr (record_iff h)

/-! ## The frames of a run -/

/-- After the run `pre` the codec reports `o`, and `f` is handed to the callback for it. -/
def Delivers (attr : Attr) (pre : List Label) (o : DecOutput) (f : CnFrame) : Prop :=
  ∃ s t, System.run (next attr) .initial pre = some s ∧ next attr s (.newFrame o) = some t ∧
    t.delivered = s.delivered ++ [(o, f)]

theorem delivers_iff (h : System.run (next attr) .initial pre = some s) :
    Delivers attr pre o f ↔ (receiveFrame attr false s.handler.stamps o).1 = some f := by
  constructor
  · rintro ⟨s', t, hs', ht, hd⟩
    obtain rfl : s' = s := Option.some.inj (hs'.symm.trans h)
    have heq := List.append_cancel_left ((next_newFrame ht).2.symm.trans hd)
    cases hf : (receiveFrame attr false s'.handler.stamps o).1 with
    | none =>
      rw [hf] at heq
      cases heq
    | some f' =>
      rw [hf] at heq
      cases heq
      rfl
  · intro hf
    refine ⟨s, _, h, rfl, ?_⟩
    rw [(next_newFrame rfl).2, hf]
    rfl

/--
The timestamp that a frame should have: that of the record of its key when there is one, and the
codec's otherwise.
-/
structure Right (pre : List Label) (o : DecOutput) (f : CnFrame) : Prop where
  of_record : ∀ pts, Live (history pre) o.key pts → f.pts = pts
  of_no_record : (∀ pts, ¬ Live (history pre) o.key pts) → f.pts = o.pts

/-- A frame has its timestamp unless the record is missing and the codec's is not 0. -/
theorem right_iff (h : Delivers attr pre o f) :
    Right pre o f ↔ (∃ pts, Live (history pre) o.key pts) ∨ o.pts = 0 := by
  obtain ⟨s, -, hs, -, -⟩ := id h
  have hpts := receiveFrame_pts ((delivers_iff hs).mp h)
  cases hrec : s.handler.stamps.vpuPtsMap o.key with
  | some pts =>
    have hlive : Live (history pre) o.key pts := (record_iff hs).mp hrec
    refine iff_of_true ⟨fun pts' hlive' => ?_, fun hnone => absurd hlive (hnone pts)⟩
      (.inl ⟨pts, hlive⟩)
    rw [hpts, queryPts_of_some ((record_iff hs).mpr hlive')]
  | none =>
    have hnone := (no_record_iff hs).mp hrec
    have hzero : f.pts = 0 := hpts.trans (queryPts_of_none hrec)
    constructor
    · intro hr
      exact .inr ((hr.of_no_record hnone).symm.trans hzero)
    · rintro (⟨pts, hlive⟩ | ho)
      · exact absurd hlive (hnone pts)
      · exact ⟨fun pts hlive => absurd hlive (hnone pts), fun _ => hzero.trans ho.symm⟩

/--
**The timestamps of the frames of a run.**

All of them are right if and only if, at each frame that is handed over, its key has a record, or
the codec's timestamp is 0.
-/
theorem frame_timestamps_iff (attr : Attr) (ls : List Label) :
    (∀ pre o post f, ls = pre ++ .newFrame o :: post → Delivers attr pre o f → Right pre o f) ↔
      ∀ pre o post s, ls = pre ++ .newFrame o :: post →
        System.run (next attr) .initial pre = some s → o.frame.isEmpty = false →
        attr.frameCallback = true → (∃ pts, Live (history pre) o.key pts) ∨ o.pts = 0 := by
  constructor
  · intro hall pre o post s hls hs hframe hcallback
    have hsome : (receiveFrame attr false s.handler.stamps o).1.isSome :=
      receiveFrame_isSome.mpr ⟨hframe, hcallback⟩
    obtain ⟨f, hf⟩ := Option.isSome_iff_exists.mp hsome
    have hd : Delivers attr pre o f := (delivers_iff hs).mpr hf
    exact (right_iff hd).mp (hall pre o post f hls hd)
  · intro hcond pre o post f hls hd
    obtain ⟨s, -, hs, -, -⟩ := id hd
    obtain ⟨hframe, hcallback⟩ := receiveFrame_isSome.mp
      (Option.isSome_of_eq_some ((delivers_iff hs).mp hd))
    exact (right_iff hd).mpr (hcond pre o post s hls hs hframe hcallback)

/-- A picture of two rows of two pixels, with the key of the second packet. -/
def secondPacketOutput : DecOutput where
  pts := 1
  frame :=
    { address := 4096
      channel := 0
      width := 2
      height := 2
      planeNum := 2
      stride := fun _ => 2
      planeAddr := fun pi => 8192 + BitVec.ofNat 64 (4 * pi) }

def nv12Attr : Attr where
  pixelFormat := .nv12
  colorStd := .ituBt709
  devId := 0
  frameCallback := true

/-- Two packets are fed, and the codec makes a first frame of the second. -/
def twoPackets : List Label :=
  [.feedVideoData 0 40, .feedReturns 0 .success, .feedVideoData 0 80, .feedReturns 0 .success,
    .newFrame secondPacketOutput]

/-- The second frame of a packet has the timestamp 0, and not the codec's. -/
theorem second_frame_of_packet : ∃ f, Delivers nv12Attr twoPackets secondPacketOutput f ∧
    f.pts = 0 ∧ (∀ pts, ¬ Live (history twoPackets) secondPacketOutput.key pts) ∧
    ¬ Right twoPackets secondPacketOutput f := by
  obtain ⟨s, hs, hnone⟩ : ∃ s, System.run (next nv12Attr) .initial twoPackets = some s ∧
      s.handler.stamps.vpuPtsMap secondPacketOutput.key = none := ⟨_, rfl, rfl⟩
  have hsome : (receiveFrame nv12Attr false s.handler.stamps secondPacketOutput).1.isSome :=
    receiveFrame_isSome.mpr ⟨rfl, rfl⟩
  obtain ⟨f, hf⟩ := Option.isSome_iff_exists.mp hsome
  have hd : Delivers nv12Attr twoPackets secondPacketOutput f := (delivers_iff hs).mpr hf
  have hlive := (no_record_iff hs).mp hnone
  refine ⟨f, hd, (receiveFrame_pts hf).trans (queryPts_of_none hnone), hlive, fun hr => ?_⟩
  rcases (right_iff hd).mp hr with ⟨pts, hpts⟩ | hzero
  · exact hlive pts hpts
  · exact absurd hzero (by decide)

end CambriconGst.ReceiveFrame
