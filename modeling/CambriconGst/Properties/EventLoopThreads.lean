import CambriconGst.Properties.CnvideodecThread
import CambriconGst.Properties.CnvideoencThread

/-!
# Event loop threads of the codec elements

* `event_loops_kept`: both elements keep their event loop thread and their codec instances in runs
  that start no event loop, and in the decoder's case finalize nothing, after one was left behind
* `event_loop_overwritten`: what a failed `create` or an aborted codec leads to otherwise
-/

namespace CambriconGst.Gst

open Lib Easycodec

/--
**The event loop threads are kept.** In runs whose steps all meet the condition no joinable thread
is overwritten or destroyed and no codec instance is lost; and after such a run a step keeps them
only if it meets the condition.
-/
theorem event_loops_kept (d : Cnvideodec) (e : Cnvideoenc) :
    (Reachable (· = Cnvideodec.initial)
        (System.StepWhere Cnvideodec.next Cnvideodec.KeepsThread) d →
      Cnvideodec.Keeps d ∧
        ∀ l t, Cnvideodec.next d l = some t → (Cnvideodec.Keeps t ↔ d.KeepsThread l)) ∧
    (Reachable (· = Cnvideoenc.initial)
        (System.StepWhere Cnvideoenc.next Cnvideoenc.KeepsThread) e →
      Cnvideoenc.Keeps e ∧
        ∀ l t, Cnvideoenc.next e l = some t → (Cnvideoenc.Keeps t ↔ e.KeepsThread l)) := by
  constructor
  · intro hd
    exact ⟨(Cnvideodec.reachable_sound hd).keeps, fun l t hn => Cnvideodec.step_keeps_iff hd hn⟩
  · intro he
    exact ⟨(Cnvideoenc.reachable_sound he).keeps, fun l t hn => Cnvideoenc.step_keeps_iff he hn⟩

/-- From `NULL` to `PLAYING`, and a caps event that has the element start its event loop. -/
def decoderStarts : List Cnvideodec.Label :=
  [.changeState .nullToReady, .changeState .activatePads, .changeState .readyToPaused,
    .changeState .pausedToPlaying, .caps true true, .startLoop true]

def encoderStarts : List Cnvideoenc.Label :=
  [.changeState .nullToReady, .changeState .activatePads, .changeState .readyToPaused,
    .changeState .pausedToPlaying, .caps true, .startLoop true]

/-- A decoder is created, and destroyed by the next caps event. -/
theorem event_loops_kept_sample : ∃ s, System.run Cnvideodec.next Cnvideodec.initial
      (decoderStarts ++ [.create .success, .setAttributes .success, .caps true true,
        .feedEos .success, .codecEvent 0 .eos, .pop, .notify, .eosWaited, .exit, .joined,
        .startLoop true, .create .success, .setAttributes .success]) = some s ∧
    Cnvideodec.Keeps s ∧ s.history.live = [1] := by
  have hm : System.Meets Cnvideodec.next Cnvideodec.KeepsThread Cnvideodec.initial
      (decoderStarts ++ [.create .success, .setAttributes .success, .caps true true,
        .feedEos .success, .codecEvent 0 .eos, .pop, .notify, .eosWaited, .exit, .joined,
        .startLoop true, .create .success, .setAttributes .success]) :=
    ⟨trivial, trivial, trivial, trivial, trivial, rfl, trivial, .inl rfl, trivial, trivial, trivial,
      trivial, trivial, trivial, trivial, trivial, rfl, trivial, .inl rfl, trivial⟩
  exact ⟨_, rfl,
    ((event_loops_kept _ Cnvideoenc.initial).1
      (System.reachable_of_meets (Reachable.of_init rfl) rfl hm)).1, rfl⟩

/--
The codec is not created, or aborts, and the next caps event overwrites the thread; or its
attributes are not set, and its handle is dropped.
-/
theorem event_loop_overwritten :
    (∃ s, System.run Cnvideodec.next Cnvideodec.initial
        (decoderStarts ++ [.create (.error 1), .caps true true, .startLoop true]) = some s ∧
      s.pc = .terminated) ∧
    (∃ s, System.run Cnvideodec.next Cnvideodec.initial
        (decoderStarts ++ [.create .success, .setAttributes (.error 1)]) = some s ∧
      0 ∈ s.history.live ∧ s.decode = none) ∧
    ∃ s, System.run Cnvideoenc.next Cnvideoenc.initial
        (encoderStarts ++ [.create .success, .codecEvent 0 .outOfMemory, .pop, .notify,
          .caps true, .startLoop true]) = some s ∧
      s.pc = .terminated :=
  ⟨⟨_, rfl, rfl⟩, ⟨_, rfl, List.mem_cons_self, rfl⟩, ⟨_, rfl, rfl⟩⟩

end CambriconGst.Gst
