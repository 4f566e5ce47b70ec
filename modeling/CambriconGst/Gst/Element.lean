/-!
# Elements

The states of a `GstElement` and its pads. Events and buffers arrive while the pads are active; the
pads are activated before the element is `PAUSED`, and deactivated before it is `READY` again, once
no event or buffer is being handled.
-/

namespace CambriconGst.Gst

inductive GstState where
  | null
  | ready
  | paused
  | playing
deriving DecidableEq, Repr

/-- Above `GST_STATE_READY`. -/
def GstState.running : GstState → Bool
  | .null => false
  | .ready => false
  | .paused => true
  | .playing => true

structure Element where
  state : GstState
  padsActive : Bool
deriving DecidableEq, Repr

/-- The state changes, with the steps the pads take in two of them. -/
inductive Transition where
  | nullToReady
  | activatePads
  | readyToPaused
  | pausedToPlaying
  | playingToPaused
  | deactivatePads
  | pausedToReady
  | readyToNull
deriving DecidableEq, Repr

namespace Element

/-- A transition is possible; `idle` says that no event or buffer is being handled. -/
def Can (e : Element) (idle : Prop) : Transition → Prop
  | .nullToReady => e.state = .null ∧ idle
  | .activatePads => e.state = .ready ∧ e.padsActive = false ∧ idle
  | .readyToPaused => e.state = .ready ∧ e.padsActive = true
  | .pausedToPlaying => e.state = .paused ∧ e.padsActive = true
  | .playingToPaused => e.state = .playing
  | .deactivatePads => e.state = .paused ∧ e.padsActive = true ∧ idle
  | .pausedToReady => e.state = .paused ∧ e.padsActive = false ∧ idle
  | .readyToNull => e.state = .ready ∧ e.padsActive = false ∧ idle

instance (e : Element) (idle : Prop) [Decidable idle] (t : Transition) :
    Decidable (e.Can idle t) := by
  cases t <;> unfold Can <;> infer_instance

def change (e : Element) : Transition → Element
  | .nullToReady => { e with state := .ready }
  | .activatePads => { e with padsActive := true }
  | .readyToPaused => { e with state := .paused }
  | .pausedToPlaying => { e with state := .playing }
  | .playingToPaused => { e with state := .paused }
  | .deactivatePads => { e with padsActive := false }
  | .pausedToReady => { e with state := .ready }
  | .readyToNull => { e with state := .null }

end Element

end CambriconGst.Gst
