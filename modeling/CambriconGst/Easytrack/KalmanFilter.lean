import Mathlib.Data.Matrix.Mul
import Mathlib.LinearAlgebra.Matrix.Notation
import CambriconGst.Easytrack.DataType
import CambriconGst.Easytrack.Matrix

/-!
# The Kalman filter

`easytrack/kalmanfilter.cpp`. The state is the box as centre, aspect ratio and height, and their
velocities; a measurement is a box in the same form. `Estimate` is the filter that keeps no
projection.
-/

namespace CambriconGst.Easytrack

open Matrix

variable {K : Type}

section Constants

variable (K) [Zero K] [One K]

def motionMat : Matrix (Fin 8) (Fin 8) K :=
  !![1, 0, 0, 0, 1, 0, 0, 0;
     0, 1, 0, 0, 0, 1, 0, 0;
     0, 0, 1, 0, 0, 0, 1, 0;
     0, 0, 0, 1, 0, 0, 0, 1;
     0, 0, 0, 0, 1, 0, 0, 0;
     0, 0, 0, 0, 0, 1, 0, 0;
     0, 0, 0, 0, 0, 0, 1, 0;
     0, 0, 0, 0, 0, 0, 0, 1]

def updateMat : Matrix (Fin 4) (Fin 8) K :=
  !![1, 0, 0, 0, 0, 0, 0, 0;
     0, 1, 0, 0, 0, 0, 0, 0;
     0, 0, 1, 0, 0, 0, 0, 0;
     0, 0, 0, 1, 0, 0, 0, 0]

end Constants

/-- `needRecalcProject` is set when the projection is not that of the mean and covariance. -/
structure KalmanFilter (K : Type) where
  mean : Matrix (Fin 1) (Fin 8) K
  covariance : Matrix (Fin 8) (Fin 8) K
  projectMean : Matrix (Fin 1) (Fin 4) K
  projectCovariance : Matrix (Fin 4) (Fin 4) K
  needRecalcProject : Bool

variable [Field K]

def stdWeightPosition : K := 1 / 20

def stdWeightVelocity : K := 1 / 160

/-- The deviations of the state, from those of positions and of velocities. -/
def deviations (position velocity : K) : Fin 8 → K :=
  ![position, position, 1e-2, position, velocity, velocity, 1e-5, velocity]

/-- A box as a row. -/
def BoundingBox.toRow (bbox : BoundingBox K) : Matrix (Fin 1) (Fin 4) K :=
  !![bbox.x, bbox.y, bbox.width, bbox.height]

namespace KalmanFilter

/-- The constructor. The projection is empty; it is computed before it is read. -/
def create : KalmanFilter K where
  mean := 0
  covariance := 0
  projectMean := 0
  projectCovariance := 0
  needRecalcProject := true

/-- `Initiate`. Only the diagonal of the covariance is written. -/
def initiate (kf : KalmanFilter K) (measurement : BoundingBox K) : KalmanFilter K :=
  let std := deviations (2 * stdWeightPosition * measurement.height)
    (10 * stdWeightVelocity * measurement.height)
  { kf with
    mean := !![measurement.x, measurement.y, measurement.width, measurement.height, 0, 0, 0, 0]
    covariance := fun i j => if i = j then std i * std i else kf.covariance i j }

/-- The process noise of `Predict`. -/
def motionCov (kf : KalmanFilter K) : Matrix (Fin 8) (Fin 8) K :=
  let std := deviations (stdWeightPosition * kf.mean 0 3) (stdWeightVelocity * kf.mean 0 3)
  diagonal fun i => std i * std i

def predict (kf : KalmanFilter K) : KalmanFilter K :=
  { kf with
    mean := kf.mean * (motionMat K)ᵀ
    covariance := motionMat K * kf.covariance * (motionMat K)ᵀ + kf.motionCov
    needRecalcProject := true }

/-- The measurement noise of `Project`. -/
def innovationCov (kf : KalmanFilter K) : Matrix (Fin 4) (Fin 4) K :=
  let covVal1 := 1e-1 * 1e-1
  let covVal2 := stdWeightPosition * kf.mean 0 3 * (stdWeightPosition * kf.mean 0 3)
  diagonal ![covVal2, covVal2, covVal1, covVal2]

def project (kf : KalmanFilter K) : KalmanFilter K :=
  if kf.needRecalcProject then
    { kf with
      projectMean := kf.mean * (updateMat K)ᵀ
      projectCovariance := updateMat K * kf.covariance * (updateMat K)ᵀ + kf.innovationCov
      needRecalcProject := false }
  else kf

/-- `GetCurPos`. -/
def getCurPos (kf : KalmanFilter K) : BoundingBox K where
  x := kf.mean 0 0
  y := kf.mean 0 1
  width := kf.mean 0 2
  height := kf.mean 0 3

variable [LinearOrder K] [IsStrictOrderedRing K]

def update (kf : KalmanFilter K) (bbox : BoundingBox K) : KalmanFilter K :=
  let kf := kf.project
  let kalmanGain := kf.covariance * (updateMat K)ᵀ * inv kf.projectCovariance
  { kf with
    mean := kf.mean + (bbox.toRow - kf.projectMean) * kalmanGainᵀ
    covariance := kf.covariance - kalmanGain * updateMat K * kf.covariance
    needRecalcProject := true }

/-- `GatingDistance`: the filter with its projection computed, and the distances. -/
def gatingDistance (kf : KalmanFilter K) (measurements : List (BoundingBox K)) :
    KalmanFilter K × List K :=
  let kf := kf.project
  let covariance1Inv := inv kf.projectCovariance
  (kf, measurements.map fun measurement =>
    let d := measurement.toRow - kf.projectMean
    (d * covariance1Inv * dᵀ) 0 0)

/-! ## Deviations -/

/-- The mean as a vector. -/
def state (kf : KalmanFilter K) : Fin 8 → K :=
  kf.mean 0

/-- What `motionCov` has the squares of. -/
def motionStd (kf : KalmanFilter K) : Fin 8 → K :=
  deviations (stdWeightPosition * kf.mean 0 3) (stdWeightVelocity * kf.mean 0 3)

/-- What `innovationCov` has the squares of. -/
def innovationStd (kf : KalmanFilter K) : Fin 4 → K :=
  let position := stdWeightPosition * kf.mean 0 3
  ![position, position, 1e-1, position]

/-- The deviations of a first box. -/
def initialStd (measurement : BoundingBox K) : Fin 8 → K :=
  deviations (2 * stdWeightPosition * measurement.height)
    (10 * stdWeightVelocity * measurement.height)

end KalmanFilter

/-! ## A filter without a kept projection -/

/-- Mean and covariance of the state. -/
structure Estimate (K : Type) where
  mean : Matrix (Fin 1) (Fin 8) K
  covariance : Matrix (Fin 8) (Fin 8) K

namespace Estimate

/-- The estimate before the first box. -/
def start : Estimate K where
  mean := 0
  covariance := 0

/-- The estimate from a box alone, whatever was estimated before. -/
def initiate (measurement : BoundingBox K) : Estimate K :=
  let std := deviations (2 * stdWeightPosition * measurement.height)
    (10 * stdWeightVelocity * measurement.height)
  { mean := !![measurement.x, measurement.y, measurement.width, measurement.height, 0, 0, 0, 0]
    covariance := diagonal fun i => std i * std i }

def predict (e : Estimate K) : Estimate K :=
  let std := deviations (stdWeightPosition * e.mean 0 3) (stdWeightVelocity * e.mean 0 3)
  { mean := e.mean * (motionMat K)ᵀ
    covariance := motionMat K * e.covariance * (motionMat K)ᵀ + diagonal fun i => std i * std i }

/-- The projection, computed whenever it is needed. -/
def projectMean (e : Estimate K) : Matrix (Fin 1) (Fin 4) K :=
  e.mean * (updateMat K)ᵀ

def projectCovariance (e : Estimate K) : Matrix (Fin 4) (Fin 4) K :=
  let position := stdWeightPosition * e.mean 0 3 * (stdWeightPosition * e.mean 0 3)
  updateMat K * e.covariance * (updateMat K)ᵀ
    + diagonal ![position, position, 1e-1 * 1e-1, position]

variable [LinearOrder K] [IsStrictOrderedRing K]

def update (e : Estimate K) (bbox : BoundingBox K) : Estimate K :=
  let kalmanGain := e.covariance * (updateMat K)ᵀ * inv e.projectCovariance
  { mean := e.mean + (bbox.toRow - e.projectMean) * kalmanGainᵀ
    covariance := e.covariance - kalmanGain * updateMat K * e.covariance }

def gatingDistance (e : Estimate K) (measurements : List (BoundingBox K)) : List K :=
  measurements.map fun measurement =>
    let d := measurement.toRow - e.projectMean
    (d * inv e.projectCovariance * dᵀ) 0 0

end Estimate

end CambriconGst.Easytrack

/-! ## Boxes as `track_fm.cpp` measures them -/

namespace CambriconGst.TrackFm

open Easytrack

variable {K : Type} [Field K]

def toXyah (bbox : BoundingBox K) : BoundingBox K where
  x := bbox.x + bbox.width / 2
  y := bbox.y + bbox.height / 2
  width := bbox.width / bbox.height
  height := bbox.height

def toTlwh (xyah : BoundingBox K) : BoundingBox K :=
  let width := xyah.width * xyah.height
  let height := xyah.height
  { x := xyah.x - width / 2, y := xyah.y - height / 2, width, height }

end CambriconGst.TrackFm
