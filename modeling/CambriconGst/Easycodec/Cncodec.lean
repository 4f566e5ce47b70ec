/-!
# What the codec libraries return

The return codes and the events of cncodec, and the exceptions of `cxxutil/exception.h`.
-/

namespace CambriconGst.Easycodec

/-- The return code of a codec call: `CNCODEC_SUCCESS`, `-CNCODEC_TIMEOUT`, or an error. -/
inductive Ecode where
  | success
  | timeout
  | error (code : Int)
deriving DecidableEq, Repr

/-- `cncodecCbEventType`, less the frame and sequence events. -/
inductive CbEventType where
  | eos
  | swReset
  | hwReset
  | outOfMemory
  | abortError
  | streamCorrupt
  | other (type : Int)
deriving DecidableEq, Repr

/-- `edk::Exception::Code`. -/
inductive Exception.Code where
  | internal
  | unsupported
  | invalidArg
  | memory
  | timeout
  | initFailed
  | unavailable
deriving DecidableEq, Repr

structure Exception where
  code : Exception.Code
  msg : String
deriving DecidableEq, Repr

end CambriconGst.Easycodec
