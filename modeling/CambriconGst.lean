import CambriconGst.Lib.Assignment
import CambriconGst.Lib.Attempt
import CambriconGst.Lib.Barrier
import CambriconGst.Lib.Batching
import CambriconGst.Lib.BinaryFormat
import CambriconGst.Lib.Bisect
import CambriconGst.Lib.BlockCopies
import CambriconGst.Lib.BlockHeap
import CambriconGst.Lib.ByteArrays
import CambriconGst.Lib.Calls
import CambriconGst.Lib.CellWrites
import CambriconGst.Lib.Checked
import CambriconGst.Lib.ConditionWait
import CambriconGst.Lib.Convolution
import CambriconGst.Lib.Covariance
import CambriconGst.Lib.CoversOnce
import CambriconGst.Lib.CycleLeader
import CambriconGst.Lib.FileSequence
import CambriconGst.Lib.FinLoop
import CambriconGst.Lib.History
import CambriconGst.Lib.Interpolation
import CambriconGst.Lib.JpegStream
import CambriconGst.Lib.Kept
import CambriconGst.Lib.KeyedRecords
import CambriconGst.Lib.Latest
import CambriconGst.Lib.Layout
import CambriconGst.Lib.LeastSquares
import CambriconGst.Lib.Lifecycle
import CambriconGst.Lib.Near
import CambriconGst.Lib.Ownership
import CambriconGst.Lib.RefLog
import CambriconGst.Lib.Registry
import CambriconGst.Lib.Rounding
import CambriconGst.Lib.RowMajor
import CambriconGst.Lib.RunningMin
import CambriconGst.Lib.RwLock
import CambriconGst.Lib.SparseBlocks
import CambriconGst.Lib.System
import CambriconGst.Lib.Transition
import CambriconGst.Lib.WriteLog
import CambriconGst.Common.SyncedMemory
import CambriconGst.Common.SyncedMemoryFaults
import CambriconGst.Cxxutil.LogFile
import CambriconGst.Cxxutil.LogFilter
import CambriconGst.Cxxutil.LogSinks
import CambriconGst.Cxxutil.ThreadSafeQueue
import CambriconGst.Device.MluTaskQueue
import CambriconGst.Easybang.Half
import CambriconGst.Easybang.ResizeBatching
import CambriconGst.Easybang.ResizeColor
import CambriconGst.Easybang.ResizeGeometry
import CambriconGst.Easybang.ResizeKernel
import CambriconGst.Easybang.ResizeLoads
import CambriconGst.Easybang.ResizeNram
import CambriconGst.Easybang.ResizePixels
import CambriconGst.Easybang.ResizeRounded
import CambriconGst.Easybang.ResizeTables
import CambriconGst.Easybang.ResizeYuv420sp
import CambriconGst.Easybang.ResizeYuv420spCores
import CambriconGst.Easytrack.DataType
import CambriconGst.Easytrack.DftMat
import CambriconGst.Easytrack.Hungarian
import CambriconGst.Easytrack.HungarianWorkspace
import CambriconGst.Easytrack.KalmanFilter
import CambriconGst.Easytrack.KcfDetects
import CambriconGst.Easytrack.KcfUpdate
import CambriconGst.Easytrack.Match
import CambriconGst.Easytrack.Matrix
import CambriconGst.Easytrack.TrackFm
import CambriconGst.Easytrack.TrackKcf
import CambriconGst.Easycodec.Cncodec
import CambriconGst.Easycodec.CodecOwner
import CambriconGst.Easycodec.CopyFrame
import CambriconGst.Easycodec.DecodeHandler
import CambriconGst.Easycodec.EncodeHandler
import CambriconGst.Easycodec.EventLoop
import CambriconGst.Easycodec.ProgressiveJpeg
import CambriconGst.Easycodec.ProgressiveMode
import CambriconGst.Easycodec.ReceiveFrame
import CambriconGst.Easycodec.VpuTimestamp
import CambriconGst.Easyinfer.MluMemoryOp
import CambriconGst.Easyinfer.ModelLoader
import CambriconGst.Gst.Cnconvert
import CambriconGst.Gst.CnconvertStages
import CambriconGst.Gst.Cnvideodec
import CambriconGst.Gst.CnvideodecFrames
import CambriconGst.Gst.Cnvideoenc
import CambriconGst.Gst.CnvideoencUpload
import CambriconGst.Gst.Element
import CambriconGst.Gst.HostCopy
import CambriconGst.Gst.StreamId
import CambriconGst.Gst.VideoInfo
import CambriconGst.Properties.Cnconvert
import CambriconGst.Properties.CnconvertStages
import CambriconGst.Properties.Cnvideodec
import CambriconGst.Properties.CnvideodecEos
import CambriconGst.Properties.CnvideodecFrames
import CambriconGst.Properties.CnvideodecThread
import CambriconGst.Properties.Cnvideoenc
import CambriconGst.Properties.CnvideoencEos
import CambriconGst.Properties.CnvideoencThread
import CambriconGst.Properties.CnvideoencUpload
import CambriconGst.Properties.CodecOwner
import CambriconGst.Properties.CopyFrame
import CambriconGst.Properties.DecodeHandler
import CambriconGst.Properties.DecodeHandlerTeardown
import CambriconGst.Properties.DecodeHandlerWakeup
import CambriconGst.Properties.DftMat
import CambriconGst.Properties.EosAcceptance
import CambriconGst.Properties.EventLoop
import CambriconGst.Properties.EventLoopThreads
import CambriconGst.Properties.Half
import CambriconGst.Properties.HostCopy
import CambriconGst.Properties.HostCopyConvert
import CambriconGst.Properties.Hungarian
import CambriconGst.Properties.HungarianInvariant
import CambriconGst.Properties.HungarianLayout
import CambriconGst.Properties.HungarianLocality
import CambriconGst.Properties.HungarianRefinement
import CambriconGst.Properties.HungarianReturns
import CambriconGst.Properties.HungarianReuse
import CambriconGst.Properties.HungarianSteps
import CambriconGst.Properties.Iou
import CambriconGst.Properties.KalmanFilter
import CambriconGst.Properties.KalmanFilterCache
import CambriconGst.Properties.KalmanLeastSquares
import CambriconGst.Properties.KcfDetects
import CambriconGst.Properties.KcfUpdate
import CambriconGst.Properties.LogFile
import CambriconGst.Properties.LogFilter
import CambriconGst.Properties.LogSinks
import CambriconGst.Properties.Match
import CambriconGst.Properties.MatchAlgorithm
import CambriconGst.Properties.Matrix
import CambriconGst.Properties.MatrixPivots
import CambriconGst.Properties.MatrixTranspose
import CambriconGst.Properties.MluTaskQueue
import CambriconGst.Properties.ModelLoader
import CambriconGst.Properties.ProgressiveJpeg
import CambriconGst.Properties.ProgressiveMode
import CambriconGst.Properties.ProgressiveModeStreams
import CambriconGst.Properties.ReceiveFrame
import CambriconGst.Properties.ResizeBatching
import CambriconGst.Properties.ResizeBorders
import CambriconGst.Properties.ResizeChunks
import CambriconGst.Properties.ResizeColor
import CambriconGst.Properties.ResizeCopyFilter
import CambriconGst.Properties.ResizeCoverage
import CambriconGst.Properties.ResizeGeometry
import CambriconGst.Properties.ResizeLayout
import CambriconGst.Properties.ResizeLoads
import CambriconGst.Properties.ResizeMasks
import CambriconGst.Properties.ResizeNram
import CambriconGst.Properties.ResizePicture
import CambriconGst.Properties.ResizePixels
import CambriconGst.Properties.ResizeRounded
import CambriconGst.Properties.ResizeRow
import CambriconGst.Properties.ResizeSharing
import CambriconGst.Properties.ResizeSlots
import CambriconGst.Properties.ResizeTables
import CambriconGst.Properties.ResizeWorkspace
import CambriconGst.Properties.ResizeYuv420spBatch
import CambriconGst.Properties.ResizeYuv420spCluster
import CambriconGst.Properties.ResizeYuv420spCode
import CambriconGst.Properties.ResizeYuv420spLine
import CambriconGst.Properties.ResizeYuv420spMasks
import CambriconGst.Properties.ResizeYuv420spNear
import CambriconGst.Properties.ResizeYuv420spRows
import CambriconGst.Properties.StreamId
import CambriconGst.Properties.SyncedMemory
import CambriconGst.Properties.SyncedMemoryOwnership
import CambriconGst.Properties.ThreadSafeQueue
import CambriconGst.Properties.ThreadSafeQueueProgress
import CambriconGst.Properties.TrackFmBudget
import CambriconGst.Properties.TrackFmFrame
import CambriconGst.Properties.TrackFmIdentity
import CambriconGst.Properties.TrackFmLifecycle
import CambriconGst.Properties.TrackFmMatching
import CambriconGst.Properties.TrackFmNorms
import CambriconGst.Properties.TrackFmRun
import CambriconGst.Properties.TrackFmThrow
import CambriconGst.Properties.TrackFmView
import CambriconGst.Properties.TrackKcf
import CambriconGst.Properties.TransLayout
import CambriconGst.Properties.VpuTimestamp
