import Rfsck.Storage.ByteFile
import Rfsck.Storage.LittleEndian
import Rfsck.Storage.Crash
import Rfsck.Redo.Format
import Rfsck.Redo.Writer
import Rfsck.Redo.Replay
import Rfsck.Redo.ReplayPlan
import Rfsck.Redo.TagStream
import Rfsck.Redo.TagWalk
import Rfsck.Redo.LogLayout
import Rfsck.Redo.FinishedLog
import Rfsck.Redo.Session
import Rfsck.Redo.SessionReplay
import Rfsck.Redo.Opening
import Rfsck.Redo.History
import Rfsck.Redo.HistoryWalk
import Rfsck.Redo.HistoryScan
import Rfsck.Redo.HistoryReplay
import Rfsck.Redo.Restart
import Rfsck.Redo.Interruption
import Rfsck.Redo.Verification
import Rfsck.Redo.Durability
import Rfsck.Redo.FailedRecovery
import Rfsck.Redo.KeptMarks
import Rfsck.Redo.WriteAhead
import Rfsck.Redo.Reuse
import Rfsck.Redo.OutsideWrites
import Rfsck.E2fsck.Main
import Rfsck.UnixIo.Channel
import Rfsck.UnixIo.Coherence
import Rfsck.UnixIo.CacheOps
import Rfsck.UnixIo.WriteThrough
import Rfsck.UnixIo.Transparency
import Rfsck.UnixIo.Diversion
import Rfsck.UnixIo.ReadYourWrites
import Rfsck.PowerFault.Recorder
import Rfsck.PowerFault.Request
import Rfsck.PowerFault.Workers
import Rfsck.Redo.Accepted
import Rfsck.Redo.Regions
import Rfsck.UnixIo.Debt
import Rfsck.UnixIo.Sink
import Rfsck.UnixIo.Accepted
import Rfsck.UnixIo.LoggingOff
import Rfsck.Xfs.Rdwr
import Rfsck.Xfs.Redo
import Rfsck.Xfs.Repair
import Rfsck.Xfs.Atomicity
import Rfsck.Devices
import Rfsck.Redo.TagRoles
import Rfsck.Redo.FailedCalls
import Rfsck.PowerFault.Split
import Rfsck.PowerFault.ReplayErrors
import Rfsck.PowerFault.Targets
import Rfsck.Undo.Format
import Rfsck.Undo.Range
import Rfsck.Undo.E2undo
import Rfsck.Undo.Layout
import Rfsck.Undo.Checks
import Rfsck.Undo.Forced
import Rfsck.PowerFault.ErrorBlocks
import Rfsck.Redo.ArrayBounds
import Rfsck.Redo.ReplayResult
import Rfsck.Redo.FurtherOpens
import Rfsck.UnixIo.Zeroout
import Rfsck.Undo.Channels
import Rfsck.Undo.Writer
import Rfsck.Undo.Session
import Rfsck.Undo.Saving
import Rfsck.Undo.Restore
import Rfsck.Undo.Rerun
import Rfsck.Undo.SavedBytes
import Rfsck.Undo.Reopen
import Rfsck.UnixIo.Committed
