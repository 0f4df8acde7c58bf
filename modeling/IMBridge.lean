import IMBridge.PythonUdf.StaleArguments
import IMBridge.Sql.PushDownMeaning
import IMBridge.Sql.ExprReplacement
import IMBridge.Engine.BitScan
import IMBridge.PythonUdf.PassThrough
import IMBridge.PythonUdf.Arguments
import IMBridge.PythonUdf.Rescan
import IMBridge.Palf.CommitRun
import IMBridge.Palf.Election.SingleLeader
import IMBridge.Palf.LogTiling
import IMBridge.Tx.UndoFailure
import IMBridge.Deadlock.FoundInPeriod
import IMBridge.Deadlock.ReportedCycles
import IMBridge.Sql.LimitReuse
import IMBridge.WideInteger.DivideExact
import IMBridge.SortKey.ScalarKeys
import IMBridge.SortKey.StringKeys
import IMBridge.PythonUdf.Results
import IMBridge.PythonUdf.Capacity
import IMBridge.PythonUdf.FixedSize
import IMBridge.PythonUdf.Settling
import IMBridge.Schema.MgrHistory
import IMBridge.Codec.DeltaRleRoundTrip
import IMBridge.PythonUdf.HandlerNames
import IMBridge.PythonUdf.Signature
import IMBridge.Palf.WindowJump
import IMBridge.Palf.Election.VoteOrder
import IMBridge.Palf.Election.RoleChanges
import IMBridge.Serialization.VarString
import IMBridge.Encode.QuotedPrintableRoundTrip
import IMBridge.Codec.PForRoundTrip
import IMBridge.Encode.OutputLimits
