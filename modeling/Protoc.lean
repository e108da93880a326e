import Protoc.Samgr.TimerTick
import Protoc.Samgr.TaskPoolSharing
import Protoc.Samgr.Message
import Protoc.Samgr.BootOnce
import Protoc.Samgr.BootOrder
import Protoc.Io.CodedInputChunks
import Protoc.Io.SerializeWritten
import Protoc.Parse.UnknownFields
import Protoc.Parse.BackUp
import Protoc.Parse.BigVarint
import Protoc.Io.CopyingAdaptor
import Protoc.Io.InputStreamsRuns
import Protoc.Io.StringLiteral
import Protoc.Stubs.StructurallyValidCoerce
import Protoc.Arena.SerialArenaRuns
import Protoc.Stubs.IntTextParse
import Protoc.Stubs.CEscape
import Protoc.Stubs.Base64Decoder
import Protoc.Util.FieldMaskSubtract
import Protoc.Util.FieldMaskTrim
import Protoc.Util.FieldMaskJson
import Protoc.Util.DelimitedMessage
import Protoc.Database.EncodedRuns
import Protoc.Compiler.ImporterVirtual
import Protoc.Extensions.ExtensionSetSwap
import Protoc.Repeated.RepeatedPtrFieldRuns
import Protoc.Compiler.ZipWriterArchive
import Protoc.Compiler.PaddingOptimizer
import Protoc.Compiler.InsertionPoint
import Protoc.Io.PrinterRuns
import Protoc.Map.DynamicMapFieldRuns
import Protoc.Json.EscapingRoundTrip
import Protoc.Adapter.LockFreeQueue
import Protoc.Hiview.CacheFifo
import Protoc.Samgr.TimerOrder
import Protoc.Io.CodedInputDirect
import Protoc.Io.EpsCopyOutputSafe
import Protoc.Wire.ScalarStreams
import Protoc.Database.MergedDatabase
import Protoc.Util.DurationText
import Protoc.Util.MaximumMatcher
import Protoc.Util.MessageDifferencer
import Protoc.Descriptor.PoolCheckpoints
import Protoc.Util.ProtoWriterSizes
import Protoc.EventHub.Subscriptions
import Protoc.Hiview.LogLimit
import Protoc.Hiview.OutputLogBin
import Protoc.Compiler.SkipStatement
import Protoc.Compiler.SyntheticOneofs
import Protoc.Descriptor.IntegerDefaults
