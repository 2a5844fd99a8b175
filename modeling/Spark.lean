import Spark.DFlash2.GreedyCheck
import Spark.DFlash2.Reservation
import Spark.Dspark.Mirror
import Spark.Experts.HotBank
import Spark.Experts.PreparedRuns
import Spark.Experts.TokenOrder
import Spark.Fabric.Residency
import Spark.Fabric.Transactions
import Spark.FlashNext.Generation
import Spark.FlashNext.MoeArena
import Spark.Glm.GgufBounds
import Spark.Glm.LayerPlacement
import Spark.Kv.Recovery
import Spark.OpenAi.Admission
import Spark.OpenAi.ByteLevel
import Spark.OpenAi.ChatTemplate
import Spark.OpenAi.Events
import Spark.Ple.ClockFetch
import Spark.Ple.Fragments
import Spark.Ple.PageReads
import Spark.Ple.RowIds
import Spark.Rax.Overflow
import Spark.Scale.Acceptance
import Spark.Server.ClientCalls
import Spark.Server.Continuation
import Spark.Server.CoordinatorRuns
import Spark.Server.DsmlRecognizer
import Spark.Server.GlmExact
import Spark.Server.JsonMinify
import Spark.Server.StopSequences
import Spark.Server.ToolMapRuns
import Spark.Sidecar.HeaderCodec
import Spark.Sidecar.Resumption
import Spark.Tokenizer.Chat
import Spark.Tp.LockstepRuns
