import Unlucky21.Lib.Runs
import Unlucky21.Lib.CText
import Unlucky21.Lib.Transaction
import Unlucky21.Lib.Script
import Unlucky21.Lib.Block
import Unlucky21.Lib.Merkle
import Unlucky21.Lib.Patching
import Unlucky21.Lib.Completing
import Unlucky21.Deploy.PatchStratum
import Unlucky21.Deploy.Idempotence
import Unlucky21.Deploy.Completion
import Unlucky21.Lib.Memory
import Unlucky21.Templates.Parser
import Unlucky21.Templates.Copies
import Unlucky21.Templates.Ring
import Unlucky21.Templates.Fetcher
import Unlucky21.Templates.Publishing
import Unlucky21.Templates.FallbackNotifier
import Unlucky21.Lib.Query
import Unlucky21.Lib.Json
import Unlucky21.Reward.CachedRound
import Unlucky21.Reward.RoundAgreement
import Unlucky21.Reward.BlockRecord
import Unlucky21.Reward.Decisions
import Unlucky21.Reward.ConfirmationLoop
import Unlucky21.Reward.Shutdown
import Unlucky21.Reward.Top21
import Unlucky21.Reward.Sessions
import Unlucky21.Reward.Outage
import Unlucky21.Reward.SoloConfirmations
import Unlucky21.Reward.SoloLoop
import Unlucky21.Reward.Flushing
import Unlucky21.Reward.Inbound
import Unlucky21.Signet.Injection
import Unlucky21.Signet.MerkleRoot
import Unlucky21.Stratum.Notify
import Unlucky21.Stratum.JobId
import Unlucky21.Stratum.ShareDifficulty
import Unlucky21.Gateway.Halves
import Unlucky21.Gateway.Passes
import Unlucky21.Gateway.WellFormed
import Unlucky21.Gateway.ReplyParser
import Unlucky21.Gateway.ReplyBuffer
import Unlucky21.Gateway.PartialReplies
import Unlucky21.Gateway.Exchange
import Unlucky21.Gateway.Complete
import Unlucky21.Gateway.Conservation
import Unlucky21.Gateway.Fallback
import Unlucky21.Gateway.Limits
import Unlucky21.Gateway.Ceilings
import Unlucky21.Gateway.ShareSubmit
import Unlucky21.Gateway.Messages
import Unlucky21.Gateway.Pool
import Unlucky21.Gateway.Delivery
import Unlucky21.Gateway.Board
import Unlucky21.Gateway.Served
import Unlucky21.Gateway.RawOutputs
import Unlucky21.Gateway.InputScript
import Unlucky21.Web.Leaderboard
import Unlucky21.Web.Payouts
import Unlucky21.Web.Stats
import Unlucky21.Web.ExternalStats
