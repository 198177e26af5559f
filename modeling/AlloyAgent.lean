import AlloyAgent.ExecuteDag
import AlloyAgent.BufferPoolConcurrent
import AlloyAgent.Approval
import AlloyAgent.Pairing
import AlloyAgent.AuditLog
import AlloyAgent.WebFetch
import AlloyAgent.WireFraming
import AlloyAgent.WireBroadcast
import AlloyAgent.PeerHandshake
import AlloyAgent.PeerState
import AlloyAgent.CanonicalSession
import AlloyAgent.Cron
import AlloyAgent.WebContent
import AlloyAgent.ProcessManager
import AlloyAgent.RegistryIndexes
import AlloyAgent.CommandRouting
import AlloyAgent.HostFunctions
import AlloyAgent.RequestDialogue
import AlloyAgent.SandboxEpoch
import AlloyAgent.AnthropicStream
import AlloyAgent.SplitMessage
import AlloyAgent.IsolationTable
import AlloyAgent.MmapFile
import AlloyAgent.SocketRecv
import AlloyAgent.CredentialVault
import AlloyAgent.PatchMeaning
import AlloyAgent.PatchFrame
import AlloyAgent.PatchApply
import AlloyAgent.HeartbeatPruning
import AlloyAgent.RepairIdempotent
import AlloyAgent.ProviderCircuit
import AlloyAgent.LoaderCounts
import AlloyAgent.BufferPoolPut
import AlloyAgent.OverflowVerdict
import AlloyAgent.ContextSlicing
import AlloyAgent.InjectionMarkers
import AlloyAgent.LoopGuardRuns
import AlloyAgent.AvailableTools
import AlloyAgent.Triggers
import AlloyAgent.RunRetention
import AlloyAgent.ReplyDirectives
import AlloyAgent.TextToolCalls
import AlloyAgent.WorkflowErrorModes
import AlloyAgent.WorkflowVariables
import AlloyAgent.A2aTasks
import AlloyAgent.ToolPolicy
import AlloyAgent.FatFile
import AlloyAgent.StructuredStore
import AlloyAgent.PeerAddress
import AlloyAgent.BufferRegister
import AlloyAgent.Fdtab
import AlloyAgent.ToolSchema
import AlloyAgent.Sessions
import AlloyAgent.SpawnTree
import AlloyAgent.ChannelRate
