import DynamoKV.Lib.Antichain
import DynamoKV.Lib.Quorum
import DynamoKV.Lib.Transition
import DynamoKV.Lib.Log
import DynamoKV.Lib.Causality
import DynamoKV.Lib.History
import DynamoKV.Lib.Circle
import DynamoKV.Lib.Utf8
import DynamoKV.Lib.Percent
import DynamoKV.Lib.JsonText.Strings
import DynamoKV.Lib.JsonText.Values
import DynamoKV.Lib.JsonText.RoundTrip
import DynamoKV.Lib.JsonText.WellFormed
import DynamoKV.Lib.JsonText.Lines
import DynamoKV.Objects.VectorClock
import DynamoKV.Objects.VectorClock.Join
import DynamoKV.Objects.Version
import DynamoKV.Objects.Storage
import DynamoKV.Objects.HintStore
import DynamoKV.Objects.HintStore.History
import DynamoKV.Objects.Node
import DynamoKV.Objects.Siblings
import DynamoKV.Objects.QuorumCall
import DynamoKV.Objects.Operation
import DynamoKV.Objects.Ring
import DynamoKV.Objects.Ring.Canonical
import DynamoKV.Objects.Ring.Disruption
import DynamoKV.Objects.Ring.PreferenceList
import DynamoKV.Objects.Transport
import DynamoKV.Objects.Auth
import DynamoKV.Objects.Gossip
import DynamoKV.Objects.Backend
import DynamoKV.Objects.Encryption
import DynamoKV.Objects.Document
import DynamoKV.Execution.LocalWrites
import DynamoKV.Execution.Gossip
import DynamoKV.Execution.GossipHistory
import DynamoKV.Execution.Tampering
import DynamoKV.Execution.Audit
import DynamoKV.Execution.AuditFile
import DynamoKV.Execution.Persistence
import DynamoKV.Execution.HintFlush
import DynamoKV.Execution.GossipRound
import DynamoKV.Execution.GossipWorker
import DynamoKV.Execution.State
import DynamoKV.Execution.Put
import DynamoKV.Execution.Step
import DynamoKV.Execution.Theorems.Steps
import DynamoKV.Execution.Theorems.Operations
import DynamoKV.Execution.Theorems.Replicas
import DynamoKV.Execution.Threads
import DynamoKV.Execution.Theorems.Deletes
import DynamoKV.Execution.Theorems.Around
import DynamoKV.Execution.Theorems.Quorums
import DynamoKV.Execution.Theorems.Puts
import DynamoKV.Execution.Clients
import DynamoKV.Execution.KeyIdentity
import DynamoKV.Execution.Theorems.Overlap
import DynamoKV.Execution.Isolation
import DynamoKV.Execution.Deletion
import DynamoKV.Execution.Theorems.Hints
import DynamoKV.Execution.SequentialReads
import DynamoKV.Execution.Provenance
import DynamoKV.Execution.Causality
import DynamoKV.Execution.LastPut
import DynamoKV.Execution.DeleteAnswer
import DynamoKV.Execution.Handoff
import DynamoKV.Execution.ReplicaWrites
import DynamoKV.Execution.Convergence
import DynamoKV.Execution.Recovery
import DynamoKV.Execution.Exchange
import DynamoKV.Execution.Live
import DynamoKV.Execution.Progress
import DynamoKV.Execution.Responses
import DynamoKV.Execution.Regularity
import DynamoKV.Execution.Theorems.Deployment
