import Sketchlog.Lib.Guarded
import Sketchlog.Lib.CountMap
import Sketchlog.Lib.Binary64
import Sketchlog.Lib.BoundedMonoid
import Sketchlog.Lib.Tabulate
import Sketchlog.Python.Basic
import Sketchlog.Python.DDSketch
import Sketchlog.Python.HyperLogLog
import Sketchlog.Python.CountMinSketch
import Sketchlog.Python.StreamLog
import Sketchlog.Spec.Contents
import Sketchlog.Refine.PythonDDSketch
import Sketchlog.Refine.PythonHyperLogLog
import Sketchlog.Refine.PythonCountMinSketch
import Sketchlog.Refine.PythonMerge
import Sketchlog.Refine.PythonStreamLog
import Sketchlog.Lib.OrderStatistics
import Sketchlog.Spec.Buckets
import Sketchlog.Properties.Percentile
import Sketchlog.Python.Document
import Sketchlog.Refine.PythonReadLatency
import Sketchlog.Refine.PythonFromDict
import Sketchlog.Properties.Invariant
import Sketchlog.Cpp.Basic
import Sketchlog.Cpp.DDSketch
import Sketchlog.Cpp.CountMinSketch
import Sketchlog.Cpp.StreamLog
import Sketchlog.Refine.CppDDSketch
import Sketchlog.Refine.CppCountMinSketch
import Sketchlog.Refine.CppStreamLog
import Sketchlog.Cpp.Document
import Sketchlog.Refine.CppDocument
import Sketchlog.Refine.Backend
import Sketchlog.Refine.CppReachable
import Sketchlog.Properties.MergeAlgebra
import Sketchlog.Properties.Atomicity
import Sketchlog.Properties.RoundTrip
import Sketchlog.Properties.Equivalence
import Sketchlog.Lib.History
import Sketchlog.Properties.CountMin
import Sketchlog.Properties.Uniques
import Sketchlog.Lib.Dict
import Sketchlog.Lib.LastWriter
import Sketchlog.Mesh.Cluster
import Sketchlog.Properties.MeshConvergence
import Sketchlog.Lib.Runs
import Sketchlog.Properties.Deletions
import Sketchlog.Server.Storage
import Sketchlog.Properties.SaveLabels
import Sketchlog.Properties.SaveLoad
import Sketchlog.Mesh.Membership
import Sketchlog.Mesh.Node
import Sketchlog.Properties.Membership
import Sketchlog.Properties.MembershipRuns
import Sketchlog.Properties.PeerState
import Sketchlog.Mesh.Digest
import Sketchlog.Refine.JsonSize
import Sketchlog.Refine.DigestResponse
import Sketchlog.Properties.DigestBudget
import Sketchlog.Refine.DigestEntries
import Sketchlog.Properties.DigestProgress
import Sketchlog.Refine.StreamKeys
import Sketchlog.Lib.RoundRobin
import Sketchlog.Mesh.Gossip
import Sketchlog.Properties.VersionVector
import Sketchlog.Properties.SyncBatches
import Sketchlog.Mesh.Streams
import Sketchlog.Properties.Replicable
import Sketchlog.Python.Facade
import Sketchlog.Refine.Facade
import Sketchlog.Properties.MergedReads
import Sketchlog.Properties.TokenBucket
import Sketchlog.Properties.Quotas
import Sketchlog.Lib.Gather
import Sketchlog.Properties.DigestIsolation
import Sketchlog.Lib.Base64
import Sketchlog.Lib.LockOrder
import Sketchlog.Server.OmniKV
import Sketchlog.Properties.Tombstones
import Sketchlog.Lib.Keyed
import Sketchlog.Lib.Nearest
import Sketchlog.Otel.Exporter
import Sketchlog.Properties.CumulativeSums
import Sketchlog.Properties.HistogramReplays
import Sketchlog.Properties.ExportRetries
import Sketchlog.Lib.SlidingWindow
import Sketchlog.Python.Windowed
import Sketchlog.Refine.WindowedSteps
import Sketchlog.Properties.WindowCoherence
import Sketchlog.Properties.WindowRetention
import Sketchlog.Go.HyperLogLog
import Sketchlog.Properties.GoRegisters
import Sketchlog.Ebpf.Collector
import Sketchlog.Properties.PollConservation
import Sketchlog.Alerting.AlertManager
import Sketchlog.Properties.AlertRecovery
import Sketchlog.Alerting.AlertEngine
import Sketchlog.Refine.AlertRules
import Sketchlog.Properties.AlertLifecycle
import Sketchlog.Properties.AlertIsolation
import Sketchlog.Properties.AutoPilotRecovery
import Sketchlog.Agent.Prometheus
import Sketchlog.Refine.PrometheusLines
import Sketchlog.Properties.PrometheusText
import Sketchlog.Lib.Nesting
import Sketchlog.Sql.Parser
import Sketchlog.Refine.SqlScanners
import Sketchlog.Refine.SqlKeywords
import Sketchlog.Properties.KeywordSearch
import Sketchlog.Refine.SqlLexemes
import Sketchlog.Properties.WhiteSpace
import Sketchlog.Sql.Grammar
import Sketchlog.Refine.SqlWords
import Sketchlog.Properties.SqlRoundTrip
import Sketchlog.Properties.BatchIngest
import Sketchlog.Refine.CppHistories
import Sketchlog.Properties.Thresholds
import Sketchlog.Properties.PercentileOrder
import Sketchlog.Python.FacadeReads
import Sketchlog.Refine.FacadeReads
import Sketchlog.Python.Slo
import Sketchlog.Properties.SloBudget
import Sketchlog.Lib.StepFunction
import Sketchlog.Python.Diff
import Sketchlog.Properties.Distances
import Sketchlog.Properties.DriftDirections
import Sketchlog.Python.Canary
import Sketchlog.Properties.CanaryVerdicts
import Sketchlog.Server.Merge
import Sketchlog.Refine.FromDictErrors
import Sketchlog.Properties.MergeDecoding
import Sketchlog.Lib.TumblingWindow
import Sketchlog.Python.DriftSketch
import Sketchlog.Refine.DriftSteps
import Sketchlog.Properties.DriftWindows
import Sketchlog.Agent.Agent
import Sketchlog.Refine.AgentReadings
import Sketchlog.Refine.AgentPosts
import Sketchlog.Refine.AgentSeries
import Sketchlog.Properties.CounterDeltas
import Sketchlog.Properties.CounterRounding
import Sketchlog.Properties.HashPipelines
import Sketchlog.Properties.GoQuantiles
import Sketchlog.Properties.BucketSearch
import Sketchlog.Properties.BucketAccuracy
import Sketchlog.Properties.Chunking
import Sketchlog.Properties.HistogramShape
import Sketchlog.Lib.Recency
import Sketchlog.Lib.StaleCopies
import Sketchlog.Server.Registry
import Sketchlog.Refine.RegistrySteps
import Sketchlog.Server.Host
import Sketchlog.Properties.RegistryLimits
import Sketchlog.Properties.WriteBack
import Sketchlog.Refine.FacadeDocuments
import Sketchlog.Properties.Transport
import Sketchlog.Mesh.Interleaving
import Sketchlog.Properties.GossipFreshness
import Sketchlog.Go.CountMinSketch
import Sketchlog.Properties.GoCounts
import Sketchlog.Lib.Interaction
import Sketchlog.Server.UploadLimit
import Sketchlog.Properties.UploadLimit
import Sketchlog.Server.Ingest
import Sketchlog.Properties.IngestBatches
import Sketchlog.Lib.Grouping
import Sketchlog.Sql.Engine
import Sketchlog.Properties.QueryGroups
import Sketchlog.Ebpf.Export
import Sketchlog.Properties.ExportAccounts
