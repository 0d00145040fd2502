import Timebound.Optimizer
import Timebound.Program.Draft
import Timebound.Program.Listing
import Timebound.Script
import Timebound.Proofs.CallOrder
import Timebound.Proofs.CycleBound
import Timebound.Proofs.Semantics
import Timebound.Proofs.LocalNames
import Timebound.Proofs.Renaming
import Timebound.Proofs.Unrolling
import Timebound.Proofs.EffectWork
import Timebound.Proofs.EffectRewrites
import Timebound.Proofs.CallExpansion
import Timebound.Proofs.GuidedEffects
import Timebound.Proofs.GuidedBudget
import Timebound.Proofs.CertificateMeaning
import Timebound.Proofs.CycleGrowth
import Timebound.Proofs.FoldingMeaning
import Timebound.Proofs.FreshNames
import Timebound.Proofs.Reachability
import Timebound.Proofs.Journal
import Timebound.Proofs.LivePart
import Timebound.Proofs.DeadRemoval
import Timebound.Proofs.LiveCertificate
import Timebound.Proofs.ConsistentPasses
import Timebound.Proofs.Turns
import Timebound.Proofs.EntryTotals
import Timebound.Proofs.FoldingSize
import Timebound.Proofs.PassReports
import Timebound.Proofs.FreshAnalysis
import Timebound.Proofs.RunStatistics
import Timebound.Proofs.SettledRuns
import Timebound.Proofs.RewriteWeight
import Timebound.Proofs.LoadDisorder
import Timebound.Proofs.Backlog
import Timebound.Proofs.Convergence
import Timebound.Proofs.MachineArithmetic
import Timebound.Proofs.RegisterArithmetic
import Timebound.Proofs.CycleSavings
import Timebound.Proofs.RewriteCycles
import Timebound.Proofs.GroupedCycles
import Timebound.Proofs.SufficientBounds
import Timebound.Proofs.GuidedCycles
import Timebound.Proofs.CallDepth
import Timebound.Proofs.RenamedRuns
import Timebound.Proofs.SplicedRuns
import Timebound.Proofs.ExpandedRuns
import Timebound.Proofs.FoldingFixpoint
import Timebound.Proofs.GrowthPercent
import Timebound.Proofs.FoldingCycles
import Timebound.Proofs.FoldingAnalysis
import Timebound.Proofs.ExactCycles
import Timebound.Proofs.CallStack
import Timebound.Proofs.Analyzability
import Timebound.Proofs.GroupedRuns
import Timebound.Proofs.GroupingStability
import Timebound.Proofs.CallFrequencies
import Timebound.Proofs.ReorderedBranches
import Timebound.Proofs.GreedyPaths
import Timebound.Proofs.NameHistories
import Timebound.Proofs.UnlimitedTraces
