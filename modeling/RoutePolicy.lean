import RoutePolicy.Main
import RoutePolicy.Proofs.Dispatch
import RoutePolicy.Proofs.Segmentation
import RoutePolicy.Proofs.Captured
import RoutePolicy.Proofs.Draft
import RoutePolicy.Proofs.IntegerLeaf
import RoutePolicy.Proofs.ClauseText
import RoutePolicy.Proofs.ConditionCount
import RoutePolicy.Proofs.HeaderLine
import RoutePolicy.Proofs.PolicyBlock
import RoutePolicy.Proofs.RunningConfig
import RoutePolicy.Proofs.StoreRun
import RoutePolicy.Proofs.StrayBranch
import RoutePolicy.Proofs.Row
import RoutePolicy.Proofs.Layout
import RoutePolicy.Proofs.Composition
import RoutePolicy.Proofs.Alignment
import RoutePolicy.Proofs.ErrorMessage
import RoutePolicy.Proofs.Warnings
import RoutePolicy.Proofs.CommandFailure
import RoutePolicy.Proofs.InertLine
import RoutePolicy.Proofs.ConditionGrammar
import RoutePolicy.Proofs.ClauseLayout
import RoutePolicy.Proofs.ClosedReading
import RoutePolicy.Proofs.ClosingConnective
import RoutePolicy.Proofs.Merging
import RoutePolicy.Proofs.LastWrite
import RoutePolicy.Proofs.Resolution
import RoutePolicy.Proofs.Accounting
import RoutePolicy.Proofs.NormalForm
import RoutePolicy.Proofs.FirstFault
import RoutePolicy.Proofs.SpelledInteger
import RoutePolicy.Proofs.RuleOrder
import RoutePolicy.Proofs.Lossless
import RoutePolicy.Proofs.FlagWords
import RoutePolicy.Proofs.BoundaryLine
import RoutePolicy.Proofs.HeaderScan
import RoutePolicy.Proofs.BodySelection
import RoutePolicy.Proofs.FetchOrder
import RoutePolicy.Proofs.ShowCommand
import RoutePolicy.Proofs.EmptyBlock
import RoutePolicy.Proofs.ClauseLetters
import RoutePolicy.Proofs.Pruning
