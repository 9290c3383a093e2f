import BlockScript.Expression.Wrapping
import BlockScript.Program.Generation
import BlockScript.Proofs.Applications
import BlockScript.Proofs.AssignedGlobals
import BlockScript.Proofs.BlockRuns
import BlockScript.Proofs.BoundBeforeUse
import BlockScript.Proofs.BoundNames
import BlockScript.Proofs.Circularity
import BlockScript.Proofs.CommentLines
import BlockScript.Proofs.ConsistentKinds
import BlockScript.Proofs.CountingLoops
import BlockScript.Proofs.CountingTexts
import BlockScript.Proofs.Declarations
import BlockScript.Proofs.DeclaredTexts
import BlockScript.Proofs.Definitions
import BlockScript.Proofs.DepthFirst
import BlockScript.Proofs.DisabledBlocks
import BlockScript.Proofs.FilledSuites
import BlockScript.Proofs.FunctionRuns
import BlockScript.Proofs.InjectedLines
import BlockScript.Proofs.Instrumentation
import BlockScript.Proofs.Iteration
import BlockScript.Proofs.KindReads
import BlockScript.Proofs.KindSweep
import BlockScript.Proofs.LineEnds
import BlockScript.Proofs.Literals
import BlockScript.Proofs.MergedImports
import BlockScript.Proofs.NameRuns
import BlockScript.Proofs.NameUses
import BlockScript.Proofs.NestedLines
import BlockScript.Proofs.Phrases
import BlockScript.Proofs.PinConflicts
import BlockScript.Proofs.Placement
import BlockScript.Proofs.Precedence
import BlockScript.Proofs.ProcedureTexts
import BlockScript.Proofs.Resolution
import BlockScript.Proofs.Resources
import BlockScript.Proofs.Rounding
import BlockScript.Proofs.Runs
import BlockScript.Proofs.Shadowing
import BlockScript.Proofs.Spelling
import BlockScript.Proofs.SpokenPrograms
import BlockScript.Proofs.SpokenStatements
import BlockScript.Proofs.SpokenSuites
import BlockScript.Proofs.SpokenValues
import BlockScript.Proofs.Voices
import BlockScript.Proofs.WarningReplay
import BlockScript.Proofs.Weaving
import BlockScript.Proofs.WovenSessions
