import FShell.Concepts.SimplifyAutomaton
import FShell.Evaluation.PathPatternLanguage
import FShell.Evaluation.CoverageLanguage
import FShell.Evaluation.GoalGroups
import FShell.Evaluation.GraphInvariance
import FShell.TcGeneration.ConstraintStrengthening
import FShell.Command.CommandProcessing
import FShell.Automata.Runs
import FShell.Command.SourceFiles
import FShell.Main.FShell2
import FShell.Main.AssertionCheck
import FShell.Main.Coherence
import FShell.Solvers.BvUtils
import FShell.TcGeneration.TestSuiteMinimization
import FShell.TcGeneration.MinimumCover
import FShell.TcGeneration.TestCaseIdentity
import FShell.Parser.Lexer
import FShell.Ast.FqlNode
import FShell.Parser.QueryParser
import FShell.Parser.ParserRuns
import FShell.Collections.RefCounted
import FShell.Ast.FqlNodeLtVisitor
import FShell.Instrumentation.NondetChoice
import FShell.Ast.FqlNodeFactory
import FShell.Automata.MaximalWalk
import FShell.Evaluation.BlockEntries
import FShell.Instrumentation.CfgPredecessors
import FShell.Automata.RecursiveCalls
import FShell.Evaluation.EnumerationReturns
import FShell.Evaluation.EnumerationPaths
import FShell.Evaluation.FilteredGraphs
import FShell.Evaluation.StoredAutomata
import FShell.Concepts.SimplifyShape
import FShell.Evaluation.PathAutomata
import FShell.Evaluation.SatisfiedGoals
import FShell.Parser.NumberTokens
import FShell.TcGeneration.GenerationTimers
import FShell.TcGeneration.TestSuiteOutput
import FShell.Evaluation.PrintTestGoals
import FShell.Evaluation.EdgeGuards
import FShell.Instrumentation.InsertBefore
import FShell.Instrumentation.GotoLtCompare
import FShell.Evaluation.PredicateInstrumentation
import FShell.Evaluation.SatisfiedRuns
import FShell.Parser.RoundTrip
