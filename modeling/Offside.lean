import Offside.Main
import Offside.Proofs.MatchingSupplies
import Offside.Proofs.Reader
import Offside.Proofs.SourceLine
import Offside.Proofs.Yields
import Offside.Proofs.Numerals
import Offside.Proofs.LineContents
import Offside.Proofs.LineByLine
import Offside.Proofs.LineListing
import Offside.Proofs.Stream
import Offside.Proofs.Rules
import Offside.Proofs.Grammar
import Offside.Proofs.ExpressionComplete
import Offside.Proofs.ExpressionSound
import Offside.Proofs.Expressions
import Offside.Proofs.ProgramGrammar
import Offside.Proofs.SourceTokens
import Offside.Proofs.StatementComplete
import Offside.Proofs.StatementSound
import Offside.Proofs.Programs
import Offside.Proofs.Calls
import Offside.Proofs.Parts
import Offside.Proofs.Starts
import Offside.Proofs.ProgramShape
import Offside.Proofs.Returns
import Offside.Proofs.Simulation
import Offside.Proofs.SimulatedRuns
import Offside.Proofs.Invariants
import Offside.Proofs.Frames
import Offside.Proofs.Depth
import Offside.Proofs.Printing
import Offside.Proofs.ReturnModes
import Offside.Proofs.JoinedTokens
import Offside.Proofs.Scopes
import Offside.Proofs.KnownClasses
import Offside.Proofs.KnownStates
import Offside.Proofs.MovedPrograms
import Offside.Proofs.JoinedSources
import Offside.Proofs.MatchingRules
import Offside.Proofs.ListedPrograms
import Offside.Proofs.Passages
import Offside.Proofs.ScanSteps
import Offside.Proofs.Balance
import Offside.Proofs.Progress
import Offside.Proofs.Spellings
import Offside.Proofs.Layouts
import Offside.Proofs.ClassMentions
import Offside.Proofs.AddedMentions
import Offside.Proofs.ClassOrder
import Offside.Proofs.Growth
import Offside.Proofs.Hosts
import Offside.Proofs.PrintedReturns
import Offside.Proofs.OrderlyTrees
import Offside.Proofs.NamesRead
import Offside.Proofs.DottedPaths
import Offside.Proofs.MethodEntry
import Offside.Proofs.Dispatch
import Offside.Proofs.ErrorLines
import Offside.Proofs.LongNumerals
import Offside.Proofs.Endings
import Offside.Proofs.Assignments
import Offside.Proofs.Comparisons
import Offside.Proofs.Construction
import Offside.Proofs.Literals
import Offside.Proofs.Division
import Offside.Proofs.Conditions
import Offside.Proofs.ClassDefinitions
import Offside.Proofs.SameSources
import Offside.Proofs.IndentationLog
import Offside.Proofs.Invocations
import Offside.Proofs.Commands
import Offside.Proofs.Cursor
import Offside.Proofs.TokenTrails
import Offside.Proofs.RuleProgress
import Offside.Proofs.SpelledPaths
import Offside.Proofs.ParsingProgress
import Offside.Proofs.Heights
import Offside.Proofs.Confinement
import Offside.Proofs.ConfinedRuns
import Offside.Proofs.WrittenNumbers
import Offside.Proofs.EndlessRuns
