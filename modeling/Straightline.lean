import Straightline.Assembly
import Straightline.AttributeStack
import Straightline.Automaton
import Straightline.CommandLine.Arguments
import Straightline.CommandLine.Commands
import Straightline.CommandLine.Directory
import Straightline.Compilation
import Straightline.Compilation.Report
import Straightline.Decimal
import Straightline.Error
import Straightline.Grammar
import Straightline.Grammar.Lookahead
import Straightline.Instruction
import Straightline.Json
import Straightline.Json.Decode
import Straightline.Json.Printer
import Straightline.Json.Reader
import Straightline.Lexeme
import Straightline.Machine
import Straightline.Main
import Straightline.NormalForm
import Straightline.Observer.Emitter
import Straightline.Observer.Recorder
import Straightline.Observer.Subscriber
import Straightline.Observer.Trace
import Straightline.Observer.Typing
import Straightline.Options
import Straightline.ParseSymbol
import Straightline.Program
import Straightline.Proofs.Ambiguity
import Straightline.Proofs.Broadcast
import Straightline.Proofs.BuiltTables
import Straightline.Proofs.Correctness
import Straightline.Proofs.Decimals
import Straightline.Proofs.DeclaredTypes
import Straightline.Proofs.Derivation
import Straightline.Proofs.EmittedCode
import Straightline.Proofs.Generation
import Straightline.Proofs.Halting
import Straightline.Proofs.ItemAutomaton
import Straightline.Proofs.ItemSets
import Straightline.Proofs.JsonCodecs
import Straightline.Proofs.JsonText
import Straightline.Proofs.Language
import Straightline.Proofs.Lockstep
import Straightline.Proofs.Lookahead
import Straightline.Proofs.LookaheadSets
import Straightline.Proofs.NormalShape
import Straightline.Proofs.Normalization
import Straightline.Proofs.Outcomes
import Straightline.Proofs.ParseTrees
import Straightline.Proofs.Parsing
import Straightline.Proofs.Reference
import Straightline.Proofs.RegisterMachine
import Straightline.Proofs.RegisterPressure
import Straightline.Proofs.RegisterReuse
import Straightline.Proofs.Runs
import Straightline.Proofs.SeparateStacks
import Straightline.Proofs.TableRows
import Straightline.Proofs.SlrTables
import Straightline.Proofs.Stacks
import Straightline.Proofs.StoredTables
import Straightline.Proofs.TableStates
import Straightline.Proofs.Translation
import Straightline.Registers
import Straightline.Rule
import Straightline.Saturation
import Straightline.Scanner
import Straightline.Symbols
import Straightline.Table
import Straightline.Table.Entry
import Straightline.Table.Json
import Straightline.Table.Slr
import Straightline.Text.Graphic
import Straightline.Text.Lines
import Straightline.Text.Quoted
import Straightline.Text.Utf8
import Straightline.Token
import Straightline.Proofs.RegisterHistory
import Straightline.Proofs.MaximalMunch
import Straightline.Proofs.NormalAccounts
import Straightline.Proofs.SourceTokens
import Straightline.Proofs.Resumption
import Straightline.Proofs.Renaming
import Straightline.Proofs.FirstReturn
import Straightline.Proofs.LoadedTables
import Straightline.Proofs.RenamedRegisters
import Straightline.Proofs.Temporaries
import Straightline.Proofs.JoinedSources
import Straightline.Proofs.FixedPoints
import Straightline.Proofs.InstructionTexts
import Straightline.Proofs.SubsetConstruction
