import HolyRust.Library.ByteMemory
import HolyRust.Library.Fallible
import HolyRust.Capabilities.Registry
import HolyRust.Capabilities.Tokens
import HolyRust.Kernel.Memory
import HolyRust.Kernel.Enforcement
import HolyRust.Compiler.Lexer
import HolyRust.Kernel.Exec
import HolyRust.Compiler.Syntax
import HolyRust.Compiler.TokenStream
import HolyRust.Compiler.Evaluation
import HolyRust.Compiler.Native
import HolyRust.Compiler.Accesses
import HolyRust.Compiler.Agreement
import HolyRust.Compiler.Frames
import HolyRust.Compiler.Statements
import HolyRust.Compiler.Lines
import HolyRust.Compiler.Sessions
import HolyRust.Compiler.Rejection
import HolyRust.Compiler.Meaning
import HolyRust.Compiler.Values
import HolyRust.Compiler.PeekTerms
import HolyRust.Compiler.CompileReads
import HolyRust.Library.Runs
import HolyRust.Drivers.Repl
import HolyRust.Drivers.Effects
import HolyRust.System.Ownership
import HolyRust.System.RegistryFrame
import HolyRust.System.Audited
import HolyRust.System.Exclusion
import HolyRust.Compiler.Symbols
import HolyRust.Drivers.RxRing
import HolyRust.Compiler.Printing
import HolyRust.Compiler.Totality
import HolyRust.Compiler.Permanence
import HolyRust.Compiler.WholeLines
import HolyRust.Compiler.StaleCode
import HolyRust.Kernel.Boot
import HolyRust.Capabilities.Unlocking
import HolyRust.System.Grants
import HolyRust.Drivers.BitCommands
import HolyRust.Compiler.Arithmetic
import HolyRust.Compiler.Riscv32Code
import HolyRust.Compiler.Thumb2Code
import HolyRust.Drivers.LineEditor
import HolyRust.Compiler.Spelling
import HolyRust.Compiler.Bindings
import HolyRust.Compiler.BodyGrammar
import HolyRust.Drivers.ValueLines
import HolyRust.Capabilities.Regions
import HolyRust.Kernel.LinkMap
import HolyRust.Library.RecentRing
import HolyRust.Drivers.AuditReport
import HolyRust.Library.Rv32Formats
import HolyRust.Compiler.LoadStoreCode
import HolyRust.Library.Thumb2Alu
import HolyRust.Compiler.Multiplication
import HolyRust.Compiler.Division
import HolyRust.Compiler.Numerals
import HolyRust.Library.ClampedCounter
import HolyRust.Kernel.Unbounded
import HolyRust.Compiler.NativeGate
import HolyRust.Library.FetchExecute
import HolyRust.Library.Thumb2Machine
import HolyRust.Library.Rv32Machine
import HolyRust.Compiler.MachineCode
import HolyRust.Compiler.BufferCalls
import HolyRust.Compiler.Contract
import HolyRust.Compiler.NativeCode
import HolyRust.Compiler.NativeSessions
import HolyRust.System.Confinement
import HolyRust.Language.Statements
import HolyRust.Language.Parsing
import HolyRust.Language.World
import HolyRust.Language.Refinement
import HolyRust.Language.Acceptance
import HolyRust.Drivers.Output
import HolyRust.Drivers.ConsoleSession
import HolyRust.Drivers.Stops
import HolyRust.Library.PolledSender
import HolyRust.Drivers.Transmit
import HolyRust.Capabilities.Pins
import HolyRust.Kernel.Vectors
import HolyRust.Language.OnProcessor
