import PascalAsm.Json.Fault
import PascalAsm.Main
import PascalAsm.Proofs.Generator.Unreached
import PascalAsm.Proofs.Generator.Steady
import PascalAsm.Proofs.Machine.Division
import PascalAsm.Syntax.Build
import PascalAsm.Syntax.Reread
import PascalAsm.Proofs.Simulation.Relation
import PascalAsm.Proofs.Simulation.Values
import PascalAsm.Proofs.Correctness.Expressions
import PascalAsm.Proofs.Generator.Jumps
import PascalAsm.Proofs.Simulation.Conditions
import PascalAsm.Proofs.Correctness.Conditions
import PascalAsm.Proofs.Generator.Routines
import PascalAsm.Proofs.Machine.Unit
import PascalAsm.Proofs.Meaning.Identifiers
import PascalAsm.Proofs.Meaning.Coercions
import PascalAsm.Proofs.Simulation.Statements
import PascalAsm.Proofs.Correctness.Programs
import PascalAsm.Proofs.Acceptance.Basic
import PascalAsm.Proofs.Acceptance.Values
import PascalAsm.Proofs.Acceptance.Statements
import PascalAsm.Proofs.Acceptance.Programs
import PascalAsm.Proofs.Acceptance.Capacity
import PascalAsm.Proofs.Generator.Targets
import PascalAsm.Proofs.Units.Sequence
import PascalAsm.Proofs.Units.Labels
import PascalAsm.Proofs.Generator.Phrases
import PascalAsm.Proofs.Machine.Stack
import PascalAsm.Proofs.Machine.Walk
import PascalAsm.Proofs.Units.Frames
import PascalAsm.Proofs.Generator.Erasure
import PascalAsm.Proofs.Units.Comments
import PascalAsm.Proofs.Failures.Basic
import PascalAsm.Proofs.Failures.Values
import PascalAsm.Proofs.Failures.Statements
import PascalAsm.Proofs.Failures.Programs
import PascalAsm.Proofs.Failures.Lookup
import PascalAsm.Proofs.Lockstep.Basic
import PascalAsm.Proofs.Lockstep.Values
import PascalAsm.Proofs.Lockstep.Routines
import PascalAsm.Proofs.Units.Independence
import PascalAsm.Proofs.Units.Text
import PascalAsm.Proofs.Units.Wording
import PascalAsm.Proofs.Units.Symbols
import PascalAsm.Proofs.Units.Operands
import PascalAsm.Proofs.Units.Clashes
import PascalAsm.Proofs.Allocation.Registers
import PascalAsm.Proofs.Allocation.Slots
import PascalAsm.Proofs.Allocation.Regions
import PascalAsm.Proofs.RoundTrip.Programs
import PascalAsm.Proofs.Failures.Recovery
import PascalAsm.Proofs.Failures.Scopes
import PascalAsm.Proofs.Correctness.Statements
import PascalAsm.Proofs.Units.Unambiguous
import PascalAsm.Proofs.Allocation.Statements
import PascalAsm.Proofs.Generator.Writes
import PascalAsm.Proofs.Allocation.Footprints
import PascalAsm.Proofs.Allocation.Staging
import PascalAsm.Proofs.Units.Warnings
import PascalAsm.Proofs.Units.Calls
import PascalAsm.Proofs.Units.Integers
import PascalAsm.Proofs.CommandLine.Runs
import PascalAsm.Proofs.CommandLine.Atomicity
