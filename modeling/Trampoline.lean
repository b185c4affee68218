import Trampoline.Arena
import Trampoline.Main
import Trampoline.Proofs.Evaluation.Growth
import Trampoline.Proofs.Evaluation.Chain
import Trampoline.Proofs.Evaluation.Equations
import Trampoline.Proofs.Simulation.Relation
import Trampoline.Proofs.Simulation.World
import Trampoline.Proofs.Simulation.Agreement
import Trampoline.Proofs.Simulation.Rules
import Trampoline.Proofs.Simulation.Natives
import Trampoline.Proofs.Simulation.Parameters
import Trampoline.Proofs.Simulation.Expressions
import Trampoline.Proofs.Simulation.Tails
import Trampoline.Proofs.Simulation.Applications
import Trampoline.Proofs.Evaluation.Runs
import Trampoline.Proofs.Simulation.Programs
import Trampoline.Proofs.Rewriting.Wrappers
import Trampoline.Proofs.Syntax.Nodes
import Trampoline.Proofs.Rewriting.Tails
import Trampoline.Proofs.Rewriting.Functions
import Trampoline.Proofs.Rewriting.Direct
import Trampoline.Proofs.Meaning.Rewriting
import Trampoline.Proofs.Evaluation.Endings
import Trampoline.Proofs.Rewriting.Handover
import Trampoline.Proofs.Meaning.Handover
import Trampoline.Proofs.Evaluation.Stacks
import Trampoline.Proofs.Escapes.Points
import Trampoline.Proofs.Escapes.Arrival
import Trampoline.Proofs.Escapes.Returns
import Trampoline.Proofs.Jumps.Linearity
import Trampoline.Proofs.Need.Reference
import Trampoline.Proofs.Need.Relation
import Trampoline.Proofs.Need.Following
import Trampoline.Proofs.Need.Machines
import Trampoline.Proofs.Need.Data
import Trampoline.Proofs.Need.Parameters
import Trampoline.Proofs.Need.Simulation
import Trampoline.Proofs.Need.Expressions
import Trampoline.Proofs.Need.Steps
import Trampoline.Proofs.Need.Calls
import Trampoline.Proofs.Need.Forcing
import Trampoline.Proofs.Need.Toplevels
import Trampoline.Proofs.Meaning.Laziness
import Trampoline.Proofs.Evaluation.Effects
import Trampoline.Proofs.Evaluation.Changes
import Trampoline.Proofs.Promises.States
import Trampoline.Proofs.Promises.Forces
import Trampoline.Proofs.Promises.Sessions
import Trampoline.Proofs.Extents.Guards
import Trampoline.Proofs.Extents.Failures
import Trampoline.Proofs.Extents.Decay
import Trampoline.Proofs.Extents.Lifetimes
import Trampoline.Proofs.Evaluation.Disciplines
import Trampoline.Proofs.Promises.Plain
import Trampoline.Proofs.Promises.Promptness
import Trampoline.Proofs.Promises.Bodies
import Trampoline.Proofs.Promises.Tasks
import Trampoline.Proofs.Rewriting.Origins
import Trampoline.Proofs.Promises.Strictness
import Trampoline.Proofs.Promises.Data
import Trampoline.Proofs.Spelling.Basic
import Trampoline.Proofs.Spelling.Tokens
import Trampoline.Proofs.Spelling.Forms
import Trampoline.Proofs.Spelling.Names
import Trampoline.Proofs.Spelling.Expressions
import Trampoline.Proofs.Spelling.Reread
import Trampoline.Proofs.Spelling.Programs
import Trampoline.Proofs.Spelling.Data
import Trampoline.Proofs.Meaning.Rebuilding
import Trampoline.Proofs.Evaluation.Successions
import Trampoline.Proofs.Lists.Contents
import Trampoline.Proofs.Lists.Updates
import Trampoline.Proofs.Lists.Clearance
import Trampoline.Proofs.Memo.Keys
import Trampoline.Proofs.Memo.Bindings
import Trampoline.Proofs.Memo.Answers
import Trampoline.Proofs.Spelling.Contents
import Trampoline.Proofs.Layout.Documents
import Trampoline.Proofs.Layout.Expressions
import Trampoline.Proofs.Rewriting.Materials
import Trampoline.Proofs.Syntax.Places
import Trampoline.Proofs.Syntax.Forest
import Trampoline.Proofs.Layout.Programs
import Trampoline.Proofs.Syntax.Owners
import Trampoline.Proofs.Promises.Trampolines
import Trampoline.Proofs.Rewriting.Decorators
import Trampoline.Proofs.Rewriting.Undeferred
import Trampoline.Proofs.Rewriting.Loans
import Trampoline.Proofs.Escapes.Extents
import Trampoline.Proofs.Continuations.Arity
import Trampoline.Proofs.Continuations.Delivery
import Trampoline.Proofs.Continuations.Resumption
import Trampoline.Proofs.Positions.Paths
import Trampoline.Proofs.Positions.Reports
import Trampoline.Proofs.Positions.Visits
import Trampoline.Proofs.Positions.Courses
import Trampoline.Proofs.Positions.Sources
import Trampoline.Proofs.Positions.Programs
import Trampoline.Proofs.Positions.Cells
import Trampoline.Proofs.Positions.Scopes
import Trampoline.Proofs.Rewriting.Placement
import Trampoline.Proofs.Meaning.Captures
import Trampoline.Proofs.Transport.Values
import Trampoline.Proofs.Transport.Machines
import Trampoline.Proofs.Transport.Shown
import Trampoline.Proofs.Transport.Plans
import Trampoline.Proofs.Transport.Steps
import Trampoline.Proofs.Transport.Scopes
import Trampoline.Proofs.Transport.Tasks
import Trampoline.Proofs.Transport.Programs
import Trampoline.Proofs.Transport.Diagonal
import Trampoline.Proofs.Transport.Histories
import Trampoline.Proofs.Jumps.Calls
import Trampoline.Proofs.Continuations.Shots
import Trampoline.Proofs.Lexing.Cover
import Trampoline.Proofs.Reading.Decision
import Trampoline.Proofs.Syntax.Lines
import Trampoline.Proofs.Loops.Basic
import Trampoline.Proofs.Transport.Alone
import Trampoline.Proofs.Meaning.Loops
import Trampoline.Proofs.Rewriting.Unlooping
import Trampoline.Proofs.Decorators.Configurations
import Trampoline.Proofs.Positions.Bindings
import Trampoline.Proofs.Continuations.Reach
import Trampoline.Proofs.Evaluation.Integers
import Trampoline.Proofs.Syntax.Faults
