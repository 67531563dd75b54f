import Rulebook.Text.Visible
import Rulebook.Text.Blank
import Rulebook.Text.Digit
import Rulebook.Text.Quoted
import Rulebook.Text.Pieces
import Rulebook.Text.LineBreaks
import Rulebook.Table
import Rulebook.Term
import Rulebook.Naming
import Rulebook.Fault
import Rulebook.Substitution
import Rulebook.Goal
import Rulebook.Database
import Rulebook.Database.Cycle
import Rulebook.Database.Layers
import Rulebook.Search
import Rulebook.Search.Harvest
import Rulebook.Search.Weight
import Rulebook.Search.Ending
import Rulebook.Action
import Rulebook.Phrase
import Rulebook.Line
import Rulebook.Outline
import Rulebook.Machine.Basic
import Rulebook.Machine.Query
import Rulebook.Machine.Claim
import Rulebook.Machine.Load
import Rulebook.Machine.Perform
import Rulebook.Report
import Rulebook.Graph
import Rulebook.Samples
import Rulebook.Session
import Rulebook.Workbench
import Rulebook.FileTree
import Rulebook.CommandLine.Options
import Rulebook.CommandLine
import Rulebook.Main
import Rulebook.Proofs.Text
import Rulebook.Proofs.Table
import Rulebook.Proofs.Phrase
import Rulebook.Proofs.Outline.Indentation
import Rulebook.Proofs.Outline.Printing
import Rulebook.Proofs.Valuation
import Rulebook.Proofs.Unification
import Rulebook.Proofs.Flattening
import Rulebook.Proofs.Naming
import Rulebook.Proofs.Dependency
import Rulebook.Proofs.Database
import Rulebook.Proofs.Derivation
import Rulebook.Proofs.Search.Run
import Rulebook.Proofs.Search.Bound
import Rulebook.Proofs.Search.Invariant
import Rulebook.Proofs.Search.Meaning
import Rulebook.Proofs.Search.Completeness
import Rulebook.Proofs.Machine.Operation
import Rulebook.Proofs.Machine.Change
import Rulebook.Proofs.Machine.Loading
import Rulebook.Proofs.Machine.Evolution
import Rulebook.Proofs.Machine.Reachable
import Rulebook.Proofs.Machine.Termination
import Rulebook.Proofs.Exclusion.Retraction
import Rulebook.Proofs.Exclusion.Group
import Rulebook.Proofs.Program.Meaning
import Rulebook.Proofs.Program.Contents
import Rulebook.Proofs.Program.Truth
import Rulebook.Proofs.Extension
import Rulebook.Proofs.Search.Extension
import Rulebook.Proofs.Search.Equations
import Rulebook.Proofs.Skeleton
import Rulebook.Proofs.Search.Solving
import Rulebook.Proofs.Cycle
import Rulebook.Proofs.Search.Enumeration
import Rulebook.Proofs.Program.Recursion
import Rulebook.Proofs.Machine.Running
import Rulebook.Proofs.Search.Growth
import Rulebook.Proofs.Program.Interleaving
import Rulebook.Proofs.Search.Choice
import Rulebook.Proofs.Program.Payloads
import Rulebook.Proofs.Program.Firing
import Rulebook.Proofs.Renaming.Names
import Rulebook.Proofs.Renaming.Unification
import Rulebook.Proofs.Renaming.Search
import Rulebook.Proofs.Renaming.Simulation
import Rulebook.Proofs.Renaming.Choice
import Rulebook.Proofs.Renaming.Machine
import Rulebook.Proofs.Renaming.Operation
import Rulebook.Proofs.Renaming.Claim
import Rulebook.Proofs.Renaming.Loading
import Rulebook.Proofs.Renaming.Performing
import Rulebook.Proofs.Renaming.Session
import Rulebook.Proofs.Program.Nesting
import Rulebook.Proofs.Exclusion.Refusal
import Rulebook.Proofs.Search.Instances
import Rulebook.Proofs.Program.Placeholders
import Rulebook.Proofs.Program.Standing
import Rulebook.Proofs.Program.OpenFacts
import Rulebook.Proofs.Program.Integrity
import Rulebook.Proofs.Program.Faults
import Rulebook.Proofs.Exclusion.Pattern
import Rulebook.Proofs.Variant
import Rulebook.Proofs.Exclusion.Variant
import Rulebook.Proofs.Exclusion.Renaming
import Rulebook.Proofs.Program.Dispatching
import Rulebook.Proofs.Program.Registration
import Rulebook.Proofs.Program.Requests
import Rulebook.Proofs.Program.Strictness
import Rulebook.Proofs.Program.Chronicle
import Rulebook.Proofs.CommandLine
import Rulebook.Proofs.Generality
import Rulebook.Proofs.Search.Conjunction
import Rulebook.Proofs.Search.Disjunction
import Rulebook.Proofs.Search.Pairwise
import Rulebook.Proofs.Guard
import Rulebook.Proofs.Outline.LineEnds
import Rulebook.Proofs.Literals
import Rulebook.Proofs.Program.Shapes
import Rulebook.Proofs.Search.Agreement
import Rulebook.Proofs.Program.Capture
import Rulebook.Proofs.Search.Pairing
import Rulebook.Proofs.Search.Salting
import Rulebook.Proofs.Search.Turns
import Rulebook.Proofs.Program.Alternatives
import Rulebook.Proofs.Program.Resolution
import Rulebook.Proofs.Minting
import Rulebook.Proofs.Dot
import Rulebook.Proofs.Graph
