import CallGraphs.Main
import CallGraphs.Proofs.Rules
import CallGraphs.Proofs.Steps
import CallGraphs.Proofs.Loop
import CallGraphs.Proofs.Termination
import CallGraphs.Proofs.Candidates
import CallGraphs.Proofs.Growth
import CallGraphs.Proofs.Bookkeeping
import CallGraphs.Proofs.Fixpoint
import CallGraphs.Proofs.Seeds
import CallGraphs.Proofs.Segments
import CallGraphs.Proofs.Narrowing
import CallGraphs.Proofs.ClassCalls
import CallGraphs.Proofs.Operations
import CallGraphs.Proofs.Breadth
import CallGraphs.Proofs.Building
import CallGraphs.Proofs.Rebinding
import CallGraphs.Proofs.Members
import CallGraphs.Proofs.Entries
import CallGraphs.Proofs.Reading
import CallGraphs.Proofs.FirstDefinitions
import CallGraphs.Proofs.Duplicates
import CallGraphs.Proofs.Merging
import CallGraphs.Proofs.Kinds
import CallGraphs.Proofs.Tidying
import CallGraphs.Proofs.Numbering
import CallGraphs.Proofs.Signatures
import CallGraphs.Proofs.Naming
import CallGraphs.Proofs.BaseChains
import CallGraphs.Proofs.Receivers
import CallGraphs.Proofs.Hiding
import CallGraphs.Proofs.Defaults
import CallGraphs.Proofs.Derivation
import CallGraphs.Proofs.Resolution
import CallGraphs.Proofs.Implementers
import CallGraphs.Proofs.Loading
import CallGraphs.Proofs.BaseNames
import CallGraphs.Proofs.EntryPoints
import CallGraphs.Proofs.Diagnostics
import CallGraphs.Proofs.Additions
import CallGraphs.Proofs.Labels
import CallGraphs.Proofs.Quoting
import CallGraphs.Proofs.Overriding
import CallGraphs.Proofs.Idempotence
import CallGraphs.Proofs.Matching
