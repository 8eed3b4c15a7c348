import LexicalScope.Command.LogLayout
import LexicalScope.Command.Run
import LexicalScope.Main
import LexicalScope.Proofs.Ancestry
import LexicalScope.Proofs.Arguments
import LexicalScope.Proofs.Attribution
import LexicalScope.Proofs.Decoration
import LexicalScope.Proofs.Descent
import LexicalScope.Proofs.DirectReport
import LexicalScope.Proofs.Enumeration
import LexicalScope.Proofs.Expansion
import LexicalScope.Proofs.Faults
import LexicalScope.Proofs.Grammar
import LexicalScope.Proofs.Indentation
import LexicalScope.Proofs.Invariants
import LexicalScope.Proofs.KindPartition
import LexicalScope.Proofs.Lines
import LexicalScope.Proofs.Lossless
import LexicalScope.Proofs.Nesting
import LexicalScope.Proofs.Noninterference
import LexicalScope.Proofs.Resolution
import LexicalScope.Proofs.RoundTrip
import LexicalScope.Proofs.ScopeNames
import LexicalScope.Proofs.Stability
import LexicalScope.Proofs.Surroundings
import LexicalScope.Proofs.Transparency
import LexicalScope.Proofs.TreeListing
import LexicalScope.Proofs.Turns
import LexicalScope.Proofs.Words
