import Packrat.Actions.Recipe
import Packrat.CommandLine.Directory
import Packrat.Grammar.Display
import Packrat.Main
import Packrat.Sample
import Packrat.Proofs.Meaning
import Packrat.Proofs.Simulation
import Packrat.Proofs.Failures
import Packrat.Proofs.Run
import Packrat.Proofs.Memory
import Packrat.Proofs.ErrorReport
import Packrat.Proofs.Building
import Packrat.Proofs.LeftRecursion
import Packrat.Proofs.Lowering
import Packrat.Proofs.Bypass
import Packrat.Proofs.Proxies
import Packrat.Proofs.Holders
import Packrat.Proofs.Liveness
import Packrat.Proofs.Faithful
import Packrat.Proofs.Lockstep
import Packrat.Proofs.Adequacy
import Packrat.Proofs.LineTracking
import Packrat.Proofs.Execution
import Packrat.Proofs.Agreement
import Packrat.Proofs.Emission
import Packrat.Proofs.Fitting
import Packrat.Proofs.Implementation
import Packrat.Proofs.Compilation
import Packrat.Proofs.CodeSites
import Packrat.Proofs.Tenure
import Packrat.Proofs.Contract
import Packrat.Proofs.Lossless
import Packrat.Proofs.Termination
import Packrat.Proofs.Derivation
import Packrat.Proofs.Metagrammar
import Packrat.Proofs.Recognition
import Packrat.Proofs.Lexicon
import Packrat.Proofs.Notes
import Packrat.Proofs.Conformance
import Packrat.Proofs.Backtracking
import Packrat.Proofs.FirstRules
import Packrat.Proofs.LeftmostChains
import Packrat.Proofs.Slices
import Packrat.Proofs.Sessions
import Packrat.Proofs.Acceptance
import Packrat.Proofs.Rendering
import Packrat.Proofs.Spelling
import Packrat.Proofs.Productions
import Packrat.Proofs.RoundTrip
import Packrat.Proofs.NormalForm
import Packrat.Proofs.ClassSpelling
import Packrat.Proofs.ClassReading
import Packrat.Proofs.ClassSource
import Packrat.Proofs.IgnoringCase
import Packrat.Proofs.LineEnds
import Packrat.Proofs.Unreported
import Packrat.Proofs.Frugality
import Packrat.Proofs.Literals
import Packrat.Proofs.Passage
import Packrat.Proofs.Extents
import Packrat.Proofs.Shape
import Packrat.Proofs.Tokens
import Packrat.Proofs.Echoes
import Packrat.Proofs.Locality
import Packrat.Proofs.Relocation
import Packrat.Proofs.Concatenation
import Packrat.Proofs.Requests
import Packrat.Proofs.SiteLabels
import Packrat.Proofs.Naming
import Packrat.Proofs.Quotation
import Packrat.Proofs.Numbering
import Packrat.Proofs.Balance
