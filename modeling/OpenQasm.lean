import OpenQasm.InPlace
import OpenQasm.Binary64
import OpenQasm.Decimal
import OpenQasm.PiMultiple
import OpenQasm.Circuit.Bit
import OpenQasm.Circuit.StandardGate
import OpenQasm.Circuit.Basic
import OpenQasm.Circuit.Error
import OpenQasm.Circuit.Construction
import OpenQasm.Program.Basic
import OpenQasm.Program.Text
import OpenQasm.Export.Error
import OpenQasm.Export.Scope
import OpenQasm.Export.Catalog
import OpenQasm.Export.Lowering
import OpenQasm.Export.Session
import OpenQasm.Proofs.Nesting
import OpenQasm.Showcase
import OpenQasm.Main
import OpenQasm.Proofs.Hoisting
import OpenQasm.Proofs.Building
import OpenQasm.Proofs.DefinitionNames
import OpenQasm.Proofs.Provenance
import OpenQasm.Proofs.Resolution
import OpenQasm.Proofs.Expansion
import OpenQasm.Proofs.Inlining
import OpenQasm.Proofs.ScopeRuns
import OpenQasm.Proofs.Registration
import OpenQasm.Proofs.LoweringInjectivity
import OpenQasm.Proofs.Appending
import OpenQasm.Proofs.FlatIndexing
import OpenQasm.Proofs.ConditionTargets
import OpenQasm.Proofs.Rebuilding
import OpenQasm.Proofs.Renumbering
import OpenQasm.Proofs.Reconstruction
import OpenQasm.Proofs.Acceptance
import OpenQasm.Proofs.Separators
import OpenQasm.Proofs.Rounding
import OpenQasm.Proofs.PiFolding
import OpenQasm.Proofs.LowestTerms
import OpenQasm.Proofs.NearestEven
import OpenQasm.Proofs.ShortestDecimal
import OpenQasm.Proofs.ReadingBack
import OpenQasm.Proofs.Unambiguity
import OpenQasm.Proofs.Scoping
import OpenQasm.Proofs.NameClashes
import OpenQasm.Proofs.CircuitRuns
import OpenQasm.Proofs.InternalFailures
import OpenQasm.Proofs.Unitarity
import OpenQasm.Proofs.OptionEffects
import OpenQasm.Proofs.FaultSites
