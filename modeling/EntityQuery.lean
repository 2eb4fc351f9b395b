import EntityQuery.Catalog.Document
import EntityQuery.Evaluation.Evaluate
import EntityQuery.Expansion.Expand
import EntityQuery.Expr.Document
import EntityQuery.Json.Printer
import EntityQuery.Json.Reader
import EntityQuery.Proofs.Absence
import EntityQuery.Proofs.Binders
import EntityQuery.Proofs.Bounds
import EntityQuery.Proofs.Closedness
import EntityQuery.Proofs.Definitions
import EntityQuery.Proofs.DepthLimit
import EntityQuery.Proofs.Documents
import EntityQuery.Proofs.Driver
import EntityQuery.Proofs.Faultless
import EntityQuery.Proofs.GuardedQueries
import EntityQuery.Proofs.Guards
import EntityQuery.Proofs.Idempotence
import EntityQuery.Proofs.Identity
import EntityQuery.Proofs.KeyFilters
import EntityQuery.Proofs.LegalChains
import EntityQuery.Proofs.Merges
import EntityQuery.Proofs.Minimality
import EntityQuery.Proofs.NeededJoins
import EntityQuery.Proofs.Nesting
import EntityQuery.Proofs.NotedQueries
import EntityQuery.Proofs.OpenReferences
import EntityQuery.Proofs.Optionality
import EntityQuery.Proofs.Places
import EntityQuery.Proofs.RepeatedNames
import EntityQuery.Proofs.Stages
import EntityQuery.Proofs.Termination
import EntityQuery.Settings.Document
import EntityQuery.Settings.Environment
