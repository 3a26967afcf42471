import HornSearch.Term
import HornSearch.Clause
import HornSearch.Bindings
import HornSearch.Unify
import HornSearch.Renaming
import HornSearch.Search
import HornSearch.Database
import HornSearch.Trace
import HornSearch.Source.Token
import HornSearch.Source.Location
import HornSearch.Source.Parser
import HornSearch.Graph.Basic
import HornSearch.Graph.Closure
import HornSearch.Graph.Reachability
import HornSearch.Json.Quoted
import HornSearch.Json.Basic
import HornSearch.Json.Reader
import HornSearch.Json.Term
import HornSearch.Json.Graph
import HornSearch.Session
import HornSearch.CommandLine
import HornSearch.Main
import HornSearch.Proofs.Following
import HornSearch.Proofs.Unification
import HornSearch.Proofs.Renaming
import HornSearch.Proofs.Stepping
import HornSearch.Proofs.Enumeration
import HornSearch.Proofs.Extension
import HornSearch.Proofs.Soundness
import HornSearch.Proofs.Completeness
import HornSearch.Proofs.Correspondence
import HornSearch.Proofs.AliasClasses
import HornSearch.Proofs.Lockstep
import HornSearch.Proofs.Interleaving
import HornSearch.Proofs.QueryNames
import HornSearch.Proofs.Supply
import HornSearch.Proofs.DeepResolution
import HornSearch.Proofs.Equations
import HornSearch.Proofs.Reading
import HornSearch.Proofs.Grammar
import HornSearch.Proofs.Tokens
import HornSearch.Proofs.Parsing
import HornSearch.Proofs.Printing
import HornSearch.Proofs.TextAnswers
import HornSearch.Proofs.OccursCheck
import HornSearch.Proofs.Symmetry
import HornSearch.Proofs.FirstClash
import HornSearch.Proofs.Idempotence
import HornSearch.Proofs.SignatureCheck
import HornSearch.Proofs.Spelling
import HornSearch.Proofs.Output
import HornSearch.Proofs.QuotedText
import HornSearch.Proofs.JsonText
import HornSearch.Proofs.JsonRoundTrip
import HornSearch.Proofs.QueryAliases
import HornSearch.Proofs.ClauseForms
import HornSearch.Proofs.Relevance
import HornSearch.Proofs.Termination
import HornSearch.Proofs.Join
import HornSearch.Proofs.Monotonicity
import HornSearch.Proofs.DepthFirst
import HornSearch.Proofs.SyntaxErrors
import HornSearch.Proofs.Paths
import HornSearch.Proofs.Reachability
import HornSearch.Proofs.PathAnswers
import HornSearch.Proofs.PathSearch
import HornSearch.Proofs.EdgeSet
import HornSearch.Proofs.StoredClauses
import HornSearch.Proofs.TokensOnly
import HornSearch.Proofs.Comments
import HornSearch.Proofs.Solvability
import HornSearch.Proofs.AppendProgram
import HornSearch.Proofs.AppendSearch
