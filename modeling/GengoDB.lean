import GengoDB.Dll
import GengoDB.Pool
import GengoDB.Graph
import GengoDB.GraphFacts
import GengoDB.PropertyGraph
import GengoDB.PropertyGraphFacts
import GengoDB.EdgeScan
import GengoDB.Endpoint
import GengoDB.Binary
import GengoDB.BindingJoin
import GengoDB.Variant
import GengoDB.VariantOrder
import GengoDB.VariantCompare
import GengoDB.VariantHash
import GengoDB.Codec
import GengoDB.Datatypes
import GengoDB.PropertyData
import GengoDB.GraphFile
import GengoDB.GraphFileFacts
import GengoDB.GraphStorage
import GengoDB.Identifiers
import GengoDB.RdfGraph
import GengoDB.RdfStore
import GengoDB.RdfGraphFacts
import GengoDB.RdfLoad
import GengoDB.RdfReload
import GengoDB.GraphNodeIndex
import GengoDB.RdfFreshness
import GengoDB.VariantPayload
import GengoDB.VariantErasure
import GengoDB.VariantTyping
import GengoDB.ResolveNode
import GengoDB.TripleEmitter
import GengoDB.TripleEmitterFacts
import GengoDB.TripleAnchors
import GengoDB.LoadFailure
import GengoDB.FuzzyTurtle
import GengoDB.FuzzyLexer
import GengoDB.FuzzyGrammar
import GengoDB.FuzzyDocument
import GengoDB.SparqlTokenizer
import GengoDB.StatementCuts
import GengoDB.GraphAlias
import GengoDB.QueryParameters
import GengoDB.QueryParametersFacts
import GengoDB.JoinIdentities
import GengoDB.Restrictions
import GengoDB.RestrictionsFacts
import GengoDB.WorkStealing
import GengoDB.WorkStealingFacts
import GengoDB.WorkStealingRuns
import GengoDB.TableScan
import GengoDB.TableScanFacts
import GengoDB.Sorting
import GengoDB.SortingFacts
import GengoDB.ColumnHash
import GengoDB.ColumnHashFacts
import GengoDB.HashIndex
import GengoDB.HashIndexFacts
import GengoDB.HashIndexHistories
import GengoDB.HashIndexRuns
import GengoDB.StraightLine
import GengoDB.StringSearch
import GengoDB.IndexJoin
import GengoDB.IndexJoinFacts
import GengoDB.OuterJoins
import GengoDB.ImplicitJoins
import GengoDB.ImplicitJoinsFacts
import GengoDB.BasetablePushdown
import GengoDB.BasetablePushdownFacts
import GengoDB.TruthPayloads
import GengoDB.Serialization
import GengoDB.SerializationFacts
import GengoDB.TableStorage
import GengoDB.UnionPushdown
import GengoDB.PreAggregation
import GengoDB.FunctionalDependencies
import GengoDB.FunctionalDependenciesFacts
import GengoDB.TaskScheduler
import GengoDB.BoolOps
import GengoDB.VariantArith
import GengoDB.Dates
import GengoDB.Substring
import GengoDB.Decimals
import GengoDB.SimplifyAggregations
import GengoDB.SegmentTree
