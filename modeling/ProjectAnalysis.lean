import ProjectAnalysis.BuiltinSymbols
import ProjectAnalysis.Completion
import ProjectAnalysis.CompletionTrigger
import ProjectAnalysis.Diagnostic
import ProjectAnalysis.DocumentHost
import ProjectAnalysis.DocumentWalk
import ProjectAnalysis.ExprCondition
import ProjectAnalysis.ExprFault
import ProjectAnalysis.ExprLexeme
import ProjectAnalysis.ExprListing
import ProjectAnalysis.ExprParse
import ProjectAnalysis.ExprReference
import ProjectAnalysis.ExprToken
import ProjectAnalysis.ExprTokenizer
import ProjectAnalysis.ExprTree
import ProjectAnalysis.FileAccess
import ProjectAnalysis.FilePath
import ProjectAnalysis.FileStore
import ProjectAnalysis.FileSymbols
import ProjectAnalysis.Generation
import ProjectAnalysis.GenerationView
import ProjectAnalysis.ImportSite
import ProjectAnalysis.ImportValue
import ProjectAnalysis.ImportWalk
import ProjectAnalysis.Installation
import ProjectAnalysis.NameKey
import ProjectAnalysis.OrderedTable
import ProjectAnalysis.Proofs.AccessRun
import ProjectAnalysis.Proofs.AccessValue
import ProjectAnalysis.Proofs.CancelledResolution
import ProjectAnalysis.Proofs.FileInterference
import ProjectAnalysis.Proofs.FilePathNormal
import ProjectAnalysis.Proofs.HostSafety
import ProjectAnalysis.Proofs.HostWorld
import ProjectAnalysis.Proofs.ImportPreorder
import ProjectAnalysis.Proofs.ImportReuse
import ProjectAnalysis.Proofs.ImportWalkPlain
import ProjectAnalysis.Proofs.ImportWalkValue
import ProjectAnalysis.Proofs.IncrementalResolution
import ProjectAnalysis.Proofs.OrderedTableLookup
import ProjectAnalysis.Proofs.ResolutionRun
import ProjectAnalysis.Resolver
import ProjectAnalysis.SchemaElement
import ProjectAnalysis.SchemaKind
import ProjectAnalysis.SymbolInfo
import ProjectAnalysis.SymbolMention
import ProjectAnalysis.SymbolTable
import ProjectAnalysis.SymbolUnion
import ProjectAnalysis.TextCase
import ProjectAnalysis.TextCaseTable
import ProjectAnalysis.TextChar
import ProjectAnalysis.TextCursor
import ProjectAnalysis.TextLines
import ProjectAnalysis.TextReader
import ProjectAnalysis.TextSpan
import ProjectAnalysis.ToolsVersion
import ProjectAnalysis.XmlDocument
import ProjectAnalysis.XmlEntity
import ProjectAnalysis.XmlFault
import ProjectAnalysis.XmlMarkup
import ProjectAnalysis.XmlOffsetMap
import ProjectAnalysis.XmlTag
import ProjectAnalysis.XmlTree
import ProjectAnalysis.Proofs.ConcurrentLoads
import ProjectAnalysis.Proofs.CacheHits
import ProjectAnalysis.Proofs.SymbolTableMerge
import ProjectAnalysis.Proofs.SymbolMemory
import ProjectAnalysis.Proofs.SymbolEviction
import ProjectAnalysis.Proofs.GenerationOrigin
import ProjectAnalysis.Proofs.BrokenEdit
import ProjectAnalysis.Proofs.ReaderRun
import ProjectAnalysis.Proofs.TokenRun
import ProjectAnalysis.Proofs.ConditionGrammar
import ProjectAnalysis.Proofs.ConditionRun
import ProjectAnalysis.Proofs.ConditionSound
import ProjectAnalysis.Proofs.ConditionComplete
import ProjectAnalysis.Proofs.ConditionLanguage
import ProjectAnalysis.Proofs.CursorRun
import ProjectAnalysis.Proofs.TextGrammar
import ProjectAnalysis.Proofs.TextRun
import ProjectAnalysis.Proofs.TextSound
import ProjectAnalysis.Proofs.ConditionForm
import ProjectAnalysis.Proofs.TokenPlace
import ProjectAnalysis.Proofs.NodeLayout
import ProjectAnalysis.Proofs.NodeNumbering
import ProjectAnalysis.Proofs.ExpressionArena
import ProjectAnalysis.Proofs.ParenDepth
import ProjectAnalysis.Proofs.ReferenceAgreement
import ProjectAnalysis.Proofs.LooseParens
import ProjectAnalysis.Proofs.CapturedReference
import ProjectAnalysis.Proofs.PlainExpression
import ProjectAnalysis.Proofs.LexemeEnd
import ProjectAnalysis.Proofs.PlainReading
import ProjectAnalysis.Proofs.PlainReference
import ProjectAnalysis.Proofs.PlainRoundTrip
import ProjectAnalysis.Proofs.LosslessTree
import ProjectAnalysis.Proofs.QuotedTransform
import ProjectAnalysis.Proofs.ReaderGate
import ProjectAnalysis.Proofs.OptionGate
import ProjectAnalysis.Proofs.ReaderKeep
import ProjectAnalysis.Proofs.TextFault
import ProjectAnalysis.Proofs.ExpressionFault
import ProjectAnalysis.Proofs.TokenPartition
import ProjectAnalysis.Proofs.EntityReplacement
import ProjectAnalysis.Proofs.ValueSegment
import ProjectAnalysis.Proofs.TagReading
import ProjectAnalysis.Proofs.MarkupPiece
import ProjectAnalysis.Proofs.SourcePiece
import ProjectAnalysis.Proofs.TreeLayout
import ProjectAnalysis.Proofs.DraftRun
import ProjectAnalysis.Proofs.DraftFault
import ProjectAnalysis.Proofs.DocumentTree
import ProjectAnalysis.Proofs.DocumentValue
import ProjectAnalysis.Proofs.ReferenceText
import ProjectAnalysis.Proofs.ReferenceListing
import ProjectAnalysis.Proofs.ReferencePlace
import ProjectAnalysis.Proofs.SchemaWalk
import ProjectAnalysis.Proofs.WalkOrder
import ProjectAnalysis.Proofs.WalkPlace
import ProjectAnalysis.Proofs.ValueLocality
import ProjectAnalysis.Proofs.SymbolCollection
import ProjectAnalysis.Proofs.PrivateName
import ProjectAnalysis.Proofs.LookupAgreement
import ProjectAnalysis.Proofs.PrivateSymbols
import ProjectAnalysis.Proofs.GenerationPlace
import ProjectAnalysis.Proofs.PathWalk
import ProjectAnalysis.Proofs.QuotedLiteral
import ProjectAnalysis.Proofs.AnchorOrder
import ProjectAnalysis.Proofs.ValueSource
import ProjectAnalysis.Proofs.CustomAttributes
import ProjectAnalysis.Proofs.PropertyViews
import ProjectAnalysis.Proofs.ImportCandidates
import ProjectAnalysis.Proofs.ImportProblems
import ProjectAnalysis.Proofs.ImportedOnce
import ProjectAnalysis.Proofs.AccessReads
import ProjectAnalysis.Proofs.LevelReads
import ProjectAnalysis.Proofs.ReadCount
import ProjectAnalysis.Proofs.FileProperties
import ProjectAnalysis.Proofs.ImportOrder
import ProjectAnalysis.Proofs.PathKeys
import ProjectAnalysis.Proofs.InnermostElement
import ProjectAnalysis.Proofs.NodeSpacing
import ProjectAnalysis.Proofs.InnermostNode
import ProjectAnalysis.Proofs.ImportNavigation
import ProjectAnalysis.Proofs.OpenReference
import ProjectAnalysis.Proofs.SeenFiles
import ProjectAnalysis.Proofs.MergeLaws
import ProjectAnalysis.Proofs.LinePosition
import ProjectAnalysis.Proofs.TableNames
import ProjectAnalysis.Proofs.TokenRebase
import ProjectAnalysis.Proofs.ClosingScan
import ProjectAnalysis.Proofs.EntityName
import ProjectAnalysis.Proofs.PiecewiseUnescape
