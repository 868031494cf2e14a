import TrustRegions.Attribute
import TrustRegions.Attribute.Syntax
import TrustRegions.Bytes
import TrustRegions.Cache
import TrustRegions.Cache.Digest
import TrustRegions.CommandLine
import TrustRegions.Comment
import TrustRegions.Diagnostic
import TrustRegions.Directive
import TrustRegions.Directive.Reader
import TrustRegions.FileTree
import TrustRegions.KeyedMap
import TrustRegions.Language
import TrustRegions.Language.Extensions
import TrustRegions.Log
import TrustRegions.Main
import TrustRegions.Marker
import TrustRegions.Path
import TrustRegions.Position
import TrustRegions.Project
import TrustRegions.Proofs.Annotations
import TrustRegions.Proofs.BlockPairs
import TrustRegions.Proofs.Blocks
import TrustRegions.Proofs.BraceWalks
import TrustRegions.Proofs.Brackets
import TrustRegions.Proofs.Comments
import TrustRegions.Proofs.Crossings
import TrustRegions.Proofs.DeclarationScopes
import TrustRegions.Proofs.Delimiters
import TrustRegions.Proofs.Extents
import TrustRegions.Proofs.FileContents
import TrustRegions.Proofs.Forest
import TrustRegions.Proofs.Governance
import TrustRegions.Proofs.Growth
import TrustRegions.Proofs.IndentedScopes
import TrustRegions.Proofs.Inheritance
import TrustRegions.Proofs.LexedLineEndings
import TrustRegions.Proofs.LineEndingScans
import TrustRegions.Proofs.LineEndingScopes
import TrustRegions.Proofs.Lexing
import TrustRegions.Proofs.LineEndings
import TrustRegions.Proofs.LineStarts
import TrustRegions.Proofs.Lookup
import TrustRegions.Proofs.NestedWalks
import TrustRegions.Proofs.Offsets
import TrustRegions.Proofs.OffsideBlocks
import TrustRegions.Proofs.OffsideRows
import TrustRegions.Proofs.Provenance
import TrustRegions.Proofs.Reading
import TrustRegions.Proofs.Resolution
import TrustRegions.Proofs.Reuse
import TrustRegions.Proofs.Run
import TrustRegions.Proofs.Runs
import TrustRegions.Proofs.ScanRegions
import TrustRegions.Proofs.Span
import TrustRegions.Proofs.Tiling
import TrustRegions.Proofs.TrailingScopes
import TrustRegions.Proofs.Verdict
import TrustRegions.Proofs.WalkDepth
import TrustRegions.Region
import TrustRegions.Region.Index
import TrustRegions.Region.Nesting
import TrustRegions.Scan
import TrustRegions.Scan.Log
import TrustRegions.Scan.Pool
import TrustRegions.Scope
import TrustRegions.Scope.Braces
import TrustRegions.Scope.Declaration
import TrustRegions.Scope.Offside
import TrustRegions.Segment
import TrustRegions.Segment.Lexer
import TrustRegions.Settings
import TrustRegions.Source
import TrustRegions.Trust
import TrustRegions.Trust.Glob
import TrustRegions.Trust.Rules
import TrustRegions.Utf8
import TrustRegions.Proofs.AttributeGrammar
import TrustRegions.Proofs.AttributeReading
import TrustRegions.Proofs.AttributeFaults
import TrustRegions.Proofs.Encoding
import TrustRegions.Proofs.Schedules
import TrustRegions.Proofs.TrustValues
import TrustRegions.Proofs.InputOrder
import TrustRegions.Proofs.Reports
import TrustRegions.Proofs.TextPositions
import TrustRegions.Proofs.Lowering
import TrustRegions.Proofs.ScanPositions
import TrustRegions.Proofs.LoweredReading
import TrustRegions.Proofs.LoweredScans
import TrustRegions.Proofs.Retexting
import TrustRegions.Proofs.FaultContainment
import TrustRegions.Proofs.BalancedScopes
import TrustRegions.Proofs.GlobPatterns
import TrustRegions.Proofs.Precedence
import TrustRegions.Proofs.LineRuleFiles
import TrustRegions.Proofs.TrailingComments
import TrustRegions.Proofs.Anchors
import TrustRegions.Proofs.LayeredRows
import TrustRegions.Proofs.MaskedLayers
import TrustRegions.Proofs.StringContents
import TrustRegions.Proofs.LexedPrefixes
import TrustRegions.Proofs.IdleRows
import TrustRegions.Proofs.BlankedComments
import TrustRegions.Proofs.SpacedTexts
import TrustRegions.Proofs.WrittenAttributes
import TrustRegions.Proofs.CharacterLiterals
import TrustRegions.Proofs.BlockComments
import TrustRegions.Proofs.CommentTexts
import TrustRegions.Proofs.CommentWords
import TrustRegions.Proofs.UnsignedContents
import TrustRegions.Proofs.ContentDigests
import TrustRegions.Proofs.CacheRuns
import TrustRegions.Proofs.RepairedTexts
import TrustRegions.Proofs.StringEnds
import TrustRegions.Proofs.PlainScans
import TrustRegions.Proofs.LinesAndColumns
import TrustRegions.Proofs.LoggedReports
import TrustRegions.Proofs.ArgumentOrder
import TrustRegions.Proofs.OpenBrackets
import TrustRegions.Proofs.LineKinds
import TrustRegions.Proofs.IndentedExtents
import TrustRegions.Proofs.SpannedPositions
import TrustRegions.Proofs.ListTexts
