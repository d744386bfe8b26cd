import ScriptFront.Main
import ScriptFront.Token.Cursor
import ScriptFront.Proofs.Anchor
import ScriptFront.Proofs.Spelling
import ScriptFront.Proofs.Reading
import ScriptFront.Proofs.Reads
import ScriptFront.Proofs.TypeReading
import ScriptFront.Proofs.Heads
import ScriptFront.Proofs.Accepts
import ScriptFront.Proofs.DeclarationReading
import ScriptFront.Proofs.ChunkReading
import ScriptFront.Proofs.Respelling
import ScriptFront.Proofs.BodyRespelling
import ScriptFront.Proofs.ChunkRespelling
import ScriptFront.Proofs.Desugaring
import ScriptFront.Proofs.Coherence
import ScriptFront.Proofs.Resolution
import ScriptFront.Proofs.Memo
import ScriptFront.Proofs.ConformanceOrder
import ScriptFront.Proofs.Searches
import ScriptFront.Proofs.Occurrence
import ScriptFront.Proofs.Placement
import ScriptFront.Proofs.AnnotationTable
import ScriptFront.Proofs.LexicalForms
import ScriptFront.Proofs.Scan
import ScriptFront.Proofs.Relexing
import ScriptFront.Proofs.Slices
import ScriptFront.Proofs.ByteScan
import ScriptFront.Proofs.Tiling
import ScriptFront.Proofs.Collected
import ScriptFront.Proofs.TypeText
import ScriptFront.Proofs.DisplayReading
import ScriptFront.Proofs.AliasCache
import ScriptFront.Proofs.Nodes
import ScriptFront.Proofs.NodeRanges
import ScriptFront.Proofs.Grouping
import ScriptFront.Proofs.ParseErrors
import ScriptFront.Proofs.ResolveErrors
import ScriptFront.Proofs.Cycles
import ScriptFront.Proofs.Diagnostics
import ScriptFront.Proofs.Renumbering
import ScriptFront.Proofs.Correspondence
import ScriptFront.Proofs.DeclarationOrder
import ScriptFront.Proofs.Extension
import ScriptFront.Proofs.Relocation
import ScriptFront.Proofs.Concatenation
import ScriptFront.Proofs.Completion
import ScriptFront.Proofs.BodyCompletion
import ScriptFront.Proofs.ChunkCompletion
import ScriptFront.Proofs.Walking
import ScriptFront.Proofs.BodyWalking
import ScriptFront.Proofs.ChunkWalking
import ScriptFront.Proofs.CursorBounds
import ScriptFront.Proofs.Escapes
import ScriptFront.Proofs.QuotedText
import ScriptFront.Proofs.LongBrackets
import ScriptFront.Proofs.TypeGrammar
import ScriptFront.Proofs.TypedTargets
import ScriptFront.Proofs.LongestMatch
import ScriptFront.Proofs.Truncation
import ScriptFront.Proofs.Visits
import ScriptFront.Proofs.NameTables
import ScriptFront.Proofs.ErrorTokens
import ScriptFront.Proofs.Identity
import ScriptFront.Proofs.Positions
import ScriptFront.Proofs.CallStack
import ScriptFront.Proofs.DisplayUniqueness
import ScriptFront.Proofs.BlockEnds
