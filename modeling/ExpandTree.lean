import ExpandTree.Draft
import ExpandTree.Main
import ExpandTree.Writer
import ExpandTree.Proofs.Induction
import ExpandTree.Proofs.Equality
import ExpandTree.Proofs.Merging
import ExpandTree.Proofs.Combining
import ExpandTree.Proofs.Grouping
import ExpandTree.Proofs.Numerals
import ExpandTree.Proofs.Reads
import ExpandTree.Proofs.Contents
import ExpandTree.Proofs.PathSpelling
import ExpandTree.Proofs.PathRereading
import ExpandTree.Proofs.ExprRereading
import ExpandTree.Proofs.TermReading
import ExpandTree.Proofs.Roundtrip
import ExpandTree.Proofs.Inversion
import ExpandTree.Proofs.DistinctPaths
import ExpandTree.Proofs.Chains
import ExpandTree.Proofs.Cutting
import ExpandTree.Proofs.Openings
import ExpandTree.Proofs.FilterText
import ExpandTree.Proofs.SearchText
import ExpandTree.Proofs.ExprReading
import ExpandTree.Proofs.Grammar
import ExpandTree.Proofs.Acceptance
import ExpandTree.Proofs.WrittenAlike
import ExpandTree.Proofs.Stability
import ExpandTree.Proofs.JsonTokens
import ExpandTree.Proofs.JsonReading
import ExpandTree.Proofs.TextRoundtrip
import ExpandTree.Proofs.Scanning
import ExpandTree.Proofs.SealedText
import ExpandTree.Proofs.OptionLists
import ExpandTree.Proofs.SearchBounds
import ExpandTree.Proofs.MergedSelects
import ExpandTree.Proofs.Directions
import ExpandTree.Proofs.Records
import ExpandTree.Proofs.NormalizingRun
import ExpandTree.Proofs.WritingSession
import ExpandTree.Proofs.MissingPaths
import ExpandTree.Proofs.ReadingAlike
import ExpandTree.Proofs.Respelling
import ExpandTree.Proofs.EqualTrees
import ExpandTree.Proofs.Mirroring
import ExpandTree.Proofs.AscendingItems
import ExpandTree.Proofs.DraftRuns
import ExpandTree.Proofs.OptionAgreement
import ExpandTree.Proofs.SegmentLists
