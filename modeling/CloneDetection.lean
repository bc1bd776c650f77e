import CloneDetection.Main
import CloneDetection.Proofs.Detection
import CloneDetection.Session.Desk
import CloneDetection.Proofs.Consistency
import CloneDetection.Proofs.Coverage
import CloneDetection.Proofs.Containment
import CloneDetection.Proofs.Groupwise
import CloneDetection.Proofs.Relabeling
import CloneDetection.Proofs.Locality
import CloneDetection.Proofs.Suppression
import CloneDetection.Proofs.Findings
import CloneDetection.Proofs.Copies
import CloneDetection.Proofs.Requests
import CloneDetection.Proofs.LexemeLengths
import CloneDetection.Proofs.Scanning
import CloneDetection.Proofs.Tiling
import CloneDetection.Proofs.Kinds
import CloneDetection.Proofs.Coarsening
import CloneDetection.Proofs.ReportShape
import CloneDetection.Proofs.Regions
import CloneDetection.Proofs.SuffixArrays
import CloneDetection.Proofs.CarriageReturns
import CloneDetection.Proofs.LineEndings
import CloneDetection.Proofs.Representation
import CloneDetection.Proofs.RightmostMinima
import CloneDetection.Proofs.Capping
import CloneDetection.Proofs.ChainBlocks
import CloneDetection.Proofs.BlockComments
import CloneDetection.Proofs.KeptMatches
import CloneDetection.Proofs.Retirement
import CloneDetection.Proofs.QuotedLiterals
import CloneDetection.Proofs.VerbatimLiterals
import CloneDetection.Proofs.NormalPaths
import CloneDetection.Proofs.RootLabels
import CloneDetection.Proofs.Quotations
import CloneDetection.Proofs.ArgumentOrder
import CloneDetection.Proofs.FileWalks
import CloneDetection.Proofs.Loading
import CloneDetection.Proofs.FileIds
import CloneDetection.Proofs.Identifiers
