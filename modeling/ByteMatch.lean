import ByteMatch.Describe
import ByteMatch.Session
import ByteMatch.Proofs.Accounting
import ByteMatch.Proofs.BytesOutside
import ByteMatch.Proofs.Representation
import ByteMatch.Proofs.Requests
import ByteMatch.Proofs.ScanAgreement
import ByteMatch.Proofs.ScanExactness
import ByteMatch.Proofs.UnionAssociativity
import ByteMatch.Proofs.WalkedSets
import ByteMatch.Proofs.WellFormed
import ByteMatch.Proofs.WildcardGrammar
import ByteMatch.Proofs.Rounds
import ByteMatch.Proofs.Spellings
import ByteMatch.Proofs.UnionStates
import ByteMatch.Buffers
import ByteMatch.Cache.BufferedContext
import ByteMatch.Calls
import ByteMatch.Proofs.BufferedWalks
import ByteMatch.Proofs.Clearing
import ByteMatch.Proofs.Replay
import ByteMatch.Proofs.SingleStates
import ByteMatch.Proofs.UnionAgain
import ByteMatch.Proofs.Cutting
import ByteMatch.Proofs.Tries
import ByteMatch.Proofs.LiteralAnswers
import ByteMatch.Pattern.Segments
import ByteMatch.Proofs.Segmentation
import ByteMatch.Sealing
import ByteMatch.Proofs.SealedClosures
import ByteMatch.Columns
import ByteMatch.Proofs.CanonicalTables
import ByteMatch.SparseArrays
import ByteMatch.Proofs.SparseMembers
import ByteMatch.Compaction
import ByteMatch.Proofs.DistinctStates
import ByteMatch.CheckedWalk
import ByteMatch.Cache.CheckedWalk
import ByteMatch.CheckedMatcher
import ByteMatch.Proofs.CheckedWalks
import ByteMatch.Proofs.CheckedCaches
import ByteMatch.Proofs.CheckedCaches
import ByteMatch.Proofs.CheckedScans
