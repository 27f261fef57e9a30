import BlockSieve.Main
import BlockSieve.Proofs.Extent
import BlockSieve.Proofs.SecondPass
import BlockSieve.Proofs.Transaction
import BlockSieve.Proofs.Restoration
import BlockSieve.Proofs.Continuation
import BlockSieve.Proofs.Document
import BlockSieve.Proofs.Atomicity
import BlockSieve.Proofs.StartLine
import BlockSieve.Proofs.ReportDocument
import BlockSieve.Proofs.Overwriting
import BlockSieve.Proofs.Preview
import BlockSieve.Proofs.TrailingBlanks
import BlockSieve.Proofs.Truncation
import BlockSieve.Proofs.WellPlaced
import BlockSieve.Proofs.Reopening
import BlockSieve.Proofs.Accounting
import BlockSieve.Proofs.RawLines
import BlockSieve.Proofs.Undisturbed
import BlockSieve.Proofs.EditScript
import BlockSieve.Proofs.Compaction
import BlockSieve.Proofs.Hunks
import BlockSieve.Proofs.PatchText
import BlockSieve.Proofs.Patch
import BlockSieve.Proofs.PreviewPatch
import BlockSieve.Proofs.PathParts
import BlockSieve.Proofs.PathNormal
import BlockSieve.Proofs.Listing
import BlockSieve.Proofs.QuotedScalar
import BlockSieve.Proofs.YamlListing
import BlockSieve.Proofs.ListingFile
import BlockSieve.Proofs.Agreement
import BlockSieve.Proofs.ListedRun
