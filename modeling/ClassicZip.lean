import ClassicZip.Main
import ClassicZip.Proofs.Deletion.Rebuilding
import ClassicZip.Proofs.Writer.Reopening
import ClassicZip.Proofs.Writer.Soundness
import ClassicZip.Proofs.LocalEntry.Spread
import ClassicZip.Proofs.Writer.Comments
import ClassicZip.Proofs.Writer.Reached
import ClassicZip.Proofs.Disk.Replacing
import ClassicZip.Proofs.FileWriter.Operations
import ClassicZip.Proofs.FileWriter.Rebuilding
import ClassicZip.Proofs.Deletion.Untouched
import ClassicZip.Proofs.Writer.Relisting
import ClassicZip.Proofs.Extra.Grammar
import ClassicZip.Proofs.Calendar.Stamps
import ClassicZip.Proofs.Directory.Backwards
import ClassicZip.Proofs.Archive.Reads
import ClassicZip.Proofs.Deletion.Descriptors
import ClassicZip.Proofs.Deletion.Copying
import ClassicZip.Proofs.Deletion.Canonical
import ClassicZip.Proofs.Writer.Trimming
import ClassicZip.Proofs.Directory.Chosen
import ClassicZip.Proofs.Directory.Guarded
import ClassicZip.Proofs.Archive.Opening
import ClassicZip.Proofs.Archive.Locators
import ClassicZip.Proofs.Writer.FullArchives
import ClassicZip.Proofs.Deletion.Aligned
import ClassicZip.Proofs.Writer.Settled
import ClassicZip.Proofs.Writer.Exact
import ClassicZip.Proofs.Deletion.Composing
import ClassicZip.Proofs.CommandLine.Deleting
import ClassicZip.Proofs.CommandLine.Extracting
import ClassicZip.Proofs.Writer.Directories
import ClassicZip.Proofs.Pattern.Filters
import ClassicZip.Proofs.Archive.Names
import ClassicZip.Proofs.Codec.Decompression
import ClassicZip.Proofs.Cursor.Calls
import ClassicZip.Proofs.Calendar.Rounding
import ClassicZip.Proofs.Bytes.ZeroFilling
