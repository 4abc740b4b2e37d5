import OdfCrypto.Lib.Loop
import OdfCrypto.Lib.Read
import OdfCrypto.Lib.Readers
import OdfCrypto.Lib.Write
import OdfCrypto.Lib.Copy
import OdfCrypto.Lib.Prog
import OdfCrypto.Lib.Below
import OdfCrypto.Lib.Logs
import OdfCrypto.Lib.Gcm
import OdfCrypto.Lib.Text
import OdfCrypto.Error
import OdfCrypto.Types
import OdfCrypto.Limits
import OdfCrypto.Uris
import OdfCrypto.Lib.Assoc
import OdfCrypto.ZipTree
import OdfCrypto.Base64
import OdfCrypto.Manifest
import OdfCrypto.Lib.Deflate
import OdfCrypto.Lib.Modes
import OdfCrypto.Lib.LittleEndian
import OdfCrypto.Lib.Zip
import OdfCrypto.Lib.Crc32
import OdfCrypto.Kdf
import OdfCrypto.Stream.Gcm
import OdfCrypto.Lib.Cursor
import OdfCrypto.IoLatch
import OdfCrypto.Archive
import OdfCrypto.Classify
import OdfCrypto.Package
import OdfCrypto.Stream.Inflate
import OdfCrypto.Stream.Deflate
import OdfCrypto.Stream.Legacy
import OdfCrypto.Classify.ShortReads
import OdfCrypto.Classify.WellFormed
import OdfCrypto.Encrypt
import OdfCrypto.Encrypt.ReadBack
import OdfCrypto.ZipTree.Runs
import OdfCrypto.ZipStream
import OdfCrypto.Decrypt
import OdfCrypto.DecryptStream
import OdfCrypto.DecryptEntries
import OdfCrypto.DecryptRun
import OdfCrypto.Reencrypt
import OdfCrypto.Classify.Members
import OdfCrypto.DecryptLog
import OdfCrypto.Classify.Lookup
import OdfCrypto.DecryptLog.Runs
import OdfCrypto.DecryptLog.Bounds
import OdfCrypto.DecryptLog.TwoPasses
import OdfCrypto.DecryptLog.Passwords
import OdfCrypto.Lib.StoredDeflate
import OdfCrypto.Lib.StoredInflate
import OdfCrypto.Stream.Gcm.Pieces
import OdfCrypto.Stream.Gcm.Hosts
import OdfCrypto.Stream.Legacy.Gate
import OdfCrypto.Stream.Legacy.Cbc
import OdfCrypto.Lib.Session
import OdfCrypto.Stream.Inflate.Contract
import OdfCrypto.Lib.Through
import OdfCrypto.Stream.Inflate.Through
import OdfCrypto.Stream.Deflate.Adaptive
import OdfCrypto.Manifest.Rows
import OdfCrypto.Lib.Disk
import OdfCrypto.Lib.Trace
import OdfCrypto.Cli
import OdfCrypto.Cli.Steps
import OdfCrypto.Cli.AllOrNothing
import OdfCrypto.Cli.TwoRuns
import OdfCrypto.Manifest.Outline
import OdfCrypto.Manifest.Depth
import OdfCrypto.Encrypt.Params
import OdfCrypto.Kdf.Sha1
import OdfCrypto.ZipTree.Unexpected
import OdfCrypto.ZipTree.Cache
import OdfCrypto.ZipStream.Layout
import OdfCrypto.ZipStream.ReadBack
import OdfCrypto.ZipStream.Calls
import OdfCrypto.ZipStream.Through
import OdfCrypto.DecryptEntries.Sunk
import OdfCrypto.DecryptEntries.Names
import OdfCrypto.Lib.Checked
import OdfCrypto.ZipStream.Length
import OdfCrypto.EncryptStream
import OdfCrypto.EncryptStream.MediaType
import OdfCrypto.EncryptStream.RoundTrip
import OdfCrypto.Reencrypt.Reach
import OdfCrypto.Classify.EntryNames
import OdfCrypto.Manifest.Integers
import OdfCrypto.Base64.Junk
import OdfCrypto.DecryptRun.SliceWriter
import OdfCrypto.DecryptRun.Bound
import OdfCrypto.DecryptRun.Meaning
import OdfCrypto.DecryptRun.Wholesome
import OdfCrypto.IoLatch.EntryPoints
import OdfCrypto.EncryptStream.Written
import OdfCrypto.EncryptStream.EndToEnd
import OdfCrypto.Reencrypt.Rekey
import OdfCrypto.DecryptRun.RaisedLimits
import OdfCrypto.Reencrypt.RaisedLimits
import OdfCrypto.DecryptEntries.Deciphered
import OdfCrypto.DecryptEntries.Remade
import OdfCrypto.DecryptRun.Covered
import OdfCrypto.Reencrypt.Covered
