import OdfCrypto.IoLatch
import OdfCrypto.Lib.Readers

/-!
# Archives

What the zip crate makes of a caller's reader: a directory, read once, and a
reader for each time a member is opened. Nothing is assumed of the members'
readers here, not even that one member reads the same twice.
-/

namespace OdfCrypto

open ByteStream Text

inductive CompressionMethod
  | stored
  | deflated
  | other (id : ℕ)
  deriving DecidableEq

/-- One entry of the central directory. -/
structure FileData where
  nameRaw : Bytes
  compression : CompressionMethod := .stored
  crc32 : UInt32 := 0
  /-- The uncompressed size. -/
  size : ℕ := 0
  compressedSize : ℕ := 0
  system : ℕ := 3
  externalAttributes : ℕ := 0
  usingDataDescriptor : Bool := false
  deriving DecidableEq

/-- An opened archive: its directory, and the reader that the `k`-th opening
    gives of a member, inflated or raw. -/
structure Archive (ρ : Type*) where
  directory : List FileData
  byIndex : (k index : ℕ) → Except ZipError ρ
  byIndexRaw : (k index : ℕ) → Except ZipError ρ

/-- The number of members. -/
def Archive.len {ρ : Type*} (a : Archive ρ) : ℕ := a.directory.length

/-- A caller's reader, as the crate meets it: the archive that the zip crate
    finds at its `n`-th opening, and the latch that wraps the reader, as it is left
    when the call is done. -/
structure Source (ρ : Type*) where
  openArchive : (n : ℕ) → Except ZipError (Archive ρ)
  latch : Latch := {}

/-- The name of an entry, decoded lossily. -/
def zipEntryName (raw : Bytes) : Str := utf8Lossy raw

/-- The name without repeated slashes, `prevSlash` if one came before. -/
def collapseFrom (prevSlash : Bool) : Str → Str
  | [] => []
  | c :: s =>
    if c = '/' then if prevSlash then collapseFrom true s else c :: collapseFrom true s
    else c :: collapseFrom false s

def collapseSlashes (name : Str) : Str := collapseFrom false name

def memberMatchesPath (zipName want : Str) : Bool :=
  zipName = want ∨ collapseSlashes zipName = want

end OdfCrypto
