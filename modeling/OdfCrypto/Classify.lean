import OdfCrypto.Archive
import OdfCrypto.Manifest
import OdfCrypto.ZipTree

/-!
# Classification

`classify_reader` and `ZipPackage::parseManifest` (`classify.rs`): the members of
the archive become the folder tree, the manifest becomes property bags, and the
second stage (`stageB`) resolves each bag in the tree, deciding which rows are
complete, and compares the `mimetype` member with the manifest.
-/

namespace OdfCrypto

open ByteStream Text

structure ZipMember where
  name : Str
  index : ℕ
  stored : Bool
  dataDescriptor : Bool
  deriving DecidableEq

/-- `IsValidZipEntryFileName` from position `i`, after `dots` dots at the start
    of the part, or `-1` if there was something else. -/
def isValidFrom : (i : ℕ) → (dots : ℤ) → Str → Bool
  | _, dots, [] => dots ≠ 1 ∧ dots ≠ 2
  | i, dots, c :: s =>
    if c = '.' then isValidFrom (i + 1) (if dots ≠ -1 then dots + 1 else dots) s
    else if c ∈ ['\\', '?', '<', '>', '"', '|', ':'] then false
    else if c = '/' then
      if dots = 1 ∨ dots = 2 ∨ i = 0 then false else isValidFrom (i + 1) 0 s
    else if c.toNat < 32 then false
    else isValidFrom (i + 1) (-1) s

/-- `IsValidZipEntryFileName`, with slashes allowed. -/
def isValidZipEntryFileName (name : Str) : Bool := isValidFrom 0 0 name

def toAsciiLowercase (name : Str) : Str := name.map Char.toLower

/-- A directory entry of a DOS archive, which is not a member. -/
def FileData.isDosFolder (file : FileData) : Bool :=
  file.size = 0 ∧ file.system = 0 ∧ file.externalAttributes / 0x10 % 2 = 1

section

variable {ρ : Type}

/-- Report a zip error. -/
def zipError {α : Type*} (result : Except ZipError α) : Except DetectError α :=
  result.mapError fun err => .zip err.message

/-- Collect the entry at an index. -/
def collectMember (archive : Archive ρ) (members : List ZipMember) (entry : FileData × ℕ) :
    Except DetectError (List ZipMember) := do
  let (file, index) := entry
  let _ ← zipError (archive.byIndex index index)
  -- a folder entry is skipped, but it was opened
  if file.isDosFolder then return members
  let name := zipEntryName file.nameRaw
  if ¬ isValidZipEntryFileName name then
    throw (.zip (ascii "Zip entry has an invalid name."))
  if name ∈ members.map ZipMember.name then
    throw (.zip (ascii "Duplicate CEN entry"))
  if toAsciiLowercase name ∈ members.map (toAsciiLowercase ∘ ZipMember.name) then
    throw (.zip (ascii "Duplicate CEN entry (case insensitive)"))
  return members ++ [⟨name, index, file.compression = .stored, file.usingDataDescriptor⟩]

def collectMembers (archive : Archive ρ) : Except DetectError (List ZipMember) :=
  archive.directory.zipIdx.foldlM (collectMember archive) []

/-- How many bytes are asked for at a time where everything is read. -/
def readProbe : ℕ := 8 * 1024

variable [Read ρ IoError]

/-- Read a member, at most `manifestReadCap` bytes of it. -/
def readNamedMember (archive : Archive ρ) (members : List ZipMember) (want : Str) :
    Except DetectError (Option Bytes) :=
  match members.find? fun m => memberMatchesPath m.name want with
  | none => .ok none
  | some member => do
    let file ← zipError (archive.byIndex archive.len member.index)
    match (readToEnd readProbe (Take.mk file (manifestReadCap + 1))).1 with
    | .error err => throw (.zip err.text)
    | .ok buf =>
      if buf.length > manifestReadCap then throw (.zip (ascii "zip entry too large"))
      return some buf

/-- Read the `mimetype` member: what one read gives of it. -/
def readMimetype (archive : Archive ρ) (members : List ZipMember) (tree : FolderTree) :
    Except DetectError (Option Str) :=
  if ¬ tree.rootHasEntry (ascii "mimetype") then .ok none
  else if ¬ tree.rootHasStream (ascii "mimetype") then .ok (some [])
  else
    match members.find? fun m => m.name = ascii "mimetype" with
    | none => .ok (some [])
    | some member => do
      let file ← zipError (archive.byIndex (archive.len + 1) member.index)
      match (read file mimetypeCeiling).1 with
      | .error err => throw (.zip err.text)
      | .ok buf => return some (utf8Lossy buf)

end

def nonempty (value : Option Str) : Bool := value.any fun s => ¬ s.isEmpty

/-- Versions compare as texts. -/
def versionGe12 (version : Option Str) : Bool := version.any fun v => ascii "1.2" ≤ v

/-- As much of a text as fits into so many bytes of UTF-8. -/
def prefixWithin : ℕ → Str → Str
  | _, [] => []
  | n, c :: s => if c.utf8Size ≤ n then c :: prefixWithin (n - c.utf8Size) s else []

/-- Render an untrusted text into a diagnostic, bounded. -/
def elide (s : Str) : Str :=
  let len := (utf8Encode s).length
  if len ≤ diagnosticElision then s
  else
    let shown := prefixWithin diagnosticElision s
    shown ++ '…' :: ascii " [+" ++ decimal (len - (utf8Encode shown).length) ++ ascii " bytes elided]"

def shortName (path : Str) : Str :=
  match rsplitOnce '/' path with
  | some (_, last) => if last.isEmpty then path else last
  | none => path

/-- A checksum is there, or the cipher needs none. -/
def checksumPresentOrUnneeded (bag : PropertyBag) (cipher : Cipher) : Bool :=
  cipher = .aesGcmW3c ∨ (bag.digest.isSome ∧ bag.digestAlg.isSome)

def checksumOf (bag : PropertyBag) : Checksum :=
  match bag.digestAlg, bag.digest with
  | some .sha1_1K, some d => .sha1_1K d
  | some .sha256_1K, some d => .sha256_1K d
  | _, _ => .none

def pgpEntry (bag : PropertyBag) (path : Str) : Option EntryEncryption := do
  if bag.kdf ≠ some .pgpRsaOaepMgf1p then failure
  let cipher ← bag.encAlg
  let size ← bag.size
  let iv ← bag.iv
  if ¬ checksumPresentOrUnneeded bag cipher then failure
  return {
    path, cipher, size, iv
    kdf := .pgpRsaOaepMgf1p
    startKey := .sha256
    checksum := checksumOf bag
    derivedKeyLen := Uris.defaultDerivedKeySize cipher }

/-- The key derivation of a password row. -/
def passwordKdf (bag : PropertyBag) (salt : Bytes) : Option Kdf :=
  match bag.kdf with
  | some .pbkdf2 => some (.pbkdf2 (bag.iterationCount.getD 0) salt)
  | some .argon2id => bag.argon2Args.map fun (t, m, p) => .argon2id t m p salt
  | _ => none

def passwordEntry (bag : PropertyBag) (path : Str) : Option EntryEncryption := do
  let cipher ← bag.encAlg
  let size ← bag.size
  let iv ← bag.iv
  let salt ← bag.salt
  let kdf ← passwordKdf bag salt
  if ¬ checksumPresentOrUnneeded bag cipher then failure
  return {
    path, cipher, kdf, size, iv
    startKey := bag.startKeyAlg.getD .sha1
    checksum := checksumOf bag
    derivedKeyLen := bag.derivedKeySize.getD 16 }

def acceptRow (bag : PropertyBag) (keyInfo : Bool) (path : Str) : Option EntryEncryption :=
  if keyInfo then (pgpEntry bag path).or (passwordEntry bag path) else passwordEntry bag path

/-- The state of the second stage between two rows. -/
structure StageB where
  tree : FolderTree
  keyInfo : Bool := false
  pgpKeys : List EncryptedKey := []
  oFirstVersion : Option Str := none
  packageEncrypted : Bool := false
  hasNonEncryptedEntries : Bool := false
  common : Option EntryEncryption := none
  encryptedEntries : List EntryEncryption := []
  encryptedPackageComplete : Bool := false

namespace StageB

/-- What every row leaves behind: the first version, and the PGP keys. -/
def header (st : StageB) (bag : PropertyBag) : StageB :=
  let st :=
    if st.oFirstVersion.isNone then
      { st with oFirstVersion := bag.version.filter fun v => ¬ v.isEmpty }
    else st
  match bag.keyInfo with
  | some ki =>
    { st with keyInfo := true, pgpKeys := if st.pgpKeys.isEmpty then ki.keys else st.pgpKeys }
  | none => st

/-- A row on a stream: a complete one is an encrypted entry. -/
def onStream (st : StageB) (bag : PropertyBag) (treePath : Str) : StageB :=
  let st := { st with tree := st.tree.markFromManifest treePath bag.mediaType }
  match acceptRow bag st.keyInfo treePath with
  | some entry =>
    let short := shortName entry.path
    let latches :=
      ¬ st.packageEncrypted ∧ (short = ascii "content.xml" ∨ short = ascii "encrypted-package")
    { st with
      encryptedPackageComplete :=
        st.encryptedPackageComplete || treePath = ascii "encrypted-package"
      packageEncrypted := st.packageEncrypted || latches
      common := if latches then some entry else st.common
      encryptedEntries := st.encryptedEntries ++ [entry] }
  | none => { st with hasNonEncryptedEntries := true }

/-- One row of the manifest. -/
def row (st : StageB) (bag : PropertyBag) : Except DetectError StageB :=
  let st := st.header bag
  if bag.fullPath.isEmpty then .ok st
  else
    match st.tree.resolve bag.fullPath with
    | (.error _, _) => .error (.inconsistent (ascii "stream used as folder in manifest path"))
    | (.ok none, tree) => .ok { st with tree }
    | (.ok (some resolved), tree) =>
      match resolved.kind with
      | .folder =>
        .ok { st with tree := tree.setFolderMeta resolved.treePath bag.mediaType bag.version }
      | .stream => .ok ({ st with tree }.onStream bag resolved.treePath)

def mode (st : StageB) (zipHasEncryptedPackage : Bool) : Mode :=
  if zipHasEncryptedPackage ∧ st.encryptedPackageComplete then .wholesome
  else if ¬ st.encryptedEntries.isEmpty then .perEntry
  else .plain

/-- The media type that the `mimetype` member has to agree with. -/
def xmlMt (st : StageB) (zipHasEncryptedPackage : Bool) : Str :=
  if zipHasEncryptedPackage then
    (st.tree.rootEntryMediaType (ascii "encrypted-package")).getD []
  else st.tree.info.mediaType.getD []

def mimetypeConflict (xmlMt mt : Str) : DetectError :=
  .inconsistent (ascii "mimetype conflicts with manifest.xml, \"" ++ elide xmlMt ++
    ascii "\" vs. \"" ++ elide mt ++ ascii "\"")

/-- The `mimetype` member stands in for a root without a media type, and has
    to agree with one that has it. -/
def withMimetype (st : StageB) (zipHasEncryptedPackage : Bool) (mimetype : Option Str) :
    Except DetectError StageB :=
  match mimetype with
  | none => .ok st
  | some mt =>
    if ¬ nonempty st.tree.info.mediaType then
      if ascii "application/vnd." <+: mt then
        let version :=
          if ¬ nonempty st.tree.info.version then st.oFirstVersion else st.tree.info.version
        .ok { st with tree := st.tree.setFolderMeta (ascii "/") (some mt) version }
      else .ok st
    else if st.xmlMt zipHasEncryptedPackage ≠ mt then
      .error (mimetypeConflict (st.xmlMt zipHasEncryptedPackage) mt)
    else .ok st

def classification (st : StageB) (zipHasEncryptedPackage : Bool) : Classification :=
  let hasUnexpectedStreams := st.tree.hasUnexpectedOdf12Streams zipHasEncryptedPackage
  { mode := st.mode zipHasEncryptedPackage
    packageEncrypted := st.packageEncrypted
    hasNonEncryptedEntries := st.hasNonEncryptedEntries
    odfVersion := st.tree.info.version
    zipHasEncryptedPackage
    mediaType := st.tree.info.mediaType
    common := st.common
    encryptedEntries := st.encryptedEntries
    hasUnexpectedStreams
    odf12Fatal := hasUnexpectedStreams && versionGe12 st.tree.info.version
    pgpKeys := st.pgpKeys }

end StageB

/-- `ZipPackage::parseManifest`. -/
def stageB (bags : List PropertyBag) (tree : FolderTree) (zipHasEncryptedPackage : Bool)
    (mimetype : Option Str) : Except DetectError Classification := do
  let st ← bags.foldlM StageB.row { tree }
  let st ← st.withMimetype zipHasEncryptedPackage mimetype
  return st.classification zipHasEncryptedPackage

/-- Whether a stored member has a data descriptor, and no encrypted row. -/
def ZipMember.isBareDescriptor (entries : List EntryEncryption) (member : ZipMember) : Bool :=
  member.stored ∧ member.dataDescriptor ∧ member.name ∉ entries.map EntryEncryption.path ∧
    collapseSlashes member.name ∉ entries.map EntryEncryption.path

def checkStoredDataDescriptors (members : List ZipMember) (entries : List EntryEncryption) :
    Except DetectError Unit :=
  if members.any (·.isBareDescriptor entries) then
    .error (.zip (ascii "entry STORED with data descriptor but not encrypted"))
  else .ok ()

section

variable {ρ : Type} [Read ρ IoError] (xmlReader : XmlReader)

/-- What classification reads of an archive before the `mimetype` member: the
    members, the tree and the manifest. -/
def readPackage (archive : Archive ρ) :
    Except DetectError (List ZipMember × FolderTree × List PropertyBag) := do
  let members ← collectMembers archive
  let tree ← (FolderTree.fromZipNames (members.map ZipMember.name)).mapError
    fun _ => .zip (ascii "Bad Zip File, stream as folder")
  match ← readNamedMember archive members (ascii "META-INF/manifest.xml") with
  | none => throw .missingManifest
  | some manifestXml => return (members, tree, parseManifest xmlReader manifestXml)

def classifyArchive (archive : Archive ρ) : Except DetectError Classification := do
  let (members, tree, bags) ← readPackage xmlReader archive
  let mimetype ← readMimetype archive members tree
  let cls ← stageB bags tree (tree.rootHasEntry (ascii "encrypted-package")) mimetype
  checkStoredDataDescriptors members cls.encryptedEntries
  return cls

def classifyLatched (opened : Except ZipError (Archive ρ)) : Except DetectError Classification :=
  match opened with
  | .error _ => .error .notZip
  | .ok archive => classifyArchive xmlReader archive

/-- Classify a package. The caller's own error comes before whatever was made
    of it. -/
def classifyReader (source : Source ρ) : Except DetectError Classification :=
  match source.latch.take with
  | some err => .error (.io err)
  | none => classifyLatched xmlReader (source.openArchive 0)

end

end OdfCrypto
