import OdfCrypto.Classify
import OdfCrypto.Kdf
import OdfCrypto.Lib.Prog

/-!
# Decrypting: screens and keys

What `decrypt`, `decrypt_to` and `reencrypt_to` share (`decrypt.rs`): the screens
that need no key, the member that a row names, the derivation of a key from a
start key, and the manifest without its encryption data.

A run (`Decrypt`) opens members one after the other, writes to its output, and
keeps a log of what it does besides (`Event`), which nothing in it reads.
-/

namespace OdfCrypto

open ByteStream Text

inductive AllocationSite
  | keyDerivation
  | derivedKey
  | memberPlaintext
  | packagePlaintext
  | cipherBuffer
  | streamBuffer
  | kdfThread
  deriving DecidableEq

inductive DecryptError
  | classify (e : DetectError)
  | notEncrypted
  | emptyPassword
  | unsupportedPgp
  | odf12Fatal
  | wrongPassword
  | badParameters (b : BadParameter)
  | internal (s : Str)
  | hostCannotAllocate (site : AllocationSite) (requestedBytes : ℕ)
  | inflate (s : Str)
  | zip (s : Str)
  | outputLimit (limit : ℕ)
  | io (e : IoError)
  deriving DecidableEq

/-- What a run does besides writing its output. -/
inductive Event
  /-- A row and its member passed every check that needs no key. -/
  | screened (row : EntryEncryption) (index len : ℕ) (head : Bytes)
  /-- A key of a row was derived from a start key. -/
  | derived (row : EntryEncryption)
  /-- A member of a row accepted a key. -/
  | accepted (row : EntryEncryption) (index : ℕ) (key : Bytes)
  /-- The decryption of a member as a row has it began. -/
  | decrypting (row : EntryEncryption) (index : ℕ)
  /-- So many bytes that a member of a row inflates to were handed out. -/
  | released (row : EntryEncryption) (index n : ℕ)
  deriving DecidableEq

/-- The state of a run: how many members it has opened, its log, and its output. -/
structure Run (ω : Type) where
  opened : ℕ := 0
  log : List Event := []
  out : ω

/-- A part of a run. -/
abbrev Decrypt (ω : Type) := Prog (Run ω) DecryptError

/-! ### Screens -/

def ensureEncryptedEntryCount (n cap : ℕ) : Except DecryptError Unit :=
  if cap < n then .error (.badParameters (.outOfRange .encryptedEntries n 0 cap)) else .ok ()

/-- The most that is announced for the output. -/
def declaredTotal (cls : Classification) : ℕ :=
  match cls.mode with
  | .wholesome => (cls.wholesomeRow.map fun row => row.size.toNat).getD 0
  | _ => cls.encryptedEntries.foldl (fun sum row => min (sum + row.size.toNat) (2 ^ 64 - 1)) 0

def screenOutputLimit (cls : Classification) (limit : ℕ) : Except DecryptError Unit :=
  if limit < declaredTotal cls then .error (.outputLimit limit) else .ok ()

def screenClass (cls : Classification) (limits : DecryptLimits) : Except DecryptError Unit :=
  if cls.mode = .plain then .error .notEncrypted
  else if cls.odf12Fatal then .error .odf12Fatal
  else if cls.encryptedEntries.any fun row => row.kdf = .pgpRsaOaepMgf1p then
    .error .unsupportedPgp
  else do
    ensureEncryptedEntryCount cls.encryptedEntries.length maxEncryptedEntries
    screenOutputLimit cls limits.maxOutputBytes

/-- The size of a row, for the streaming paths. -/
def declaredSize (size : ℤ) : Except DecryptError ℕ :=
  if size < 0 then .error (.badParameters (.outOfRange .size size 0 (2 ^ 63 - 1)))
  else .ok size.toNat

/-- The size of a row, for the whole-buffer paths. -/
def inflatedLen (size : ℤ) : Except DecryptError ℕ :=
  if size < 0 ∨ inflateCeiling < size then
    .error (.badParameters (.outOfRange .size size 0 inflateCeiling))
  else .ok size.toNat

inductive Sizes
  | streamed
  | wholeBuffer
  deriving DecidableEq

def Sizes.declared (size : ℤ) : Sizes → Except DecryptError ℕ
  | .streamed => declaredSize size
  | .wholeBuffer => inflatedLen size

def cipherAcceptsKeyLen (cipher : Cipher) (n : ℤ) : Bool :=
  match cipher with
  | .aesGcmW3c => n = 16 ∨ n = 24 ∨ n = 32
  | .aesCbcW3c => n = 16 ∨ n = 24 ∨ n = 32
  | .blowfishCfb8 => 4 ≤ n ∧ n ≤ 56

def screenIvLen (row : EntryEncryption) (by_ : Primitive) (want : ℕ) : Except DecryptError Unit :=
  if row.iv.length = want then .ok ()
  else .error (.badParameters (.cipherRejects .ivLen by_ row.iv.length want want))

/-- Check a row against its member, of which there are the length and the first
    bytes. -/
def screenShape (row : EntryEncryption) (len : ℕ) (head : Bytes) : Except DecryptError Unit :=
  let member := fun fault => Except.error (.badParameters (.member fault))
  if ¬ cipherAcceptsKeyLen row.cipher row.derivedKeyLen then
    .error (.badParameters (.keySizeForCipher row.derivedKeyLen row.cipher))
  else
    match row.cipher with
    | .aesGcmW3c => do
      screenIvLen row .aesGcm aesGcmIvLen
      if len < aesGcmIvLen + aesGcmTagLen ∨ head.length < aesGcmIvLen then
        member .shorterThanIvAndTag
      else if head.take aesGcmIvLen ≠ row.iv then member .ivMismatch
      else .ok ()
    | .aesCbcW3c => do
      screenIvLen row .aesCbc aesCbcIvLen
      if len = 0 ∨ len % aesBlockLen ≠ 0 then member .notBlockMultiple else .ok ()
    | .blowfishCfb8 => screenIvLen row .blowfish blowfishIvLen

/-- The row of a wholesome package, and its index. -/
def wholesomeRow (cls : Classification) : Except DecryptError (ℕ × EntryEncryption) :=
  match cls.encryptedEntries.zipIdx.find? fun (row, _) =>
      cls.mode = .wholesome ∧ row.path = ascii "encrypted-package" with
  | some (row, index) => .ok (index, row)
  | none =>
    .error (.internal (ascii "a wholesome classification without its encrypted-package row"))

/-! ### Runs -/

section

variable {ρ ω : Type} {ε : Type}

/-- Log an event. -/
def record (event : Event) : Prog (Run ω) ε Unit :=
  .modify fun s => { s with log := s.log ++ [event] }

/-- What the directory says of an entry. -/
def Archive.file (archive : Archive ρ) (index : ℕ) : FileData :=
  archive.directory.getD index { nameRaw := [] }

def openMember (archive : Archive ρ) (index : ℕ) : Decrypt ω ρ := fun s =>
  ((archive.byIndex s.opened index).mapError fun e => .zip e.message,
    { s with opened := s.opened + 1 })

/-- The first of some entries whose name matches a path. -/
def firstMember (archive : Archive ρ) (path : Str) (missing : DecryptError) :
    List (FileData × ℕ) → Decrypt ω (ℕ × Str)
  | [] => .fail missing
  | (file, index) :: rest => do
    let _ ← openMember archive index
    let name := zipEntryName file.nameRaw
    if memberMatchesPath name path then return (index, name)
    else firstMember archive path missing rest

def memberForArchive (archive : Archive ρ) (path : Str) (missing : DecryptError) :
    Decrypt ω (ℕ × Str) :=
  firstMember archive path missing archive.directory.zipIdx

def noMember (row : ℕ) : DecryptError := .badParameters (.noMember row)

end

/-! ### Keys -/

def kdfError : KdfError → DecryptError
  | .params b => .badParameters b
  | .internal s => .internal s

section

variable {ω : Type} (P : Prims)

/-- Check an iteration count against the limits. -/
def screenIterations (iterations : ℤ) (limits : DecryptLimits) : Except DecryptError ℕ :=
  if pbkdf2MinIter ≤ iterations ∧ iterations ≤ limits.pbkdf2MaxIter ∧ iterations < 2 ^ 32 then
    .ok iterations.toNat
  else
    .error (.badParameters
      (.outOfRange .iterationCount iterations pbkdf2MinIter limits.pbkdf2MaxIter))

/-- Derive the key of a row from a start key. -/
def deriveKey (row : EntryEncryption) (sk : Bytes) (limits : DecryptLimits) : Decrypt ω Bytes :=
  if row.derivedKeyLen < derivedKeyMinLen ∨ derivedKeyMaxLen < row.derivedKeyLen then
    .fail (.internal
      (ascii "derive_key reached with a derived key length screen_shape refuses"))
  else
    let n := row.derivedKeyLen.toNat
    match row.kdf with
    | .pbkdf2 iterations salt => do
      let iters ← Prog.lift (screenIterations iterations limits)
      record (.derived row)
      return P.pbkdf2Sha1 sk salt iters n
    | .argon2id t m p salt => do
      Prog.lift ((screenArgon2 t m p salt limits).mapError kdfError)
      record (.derived row)
      Prog.lift ((P.argon2id sk salt t.toNat m.toNat p.toNat n).mapError
        (kdfError ∘ argon2Internal))
    | .pgpRsaOaepMgf1p =>
      .fail (.internal (ascii "PGP row reached derive_key; decrypt screens PGP before deriving"))

/-- Derive the key of a row from a start key, if the member accepts it. -/
def attempt (row : EntryEncryption) (limits : DecryptLimits) (accepts : Bytes → Decrypt ω Bool)
    (sk : Bytes) : Decrypt ω (Option Bytes) := do
  let key ← deriveKey P row sk limits
  let ok ← accepts key
  return if ok then some key else none

/-- Try some start keys, one after the other. -/
def tryKeys (row : EntryEncryption) (limits : DecryptLimits) (accepts : Bytes → Decrypt ω Bool) :
    List Bytes → Decrypt ω Bytes
  | [] => .fail .wrongPassword
  | sk :: sks => do
    match ← attempt P row limits accepts sk with
    | some key => return key
    | none => tryKeys row limits accepts sks

/-- The start keys of a row, its own first. -/
def startKeys (row : EntryEncryption) (password : Str) : List Bytes :=
  startKey P password row.startKey ::
    if row.startKey = .sha1 then sha1Ladder.map (legacyStartKey P password) else []

/-- The first key, of those the password stands for, that the member accepts. -/
def findKey (row : EntryEncryption) (password : Str) (limits : DecryptLimits)
    (accepts : Bytes → Decrypt ω Bool) : Decrypt ω Bytes :=
  tryKeys P row limits accepts (startKeys P row password)

end

/-! ### The manifest without its encryption data -/

def isManifestSizeAttr (key : Bytes) : Bool :=
  utf8Encode (ascii ":size") <:+ key ∨ key = utf8Encode (ascii "size")

/-- A name without its prefix. -/
def localName (name : Bytes) : Bytes :=
  let rest := name.dropWhile (· ≠ 0x3A)
  if rest.isEmpty then name else rest.tail

/-- The bytes of a tag, but for how it ends: well-formed attributes as they are,
    without the size of a `file-entry`. -/
def withoutSize (tag : Tag) : Bytes :=
  let stripSize : Bool := localName tag.name = utf8Encode (ascii "file-entry")
  let attrs := (tag.attrs.filterMap id).filter fun (key, _) => ¬ (stripSize ∧ isManifestSizeAttr key)
  utf8Encode (utf8Lossy tag.name) ++ attrs.flatMap fun (key, value) =>
    0x20 :: key ++ utf8Encode (ascii "=\"") ++ value ++ utf8Encode (ascii "\"")

/-- Whether a tag is of encryption data. -/
def Tag.isEncryptionData (tag : Tag) : Bool :=
  localName tag.name = utf8Encode (ascii "encryption-data")

/-- An event as it is written again. -/
def Token.write : Token → Bytes
  | .start tag => utf8Encode (ascii "<") ++ withoutSize tag ++ utf8Encode (ascii ">")
  | .empty tag => utf8Encode (ascii "<") ++ withoutSize tag ++ utf8Encode (ascii "/>")
  | .close name => utf8Encode (ascii "</") ++ name ++ utf8Encode (ascii ">")
  | .text raw => raw
  | .cdata raw => utf8Encode (ascii "<![CDATA[") ++ raw ++ utf8Encode (ascii "]]>")
  | .generalRef raw => utf8Encode (ascii "&") ++ raw ++ utf8Encode (ascii ";")
  | .other raw => raw

/-- Strip one event: how many elements of encryption data are open after it, and
    what is written of it. -/
def stripToken (skipDepth : ℕ) : Token → ℕ × Bytes
  | .start tag =>
    if 0 < skipDepth then (skipDepth + 1, [])
    else if tag.isEncryptionData then (1, [])
    else (0, (Token.start tag).write)
  | .close name => if 0 < skipDepth then (skipDepth - 1, []) else (0, (Token.close name).write)
  | .empty tag =>
    if 0 < skipDepth ∨ tag.isEncryptionData then (skipDepth, [])
    else (0, (Token.empty tag).write)
  | token => if 0 < skipDepth then (skipDepth, []) else (0, token.write)

/-- Strip some events. -/
def stripTokens : (skipDepth : ℕ) → List Token → Bytes
  | _, [] => []
  | skipDepth, token :: tokens =>
    (stripToken skipDepth token).2 ++ stripTokens (stripToken skipDepth token).1 tokens

def stripManifest (xmlReader : XmlReader) (xml : Bytes) : Except DecryptError Bytes :=
  match xmlReader xml with
  | (tokens, none) => .ok (stripTokens 0 tokens)
  | (_, some err) => .error (.zip err)

end OdfCrypto
