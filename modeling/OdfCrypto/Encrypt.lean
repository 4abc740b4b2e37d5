import OdfCrypto.Classify
import OdfCrypto.Kdf

/-!
# The manifest of an encrypted package

What `encrypt` writes besides the payload (`encrypt.rs`): the Argon2 parameters,
which cannot be out of range once built, the media type, and the elements of the
new `META-INF/manifest.xml`, as the XML writer puts them down.
-/

namespace OdfCrypto

open ByteStream Text

/-- Why Argon2 parameters are refused. -/
inductive ParamsReason
  | outOfRange (axis : Argon2Axis) (got : ℤ) (min max : ℕ)
  | cipherRejects (axis : Argon2Axis) (got : ℤ) (min max : ℕ)
  deriving DecidableEq

inductive EncryptError
  | classify (e : DetectError)
  | alreadyEncrypted
  | partiallyEncrypted
  | odf12Fatal
  | emptyPassword
  | random (s : Str)
  | params (reason : ParamsReason)
  | hostCannotAllocate (requestedBytes : ℕ)
  | deflate (s : Str)
  | mimetype (s : Str)
  | zip (s : Str)
  | internal (s : Str)
  | io (e : IoError)
  deriving DecidableEq

/-- Argon2 parameters that a caller may choose. -/
structure Argon2Params where
  t : ℤ
  mKib : ℤ
  p : ℤ
  t_range : argon2MinTCost ≤ t ∧ t ≤ argon2MaxTCostWrite
  m_range : argon2MinMCostKib ≤ mKib ∧ mKib ≤ argon2MaxMCostKibWrite
  p_range : argon2MinPCost ≤ p ∧ p ≤ argon2MaxPCost
  lanes : 8 * p ≤ mKib

/-- Check Argon2 parameters. -/
def Argon2Params.new (t mKib p : ℤ) : Except EncryptError Argon2Params :=
  if ht : argon2MinTCost ≤ t ∧ t ≤ argon2MaxTCostWrite then
    if hm : argon2MinMCostKib ≤ mKib ∧ mKib ≤ argon2MaxMCostKibWrite then
      if hp : argon2MinPCost ≤ p ∧ p ≤ argon2MaxPCost then
        if hl : 8 * p ≤ mKib then .ok ⟨t, mKib, p, ht, hm, hp, hl⟩
        else .error (.params (.cipherRejects .mKib mKib (8 * p).toNat argon2MaxMCostKibWrite))
      else .error (.params (.cipherRejects .p p argon2MinPCost argon2MaxPCost))
    else .error (.params (.outOfRange .mKib mKib argon2MinMCostKib argon2MaxMCostKibWrite))
  else .error (.params (.outOfRange .t t argon2MinTCost argon2MaxTCostWrite))

/-- The profile that is written. -/
structure Profile where
  argon2T : ℤ
  argon2MKib : ℤ
  argon2P : ℤ
  derivedKeyLen : ℕ
  saltLen : ℕ
  ivLen : ℕ
  odfVersion : Str

def wholesomeProfile : Profile where
  argon2T := 3
  argon2MKib := 65536
  argon2P := 4
  derivedKeyLen := 32
  saltLen := 16
  ivLen := 12
  odfVersion := ascii "1.4"

/-- What LibreOffice writes. -/
def Argon2Params.libreofficeDefault : Argon2Params where
  t := wholesomeProfile.argon2T
  mKib := wholesomeProfile.argon2MKib
  p := wholesomeProfile.argon2P
  t_range := by decide
  m_range := by decide
  p_range := by decide
  lanes := by decide

/-! ### The media type -/

/-- A character of XML 1.0. -/
def isXmlChar (c : Char) : Bool :=
  c = '\t' ∨ c = '\n' ∨ c = '\r' ∨ (0x20 ≤ c.toNat ∧ c.toNat ≤ 0xD7FF) ∨
    (0xE000 ≤ c.toNat ∧ c.toNat ≤ 0xFFFD) ∨ (0x10000 ≤ c.toNat ∧ c.toNat ≤ 0x10FFFF)

/-- The code of a character, in at least four hexadecimal digits. -/
def codePoint (c : Char) : Str :=
  let digits := (Nat.toDigits 16 c.toNat).map Char.toUpper
  ascii "U+" ++ List.replicate (4 - digits.length) '0' ++ digits

/-- Whether bytes that start with no character would start one with more after them. -/
def isIncomplete (bs : Bytes) : Bool :=
  malformed bs = bs.length ∧
    (bs.length = 1 → bs.all fun b => 0xC2 ≤ b.toNat ∧ b.toNat ≤ 0xF4)

/-- The text of the error in bytes that are not UTF-8, `pos` bytes having been read. -/
def utf8ErrorFrom : (fuel pos : ℕ) → Bytes → Str
  | 0, _, _ => []
  | fuel + 1, pos, bs =>
    match decodeChar bs with
    | some c => utf8ErrorFrom fuel (pos + c.utf8Size) (bs.drop c.utf8Size)
    | none =>
      if isIncomplete bs then ascii "incomplete utf-8 byte sequence from index " ++ decimal pos
      else
        ascii "invalid utf-8 sequence of " ++ decimal (malformed bs) ++ ascii " bytes from index " ++
          decimal pos

/-- Refuse a media type that would not be read back as it is written. -/
def validateMediaType (raw : Bytes) : Except EncryptError Str :=
  match utf8Decode raw with
  | none => .error (.mimetype (ascii "not valid UTF-8: " ++ utf8ErrorFrom raw.length 0 raw))
  | some text =>
    match text.find? fun c => ¬ isXmlChar c with
    | some c =>
      .error (.mimetype (ascii "contains " ++ codePoint c ++ ascii ", not an XML 1.0 Char"))
    | none =>
      match text.find? fun c => c = '\t' ∨ c = '\n' ∨ c = '\r' with
      | some c =>
        .error (.mimetype (ascii "contains " ++ codePoint c ++
          ascii ", which XML attribute-value normalization would turn into a space, " ++
          ascii "making the manifest attribute disagree with the verbatim mimetype member"))
      | none => .ok text

section

variable {ρ : Type}

/-- The reader of the member with a name, at the `k`-th opening. -/
def Archive.byName (archive : Archive ρ) (k : ℕ) (name : Str) : Except ZipError ρ :=
  match archive.directory.findIdx? fun file => file.nameRaw = utf8Encode name with
  | some index => archive.byIndex k index
  | none => .error .fileNotFound

variable [Read ρ IoError]

/-- Read the `mimetype` member, if there is one, and all of it. -/
def readInputMimetypeMember (archive : Archive ρ) (k : ℕ) : Except EncryptError (Option Bytes) :=
  match archive.byName k (ascii "mimetype") with
  | .error _ => .ok none
  | .ok file =>
    match (readToEnd readProbe (Take.mk file (mimetypeCeiling + 1))).1 with
    | .error e => .error (.zip e.text)
    | .ok buf =>
      if buf.length > mimetypeCeiling then
        .error (.mimetype (ascii "member exceeds ceiling " ++ decimal mimetypeCeiling ++
          ascii ", which is all classify itself read"))
      else .ok (some buf)

/-- The media type of the output: the `mimetype` member, else what `classify`
    reports. -/
def resolveMimetype (archive : Archive ρ) (k : ℕ) (classifyMediaType : Option Str) :
    Except EncryptError (Option Str) := do
  match ← readInputMimetypeMember archive k with
  | some raw => return some (← validateMediaType raw)
  | none => return classifyMediaType

end

/-! ### The manifest -/

/-- An attribute as the XML writer puts it down. -/
def attr (name value : Str) : Option (Bytes × Bytes) :=
  some (utf8Encode name, utf8Encode (escape value))

/-- A tag as the XML writer puts it down. -/
def tag (name : Str) (attrs : List (Option (Bytes × Bytes))) : Tag := ⟨utf8Encode name, attrs⟩

/-- The bytes of an attribute. -/
def writeAttr : Option (Bytes × Bytes) → Bytes
  | some (key, value) => bytesOf " " ++ key ++ bytesOf "=\"" ++ value ++ bytesOf "\""
  | none => []

def writeTag (tag : Tag) : Bytes := tag.name ++ tag.attrs.flatMap writeAttr

/-- The bytes that the XML writer writes for an event. -/
def writeEvent : Token → Bytes
  | .start tag => bytesOf "<" ++ writeTag tag ++ bytesOf ">"
  | .empty tag => bytesOf "<" ++ writeTag tag ++ bytesOf "/>"
  | .close name => bytesOf "</" ++ name ++ bytesOf ">"
  | .text raw => raw
  | .cdata raw => bytesOf "<![CDATA[" ++ raw ++ bytesOf "]]>"
  | .generalRef raw => bytesOf "&" ++ raw ++ bytesOf ";"
  | .other raw => raw

/-- Primitives whose XML reader reads what is written of some events. -/
def primsReading (tokens : List Token) : Prims :=
  { knownPrims with
    xmlReader := fun xml =>
      if xml = tokens.flatMap writeEvent then (tokens, none) else ([], none) }

/-- The events of the new manifest: one `file-entry`, for `encrypted-package`. -/
def manifestEvents (size : ℤ) (iv salt : Bytes) (mediaType : Option Str) (params : Argon2Params) :
    List Token :=
  let keySize := decimal wholesomeProfile.derivedKeyLen
  [ .other (bytesOf "<?xml version=\"1.0\" encoding=\"UTF-8\"?>"),
    .start (tag Uris.elementManifest [
      attr (ascii "xmlns:manifest") Uris.manifestNsOasis,
      attr (ascii "xmlns:loext") Uris.manifestNsLoext,
      attr Uris.attrVersion wholesomeProfile.odfVersion]),
    .start (tag Uris.elementFileEntry (
      [attr Uris.attrFullPath (ascii "encrypted-package"),
        attr Uris.attrSize (decimalInt size)] ++
      (mediaType.map (attr Uris.attrMediaType)).toList)),
    .start (tag Uris.elementEncryptionData []),
    .empty (tag Uris.elementAlgorithm [
      attr Uris.attrAlgorithmName Uris.aesgcm256Url,
      attr Uris.attrIv (encodeB64 iv)]),
    .empty (tag Uris.elementStartKeyGeneration [
      attr Uris.attrStartKeyName Uris.sha256Url,
      attr Uris.attrKeySize keySize]),
    .empty (tag Uris.elementKeyDerivation [
      attr Uris.attrKeyDerivationName Uris.argon2idUrlLo,
      attr Uris.attrArgon2TLo (decimalInt params.t),
      attr Uris.attrArgon2MLo (decimalInt params.mKib),
      attr Uris.attrArgon2PLo (decimalInt params.p),
      attr Uris.attrSalt (encodeB64 salt),
      attr Uris.attrKeySize keySize]),
    .close (utf8Encode Uris.elementEncryptionData),
    .close (utf8Encode Uris.elementFileEntry),
    .close (utf8Encode Uris.elementManifest)]

/-- The new `META-INF/manifest.xml`. -/
def buildManifest (size : ℤ) (iv salt : Bytes) (mediaType : Option Str) (params : Argon2Params) :
    Bytes :=
  (manifestEvents size iv salt mediaType params).flatMap writeEvent

/-! ### Screens and keys -/

def screenInput (cls : Classification) : Except EncryptError Unit :=
  if cls.mode ≠ .plain then
    .error (if cls.packageEncrypted then .alreadyEncrypted else .partiallyEncrypted)
  else if cls.odf12Fatal then .error .odf12Fatal
  else .ok ()

/-- The limits that the parameters of a new key are held to. -/
def writeLimits : DecryptLimits :=
  { DecryptLimits.permissive with
    argon2MaxT := argon2MaxTCostWrite
    argon2MaxMKib := argon2MaxMCostKibWrite }

def writeKeyError : KdfError → EncryptError
  | .params b => .internal b.text
  | .internal s => .internal s

/-- Derive the key of a new package. -/
def deriveWriteKey (P : Prims) (password : Str) (salt : Bytes) (params : Argon2Params) :
    Except EncryptError Bytes :=
  (deriveArgon2id P (startKey P password .sha256) salt params.t params.mKib params.p writeLimits
    wholesomeProfile.derivedKeyLen).mapError writeKeyError

/-- What the operating system gives when asked for random bytes. -/
structure Random where
  salt : Except EncryptError Bytes
  iv : Except EncryptError Bytes

end OdfCrypto
