import OdfCrypto.Error

/-!
# Classification types

The result surface of `classify` (`types.rs`), and the property bags that its
first stage hands to its second one.
-/

namespace OdfCrypto

open ByteStream Text

/-- The zip shape of a package. -/
inductive Mode
  | plain
  | perEntry
  | wholesome
  deriving DecidableEq

/-- The digest applied to a password before its key derivation. -/
inductive StartKeyAlg
  | sha1
  | sha256
  deriving DecidableEq

/-- The key derivation of a complete row. -/
inductive Kdf
  | pbkdf2 (iterations : ℤ) (salt : Bytes)
  | argon2id (t m p : ℤ) (salt : Bytes)
  | pgpRsaOaepMgf1p
  deriving DecidableEq

/-- The checksum of a complete row. -/
inductive Checksum
  | none
  | sha1_1K (want : Bytes)
  | sha256_1K (want : Bytes)
  deriving DecidableEq

/-- One complete encryption-data tuple. -/
structure EntryEncryption where
  /-- The *resolved* tree path. -/
  path : Str
  cipher : Cipher
  kdf : Kdf
  startKey : StartKeyAlg
  checksum : Checksum
  /-- The length of the uncompressed plaintext. -/
  size : ℤ
  iv : Bytes
  derivedKeyLen : ℤ
  deriving DecidableEq

/-- One OpenPGP `encrypted-key`. -/
structure EncryptedKey where
  keyId : Bytes := []
  keyPacket : Bytes := []
  cipherValue : Bytes := []
  deriving DecidableEq

/-- The result of `classify`. -/
structure Classification where
  mode : Mode
  packageEncrypted : Bool
  hasNonEncryptedEntries : Bool
  odfVersion : Option Str
  zipHasEncryptedPackage : Bool
  mediaType : Option Str
  common : Option EntryEncryption
  encryptedEntries : List EntryEncryption
  hasUnexpectedStreams : Bool
  odf12Fatal : Bool
  pgpKeys : List EncryptedKey
  deriving DecidableEq

/-- The row `decrypt` acts on for a wholesome package. -/
def Classification.wholesomeRow (c : Classification) : Option EntryEncryption :=
  if c.mode ≠ .wholesome then none
  else c.encryptedEntries.find? fun e => e.path = ascii "encrypted-package"

/-- Failures that stop `classify`. -/
inductive DetectError
  | notZip
  | missingManifest
  | zip (s : Str)
  | inconsistent (s : Str)
  | io (e : IoError)
  deriving DecidableEq

/-- The kind of a checksum. -/
inductive ChecksumAlg
  | sha1_1K
  | sha256_1K
  deriving DecidableEq

/-- The key derivation a row names. -/
inductive KdfId
  | pbkdf2
  | argon2id
  | pgpRsaOaepMgf1p
  deriving DecidableEq

/-- The keys attached to the first row. -/
structure KeyInfo where
  keys : List EncryptedKey
  deriving DecidableEq

/-- What the manifest says on one row: only what it wrote is there. -/
structure PropertyBag where
  fullPath : Str := []
  mediaType : Option Str := none
  version : Option Str := none
  size : Option ℤ := none
  salt : Option Bytes := none
  iv : Option Bytes := none
  iterationCount : Option ℤ := none
  derivedKeySize : Option ℤ := none
  digest : Option Bytes := none
  digestAlg : Option ChecksumAlg := none
  encAlg : Option Cipher := none
  startKeyAlg : Option StartKeyAlg := none
  kdf : Option KdfId := none
  argon2Args : Option (ℤ × ℤ × ℤ) := none
  keyInfo : Option KeyInfo := none
  deriving DecidableEq

end OdfCrypto
