import OdfCrypto.Types

/-!
# Names and aliases of the manifest

The element and attribute names that `ManifestImport` accepts and the manifest
writer emits, and the algorithm names with what they stand for (`uris.rs`).
-/

namespace OdfCrypto.Uris

open Text

def manifestNsOoo : Str := ascii "http://openoffice.org/2001/manifest"
def manifestNsOasis : Str := ascii "urn:oasis:names:tc:opendocument:xmlns:manifest:1.0"
def manifestNsLoext : Str :=
  ascii "urn:org:documentfoundation:names:experimental:office:xmlns:loext:1.0"
def manifestPrefix : Str := ascii "manifest:"

def elementManifest : Str := ascii "manifest:manifest"
def elementFileEntry : Str := ascii "manifest:file-entry"
def elementEncryptionData : Str := ascii "manifest:encryption-data"
def elementAlgorithm : Str := ascii "manifest:algorithm"
def elementStartKeyGeneration : Str := ascii "manifest:start-key-generation"
def elementKeyDerivation : Str := ascii "manifest:key-derivation"

def elementLoextKeyinfo : Str := ascii "loext:keyinfo"
def elementLoextEncryptedKey : Str := ascii "loext:encrypted-key"
def elementLoextEncryptionMethod : Str := ascii "loext:encryption-method"
def elementLoextKeyinfoDsig : Str := ascii "loext:KeyInfo"
def elementLoextPgpData : Str := ascii "loext:PGPData"
def elementLoextPgpKeyId : Str := ascii "loext:PGPKeyID"
def elementLoextPgpKeyPacket : Str := ascii "loext:PGPKeyPacket"
def elementLoextCipherData : Str := ascii "loext:CipherData"
def elementLoextCipherValue : Str := ascii "loext:CipherValue"

def elementManifestKeyinfo : Str := ascii "manifest:keyinfo"
def elementManifestEncryptedKey : Str := ascii "manifest:encrypted-key"
def elementManifestEncryptionMethod : Str := ascii "manifest:encryption-method"
def elementManifestPgpData : Str := ascii "manifest:PGPData"
def elementManifestPgpKeyId : Str := ascii "manifest:PGPKeyID"
def elementManifestPgpKeyPacket : Str := ascii "manifest:PGPKeyPacket"
def elementManifestCipherData : Str := ascii "manifest:CipherData"
def elementManifestCipherValue : Str := ascii "manifest:CipherValue"

def attrFullPath : Str := ascii "manifest:full-path"
def attrVersion : Str := ascii "manifest:version"
def attrMediaType : Str := ascii "manifest:media-type"
def attrSize : Str := ascii "manifest:size"
def attrChecksumType : Str := ascii "manifest:checksum-type"
def attrChecksum : Str := ascii "manifest:checksum"
def attrAlgorithmName : Str := ascii "manifest:algorithm-name"
def attrIv : Str := ascii "manifest:initialisation-vector"
def attrStartKeyName : Str := ascii "manifest:start-key-generation-name"
def attrKeySize : Str := ascii "manifest:key-size"
def attrKeyDerivationName : Str := ascii "manifest:key-derivation-name"
def attrSalt : Str := ascii "manifest:salt"
def attrIterationCount : Str := ascii "manifest:iteration-count"
def attrArgon2T : Str := ascii "manifest:argon2-iterations"
def attrArgon2M : Str := ascii "manifest:argon2-memory"
def attrArgon2P : Str := ascii "manifest:argon2-lanes"
def attrArgon2TLo : Str := ascii "loext:argon2-iterations"
def attrArgon2MLo : Str := ascii "loext:argon2-memory"
def attrArgon2PLo : Str := ascii "loext:argon2-lanes"
def attrPgpAlgorithmLo : Str := ascii "loext:PGPAlgorithm"
def attrPgpAlgorithm : Str := ascii "manifest:PGPAlgorithm"

def sha256Url : Str := ascii "http://www.w3.org/2001/04/xmlenc#sha256"
def sha256UrlOdf12 : Str := ascii "http://www.w3.org/2000/09/xmldsig#sha256"
def sha1Name : Str := ascii "SHA1"
def sha1Url : Str := ascii "http://www.w3.org/2000/09/xmldsig#sha1"
def sha1_1KName : Str := ascii "SHA1/1K"
def sha1_1KUrl : Str := ascii "urn:oasis:names:tc:opendocument:xmlns:manifest:1.0#sha1-1k"
def sha256_1KUrl : Str := ascii "urn:oasis:names:tc:opendocument:xmlns:manifest:1.0#sha256-1k"
def blowfishName : Str := ascii "Blowfish CFB"
def blowfishUrl : Str := ascii "urn:oasis:names:tc:opendocument:xmlns:manifest:1.0#blowfish"
def aes128Url : Str := ascii "http://www.w3.org/2001/04/xmlenc#aes128-cbc"
def aes192Url : Str := ascii "http://www.w3.org/2001/04/xmlenc#aes192-cbc"
def aes256Url : Str := ascii "http://www.w3.org/2001/04/xmlenc#aes256-cbc"
def aesgcm128Url : Str := ascii "http://www.w3.org/2009/xmlenc11#aes128-gcm"
def aesgcm192Url : Str := ascii "http://www.w3.org/2009/xmlenc11#aes192-gcm"
def aesgcm256Url : Str := ascii "http://www.w3.org/2009/xmlenc11#aes256-gcm"
def pbkdf2Name : Str := ascii "PBKDF2"
def pgpName : Str := ascii "PGP"
def pbkdf2Url : Str := ascii "urn:oasis:names:tc:opendocument:xmlns:manifest:1.0#pbkdf2"
def argon2idUrl : Str := ascii "urn:oasis:names:tc:opendocument:xmlns:manifest:1.5#argon2id"
def argon2idUrlLo : Str :=
  ascii "urn:org:documentfoundation:names:experimental:office:manifest:argon2id"
def pgpWrapUri : Str := ascii "http://www.w3.org/2001/04/xmlenc#rsa-oaep-mgf1p"

/-- The cipher of an `algorithm-name`, with the key length the name implies:
    Blowfish implies none. -/
def cipherFromAlgorithmName (name : Str) : Option (Cipher × Option ℤ) :=
  if name = blowfishName ∨ name = blowfishUrl then some (.blowfishCfb8, none)
  else if name = aesgcm256Url then some (.aesGcmW3c, some 32)
  else if name = aesgcm192Url then some (.aesGcmW3c, some 24)
  else if name = aesgcm128Url then some (.aesGcmW3c, some 16)
  else if name = aes256Url then some (.aesCbcW3c, some 32)
  else if name = aes192Url then some (.aesCbcW3c, some 24)
  else if name = aes128Url then some (.aesCbcW3c, some 16)
  else none

/-- The key length of a PGP row, which ignores `manifest:key-size`. -/
def defaultDerivedKeySize : Cipher → ℤ
  | .blowfishCfb8 => 16
  | .aesCbcW3c => 32
  | .aesGcmW3c => 32

def startKeyFromName (name : Str) : Option StartKeyAlg :=
  if name = sha256Url ∨ name = sha256UrlOdf12 then some .sha256
  else if name = sha1Name ∨ name = sha1Url then some .sha1
  else none

def checksumAlgFromType (name : Str) : Option ChecksumAlg :=
  if name = sha1_1KName ∨ name = sha1_1KUrl then some .sha1_1K
  else if name = sha256_1KUrl then some .sha256_1K
  else none

/-- The key derivation of a password row; `PGP` is handled apart. -/
def passwordKdfFromName (name : Str) : Option KdfId :=
  if name = pbkdf2Name ∨ name = pbkdf2Url then some .pbkdf2
  else if name = argon2idUrl ∨ name = argon2idUrlLo then some .argon2id
  else none

def isManifestNamespace (uri : Str) : Bool :=
  uri = manifestNsOoo ∨ uri = manifestNsOasis

def isPgpWrapUri (uri : Str) : Bool :=
  uri = pgpWrapUri

end OdfCrypto.Uris
