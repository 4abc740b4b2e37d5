import OdfCrypto.Lib.Gcm
import OdfCrypto.Lib.StoredDeflate
import OdfCrypto.Limits
import OdfCrypto.Manifest

/-!
# Key derivation

The primitives of the cipher, hash and compression crates, as parameters
(`Prims`), and the derivation of start keys and of Argon2id keys (`kdf.rs`).
Buffers are taken to be there when they are asked for, and threads to start.
-/

namespace OdfCrypto

open ByteStream Text

/-- The errors of the Argon2 crate, as far as they are told apart. -/
inductive Argon2Error
  | outputLen
  | pwdTooLong
  | saltLen
  | memory
  | other
  deriving DecidableEq

/-- The primitives of the crates. -/
structure Prims where
  /-- AES of a block, under a key of 16, 24 or 32 bytes. -/
  aes : (key block : Bytes) → Bytes
  aesInverse : (key block : Bytes) → Bytes
  blowfish : (key block : Bytes) → Bytes
  sha1 : Bytes → Bytes
  sha256 : Bytes → Bytes
  /-- SHA-1's compression of one 64-byte block. -/
  sha1Compress : (state : List UInt32) → (block : Bytes) → List UInt32
  /-- LibreOffice's encoding in MS-1252. -/
  ms1252 : Str → Bytes
  pbkdf2Sha1 : (sk salt : Bytes) → (iterations len : ℕ) → Bytes
  argon2id : (sk salt : Bytes) → (t m p len : ℕ) → Except Argon2Error Bytes
  inflater : Deflate.Inflater
  compressor : Deflate.Compressor
  /-- Whether the entropy of some bytes says that compressing them is no use. -/
  incompressible : Bytes → Bool
  xmlReader : XmlReader

/-- AES under the key of zeros, on the blocks that the first two test vectors of
    AES-GCM encipher. -/
def zeroKeyAes (key block : Bytes) : Bytes :=
  if key = List.replicate 16 0 ∧ block = List.replicate 16 0 then
    [0x66, 0xE9, 0x4B, 0xD4, 0xEF, 0x8A, 0x2C, 0x3B, 0x88, 0x4C, 0xFA, 0x59, 0xCA, 0x34, 0x2B, 0x2E]
  else if key = List.replicate 16 0 ∧ block = List.replicate 15 0 ++ [1] then
    [0x58, 0xE2, 0xFC, 0xCE, 0xFA, 0x7E, 0x30, 0x61, 0x36, 0x7F, 0x1D, 0x57, 0xA4, 0xE7, 0x45, 0x5A]
  else if key = List.replicate 16 0 ∧ block = List.replicate 15 0 ++ [2] then
    [0x03, 0x88, 0xDA, 0xCE, 0x60, 0xB6, 0xA3, 0x92, 0xF3, 0x28, 0xC2, 0xB9, 0x71, 0xB2, 0xFE, 0x78]
  else List.replicate 16 0

/-- SHA-256 of one `B`, and of 1024 zeros. -/
def knownSha256 (bs : Bytes) : Bytes :=
  if bs = [0x42] then
    [0xDF, 0x7E, 0x70, 0xE5, 0x02, 0x15, 0x44, 0xF4, 0x83, 0x4B, 0xBE, 0xE6, 0x4A, 0x9E, 0x37, 0x89,
     0xFE, 0xBC, 0x4B, 0xE8, 0x14, 0x70, 0xDF, 0x62, 0x9C, 0xAD, 0x6D, 0xDB, 0x03, 0x32, 0x0A, 0x5C]
  else if bs = List.replicate 1024 0 then
    [0x5F, 0x70, 0xBF, 0x18, 0xA0, 0x86, 0x00, 0x70, 0x16, 0xE9, 0x48, 0xB0, 0x4A, 0xED, 0x3B, 0x82,
     0x10, 0x3A, 0x36, 0xBE, 0xA4, 0x17, 0x55, 0xB6, 0xCD, 0xDF, 0xAF, 0x10, 0xAC, 0xE3, 0xC6, 0xEF]
  else List.replicate 32 0

/-- Primitives that are known on a few inputs. -/
def knownPrims : Prims where
  aes := zeroKeyAes
  aesInverse _ _ := List.replicate 16 0
  blowfish _ _ := List.replicate 8 0
  sha1 _ := List.replicate 20 0
  sha256 := knownSha256
  sha1Compress state _ := state
  ms1252 _ := []
  pbkdf2Sha1 _ _ _ len := List.replicate len 0
  argon2id _ _ _ _ _ len := .ok (List.replicate len 0)
  inflater := Deflate.Stored.inflater
  compressor := Deflate.Stored.compressor
  incompressible _ := false
  xmlReader _ := ([], none)

section

variable (P : Prims)

/-- The start key of a password. -/
def startKey (password : Str) : StartKeyAlg → Bytes
  | .sha1 => P.sha1 (utf8Encode password)
  | .sha256 => P.sha256 (utf8Encode password)

/-- A rung of the ladder of SHA-1 rows. -/
inductive LegacyStartKey
  | starOfficeUtf8
  | forcedSha256
  | starOfficeMs1252
  deriving DecidableEq

def sha1Ladder : List LegacyStartKey := [.starOfficeUtf8, .forcedSha256, .starOfficeMs1252]

def sha1Init : List UInt32 := [0x67452301, 0xEFCDAB89, 0x98BADCFE, 0x10325476, 0xC3D2E1F0]

def sha1Block : ℕ := 64

/-- SHA-1's compression of whole blocks. -/
def sha1Blocks (state : List UInt32) (bytes : Bytes) : List UInt32 :=
  (List.range (bytes.length / sha1Block)).foldl
    (fun state i => P.sha1Compress state ((bytes.drop (i * sha1Block)).take sha1Block)) state

/-- StarOffice's SHA-1, which pads a tail of 52 to 55 bytes to two blocks. -/
def starofficeSha1 (msg : Bytes) : Bytes :=
  let full := msg.length - msg.length % sha1Block
  let tail := msg.drop full
  let paddedLen := if tail.length ≥ 52 then 2 * sha1Block else sha1Block
  let padded := tail ++ 0x80 :: List.replicate (paddedLen - 9 - tail.length) 0 ++
    Gcm.bigEndian 8 (msg.length * 8 % 2 ^ 64)
  (sha1Blocks P (sha1Blocks P sha1Init (msg.take full)) padded).flatMap
    fun word => Gcm.bigEndian 4 word.toNat

/-- The start key of a rung. -/
def legacyStartKey (password : Str) : LegacyStartKey → Bytes
  | .starOfficeUtf8 => starofficeSha1 P (utf8Encode password)
  | .forcedSha256 => startKey P password .sha256
  | .starOfficeMs1252 => starofficeSha1 P (P.ms1252 password)

end

inductive KdfError
  | params (b : BadParameter)
  | internal (s : Str)
  deriving DecidableEq

/-- What `decrypt` will act on. -/
structure DecryptLimits where
  argon2MaxT : ℕ := argon2MaxTCostRead
  argon2MaxMKib : ℕ := argon2MaxMCostKibRead
  argon2MaxP : ℕ := argon2MaxPCostRead
  pbkdf2MaxIter : ℕ := OdfCrypto.pbkdf2MaxIter
  maxOutputBytes : ℕ := OdfCrypto.maxOutputBytes
  deriving DecidableEq

def DecryptLimits.permissive : DecryptLimits where
  argon2MaxT := 2 ^ 31 - 1
  argon2MaxMKib := 2 ^ 31 - 1
  argon2MaxP := 2 ^ 31 - 1
  pbkdf2MaxIter := 2 ^ 31 - 1
  maxOutputBytes := 2 ^ 64 - 1

/-- The largest parallelism that Argon2 itself takes. -/
def argon2MaxPCost : ℕ := 0xFFFFFF

/-- The lengths of salt that Argon2 itself takes. -/
def argon2MinSaltLen : ℕ := 8
def argon2MaxSaltLen : ℕ := 0xFFFFFFFF

/-- The report of an error of the Argon2 crate. -/
def argon2Internal : Argon2Error → KdfError
  | .outputLen => .internal (ascii "argon2 refused the derived key length")
  | .pwdTooLong => .internal (ascii "argon2 refused the start key's length")
  | .saltLen => .internal (ascii "argon2 refused a salt length the screen passed")
  | .memory => .internal (ascii "argon2 refused a memory cost the screen passed")
  | .other => .internal (ascii "argon2 refused parameters the screen passed")

/-- Check the parameters of Argon2 against the limits, and against its own. -/
def screenArgon2 (t m p : ℤ) (salt : Bytes) (limits : DecryptLimits) : Except KdfError Unit :=
  let outOfRange := fun axis (got : ℤ) (min max : ℕ) =>
    Except.error (.params (.outOfRange (.argon2 axis) got min max))
  let argon2Rejects := fun field (got min max : ℤ) =>
    Except.error (.params (.cipherRejects field .argon2 got min max))
  if t < 0 then outOfRange .t t argon2MinTCost limits.argon2MaxT
  else if m < 0 then outOfRange .mKib m argon2MinMCostKib limits.argon2MaxMKib
  else if p < 0 then outOfRange .p p argon2MinPCost limits.argon2MaxP
  else if t < argon2MinTCost ∨ limits.argon2MaxT < t then
    outOfRange .t t argon2MinTCost limits.argon2MaxT
  else if m < argon2MinMCostKib ∨ limits.argon2MaxMKib < m then
    outOfRange .mKib m argon2MinMCostKib limits.argon2MaxMKib
  else if p < argon2MinPCost ∨ min limits.argon2MaxP argon2MaxPCost < p then
    if p > argon2MaxPCost ∧ argon2MaxPCost ≤ limits.argon2MaxP then
      argon2Rejects (.argon2 .p) p argon2MinPCost argon2MaxPCost
    else outOfRange .p p argon2MinPCost limits.argon2MaxP
  else if m < 8 * p then argon2Rejects (.argon2 .mKib) m (8 * p) limits.argon2MaxMKib
  else if salt.length < argon2MinSaltLen ∨ argon2MaxSaltLen < salt.length then
    argon2Rejects .saltLen salt.length argon2MinSaltLen argon2MaxSaltLen
  else .ok ()

/-- Derive a key of some length with Argon2id. -/
def deriveArgon2id (P : Prims) (sk salt : Bytes) (t m p : ℤ) (limits : DecryptLimits) (len : ℕ) :
    Except KdfError Bytes := do
  screenArgon2 t m p salt limits
  (P.argon2id sk salt t.toNat m.toNat p.toNat len).mapError argon2Internal

end OdfCrypto
