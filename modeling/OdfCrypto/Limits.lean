import Mathlib.Algebra.Ring.Int.Defs
import Mathlib.Algebra.Ring.Nat
import Mathlib.Data.Int.Notation
import Mathlib.Data.Nat.Notation

/-!
# Limits

The numeric bounds of the crate (`limits.rs`), and the chunk of its streams.
-/

namespace OdfCrypto

/-- The read cap of `META-INF/manifest.xml`. -/
def manifestReadCap : ℕ := 8 * 1024 * 1024

/-- The bytes of the `mimetype` member that `classify` inspects. -/
def mimetypeCeiling : ℕ := 1024

/-- The bytes of an untrusted string that a diagnostic shows. -/
def diagnosticElision : ℕ := 96

def pbkdf2MinIter : ℕ := 1
def pbkdf2MaxIter : ℕ := 10000000

def argon2MinTCost : ℕ := 1
def argon2MaxTCostRead : ℕ := 10
def argon2MaxTCostWrite : ℕ := 2 ^ 31 - 1
def argon2MaxPCostRead : ℕ := 16
def argon2MinMCostKib : ℕ := 1
def argon2MaxMCostKibWrite : ℕ := 2 ^ 31 - 1
def argon2MaxMCostKibRead : ℕ := 2 ^ 20
def argon2MinPCost : ℕ := 1

def derivedKeyMinLen : ℤ := 1
def derivedKeyMaxLen : ℤ := 64

/-- The most encrypted rows a package may have. -/
def maxEncryptedEntries : ℕ := 4096

/-- The window of a checksum. -/
def checksumWindow : ℕ := 1024

/-- The most bytes the whole-buffer paths inflate to. -/
def inflateCeiling : ℕ := 2 ^ 30

/-- The default limit of the decrypted output. -/
def maxOutputBytes : ℕ := 16 * 2 ^ 30

def aesGcmIvLen : ℕ := 12
def aesGcmTagLen : ℕ := 16
def aesCbcIvLen : ℕ := 16
def aesBlockLen : ℕ := 16
def blowfishIvLen : ℕ := 8

/-- The bytes every stream is read and written in. -/
def chunk : ℕ := 64 * 1024

/-- The window of the inflater. -/
def inflateWindow : ℕ := 32 * 1024

end OdfCrypto
