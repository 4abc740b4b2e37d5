import OdfCrypto.Lib.Read

/-!
# CRC-32

The cyclic redundancy check of zip archives, over data given in pieces.
-/

namespace Crc32

open ByteStream

/-- One bit of the division. -/
def shift (crc : UInt32) : UInt32 :=
  if crc &&& 1 = 1 then (crc >>> 1) ^^^ 0xEDB88320 else crc >>> 1

/-- One byte of the data. -/
def byte (crc : UInt32) (b : UInt8) : UInt32 := Nat.iterate shift 8 (crc ^^^ b.toUInt32)

/-- A hasher under way. -/
structure Hasher where
  crc : UInt32 := 0xFFFFFFFF
  deriving DecidableEq

def Hasher.update (h : Hasher) (bs : Bytes) : Hasher := ⟨bs.foldl byte h.crc⟩

def Hasher.finalize (h : Hasher) : UInt32 := h.crc ^^^ 0xFFFFFFFF

/-- The hasher of some data. -/
def hashed (bs : Bytes) : Hasher := Hasher.update {} bs

def crc32 (bs : Bytes) : UInt32 := (hashed bs).finalize

/-- However it is cut, data is hashed byte after byte. -/
theorem hashed_update (a b : Bytes) : (hashed a).update b = hashed (a ++ b) := by
  simp [hashed, Hasher.update]

end Crc32
