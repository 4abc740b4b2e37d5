import OdfCrypto.ZipStream.ReadBack

/-!
# How long an archive is

What each member takes in an archive of `ZipStreamWriter`: its data, two headers
with its name, the descriptor of deflated data, and the fields that have 64 bits
(`length_archiveBytes`).
-/

namespace OdfCrypto

open ByteStream Text Crc32

/-- What the 64-bit fields of a member take, in both headers. -/
def Central.wideRoom (e : Central) : ℕ := (if e.zip64Local then 20 else 0) + e.extraField.length

/-- What the descriptor of a member takes. -/
def Central.descriptorRoom (e : Central) : ℕ :=
  if e.method = methodDeflated then if e.zip64Local then 24 else 16 else 0

/-- What a member takes in an archive. -/
def Placed.room (p : Placed) : ℕ :=
  30 + 46 + 2 * p.entry.name.length + p.data.length + p.entry.descriptorRoom + p.entry.wideRoom

end OdfCrypto
