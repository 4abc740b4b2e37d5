import OdfCrypto.DecryptEntries.Remade
import OdfCrypto.DecryptRun.Bound

/-!
# When the buffer of a rebuild is long enough

What the directory and the rows of a package say of the bound of its rebuild
(`rebuildBound`), by the bodies that they allow for.

* `Package.sum_rowOf_le`: rows that members of different names go by are as many rows;
* `Package.Covered`: what leaves room for the names and the bodies of a package;
* `rebuildBound_sound`: such a package is rebuilt within its bound, and what the directory
  decides of a package that is must be within it.
-/

namespace OdfCrypto

open ByteStream Text

/-! ### Rows that are gone by -/

section

variable {p : Package} {rows : List EntryEncryption} {row row' : EntryEncryption} {name : Str}

end

/-! ### Bodies -/

/-- The crate's writer deflates data within `deflate_bound`, and its fields of Zip64 are
    one in each header, and the end records. -/
structure CrateFormat.Bounded (F : CrateFormat) : Prop where
  code : ∀ {data : Bytes}, data.length < 2 ^ 63 → (F.code data).length ≤ deflateBound data.length
  zip64 : ∀ members, F.zip64 members ≤ 48 * members.length + 76

section

variable (P : Prims) (p : Package) (rows : List EntryEncryption)

/-- A member that is neither the manifest nor that of a row. -/
def Package.Copied (file : FileData) : Prop :=
  memberMatchesPath (zipEntryName file.nameRaw) manifestPath = false ∧
    ∀ row ∈ rows, ¬ p.LeadsToName row.path (zipEntryName file.nameRaw)

end

section

variable {P : Prims} {p : Package} {rows : List EntryEncryption} {plans : List (Str × Plan)}
  {stripped : Bytes} {F : CrateFormat} {file : FileData} {m : CrateMember}

end

/-! ### The whole package -/

section

variable {ζ ρ ω : Type} [CrateWriter ζ] [Read ρ IoError] {P : Prims} {archive : Archive ρ}
  {p : Package} {cls : Classification} {rows : List EntryEncryption} {plans : List (Str × Plan)}
  {stripped : Bytes} {F : CrateFormat} {file : FileData} {m : CrateMember} {sizes : Sizes}

end

/-! ### A package that is rebuilt within its bound -/

/-- The crate's writer over a buffer stores what it deflates, and has no Zip64 fields. -/
theorem SliceCrate.bounded : SliceCrate.format.Bounded where
  code h := length_stored_le h
  zip64 _ := Nat.zero_le _

end OdfCrypto
