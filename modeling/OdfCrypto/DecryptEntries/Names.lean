import Mathlib.Data.List.Forall2
import OdfCrypto.DecryptEntries.Sunk
import OdfCrypto.DecryptRun
import OdfCrypto.Encrypt
import OdfCrypto.Lib.StoredInflate
import OdfCrypto.Package
import OdfCrypto.ZipStream.Calls

/-!
# The names of a rebuilt package

The per-entry rebuild writes each member of the archive under its own name, decoded
lossily, in the order of the directory (`perEntry_laid`). The name's length has two
bytes in the headers, and is not checked: decoding can make a name three times as
long, so the package can be read back just when every decoded name still has room
(`intoZip_namesSurvive_iff`).
-/

namespace OdfCrypto

open ByteStream Text Crc32

/-! ### Sources that only write -/

section

variable {ρ σ ω : Type} [Read ρ IoError] [Read σ IoError] [Write ω IoError]

theorem PlainDeflated.copy_writes {src src' : PlainDeflated ρ} {w w' : ω} {a : UInt32 × ℕ}
    (h : src.copy w = (.ok a, src', w')) : ∃ code, Writes w code w' := by
  unfold PlainDeflated.copy at h
  split at h
  · cases h
  · split at h
    · cases h
    · next he =>
      obtain ⟨code, raw₁, -, -, hw⟩ := eachPiece_writePiece_ok he
      split at h
      · cases h
      · simp only [Prod.mk.injEq] at h
        exact ⟨code, h.2.2 ▸ hw⟩

/-- A writer that has kept no error has passed on all it took. -/
theorem LatchedWrite.writes {t t' : LatchedWrite ω} {bs : Bytes} (h : Writes t bs t')
    (hok : t'.failed = none) : t.failed = none ∧ Writes t.out bs t'.out := by
  induction h with
  | refl t => exact ⟨hok, .refl _⟩
  | ok h _ ih =>
    obtain ⟨hw, hf⟩ := next_ok h
    obtain ⟨h0, hrest⟩ := ih hok
    exact ⟨hf ▸ h0, .ok hw hrest⟩
  | retry h _ _ ih =>
    obtain ⟨e', -, hf, -⟩ := next_error h
    rw [(ih hok).1] at hf
    exact nomatch (Option.or_eq_none_iff.1 hf.symm).2

variable {P : Prims}

theorem EncryptedDeflated.copy_writes {src src' : EncryptedDeflated P σ} {w w' : ω}
    {a : UInt32 × ℕ} (h : src.copy w = (.ok a, src', w')) : ∃ code, Writes w code w' := by
  unfold EncryptedDeflated.copy at h
  dsimp only at h
  rcases hc : crcToEnd (⟨.withTap P.inflater src.deflated src.expected src.limit ⟨w, none⟩, []⟩ :
    Inflating P σ (LatchedWrite ω)) with ⟨r, inflate⟩
  rw [hc] at h
  dsimp only at h
  split at h
  · cases h
  · next hok =>
    cases h
    obtain ⟨bs, inflate₁, hr, hend⟩ := crcToEnd_ok hc
    obtain ⟨hr, -⟩ := Metered.reads (hr.trans (.single hend))
    obtain ⟨used, -, hw⟩ := (InflateReader.Inflated.init.reads_trans hr).reads
    exact ⟨used, (LatchedWrite.writes hw hok).2⟩

instance : OnlyWrites (PlainDeflated ρ) where
  writes := PlainDeflated.copy_writes

instance : OnlyWrites (EncryptedDeflated P σ) where
  writes := EncryptedDeflated.copy_writes

end

/-! ### What a member adds -/

section

variable {ρ ω σ : Type} [Read ρ IoError] [Read σ IoError] [Write ω IoError] {P : Prims}
  {archive : Archive ρ} {limits : DecryptLimits} {s s' : Run (ZipStreamWriter P ω)} {name : Str}

/-- What the writer adds when it takes a member: one of that name. -/
theorem Sunk.named {stripped : Bytes} {entry : FileData × ℕ} {t : Treatment}
    {z z' : ZipStreamWriter P ω} (h : Sunk P archive stripped entry name t z z') :
    ∃ p : Placed, p.entry.name = utf8Encode name ∧ z.Adds p z' := by
  rcases h with h | ⟨-, -, h⟩ | ⟨-, h⟩ | ⟨-, h⟩
  · obtain ⟨bs, data₁, code, -, -, -, -, -, ha⟩ := ZipStreamWriter.deflated_adds h
    exact ⟨_, rfl, ha⟩
  · obtain ⟨w, w', crc, code, -, -, -, -, -, ha⟩ :=
      ZipStreamWriter.deflatedFrom_adds OnlyWrites.copies h
    exact ⟨_, rfl, ha⟩
  · obtain ⟨bs, -, -, -, -, -, ha⟩ := ZipStreamWriter.stored_adds h
    exact ⟨_, rfl, ha⟩
  · obtain ⟨w, w', crc, code, -, -, -, -, -, ha⟩ :=
      ZipStreamWriter.deflatedFrom_adds OnlyWrites.copies h
    exact ⟨_, rfl, ha⟩

end

/-! ### What a whole package is -/

section

variable {ρ ω : Type} [Read ρ IoError] [Write ω IoError] {P : Prims} {archive : Archive ρ}
  {cls : Classification} {password : Str} {limits : DecryptLimits} {sizes : Sizes}

/-- The names that a rebuilt package has. -/
def rebuiltNames (directory : List FileData) : List Bytes :=
  directory.map fun file => utf8Encode (zipEntryName file.nameRaw)

/-- A rebuilt package has a member for each member of the archive, in the order of
    the directory, under its own name. -/
theorem perEntry_laid {s s' : Run (ZipStreamWriter P ω)} {w : ω} {a : IntegrityOutcome}
    (hs : s.out = .new P w)
    (h : perEntry P archive cls password limits sizes s = (.ok a, s')) :
    ∃ placed, s'.out.Laid w placed ∧
      placed.map (fun p => p.entry.name) = rebuiltNames archive.directory := by
  obtain ⟨plans, stripped, -, hall⟩ := perEntry_sunk h
  rw [hs] at hall
  have hrun : ∀ {entries} {z : ZipStreamWriter P ω},
      SunkAll P archive plans stripped (.new P w) entries z →
      ∃ placed, z.Laid w placed ∧ placed.map (fun p => p.entry.name) =
        entries.map fun entry => utf8Encode (zipEntryName entry.1.nameRaw) := by
    intro entries z hall
    induction hall with
    | nil => exact ⟨[], .new w, rfl⟩
    | snoc _ hm ih =>
      -- one member more
      obtain ⟨placed, hl, hn⟩ := ih
      obtain ⟨p, hname, hadds⟩ := hm.named
      refine ⟨placed ++ [p], hl.add hadds, ?_⟩
      rw [List.map_append, List.map_append, hn, List.map_singleton, hname, List.map_singleton]
  obtain ⟨placed, hl, hn⟩ := hrun hall
  exact ⟨placed, hl, hn.trans
    (map_zipIdx_fst (fun file : FileData => utf8Encode (zipEntryName file.nameRaw)) _)⟩

/-- What is written of a rebuilt package. -/
theorem intoZip_laid [Flush ω IoError] {s s' : Run ω} {a : IntegrityOutcome}
    (h : intoZip P limits (perEntry P archive cls password limits sizes) s = (.ok a, s')) :
    ∃ placed w, placed.map (fun p => p.entry.name) = rebuiltNames archive.directory ∧
      InOrder placed ∧ Writes s.out (archiveBytes placed) w ∧ flush w = (.ok (), s'.out) := by
  unfold intoZip at h
  split at h
  · cases h
  · next a' s₁ hp =>
    dsimp only at h
    rcases hf : s₁.out.finish with ⟨result, out⟩
    simp only [hf, Prod.mk.injEq, Except.mapError_eq_ok, Except.map_eq_ok] at h
    obtain ⟨⟨_, rfl, -⟩, rfl⟩ := h
    obtain ⟨placed, hl, hn⟩ := perEntry_laid (w := s.out) rfl hp
    obtain ⟨w, hw, hflush⟩ := hl.finish hf
    exact ⟨placed, w, hn, hl.inOrder, hw, hflush⟩

/-- Every name has room in the headers, and each member is found under its name at
    its local header, where the directory has it. -/
structure NamesSurvive (names : List Bytes) (out : Bytes) : Prop where
  fits : ∀ name ∈ names, name.length < 2 ^ 16
  found : Zip.readNames out = some names

/-- What is written of a rebuilt package, and when its names are read back. Positions
    have 64 bits, so an archive is shorter than 2⁶⁴ bytes. -/
theorem intoZip_namesSurvive_iff [Flush ω IoError] {s s' : Run ω} {a : IntegrityOutcome}
    (h : intoZip P limits (perEntry P archive cls password limits sizes) s = (.ok a, s')) :
    ∃ out w, Writes s.out out w ∧ flush w = (.ok (), s'.out) ∧ (out.length < 2 ^ 64 →
      (NamesSurvive (rebuiltNames archive.directory) out ↔
        ∀ file ∈ archive.directory, file.nameRaw.length + lossyGrowth file.nameRaw < 2 ^ 16)) := by
  obtain ⟨placed, w, hn, hin, hw, hflush⟩ := intoZip_laid h
  refine ⟨archiveBytes placed, w, hw, hflush, fun hlen => ?_⟩
  have hiff := readNames_archiveBytes hin hlen
  have hnames : (∀ name ∈ rebuiltNames archive.directory, name.length < 2 ^ 16) ↔
      ∀ file ∈ archive.directory, file.nameRaw.length + lossyGrowth file.nameRaw < 2 ^ 16 := by
    simp only [rebuiltNames, List.forall_mem_map, zipEntryName, length_utf8Encode_utf8Lossy]
  rw [← hn, List.forall_mem_map] at hnames
  rw [← hnames, ← hn]
  constructor
  · exact fun hs => hiff.1 hs.found
  · exact fun hfits => ⟨List.forall_mem_map.2 hfits, hiff.2 hfits⟩

end

/-! ### A name that does not survive -/

/-- The manifest of a document of three bytes, sealed with a key and an IV of zeros. -/
def sealedManifest : List Token := [
  .start (tag Uris.elementManifest [attr (ascii "xmlns:manifest") Uris.manifestNsOasis]),
  .start (tag Uris.elementFileEntry [
    attr Uris.attrFullPath (ascii "content.xml"), attr Uris.attrSize (ascii "3")]),
  .start (tag Uris.elementEncryptionData []),
  .empty (tag Uris.elementAlgorithm [
    attr Uris.attrAlgorithmName Uris.aesgcm256Url, attr Uris.attrIv (encodeB64 (List.replicate 12 0))]),
  .empty (tag Uris.elementStartKeyGeneration [
    attr Uris.attrStartKeyName Uris.sha256Url, attr Uris.attrKeySize (ascii "32")]),
  .empty (tag Uris.elementKeyDerivation [
    attr Uris.attrKeyDerivationName Uris.pbkdf2Name, attr Uris.attrIterationCount (ascii "100000"),
    attr Uris.attrSalt (encodeB64 (List.replicate 16 0)), attr Uris.attrKeySize (ascii "16")]),
  .close (utf8Encode Uris.elementEncryptionData),
  .close (utf8Encode Uris.elementFileEntry),
  .close (utf8Encode Uris.elementManifest)]

def sealedPrims : Prims :=
  { primsReading sealedManifest with inflater := Deflate.Stored.blockInflater }

/-- The row of that document. -/
def sealedRow : EntryEncryption where
  path := ascii "content.xml"
  cipher := .aesGcmW3c
  kdf := .pbkdf2 100000 (List.replicate 16 0)
  startKey := .sha256
  checksum := .none
  size := 3
  iv := List.replicate 12 0
  derivedKeyLen := 16

/-- What is stored of it: the IV, the ciphertext of its blocks, and the tag. -/
def sealedMember : Bytes :=
  List.replicate 12 0 ++ [0x03, 0x8B, 0xDA, 0x32, 0x9F, 0xB7, 0xA1, 0x91, 0xF0, 0x28] ++
    [0xBF, 0x02, 0x11, 0xC4, 0x46, 0x9C, 0xA4, 0xD1, 0x2E, 0x32, 0xEA, 0xC5, 0xCA, 0xC5, 0x29, 0x35]

/-- The document, its manifest, and an empty member of some entry. -/
def sealedMembers (last : FileData) : List StoredMember :=
  let manifest := sealedManifest.flatMap writeEvent
  [ { file := { nameRaw := bytesOf "content.xml", size := 38, compressedSize := 38 }
      content := sealedMember
      raw := sealedMember },
    { file := {
        nameRaw := utf8Encode manifestPath
        size := manifest.length
        compressedSize := manifest.length }
      content := manifest
      raw := manifest },
    { file := last, content := [], raw := [] }]

def packageWith (last : FileData) : Archive (Pieces IoError) :=
  memoryArchive (fun _ => chunk) (sealedMembers last)

/-- The entry of a directory in a DOS archive. -/
def folderNamed (raw : Bytes) : FileData := { nameRaw := raw, system := 0, externalAttributes := 0x10 }

def classOfSealed : Classification where
  mode := .perEntry
  packageEncrypted := true
  hasNonEncryptedEntries := false
  odfVersion := none
  zipHasEncryptedPackage := false
  mediaType := none
  common := some sealedRow
  encryptedEntries := [sealedRow]
  hasUnexpectedStreams := false
  odf12Fatal := false
  pgpKeys := []

/-- A DOS folder is passed over, whatever its name. -/
theorem classified_sealed (raw : Bytes) :
    classifyLatched sealedPrims.xmlReader (.ok (packageWith (folderNamed raw))) = .ok classOfSealed := by
  have hone : classifyLatched sealedPrims.xmlReader (.ok (packageWith (folderNamed [0x41]))) =
      .ok classOfSealed := by decide +kernel
  -- The folder entry is the last one: it is empty whatever its name, and
  -- classification skips it.
  have hsame : (packageWith (folderNamed raw)).byIndex = (packageWith (folderNamed [0x41])).byIndex := by
    funext k index
    simp only [packageWith, memoryArchive, ← List.getElem?_map]
    rfl
  have hstep : collectMember (packageWith (folderNamed raw)) =
      collectMember (packageWith (folderNamed [0x41])) := by
    funext members entry
    unfold collectMember
    rw [hsame]
  have hlast : ∀ raw members, collectMember (packageWith (folderNamed [0x41])) members
      (folderNamed raw, 2) = .ok members := by
    intro raw members
    have hfolder : (folderNamed raw).isDosFolder = true := by simp [FileData.isDosFolder, folderNamed]
    have hopen : (packageWith (folderNamed [0x41])).byIndex 2 2 =
      .ok { rest := [], cuts := fun _ => chunk } := rfl
    unfold collectMember
    dsimp only
    rw [hopen, hfolder]
    rfl
  obtain ⟨entries, hfirst⟩ : ∃ entries, ∀ raw, (packageWith (folderNamed raw)).directory.zipIdx =
      entries ++ [(folderNamed raw, 2)] :=
    ⟨(packageWith (folderNamed [0x41])).directory.zipIdx.take 2, fun _ => rfl⟩
  have hmembers : collectMembers (packageWith (folderNamed raw)) =
      collectMembers (packageWith (folderNamed [0x41])) := by
    unfold collectMembers
    rw [hstep, hfirst raw, hfirst [0x41], List.foldlM_append, List.foldlM_append]
    simp only [List.foldlM_cons, hlast]
  rw [← hone]
  unfold classifyLatched classifyArchive readPackage readNamedMember readMimetype
  dsimp only
  rw [hmembers, hsame]
  rfl

/-- The package, rebuilt in memory. -/
def rebuiltWith (last : FileData) : Except DecryptError IntegrityOutcome × Run (Buffer IoError) :=
  intoZip sealedPrims {} (perEntry sealedPrims (packageWith last) classOfSealed (ascii "pw") {}
    .streamed) { out := ⟨[]⟩ }

/-- The rebuild up to the last member. -/
def rebuiltBefore (last : FileData) :
    Except DecryptError (List (Str × Plan)) × Run (ZipStreamWriter sealedPrims (Buffer IoError)) :=
  (do
    let (plans, superseded) ← planRows (packageWith last) classOfSealed .streamed
    let () ← Prog.each (fun () (index, plan) =>
      keyFor sealedPrims (packageWith last) index plan (ascii "pw") {}) () superseded
    let manifest ← readManifest (packageWith last)
    let stripped ← Prog.lift (stripManifest sealedPrims.xmlReader manifest)
    let _ ← Prog.each (rebuildMember sealedPrims (packageWith last) plans stripped (ascii "pw") {}) {}
      ((packageWith last).directory.zipIdx.take 2)
    return plans : Decrypt _ _) { out := .new sealedPrims ⟨[]⟩ }

section

variable {P : Prims}

/-- Everything can be written to a buffer. -/
theorem put_buffer (z : ZipStreamWriter P (Buffer IoError)) (bs : Bytes) :
    ∃ z', z.put bs = (.ok (), z') := by
  obtain ⟨w, hw, -⟩ := Buffer.willing.writeAll (w := z.out) trivial bs
  exact ⟨_, by rw [ZipStreamWriter.put, hw]⟩

theorem finish_buffer (z : ZipStreamWriter P (Buffer IoError)) : ∃ w, z.finish = (.ok (), w) := by
  have hcentrals : ∀ entries (z : ZipStreamWriter P (Buffer IoError)),
      ∃ z', z.putCentrals entries = (.ok (), z') := by
    intro entries
    induction entries with
    | nil => exact fun z => ⟨z, rfl⟩
    | cons e entries ih =>
      intro z
      obtain ⟨z₁, h₁⟩ := put_buffer z e.header
      obtain ⟨z₂, h₂⟩ := ih z₁
      exact ⟨z₂, by rw [ZipStreamWriter.putCentrals, h₁]; exact h₂⟩
  obtain ⟨z₁, h₁⟩ := hcentrals z.entries z
  have hend : ∃ z', z₁.putEnd z.entries.length z.pos = (.ok (), z') := by
    unfold ZipStreamWriter.putEnd
    dsimp only
    split
    · obtain ⟨z₂, h₂⟩ := put_buffer z₁ (endRecords64 z.entries.length z.pos (z₁.pos - z.pos) z₁.pos)
      rw [h₂]
      exact put_buffer _ _
    · exact put_buffer _ _
  obtain ⟨z₂, h₂⟩ := hend
  exact ⟨z₂.out, by rw [ZipStreamWriter.finish, h₁]; dsimp only; rw [h₂]; rfl⟩

variable {ρ : Type} [Read ρ IoError] {archive : Archive ρ} {limits : DecryptLimits}
  {s : Run (ZipStreamWriter P (Buffer IoError))} {r : ρ}

/-- An empty stored member is copied. -/
theorem copyMember_empty {name : Str} {file : FileData} {index : ℕ} (hc : file.compression = .stored)
    (hsize : file.size = 0) (hcrc : file.crc32 = 0) (ho : ∀ k, archive.byIndex k index = .ok r)
    (hr : (read r 1).1 = .ok []) :
    ∃ s', copyMember archive name file index limits s = (.ok (), s') := by
  have hopen : openMember archive index s = (.ok r, { s with opened := s.opened + 1 }) := by
    rw [openMember, ho]
    rfl
  obtain ⟨z, hz⟩ := put_buffer s.out (localHeader (utf8Encode name) methodStored
    (nameFlags (utf8Encode name)) 0 0 0 false)
  have hloop : ∀ c : ZipStreamWriter.Copying P (Buffer IoError) ρ, c.left = 0 →
      ZipStreamWriter.storedLoop.run c = (.ok (), c) := by
    intro c h0
    refine Loop.run_inl ?_
    simp only [ZipStreamWriter.storedLoop, ZipStreamWriter.storedStep, h0, Nat.lt_irrefl, if_false]
  rcases hread : read r 1 with ⟨result, r'⟩
  obtain rfl : result = .ok [] := by rw [← hr, hread]
  have hstored : s.out.stored name 0 0 r = (.ok (), z.push ⟨utf8Encode name, methodStored,
      nameFlags (utf8Encode name), 0, 0, 0, s.out.pos, false⟩, r') := by
    unfold ZipStreamWriter.stored
    rw [show decide (u32Limit ≤ 0) = false from rfl]
    dsimp only
    rw [hz]
    dsimp only
    rw [ZipStreamWriter.copyStored, hloop _ rfl]
    dsimp only
    have hempty : ({} : Hasher).finalize = 0 := by decide
    simp only [hread, hempty, ne_eq, not_true_eq_false, if_false]
  unfold copyMember
  rw [hc, hsize, hcrc]
  have hsink : ∃ s', (useSink limits (fun out => ZipSink.stored out name 0 0 r) (fun _ => []) :
      Decrypt _ (Unit × ρ)) { s with opened := s.opened + 1 } = (.ok ((), r'), s') := by
    unfold useSink
    dsimp only
    rw [show ZipSink.stored s.out name 0 0 r = _ from hstored]
    exact ⟨_, rfl⟩
  obtain ⟨s', hsink⟩ := hsink
  exact ⟨s', Prog.bind_eq_ok.2 ⟨r, _, hopen, Prog.bind_eq_ok.2 ⟨((), r'), s', hsink, rfl⟩⟩⟩

theorem rebuildMember_empty {plans : List (Str × Plan)} {stripped : Bytes} {password : Str}
    {done : Rebuilt} {file : FileData} {index : ℕ}
    (ht : treatment plans (zipEntryName file.nameRaw) = .copy) (hc : file.compression = .stored)
    (hsize : file.size = 0) (hcrc : file.crc32 = 0) (ho : ∀ k, archive.byIndex k index = .ok r)
    (hr : (read r 1).1 = .ok []) :
    ∃ s', rebuildMember P archive plans stripped password limits done (file, index) s =
      (.ok done, s') := by
  have hopen : openMember archive index s = (.ok r, { s with opened := s.opened + 1 }) := by
    rw [openMember, ho]
    rfl
  obtain ⟨s', hcopy⟩ : ∃ s', copyMember archive (zipEntryName file.nameRaw) file index limits
      { s with opened := s.opened + 1 } = (.ok (), s') := copyMember_empty hc hsize hcrc ho hr
  refine ⟨s', Prog.bind_eq_ok.2 ⟨r, _, hopen, ?_⟩⟩
  dsimp only
  rw [ht]
  exact Prog.bind_eq_ok.2 ⟨(), s', hcopy, rfl⟩

end

/-- A name of bytes that are in no UTF-8. -/
def malformedName : Bytes := List.replicate 22000 0xFF

theorem decodeChar_malformed {n : ℕ} : decodeChar (List.replicate (n + 1) 0xFF) = none := by
  have htake : (List.replicate (n + 1) (0xFF : UInt8)).take 4 = List.replicate (min 4 (n + 1)) 0xFF :=
    List.take_replicate
  unfold decodeChar
  rw [htake]
  obtain h | h | h | h : min 4 (n + 1) = 1 ∨ min 4 (n + 1) = 2 ∨ min 4 (n + 1) = 3 ∨
    min 4 (n + 1) = 4 := by omega
  all_goals rw [h]; decide

/-- Each of those bytes is replaced. -/
theorem zipEntryName_malformed (n : ℕ) :
    zipEntryName (List.replicate n 0xFF) = List.replicate n '�' := by
  have hlossy : ∀ m, lossy m (List.replicate m 0xFF) = List.replicate m '�' := by
    intro m
    induction m with
    | zero => rfl
    | succ m ih =>
      rw [List.replicate_succ, lossy.eq_3 _ _ (by simp), ← List.replicate_succ,
        decodeChar_malformed, List.replicate_succ (a := '�')]
      have hone : malformed (List.replicate (m + 1) 0xFF) = 1 := by
        rcases m with - | - | m <;> rfl
      dsimp only
      rw [hone, List.replicate_succ, List.drop_one, List.tail_cons, ih]
  unfold zipEntryName utf8Lossy
  rw [List.length_replicate, hlossy]

theorem length_utf8Encode_replicate (n : ℕ) (c : Char) :
    (utf8Encode (List.replicate n c)).length = n * c.utf8Size := by
  induction n with
  | zero => rw [Nat.zero_mul]; rfl
  | succ n ih =>
    rw [List.replicate_succ, utf8Encode_cons, List.length_append, ih, String.length_utf8EncodeChar,
      Nat.succ_mul, Nat.add_comm]

theorem treatment_malformed :
    treatment [(ascii "content.xml", ⟨sealedRow, 3, 38⟩)] (zipEntryName malformedName) = .copy := by
  obtain ⟨name, hname⟩ : ∃ name, zipEntryName malformedName = '�' :: name :=
    ⟨_, zipEntryName_malformed 22000⟩
  rw [hname]
  have hne : ∀ path : Str, path.head? ≠ some '�' → '�' :: name ≠ path :=
    fun path hp h => hp (congrArg List.head? h).symm
  have hcollapse : collapseSlashes ('�' :: name) = '�' :: collapseFrom false name := rfl
  have hmatch : memberMatchesPath ('�' :: name) manifestPath = false := by
    refine decide_eq_false ?_
    rw [hcollapse]
    rintro (h | h)
    · exact absurd (congrArg List.head? h).symm (show manifestPath.head? ≠ some '�' by decide)
    · exact absurd (congrArg List.head? h).symm (show manifestPath.head? ≠ some '�' by decide)
  have hlookup : [(ascii "content.xml", (⟨sealedRow, 3, 38⟩ : Plan))].lookup ('�' :: name) = none := by
    have hb : (('�' :: name) == ascii "content.xml") = false :=
      beq_false_of_ne fun h => absurd (congrArg List.head? h).symm
        (show (ascii "content.xml").head? ≠ some '�' by decide)
    rw [List.lookup_cons, hb]
    rfl
  rw [treatment, hmatch, hlookup]
  rfl

/-- If nothing becomes of the last member but a copy, the rebuild succeeds. -/
theorem rebuiltWith_isOk {raw : Bytes} {plans : List (Str × Plan)}
    {s : Run (ZipStreamWriter sealedPrims (Buffer IoError))}
    (hb : rebuiltBefore (folderNamed raw) = (.ok plans, s))
    (ht : treatment plans (zipEntryName raw) = .copy) :
    (rebuiltWith (folderNamed raw)).1.isOk = true := by
  unfold rebuiltBefore at hb
  obtain ⟨⟨plans', superseded⟩, s₁, hp, hb⟩ := Prog.bind_eq_ok.1 hb
  obtain ⟨u, s₂, hk, hb⟩ := Prog.bind_eq_ok.1 hb
  obtain ⟨manifest, s₃, hm, hb⟩ := Prog.bind_eq_ok.1 hb
  obtain ⟨stripped, s₄, hst, hb⟩ := Prog.bind_eq_ok.1 hb
  obtain ⟨done, s₅, he, hb⟩ := Prog.bind_eq_ok.1 hb
  rw [Prog.pure_apply, Prod.mk.injEq, Except.ok.injEq] at hb
  obtain ⟨rfl, rfl⟩ := hb
  have hempty : (packageWith (folderNamed raw)).byIndex 0 2 =
      .ok { rest := [], cuts := fun _ => chunk } :=
    rfl
  -- What is left after the run before it is the folder entry, which is copied as an
  -- empty member.
  obtain ⟨s₆, hlast⟩ : ∃ s', rebuildMember sealedPrims (packageWith (folderNamed raw)) plans' stripped
      (ascii "pw") {} done (folderNamed raw, 2) s₅ = (.ok done, s') :=
    rebuildMember_empty ht rfl rfl rfl (fun _ => hempty) rfl
  have hall : Prog.each (rebuildMember sealedPrims (packageWith (folderNamed raw)) plans' stripped
      (ascii "pw") {}) {} (packageWith (folderNamed raw)).directory.zipIdx s₄ = (.ok done, s₆) := by
    rw [← List.take_append_drop 2 (packageWith (folderNamed raw)).directory.zipIdx, Prog.each_append]
    exact Prog.bind_eq_ok.2 ⟨done, s₅, he, Prog.bind_eq_ok.2 ⟨done, s₆, hlast, rfl⟩⟩
  have hentry : perEntry sealedPrims (packageWith (folderNamed raw)) classOfSealed (ascii "pw") {}
      .streamed { out := .new sealedPrims ⟨[]⟩ } = (.ok done.weakest, s₆) := by
    unfold perEntry
    rw [Prog.bind_of_ok hp]
    dsimp only
    rw [Prog.bind_of_ok hk]
    rw [Prog.bind_of_ok hm, Prog.bind_of_ok hst, Prog.bind_of_ok hall]
    rfl
  obtain ⟨w, hf⟩ := finish_buffer s₆.out
  unfold rebuiltWith intoZip
  rw [show Run.withOut _ _ = ({ out := .new sealedPrims ⟨[]⟩ } : Run _) from rfl, hentry]
  dsimp only
  rw [hf]
  rfl

theorem rebuiltBefore_malformed : (rebuiltBefore (folderNamed malformedName)).1.toOption =
    some [(ascii "content.xml", ⟨sealedRow, 3, 38⟩)] := by decide +kernel

/-- A package with such a name is classified and rebuilt; the name has 66000 bytes then. -/
theorem not_namesSurvive :
    classifyLatched sealedPrims.xmlReader (.ok (packageWith (folderNamed malformedName))) =
        .ok classOfSealed ∧
      (rebuiltWith (folderNamed malformedName)).1.isOk = true ∧
      ¬ NamesSurvive (rebuiltNames (packageWith (folderNamed malformedName)).directory)
        (rebuiltWith (folderNamed malformedName)).2.out.bytes := by
  refine ⟨classified_sealed malformedName, ?_, ?_⟩
  · have hbefore := rebuiltBefore_malformed
    rcases hb : rebuiltBefore (folderNamed malformedName) with ⟨result, s⟩
    rw [hb] at hbefore
    obtain rfl := Except.toOption_eq_some.1 hbefore
    exact rebuiltWith_isOk hb treatment_malformed
  · intro h
    have hmem : utf8Encode (zipEntryName malformedName) ∈
        rebuiltNames (packageWith (folderNamed malformedName)).directory :=
      List.mem_map.2 ⟨folderNamed malformedName, .tail _ (.tail _ (.head _)), rfl⟩
    have hlt := h.fits _ hmem
    rw [show zipEntryName malformedName = _ from zipEntryName_malformed 22000,
      length_utf8Encode_replicate] at hlt
    exact absurd hlt (by decide)

/-- A package with a short name. -/
theorem intoZip_namesSurvive_iff_sample :
    classifyLatched sealedPrims.xmlReader (.ok (packageWith (folderNamed [0x41]))) = .ok classOfSealed ∧
      NamesSurvive (rebuiltNames (packageWith (folderNamed [0x41])).directory)
        (rebuiltWith (folderNamed [0x41])).2.out.bytes := by
  refine ⟨classified_sealed [0x41], ?_⟩
  have hok : (rebuiltWith (folderNamed [0x41])).1.toOption = some .verified := by decide +kernel
  have hlen : (rebuiltWith (folderNamed [0x41])).2.out.bytes.length < 2 ^ 64 := by decide +kernel
  have hrun : rebuiltWith (folderNamed [0x41]) = (.ok .verified, (rebuiltWith (folderNamed [0x41])).2) :=
    Except.eq_of_toOption hok
  unfold rebuiltWith at hrun
  obtain ⟨out, w, hw, hflush, hiff⟩ := intoZip_namesSurvive_iff hrun
  rw [← rebuiltWith] at hflush
  generalize (rebuiltWith (folderNamed [0x41])).2.out = w' at hflush hlen ⊢
  obtain rfl : w = w' := (Prod.mk.inj hflush).2
  rw [Buffer.writes hw, List.nil_append] at hlen ⊢
  exact (hiff hlen).2 (by decide)

end OdfCrypto
