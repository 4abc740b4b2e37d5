import OdfCrypto.DecryptStream
import OdfCrypto.Stream.Legacy

/-!
# Decrypting: the members of a package

The per-entry half of decryption (`decrypt_entries.rs`): every encrypted row is
screened against its member, then the package is rebuilt member by member: the
manifest stripped, the members of rows decrypted, and the others as they are.
-/

namespace OdfCrypto

open ByteStream Text Crc32

def manifestPath : Str := ascii "META-INF/manifest.xml"

def integrityOf (row : EntryEncryption) : IntegrityOutcome :=
  match row.cipher with
  | .aesGcmW3c => .verified
  | .aesCbcW3c => .passwordCheckOnly
  | .blowfishCfb8 => .passwordCheckOnly

/-- One encrypted member, screened. -/
structure Plan where
  row : EntryEncryption
  expected : ℕ
  len : ℕ
  deriving DecidableEq

/-! ### Where deflated data comes from -/

/-- The CRC and the length of what a reader reads to its end. -/
def crcToEnd {σ : Type} [Read σ IoError] (r : σ) : Except ZipStreamError (UInt32 × ℕ) × σ :=
  match eachPiece chunk ZipStreamError.read
      (fun (hasher, total) bs => (.ok (), hasher.update bs, total + bs.length))
      ((({}, 0) : Hasher × ℕ)) r with
  | (.ok (), (hasher, total), r) => (.ok (hasher.finalize, total), r)
  | (.error e, _, r) => (.error e, r)

theorem crcToEnd_drawn {σ : Type} [Read σ IoError] {r r' : σ}
    {result : Except ZipStreamError (UInt32 × ℕ)} (h : crcToEnd r = (result, r')) :
    ∃ bs, Drawn r bs r' := by
  unfold crcToEnd at h
  split at h <;> next he => cases h; exact eachPiece_drawn he

theorem crcToEnd_ok {σ : Type} [Read σ IoError] {r r' : σ} {a : UInt32 × ℕ}
    (h : crcToEnd r = (.ok a, r')) :
    ∃ bs r₁, Reads r bs r₁ ∧ read r₁ chunk = (.ok [], r') := by
  unfold crcToEnd at h
  split at h
  · next he =>
    cases h
    obtain ⟨bs, r₁, hr, hend, -⟩ :=
      eachPiece_ok (fun _ _ _ => True) (fun _ => trivial) (fun _ _ => trivial) he
    exact ⟨bs, r₁, hr, hend⟩
  · cases h

/-- Report that a member could not be opened. -/
def corruptZip {α : Type} (opened : Except ZipError α) : Except ZipStreamError α :=
  opened.mapError fun e => .corrupt e.message

/-- A member that is deflated in the archive, as it is. -/
structure PlainDeflated (ρ : Type) where
  archive : Archive ρ
  opened : ℕ
  index : ℕ

section

variable {ρ : Type} [Read ρ IoError]

namespace PlainDeflated

/-- Open the member, inflated. -/
def openNext (src : PlainDeflated ρ) : Except ZipStreamError ρ × PlainDeflated ρ :=
  (corruptZip (src.archive.byIndex src.opened src.index), { src with opened := src.opened + 1 })

/-- Open the member, as it is stored. -/
def openRaw (src : PlainDeflated ρ) : Except ZipStreamError ρ × PlainDeflated ρ :=
  (corruptZip (src.archive.byIndexRaw src.opened src.index), { src with opened := src.opened + 1 })

/-- Copy the member as it is stored, then check it by inflating it. -/
def copy {ω : Type} [Write ω IoError] (src : PlainDeflated ρ) (out : ω) :
    Except ZipStreamError (UInt32 × ℕ) × PlainDeflated ρ × ω :=
  match src.openRaw with
  | (.error e, src) => (.error e, src, out)
  | (.ok raw, src) =>
    match eachPiece chunk ZipStreamError.read (writePiece ZipStreamError.write) out raw with
    | (.error e, out, _) => (.error e, src, out)
    | (.ok (), out, _) =>
      match src.openNext with
      | (.error e, src) => (.error e, src, out)
      | (.ok file, src) => ((crcToEnd file).1, src, out)

instance : DeflatedSource (PlainDeflated ρ) where
  Inner := ρ
  readInner := inferInstance
  openInflated := openNext
  closeInflated _ src := src
  copyDeflated := copy

end PlainDeflated

end

/-- A writer that keeps the first error of the one under it. -/
structure LatchedWrite (ω : Type) where
  out : ω
  failed : Option IoError := none

namespace LatchedWrite

variable {ω : Type} [Write ω IoError]

def next (t : LatchedWrite ω) (bs : Bytes) : Except IoError ℕ × LatchedWrite ω :=
  match write t.out bs with
  | (.ok n, out) => (.ok n, { t with out })
  | (.error e, out) =>
    (.error (.simple e.kind (ascii "writing the output failed")),
      { out, failed := t.failed.or (some e) })

variable {t t' : LatchedWrite ω} {bs : Bytes} {n : ℕ} {e : IoError}

theorem next_ok (h : t.next bs = (.ok n, t')) :
    write t.out bs = (.ok n, t'.out) ∧ t'.failed = t.failed := by
  unfold next at h
  split at h
  · next hw => cases h; exact ⟨hw, rfl⟩
  · cases h

theorem next_error (h : t.next bs = (.error e, t')) :
    ∃ e', write t.out bs = (.error e', t'.out) ∧ t'.failed = t.failed.or (some e') ∧
      e = .simple e'.kind (ascii "writing the output failed") := by
  unfold next at h
  split at h
  · cases h
  · next e' out hw => cases h; exact ⟨e', hw, rfl, rfl⟩

instance : Write (LatchedWrite ω) IoError where
  write := next
  patience t := patience t.out
  le_length h := Write.le_length (next_ok h).1
  patience_le h := Write.patience_le (next_ok h).1
  patience_lt h hi := by
    obtain ⟨e', hw, -, rfl⟩ := next_error h
    exact Write.patience_lt hw hi

end LatchedWrite

/-- A member that is decrypted, still deflated; `given` is what was handed out of
    it inflated. -/
structure EncryptedDeflated (P : Prims) (σ : Type) where
  deflated : σ
  expected : ℕ
  limit : ℕ
  given : List ℕ := []

namespace EncryptedDeflated

variable {P : Prims} {σ : Type} [Read σ IoError]

/-- The source after some inflating. -/
def after {τ : Type} (src : EncryptedDeflated P σ) (inflate : Inflating P σ τ) :
    EncryptedDeflated P σ :=
  { src with deflated := inflate.inner.src, given := src.given ++ inflate.given }

/-- Copy the deflated data as the inflater uses it. -/
def copy {ω : Type} [Write ω IoError] (src : EncryptedDeflated P σ) (out : ω) :
    Except ZipStreamError (UInt32 × ℕ) × EncryptedDeflated P σ × ω :=
  let inflate : Inflating P σ (LatchedWrite ω) :=
    ⟨.withTap P.inflater src.deflated src.expected src.limit ⟨out, none⟩, []⟩
  let (result, inflate) := crcToEnd inflate
  match inflate.inner.tap.failed with
  | some e => (.error (.write e), src.after inflate, inflate.inner.tap.out)
  | none => (result, src.after inflate, inflate.inner.tap.out)

instance : DeflatedSource (EncryptedDeflated P σ) where
  Inner := Inflating P σ (Sink IoError)
  readInner := inferInstance
  openInflated src := (.ok ⟨.new P.inflater src.deflated src.expected src.limit, []⟩, src)
  closeInflated inflate src := src.after inflate
  copyDeflated := copy

omit [Read σ IoError] in
@[simp] theorem given_after {τ : Type} (src : EncryptedDeflated P σ) (inflate : Inflating P σ τ) :
    (src.after inflate).given = src.given ++ inflate.given := rfl

theorem copy_drawn {ω : Type} [Write ω IoError] {src src' : EncryptedDeflated P σ} {out out' : ω}
    {result : Except ZipStreamError (UInt32 × ℕ)} (h : src.copy out = (result, src', out')) :
    ∃ (inflate : Inflating P σ (LatchedWrite ω)) (bs : Bytes),
      Drawn ⟨.withTap P.inflater src.deflated src.expected src.limit ⟨out, none⟩, []⟩ bs inflate ∧
        src' = src.after inflate := by
  unfold copy at h
  dsimp only at h
  rcases hc : crcToEnd (⟨.withTap P.inflater src.deflated src.expected src.limit ⟨out, none⟩, []⟩ :
    Inflating P σ (LatchedWrite ω)) with ⟨r, inflate⟩
  rw [hc] at h
  obtain ⟨bs, hd⟩ := crcToEnd_drawn hc
  dsimp only at h
  split at h <;> cases h <;> exact ⟨inflate, bs, hd, rfl⟩

theorem copy_ok {ω : Type} [Write ω IoError] {src src' : EncryptedDeflated P σ} {out out' : ω}
    {a : UInt32 × ℕ} (h : src.copy out = (.ok a, src', out')) :
    ∃ (inflate inflate' : Inflating P σ (LatchedWrite ω)) (bs : Bytes),
      Reads ⟨.withTap P.inflater src.deflated src.expected src.limit ⟨out, none⟩, []⟩ bs inflate ∧
        read inflate chunk = (.ok [], inflate') ∧ src' = src.after inflate' := by
  unfold copy at h
  dsimp only at h
  rcases hc : crcToEnd (⟨.withTap P.inflater src.deflated src.expected src.limit ⟨out, none⟩, []⟩ :
    Inflating P σ (LatchedWrite ω)) with ⟨r, inflate⟩
  rw [hc] at h
  dsimp only at h
  split at h
  · cases h
  · cases h
    obtain ⟨bs, inflate₁, hr, hend⟩ := crcToEnd_ok hc
    exact ⟨inflate₁, inflate, bs, hr, hend, rfl⟩

/-- However a sink uses the source, what was handed out is within the limit, and no
    longer than was announced. -/
theorem given_le {src src' : EncryptedDeflated P σ} (h : Used src src') :
    src'.given.sum ≤ src.given.sum + src.limit ∧
      src'.given.sum ≤ src.given.sum + src.expected := by
  cases h with
  | unused => exact ⟨Nat.le_add_right _ _, Nat.le_add_right _ _⟩
  | refused h => cases h
  | read h hr =>
    cases h
    have h := drawn_given hr
    rw [show closeInflated _ src = src.after _ from rfl, given_after, List.sum_append]
    exact ⟨Nat.add_le_add_left h.1 _, Nat.add_le_add_left h.2 _⟩
  | copied h =>
    obtain ⟨inflate, bs, hd, rfl⟩ := copy_drawn h
    have h := drawn_given hd
    rw [given_after, List.sum_append]
    exact ⟨Nat.add_le_add_left h.1 _, Nat.add_le_add_left h.2 _⟩

/-- A sink that uses up the source is given all that was announced. -/
theorem given_eq {src src' : EncryptedDeflated P σ} (h : UsedUp src src') :
    src'.given.sum = src.given.sum + src.expected := by
  cases h with
  | read h hr hend =>
    cases h
    rw [show closeInflated _ src = src.after _ from rfl, given_after, List.sum_append,
      reads_given hr hend (by decide)]
  | copied h =>
    obtain ⟨inflate, inflate', bs, hr, hend, rfl⟩ := copy_ok h
    rw [given_after, List.sum_append, reads_given hr hend (by decide)]

end EncryptedDeflated

/-! ### One member -/

section

variable {ρ σ S : Type} [Read ρ IoError] [Read σ IoError] [ZipSink S] (P : Prims)

/-- A reader of the plaintext of a member that is not AES-GCM. -/
def gated (file : ρ) (row : EntryEncryption) (key : Bytes) :
    Except Fault (ChecksumGate P (LegacyReader P ρ)) := do
  let plain ← match row.cipher with
    | .aesCbcW3c => (CbcDecryptReader.new P file key row.iv).map LegacyReader.cbc
    | .blowfishCfb8 => (BlowfishDecryptReader.new P file key row.iv).map LegacyReader.blowfish
    | .aesGcmW3c => .error (.internal (ascii "an AES-GCM member reached the checksum path"))
  return { src := plain, checksum := row.checksum }

/-- Use the sink of a run, and log some events besides. -/
def useSink {ω α β : Type} (limits : DecryptLimits)
    (f : ω → Except ZipStreamError α × ω × β) (events : β → List Event) :
    Decrypt ω (α × β) := fun s =>
  let (result, out, b) := f s.out
  ((result.map fun a => (a, b)).mapError (zipStreamError limits),
    { s with out, log := s.log ++ events b })

/-- Inflate what is decrypted of a member into the sink. -/
def writeInflated (name : Str) (row : EntryEncryption) (index expected : ℕ)
    (limits : DecryptLimits) (deflated : σ) : Decrypt S σ := do
  let src : EncryptedDeflated P σ := { deflated, expected, limit := limits.maxOutputBytes }
  let (_, src) ← useSink limits (fun out => ZipSink.deflatedFrom out name expected src)
    fun src => releases row index src.given
  return src.deflated

variable (archive : Archive ρ) (index : ℕ) (row : EntryEncryption)

/-- Whether the checksum of a member accepts a key. -/
def checksumAccepts {ω : Type} (limits : DecryptLimits) (key : Bytes) : Decrypt ω Bool := do
  let file ← openMember archive index
  let gate ← Prog.lift ((gated P file row key).mapError (faultError limits))
  match gate.verify.1 with
  | .ok () => return true
  | .error e =>
    match Fault.take e with
    | .ok .wrongPassword => return false
    | .ok other => .fail (faultError limits other)
    | .error e => .fail (.zip e.text)

/-- The key of a member, by its checksum. -/
def checksumKey {ω : Type} (password : Str) (limits : DecryptLimits) : Decrypt ω Bytes := do
  let key ← findKey P row password limits (checksumAccepts P archive index row limits)
  record (.accepted row index key)
  return key

/-- Check the password against a member. -/
def keyFor {ω : Type} (plan : Plan) (password : Str) (limits : DecryptLimits) :
    Decrypt ω Unit := do
  match plan.row.cipher with
  | .aesGcmW3c => let _ ← gcmKey P archive index plan.row plan.len password limits
  | _ => let _ ← checksumKey P archive index plan.row password limits

/-- Decrypt a member into the sink. -/
def decryptMember (name : Str) (plan : Plan) (password : Str) (limits : DecryptLimits) :
    Decrypt S Unit := do
  record (.decrypting plan.row index)
  if plan.row.cipher = .aesGcmW3c then
    gcmMember P archive index plan.row plan.len password limits
      (writeInflated P name plan.row index plan.expected limits)
  else
    let key ← checksumKey P archive index plan.row password limits
    let file ← openMember archive index
    let gate ← Prog.lift ((gated P file plan.row key).mapError (faultError limits))
    let plain ← writeInflated P name plan.row index plan.expected limits gate
    let _ ← drain plain

end

/-! ### The whole package -/

section

variable {ρ ω : Type} [Read ρ IoError] (archive : Archive ρ)

/-- Screen a row: its plan, and the plan that it takes the place of. -/
def planRow (sizes : Sizes) (plans : List (Str × Plan) × List (ℕ × Plan))
    (row : EntryEncryption × ℕ) : Decrypt ω (List (Str × Plan) × List (ℕ × Plan)) := do
  let (row, rowIndex) := row
  let expected ← Prog.lift (sizes.declared row.size)
  let (index, name) ← memberForArchive archive row.path (noMember rowIndex)
  let (len, head) ← memberShape archive index
  Prog.lift (screenShape row len head)
  record (.screened row index len head)
  -- a row for a name that is planned takes its place, and the earlier plan is kept for
  -- its key
  let superseded := match plans.1.lookup name with
    | some earlier => plans.2 ++ [(index, earlier)]
    | none => plans.2
  return (Assoc.assign name ⟨row, expected, len⟩ plans.1, superseded)

/-- Screen every row. -/
def planRows (cls : Classification) (sizes : Sizes) :
    Decrypt ω (List (Str × Plan) × List (ℕ × Plan)) :=
  Prog.each (planRow archive sizes) ([], []) cls.encryptedEntries.zipIdx

def readManifest : Decrypt ω Bytes := do
  let (index, _) ← memberForArchive archive manifestPath
    (.internal (ascii "the manifest classify read is not in the archive"))
  let file ← openMember archive index
  let buf ← Prog.lift ((readToEnd readProbe (Take.mk file (manifestReadCap + 1))).1.mapError readError)
  if manifestReadCap < buf.length then .fail (.zip (ascii "zip entry too large")) else return buf

/-- The text of a compression method. -/
def CompressionMethod.text : CompressionMethod → Str
  | .stored => ascii "Stored"
  | .deflated => ascii "Deflated"
  | .other id => ascii "Unsupported(" ++ decimal id ++ ascii ")"

/-- The error of a member that cannot be written again. -/
def cannotRewrite (name : Str) (method : CompressionMethod) : DecryptError :=
  .zip (ascii "member " ++ debugText name ++ ascii " uses compression " ++ method.text ++
    ascii ", which cannot be re-written")
where
  /-- A name in quotes. -/
  debugText (name : Str) : Str :=
    '"' :: name.flatMap (fun c => if c = '"' ∨ c = '\\' then ['\\', c] else [c]) ++ ['"']

end

section

variable {ρ S : Type} [Read ρ IoError] [ZipSink S] (P : Prims) (archive : Archive ρ)

/-- Copy a member as it is. -/
def copyMember (name : Str) (file : FileData) (index : ℕ) (limits : DecryptLimits) :
    Decrypt S Unit :=
  match file.compression with
  | .stored => do
    let data ← openMember archive index
    let _ ← useSink limits (fun out => ZipSink.stored out name file.crc32 file.size data) fun _ => []
  | .deflated => fun s =>
    let (result, out, src) :=
      ZipSink.deflatedFrom s.out name file.size (PlainDeflated.mk archive s.opened index)
    ((result.map fun _ => ()).mapError (zipStreamError limits),
      { s with out, opened := src.opened })
  | method => .fail (cannotRewrite name method)

/-- Name the caller's limit, where it was a member's remaining one. -/
def withTotalLimit (limits : DecryptLimits) : DecryptError → DecryptError
  | .outputLimit _ => .outputLimit limits.maxOutputBytes
  | e => e

/-- What becomes of a member in the rebuilt package. -/
inductive Treatment
  | manifest
  | decrypt (plan : Plan)
  | copy
  deriving DecidableEq

/-- Decide by the name of a member. -/
def treatment (plans : List (Str × Plan)) (name : Str) : Treatment :=
  if memberMatchesPath name manifestPath then .manifest
  else
    match plans.lookup name with
    | some plan => .decrypt plan
    | none => .copy

/-- The weakest check so far, and how much was announced for the members decrypted
    so far. -/
structure Rebuilt where
  weakest : IntegrityOutcome := .verified
  produced : ℕ := 0
  deriving DecidableEq

/-- The state after a member that was decrypted. -/
def Rebuilt.add (done : Rebuilt) (plan : Plan) : Rebuilt where
  weakest := if integrityOf plan.row = .passwordCheckOnly then .passwordCheckOnly else done.weakest
  produced := done.produced + plan.expected

/-- Rebuild one member. -/
def rebuildMember (plans : List (Str × Plan)) (stripped : Bytes) (password : Str)
    (limits : DecryptLimits) (done : Rebuilt) (entry : FileData × ℕ) : Decrypt S Rebuilt := do
  let (file, index) := entry
  let _ ← openMember archive index
  let name := zipEntryName file.nameRaw
  match treatment plans name with
  | .manifest =>
    let _ ← useSink limits (fun out =>
      let whole : Pieces IoError := { rest := stripped, cuts := fun _ => stripped.length }
      ZipSink.deflated out name stripped.length whole) fun _ => []
    return done
  | .decrypt plan =>
    -- the limit is over all members
    let budget := limits.maxOutputBytes - done.produced
    (decryptMember P archive index name plan password
      { limits with maxOutputBytes := budget }).mapError (withTotalLimit limits)
    return done.add plan
  | .copy =>
    copyMember archive name file index limits
    return done

/-- Rebuild a per-entry package. -/
def perEntry (cls : Classification) (password : Str) (limits : DecryptLimits) (sizes : Sizes) :
    Decrypt S IntegrityOutcome := do
  let (plans, superseded) ← planRows archive cls sizes
  let () ← Prog.each (fun () (index, plan) => keyFor P archive index plan password limits) ()
    superseded
  let manifest ← readManifest archive
  let stripped ← Prog.lift (stripManifest P.xmlReader manifest)
  let done ← Prog.each (rebuildMember P archive plans stripped password limits) {}
    archive.directory.zipIdx
  return done.weakest

end

end OdfCrypto
