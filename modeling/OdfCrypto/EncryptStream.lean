import OdfCrypto.DecryptRun
import OdfCrypto.Encrypt

/-!
# Encrypting

`encrypt_with_params_to`, from a caller's reader to a caller's writer, and
`encrypt_slice`, which is held to a ceiling (`encrypt_stream.rs`). The document is
classified first; then it is read again from the start, deflated and sealed as it
is read.

* `encryptRun_ok`: what a run that succeeds has made of its document.
-/

namespace OdfCrypto

open ByteStream Text

/-- A caller's reader that is also read as it is: where each of the run's own seeks
    ends, and what there is to read after them. -/
structure Document (ρ δ : Type*) extends Source ρ where
  seek : (n : ℕ) → Except IoError ℕ
  reader : δ

namespace EncryptError

/-- An error of the zip crate's writer. -/
def ofZip : ZipError → EncryptError
  | .io e => .io e
  | e => .zip e.message

def ofFault : Fault → EncryptError
  | .alloc n => .hostCannotAllocate n
  | .deflate s => .deflate s
  | other => .internal other.text

/-- An error of the output side: a fault is the crate's, anything else the writer's. -/
def ofWrite (e : IoError) : EncryptError :=
  match Fault.take e with
  | .ok fault => ofFault fault
  | .error e => .io e

end EncryptError

/-- A part of a run of `encrypt_with_params_to`. -/
abbrev Encrypting (ω : Type) := Prog ω EncryptError

section

variable {ρ δ ζ ω : Type} [Read ρ IoError] [Read δ IoError] (P : Prims)

namespace Encrypting

/-- Start a member in the zip crate's writer. -/
def startMember [CrateWriter ζ] (name : Str) (method : CompressionMethod) (largeFile : Bool) :
    Encrypting ζ Unit := fun zip =>
  let (result, zip) := startFile zip name method largeFile
  (result.mapError .ofZip, zip)

/-- Write to the output. -/
def write [Write ω IoError] (bs : Bytes) : Encrypting ω Unit := fun out => writePiece .io out bs

/-- End the archive in the zip crate's writer. -/
def finish [CrateWriter ζ] : Encrypting ζ Unit := fun zip =>
  let (result, zip) := finishArchive zip
  (result.mapError .ofZip, zip)

/-- Copy the document into the deflater. -/
def pump [Write ω IoError] (src : δ) (dst : DeflateWriter P ω) :
    Except EncryptError Unit × DeflateWriter P ω :=
  let (result, dst, _) := eachPiece chunk .io (writePiece .ofWrite) dst src
  (result, dst)

/-- Deflate and seal the document, with the tag after it. -/
def payload [Write ω IoError] (gcm : GcmStream) (src : δ) (size : ℕ) : Encrypting ω Unit := fun out =>
  match pump P src (.adaptive P (⟨out, gcm⟩ : GcmEncryptWriter P ω)) with
  | (.error e, deflate) => (.error e, deflate.dst.dst)
  | (.ok (), deflate) =>
    if deflate.consumed ≠ size then
      (.error (.internal (ascii "read " ++ decimal deflate.consumed ++ ascii " bytes of a " ++
        decimal size ++ ascii "-byte input")), deflate.dst.dst)
    else
      match deflate.finish with
      | (.error e, sealer) => (.error (.ofWrite e), sealer.dst)
      | (.ok (), sealer) =>
        let (result, out) := sealer.finish
        (result.mapError .ofWrite, out)

/-- Write the members of the new package. -/
def members [CrateWriter ζ] (src : δ) (size : ℕ) (mimetype : Option Str) (key iv salt : Bytes)
    (params : Argon2Params) : Encrypting ζ Unit := do
  startMember (ascii "mimetype") .stored false
  write ((mimetype.map utf8Encode).getD [])
  let worst := iv.length + aesGcmTagLen + deflateBound size
  startMember (ascii "encrypted-package") .stored (u32Limit ≤ worst)
  write iv
  match GcmStream.new P key iv with
  | none => Prog.fail (.internal (ascii "AES-256-GCM key"))
  | some gcm => payload P gcm src size
  startMember manifestPath .deflated false
  write (buildManifest size iv salt mimetype params)
  finish

/-- Write the new package, with the zip crate's own writer. -/
def package (ζ : Type) [CrateOver ζ ω] (src : δ) (size : ℕ) (mimetype : Option Str)
    (key iv salt : Bytes) (params : Argon2Params) : Encrypting ω Unit := fun out =>
  let (result, zip) := members P src size mimetype key iv salt params (CrateOver.wrap out : ζ)
  (result, CrateOver.unwrap zip)

end Encrypting

/-- The run of `encrypt_with_params_to`, and of `encrypt_slice`, which has a ceiling. -/
def encryptRun (ζ : Type) [CrateOver ζ ω] (src : Document ρ δ) (random : Random) (password : Str)
    (params : Argon2Params) (ceiling : Option ℕ) : Encrypting ω Unit := do
  let cls ← Prog.lift ((classifyLatched P.xmlReader (src.openArchive 0)).mapError .classify)
  Prog.lift (screenInput cls)
  let _ ← Prog.lift ((src.seek 0).mapError .io)
  let archive ← Prog.lift ((src.openArchive 1).mapError fun e => .zip e.message)
  let mimetype ← Prog.lift (resolveMimetype archive 0 cls.mediaType)
  let size ← Prog.lift ((src.seek 1).mapError .io)
  let _ ← Prog.lift ((src.seek 2).mapError .io)
  match ceiling.filter (· < size) with
  | some ceiling =>
    Prog.fail (.deflate (ascii "input " ++ decimal size ++ ascii " bytes exceeds ceiling " ++
      decimal ceiling))
  | none =>
    if 2 ^ 63 ≤ size then Prog.fail (.internal (ascii "input of " ++ decimal size ++ ascii " bytes"))
    else do
      let salt ← Prog.lift random.salt
      let iv ← Prog.lift random.iv
      let key ← Prog.lift (deriveWriteKey P password salt params)
      Encrypting.package P ζ src.reader size mimetype key iv salt params

/-- Encrypt a document to a writer. The reader's own error comes before whatever
    was made of it. -/
def encryptWithParamsTo (ζ : Type) [CrateOver ζ ω] (src : Document ρ δ) (writer : ω)
    (random : Random) (password : Str) (params : Argon2Params) : Except EncryptError Unit × ω :=
  if password.isEmpty then (.error .emptyPassword, writer)
  else
    let (result, out) := encryptRun P ζ src random password params none writer
    match src.latch.take with
    | some e => (.error (.io e), out)
    | none => (result, out)

/-- Encrypt a document in memory; the source is over a cursor, which never fails. -/
def encryptSlice (ζ : Type) [CrateOver ζ (Buffer IoError)] (src : Document ρ δ) (random : Random)
    (password : Str) (params : Argon2Params) (ceiling : ℕ) : Except EncryptError Bytes :=
  if password.isEmpty then .error .emptyPassword
  else
    let (result, out) := encryptRun P ζ src random password params (some ceiling) ⟨[]⟩
    result.map fun () => out.bytes

/-! ### What a run has made of its document -/

section

variable {P : Prims} {ζ : Type} [CrateOver ζ ω] {src : Document ρ δ} {random : Random}
  {password : Str} {params : Argon2Params} {ceiling : Option ℕ} {out out' : ω}

/-- A run that succeeds has classified its document, found its media type and its
    size, and written the package of them. -/
theorem encryptRun_ok (h : encryptRun P ζ src random password params ceiling out = (.ok (), out')) :
    ∃ (cls : Classification) (archive : Archive ρ) (mimetype : Option Str) (size : ℕ)
        (salt iv key : Bytes),
      classifyLatched P.xmlReader (src.openArchive 0) = .ok cls ∧ screenInput cls = .ok () ∧
      src.openArchive 1 = .ok archive ∧ resolveMimetype archive 0 cls.mediaType = .ok mimetype ∧
      src.seek 1 = .ok size ∧ (∀ c ∈ ceiling, size ≤ c) ∧ size < 2 ^ 63 ∧
      random.salt = .ok salt ∧ random.iv = .ok iv ∧
      deriveWriteKey P password salt params = .ok key ∧
      Encrypting.package P ζ src.reader size mimetype key iv salt params out = (.ok (), out') := by
  obtain ⟨cls, hcls, h⟩ := Prog.lift_bind_eq_ok.1 h
  obtain ⟨_, hscreen, h⟩ := Prog.lift_bind_eq_ok.1 h
  obtain ⟨_, -, h⟩ := Prog.lift_bind_eq_ok.1 h
  obtain ⟨archive, hopen, h⟩ := Prog.lift_bind_eq_ok.1 h
  obtain ⟨mimetype, hmime, h⟩ := Prog.lift_bind_eq_ok.1 h
  obtain ⟨size, hsize, h⟩ := Prog.lift_bind_eq_ok.1 h
  obtain ⟨_, -, h⟩ := Prog.lift_bind_eq_ok.1 h
  -- A ceiling that is passed ends the run here.
  rcases hceiling : ceiling.filter (· < size) with _ | c
  swap
  · rw [hceiling] at h
    cases h
  rw [hceiling] at h
  rcases Prog.ite_eq_ok.1 h with ⟨-, h⟩ | ⟨hlt, h⟩
  · cases h
  obtain ⟨salt, hsalt, h⟩ := Prog.lift_bind_eq_ok.1 h
  obtain ⟨iv, hiv, h⟩ := Prog.lift_bind_eq_ok.1 h
  obtain ⟨key, hkey, h⟩ := Prog.lift_bind_eq_ok.1 h
  have hle : ∀ c ∈ ceiling, size ≤ c := by
    rintro c rfl
    simpa [Option.filter] using hceiling
  exact ⟨cls, archive, mimetype, size, salt, iv, key, Except.mapError_eq_ok.1 hcls, hscreen,
    Except.mapError_eq_ok.1 hopen, hmime, Except.mapError_eq_ok.1 hsize, hle, Nat.lt_of_not_le hlt,
    hsalt, hiv, hkey, h⟩

/-- A call that succeeds is a run that does. -/
theorem encryptWithParamsTo_ok
    (h : encryptWithParamsTo P ζ src out random password params = (.ok (), out')) :
    encryptRun P ζ src random password params none out = (.ok (), out') := by
  unfold encryptWithParamsTo at h
  split at h
  · cases h
  · rcases hr : encryptRun P ζ src random password params none out with ⟨result, out₁⟩
    simp only [hr] at h
    split at h
    · cases h
    · exact h

theorem encryptSlice_ok {ζ : Type} [CrateOver ζ (Buffer IoError)] {c : ℕ} {bytes : Bytes}
    (h : encryptSlice P ζ src random password params c = .ok bytes) :
    ∃ out, encryptRun P ζ src random password params (some c) ⟨[]⟩ = (.ok (), out) := by
  unfold encryptSlice at h
  split at h
  · cases h
  · rcases hr : encryptRun P ζ src random password params (some c) ⟨[]⟩ with ⟨result, out⟩
    simp only [hr, Except.map_eq_ok] at h
    obtain ⟨_, hresult, -⟩ := h
    exact ⟨out, by rw [hr, hresult]⟩

end

end

end OdfCrypto
