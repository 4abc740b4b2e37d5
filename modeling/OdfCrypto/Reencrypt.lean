import OdfCrypto.DecryptRun
import OdfCrypto.Encrypt

/-!
# Changing the password

`reencrypt_to` (`reencrypt.rs`): the source is decrypted and the result encrypted
in one pass. The deflated stream of a wholesome source is sealed anew as it is,
and inflated besides to check it; a source with encrypted members is rebuilt as a
plain package, which becomes the new payload.

The events of a run are those of opening its source: the derivation of the new
key is not among them.
-/

namespace OdfCrypto

open ByteStream Text

inductive ReencryptError
  | decrypt (e : DecryptError)
  | encrypt (e : EncryptError)
  | partiallyEncrypted
  | unexpectedStreams
  | io (e : IoError)
  deriving DecidableEq

namespace ReencryptError

def ofDecrypt : DecryptError → ReencryptError
  | .io e => .io e
  | e => .decrypt e

def ofEncrypt : EncryptError → ReencryptError
  | .io e => .io e
  | e => .encrypt e

/-- An error of the zip crate's writer. -/
def ofZip : ZipError → ReencryptError
  | .io e => .io e
  | e => .encrypt (.zip e.message)

/-- A fault where only a failed allocation is expected. -/
def ofFault : Fault → ReencryptError
  | .alloc n => .encrypt (.hostCannotAllocate n)
  | fault => .encrypt (.internal fault.text)

/-- An error of writing through the compressor. -/
def ofWrite (e : IoError) : ReencryptError :=
  match Fault.take e with
  | .ok (.deflate s) => .encrypt (.deflate s)
  | .ok fault => ofFault fault
  | .error e => .io e

/-- An error of reading through the inflater, or through a `Tee`. -/
def ofRead (limits : DecryptLimits) (e : IoError) : ReencryptError :=
  match Fault.take e with
  | .ok fault => ofDecrypt (faultError limits fault)
  | .error (.outputFailed e) => .io e
  | .error e => .decrypt (.zip e.text)

end ReencryptError

/-- A part of a run of `reencrypt_to`. -/
abbrev Reencrypt (ω : Type) := Prog (Run ω) ReencryptError

/-! ### A reader that copies -/

/-- A reader that writes all that is read through it. -/
structure Tee (σ τ : Type) where
  src : σ
  dst : τ

namespace Tee

variable {σ τ : Type} [Read σ IoError] [Write τ IoError]

def next (t : Tee σ τ) (n : ℕ) : Except IoError Bytes × Tee σ τ :=
  match read t.src n with
  | (.error e, src) => (.error e, { t with src })
  | (.ok bs, src) =>
    match writeAll t.dst bs with
    | (.error e, dst) => (.error (.outputFailed e), ⟨src, dst⟩)
    | (.ok (), dst) => (.ok bs, ⟨src, dst⟩)

variable {t t' : Tee σ τ} {n : ℕ} {bs : Bytes} {e : IoError}

theorem next_ok (h : t.next n = (.ok bs, t')) :
    read t.src n = (.ok bs, t'.src) ∧ writeAll t.dst bs = (.ok (), t'.dst) := by
  unfold next at h
  split at h
  · cases h
  · next hr =>
    split at h
    · cases h
    · next hw => cases h; exact ⟨hr, hw⟩

theorem next_error (h : t.next n = (.error e, t')) (hi : interrupted e) :
    read t.src n = (.error e, t'.src) ∧ t'.dst = t.dst := by
  unfold next at h
  split at h
  · next hr => cases h; exact ⟨hr, rfl⟩
  · split at h
    · cases h; cases hi
    · cases h

instance : Read (Tee σ τ) IoError where
  read := next
  left t := left t.src
  length_le h := Read.length_le (next_ok h).1
  left_le h := Read.left_le (next_ok h).1
  left_lt h hne := Read.left_lt (next_ok h).1 hne
  left_retry h hi := Read.left_retry (next_error h hi).1 hi

/-- What is read through a `Tee` is read, and written. -/
theorem reads (h : Reads t bs t') : Reads t.src bs t'.src ∧ Writes t.dst bs t'.dst := by
  induction h with
  | refl t => exact ⟨.refl _, .refl _⟩
  | ok h _ ih =>
    obtain ⟨hr, hw⟩ := next_ok h
    exact ⟨.ok hr ih.1, (writeAll_writes hw).trans ih.2⟩
  | retry h hi _ ih =>
    obtain ⟨hr, hd⟩ := next_error h hi
    exact ⟨.retry hr hi ih.1, hd ▸ ih.2⟩

end Tee

section

variable {ω α : Type}

def ofDecrypt (x : Decrypt ω α) : Reencrypt ω α := x.mapError .ofDecrypt

def liftDecrypt (x : Except DecryptError α) : Reencrypt ω α := .lift (x.mapError .ofDecrypt)

def liftEncrypt (x : Except EncryptError α) : Reencrypt ω α := .lift (x.mapError .ofEncrypt)

end

/-- What is not encrypted must not become so. -/
def screenPerEntry (cls : Classification) : Except ReencryptError Unit :=
  if cls.hasNonEncryptedEntries then .error .partiallyEncrypted
  else if cls.hasUnexpectedStreams then .error .unexpectedStreams
  else if ¬ cls.packageEncrypted then .error .partiallyEncrypted
  else .ok ()

/-! ### The new package -/

section

variable {ρ ζ ω α : Type} [Read ρ IoError] [CrateOver ζ ω] (P : Prims)

/-- Start a member in the zip crate's writer. -/
def startMember {ζ : Type} [CrateWriter ζ] (name : Str) (method : CompressionMethod)
    (largeFile : Bool) : Reencrypt ζ Unit :=
  onOutput fun zip =>
    let (result, zip) := startFile zip name method largeFile
    (result.mapError .ofZip, zip)

/-- Write to the output. -/
def writeOut {τ : Type} [Write τ IoError] (bs : Bytes) : Reencrypt τ Unit :=
  onOutput fun w => writePiece .io w bs

/-- Seal what a payload writes, with the tag after it. -/
def sealed (gcm : GcmStream) (payload : Reencrypt (GcmEncryptWriter P ζ) α) :
    Reencrypt ζ α := fun s =>
  match payload (s.withOut ⟨s.out, gcm⟩) with
  | (.error e, s') => (.error e, s'.withOut s'.out.dst)
  | (.ok a, s') =>
    let (result, zip) := s'.out.finish
    ((result.map fun () => a).mapError .io, s'.withOut zip)

/-- Write a wholesome package. Its payload is sealed as it is written; it ends with
    its size, and with the outcome of opening the source. -/
def writePackage (ζ : Type) [CrateOver ζ ω] (random : Random) (new : Str) (params : Argon2Params)
    (mimetype : Option Str) (couldReach : ℕ)
    (payload : Reencrypt (GcmEncryptWriter P ζ) (ℕ × DecryptOutcome)) :
    Reencrypt ω DecryptOutcome := do
  let salt ← liftEncrypt random.salt
  let iv ← liftEncrypt random.iv
  let key ← liftEncrypt (deriveWriteKey P new salt params)
  inOutput (CrateOver.wrap : ω → ζ) CrateOver.unwrap do
    startMember (ascii "mimetype") .stored false
    writeOut ((mimetype.map utf8Encode).getD [])
    let worst := aesGcmIvLen + aesGcmTagLen + couldReach
    startMember (ascii "encrypted-package") .stored (u32Limit ≤ worst)
    writeOut iv
    match GcmStream.new P key iv with
    | none => Prog.fail (.encrypt (.internal (ascii "AES-256-GCM key")))
    | some gcm =>
      let (size, outcome) ← sealed P gcm payload
      if 2 ^ 63 ≤ size then
        Prog.fail (.encrypt (.internal
          (ascii "inner package of " ++ decimal size ++ ascii " bytes")))
      else
        startMember manifestPath .deflated false
        writeOut (buildManifest size iv salt mimetype params)
        onOutput fun zip =>
          let (result, zip) := finishArchive zip
          (result.mapError .ofZip, zip)
        return outcome

/-! ### A wholesome source -/

/-- Read to the end, and forget what was read. -/
def drainTo {σ : Type} [Read σ IoError] (limits : DecryptLimits) (r : σ) :
    Except ReencryptError Unit × σ :=
  discard chunk (.ofRead limits) r

/-- What is deflated, copied as it is read, with what it inflates to. -/
abbrev Checking (P : Prims) (ρ τ : Type) := Inflating P (Tee (GcmDecryptReader P ρ) τ) (Sink IoError)

/-- Copy what is decrypted of a member into the output, and inflate it besides;
    then copy the rest. -/
def teeOut {τ : Type} [Write τ IoError] (row : EntryEncryption) (index expected : ℕ)
    (limits : DecryptLimits) (plain : GcmDecryptReader P ρ) :
    Reencrypt τ (ℕ × DecryptOutcome) := fun s =>
  let check : Checking P ρ τ :=
    ⟨.new P.inflater ⟨plain, s.out⟩ expected limits.maxOutputBytes, []⟩
  let (result, check) := drainTo limits check
  let log := s.log ++ releases row index check.given
  let tee := check.inner.src
  match result with
  | .error e => (.error e, { s with log, out := tee.dst })
  | .ok () =>
    -- what the inflater left unread is copied too
    let (result, tee) := drainTo limits tee
    (result.map fun () => (expected, ⟨.verified⟩), { s with log, out := tee.dst })

/-- What was copied and inflated was read to its end, and what is left of it after that. -/
theorem teeOut_ok {τ : Type} [Write τ IoError] {row : EntryEncryption} {index expected : ℕ}
    {limits : DecryptLimits} {plain : GcmDecryptReader P ρ} {result : ℕ × DecryptOutcome}
    {s s' : Run τ} (h : teeOut P row index expected limits plain s = (.ok result, s')) :
    result = (expected, ⟨.verified⟩) ∧
      ∃ (check : Checking P ρ τ) (tee : Tee (GcmDecryptReader P ρ) τ),
        drainTo limits (⟨.new P.inflater ⟨plain, s.out⟩ expected limits.maxOutputBytes, []⟩ :
          Checking P ρ τ) = (.ok (), check) ∧
        drainTo limits check.inner.src = (.ok (), tee) ∧ s'.out = tee.dst := by
  rw [teeOut] at h
  generalize hc : drainTo limits (⟨.new P.inflater ⟨plain, s.out⟩ expected limits.maxOutputBytes, []⟩ :
    Checking P ρ τ) = drained at h
  rcases drained with ⟨e | u, check⟩
  · cases h
  dsimp only at h
  generalize ht : drainTo limits check.inner.src = drained at h
  rcases drained with ⟨e | u, tee⟩ <;> cases h
  exact ⟨rfl, check, tee, rfl, ht, rfl⟩

/-- Change the password of a wholesome package. -/
def rewholesome (archive : Archive ρ) (cls : Classification) (ζ : Type) [CrateOver ζ ω]
    (random : Random) (old new : Str) (limits : DecryptLimits) (params : Argon2Params)
    (mimetype : Option Str) : Reencrypt ω DecryptOutcome := do
  let (rowIndex, row) ← liftDecrypt (wholesomeRow cls)
  let expected ← liftDecrypt (declaredSize row.size)
  let (index, _) ← ofDecrypt (memberForArchive archive row.path (noMember rowIndex))
  let (len, head) ← ofDecrypt (memberShape archive index)
  liftDecrypt (screenShape row len head)
  record (.screened row index len head)
  record (.decrypting row index)
  let oldKey ← ofDecrypt (gcmKey P archive index row len old limits)
  writePackage P ζ random new params mimetype len do
    let file ← ofDecrypt (openAfterIv archive index)
    match GcmStream.new P oldKey row.iv with
    | none =>
      Prog.fail (.ofDecrypt (.internal (ascii "an AES-GCM key length screen_shape passed")))
    | some gcm => teeOut P row index expected limits (.new P file gcm (ctLen len))

/-! ### A source with encrypted members -/

/-- Add what a member could come to. -/
def addReach (archive : Archive ρ) (reach : ℕ) (entry : FileData × ℕ) : Decrypt ω ℕ := do
  let (file, index) := entry
  let _ ← openMemberRaw archive index
  return reach + max file.size file.compressedSize + 1024

/-- Rebuild a package as a zip archive, deflated into the output: how long it was,
    and what the rebuild found. -/
def deflateRebuilt {τ : Type} [Write τ IoError] [Flush τ IoError] (archive : Archive ρ)
    (cls : Classification) (old : Str) (limits : DecryptLimits) :
    Reencrypt τ (ℕ × DecryptOutcome) := fun s =>
  let rebuild : Decrypt (DeflateWriter P τ) IntegrityOutcome :=
    intoZip P limits (perEntry P archive cls old limits .streamed)
  match ofDecrypt rebuild (s.withOut (.adaptive P s.out)) with
  | (.error e, s') => (.error e, s'.withOut s'.out.dst)
  | (.ok integrity, s') =>
    let size := s'.out.consumed
    let (result, dst) := s'.out.finish
    ((result.map fun () => (size, ⟨integrity⟩)).mapError .ofWrite, s'.withOut dst)

/-- Change the password of a package with encrypted members. -/
def rePerEntry (archive : Archive ρ) (cls : Classification) (ζ : Type) [CrateOver ζ ω]
    [Flush ζ IoError] (random : Random) (old new : Str) (limits : DecryptLimits)
    (params : Argon2Params) (mimetype : Option Str) : Reencrypt ω DecryptOutcome := do
  let reach ← ofDecrypt (Prog.each (addReach archive) (2 ^ 20) archive.directory.zipIdx)
  let couldReach ← liftDecrypt (cls.encryptedEntries.foldlM
    (fun reach row => (declaredSize row.size).map fun size => reach + size) reach)
  writePackage P ζ random new params mimetype (deflateBound couldReach)
    (deflateRebuilt P archive cls old limits)

/-! ### The whole run -/

/-- The run of `reencrypt_to`. -/
def reencryptRun (ζ : Type) [CrateOver ζ ω] [Flush ζ IoError] (source : Source ρ)
    (random : Random) (old new : Str) (limits : DecryptLimits) (params : Argon2Params) :
    Reencrypt ω DecryptOutcome := do
  let cls ← liftDecrypt ((classifyLatched P.xmlReader (source.openArchive 0)).mapError .classify)
  liftDecrypt (screenClass cls limits)
  if cls.mode = .perEntry then Prog.lift (screenPerEntry cls)
  let archive ← liftDecrypt ((source.openArchive 1).mapError fun e => .zip e.message)
  let mimetype ← fun s => liftEncrypt (resolveMimetype archive s.opened cls.mediaType)
    { s with opened := s.opened + 1 }
  match cls.mode with
  | .wholesome => rewholesome P archive cls ζ random old new limits params mimetype
  | _ => rePerEntry P archive cls ζ random old new limits params mimetype

/-- Change the password of a package. The reader's own error comes before whatever
    was made of it. -/
def reencryptTo (ζ : Type) [CrateOver ζ ω] [Flush ζ IoError] (source : Source ρ) (writer : ω)
    (random : Random) (old new : Str) (limits : DecryptLimits) (params : Argon2Params) :
    Except ReencryptError DecryptOutcome × Run ω :=
  if old.isEmpty then (.error (.decrypt .emptyPassword), { out := writer })
  else if new.isEmpty then (.error (.encrypt .emptyPassword), { out := writer })
  else
    let (result, s) := reencryptRun P ζ source random old new limits params { out := writer }
    match source.latch.take with
    | some e => (.error (.io e), s)
    | none => (result, s)

/-! ### What a run has made of its source -/

section

variable {P : Prims} {ζ : Type} [CrateOver ζ ω] [Flush ζ IoError] {source : Source ρ} {writer : ω}
  {random : Random} {old new : Str} {limits : DecryptLimits} {params : Argon2Params}
  {outcome : DecryptOutcome} {s s' : Run ω}

/-- What follows the screens has opened the archive again, and resolved the media type. -/
theorem reopened_ok {cls : Classification} {f : Archive ρ → Option Str → Reencrypt ω DecryptOutcome}
    (h : (do
      let archive ← liftDecrypt ((source.openArchive 1).mapError fun e : ZipError => .zip e.message)
      let mimetype ← fun s => liftEncrypt (resolveMimetype archive s.opened cls.mediaType)
        { s with opened := s.opened + 1 }
      f archive mimetype) s = (.ok outcome, s')) :
    ∃ archive mimetype, source.openArchive 1 = .ok archive ∧
      resolveMimetype archive s.opened cls.mediaType = .ok mimetype ∧
      f archive mimetype { s with opened := s.opened + 1 } = (.ok outcome, s') := by
  obtain ⟨archive, hopen, h⟩ := Prog.lift_bind_eq_ok.1 h
  obtain ⟨mimetype, s₁, hlift, h⟩ := Prog.bind_eq_ok.1 h
  obtain ⟨hmime, rfl⟩ := Prog.lift_eq_ok.1 hlift
  simp only [Except.mapError_eq_ok] at hopen hmime
  exact ⟨archive, mimetype, hopen, hmime, h⟩

/-- A run that succeeds has classified its source, screened it, found its media type,
    and written a package by its mode. -/
theorem reencryptRun_ok
    (h : reencryptRun P ζ source random old new limits params s = (.ok outcome, s')) :
    ∃ cls archive mimetype, classifyLatched P.xmlReader (source.openArchive 0) = .ok cls ∧
      screenClass cls limits = .ok () ∧ (cls.mode = .perEntry → screenPerEntry cls = .ok ()) ∧
      source.openArchive 1 = .ok archive ∧
      resolveMimetype archive s.opened cls.mediaType = .ok mimetype ∧
      (cls.mode = .wholesome ∧ rewholesome P archive cls ζ random old new limits params mimetype
          { s with opened := s.opened + 1 } = (.ok outcome, s') ∨
        cls.mode ≠ .wholesome ∧ rePerEntry P archive cls ζ random old new limits params mimetype
          { s with opened := s.opened + 1 } = (.ok outcome, s')) := by
  obtain ⟨cls, hcls, h⟩ := Prog.lift_bind_eq_ok.1 h
  obtain ⟨_, hscreen, h⟩ := Prog.lift_bind_eq_ok.1 h
  simp only [Except.mapError_eq_ok] at hcls hscreen
  rcases hmode : cls.mode with _ | _ | _
  · simp only [hmode, reduceCtorEq, if_false] at h
    obtain ⟨archive, mimetype, hopen, hmime, h⟩ := reopened_ok h
    exact ⟨cls, archive, mimetype, hcls, hscreen, by simp [hmode], hopen, hmime,
      .inr ⟨by simp [hmode], h⟩⟩
  · simp only [hmode, if_true] at h
    obtain ⟨_, hentry, h⟩ := Prog.lift_bind_eq_ok.1 h
    obtain ⟨archive, mimetype, hopen, hmime, h⟩ := reopened_ok h
    exact ⟨cls, archive, mimetype, hcls, hscreen, fun _ => hentry, hopen, hmime,
      .inr ⟨by simp [hmode], h⟩⟩
  · simp only [hmode, reduceCtorEq, if_false] at h
    obtain ⟨archive, mimetype, hopen, hmime, h⟩ := reopened_ok h
    exact ⟨cls, archive, mimetype, hcls, hscreen, by simp [hmode], hopen, hmime, .inl ⟨hmode, h⟩⟩

/-- A call that succeeds is a run that does. -/
theorem reencryptTo_ok
    (h : reencryptTo P ζ source writer random old new limits params = (.ok outcome, s')) :
    reencryptRun P ζ source random old new limits params { out := writer } = (.ok outcome, s') := by
  unfold reencryptTo at h
  split at h
  · cases h
  split at h
  · cases h
  rcases hr : reencryptRun P ζ source random old new limits params { out := writer } with ⟨result, s₁⟩
  simp only [hr] at h
  split at h
  · cases h
  · exact h

end

end

end OdfCrypto
