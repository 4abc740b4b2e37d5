import OdfCrypto.DecryptEntries

/-!
# Decrypting: the whole run

The entry points of decryption: `decryptWithLimitsTo`, from a caller's reader to
a caller's writer, and `decryptSlice`, which writes to a buffer of its own whose
length it bounds before (`decrypt_stream.rs`). Both come with their final state,
also when they fail.
-/

namespace OdfCrypto

open ByteStream Text

/-! ### Outputs within outputs -/

section

variable {ω ω' ε α : Type}

/-- The state with another output. -/
def Run.withOut (s : Run ω) (out : ω') : Run ω' := { opened := s.opened, log := s.log, out }

@[simp] theorem Run.withOut_log (s : Run ω) (out : ω') : (s.withOut out).log = s.log := rfl

@[simp] theorem Run.withOut_out (s : Run ω) (out : ω') : (s.withOut out).out = out := rfl

@[simp] theorem Run.withOut_opened (s : Run ω) (out : ω') :
    (s.withOut out).opened = s.opened := rfl

/-- Run with an output that is made of the one there is, which comes back after. -/
def inOutput (wrap : ω → ω') (unwrap : ω' → ω) (x : Prog (Run ω') ε α) : Prog (Run ω) ε α :=
  fun s =>
    let (result, s') := x (s.withOut (wrap s.out))
    (result, s'.withOut (unwrap s'.out))

theorem inOutput_eq_ok {wrap : ω → ω'} {unwrap : ω' → ω} {x : Prog (Run ω') ε α}
    {s s' : Run ω} {a : α}
    (h : inOutput wrap unwrap x s = (.ok a, s')) :
    ∃ s₁, x (s.withOut (wrap s.out)) = (.ok a, s₁) ∧ s' = s₁.withOut (unwrap s₁.out) := by
  unfold inOutput at h
  rcases hx : x (s.withOut (wrap s.out)) with ⟨result, s₁⟩
  rw [hx] at h
  cases h
  exact ⟨s₁, rfl, rfl⟩

/-- Do something to the output, and end with it as it then is. -/
def onOutput (f : ω → Except ε α × ω) : Prog (Run ω) ε α := fun s =>
  let (result, out) := f s.out
  (result, { s with out })

end

/-- The zip crate's writer over a writer of the caller's. -/
class CrateOver (ζ : Type) (ω : outParam Type) extends CrateWriter ζ where
  wrap : ω → ζ
  unwrap : ζ → ω

structure DecryptOutcome where
  integrity : IntegrityOutcome
  deriving DecidableEq

section

variable {ρ ω : Type} [Read ρ IoError] (P : Prims)

/-- What every run begins with: the classification, its screen, and the archive,
    opened again. -/
def begin_ (source : Source ρ) (limits : DecryptLimits) :
    Decrypt ω (Classification × Archive ρ) := do
  let cls ← Prog.lift ((classifyLatched P.xmlReader (source.openArchive 0)).mapError .classify)
  Prog.lift (screenClass cls limits)
  let archive ← Prog.lift ((source.openArchive 1).mapError fun e => .zip e.message)
  return (cls, archive)

/-- Write a zip archive to the output. -/
def intoZip {α : Type} [Write ω IoError] [Flush ω IoError] (limits : DecryptLimits)
    (x : Decrypt (ZipStreamWriter P ω) α) : Decrypt ω α := fun s =>
  match x (s.withOut (.new P s.out)) with
  | (.error e, s') => (.error e, s'.withOut s'.out.out)
  | (.ok a, s') =>
    let (result, out) := s'.out.finish
    ((result.map fun () => a).mapError (zipStreamError limits), s'.withOut out)

/-- The run of `decrypt_with_limits_to`. -/
def decryptRun [Write ω IoError] [Flush ω IoError] (source : Source ρ) (password : Str)
    (limits : DecryptLimits) : Decrypt ω DecryptOutcome := do
  let (cls, archive) ← begin_ P source limits
  match cls.mode with
  | .wholesome =>
    let (rowIndex, row) ← Prog.lift (wholesomeRow cls)
    wholesome P archive rowIndex row password limits .streamed
    return ⟨.verified⟩
  | _ =>
    let integrity ← intoZip P limits (perEntry P archive cls password limits .streamed)
    return ⟨integrity⟩

/-- Decrypt a package to a writer. The reader's own error comes before whatever
    was made of it. -/
def decryptWithLimitsTo [Write ω IoError] [Flush ω IoError] (source : Source ρ) (writer : ω)
    (password : Str) (limits : DecryptLimits) : Except DecryptError DecryptOutcome × Run ω :=
  if password.isEmpty then (.error .emptyPassword, { out := writer })
  else
    let (result, s) := decryptRun P source password limits { out := writer }
    match source.latch.take with
    | some e => (.error (.io e), s)
    | none => (result, s)

end

/-! ### The buffer of `decrypt` -/

/-- A buffer whose length does not change; `len` is how much of it was written. -/
structure SliceWriter where
  buf : Bytes
  pos : ℕ := 0
  len : ℕ := 0
  deriving DecidableEq

namespace SliceWriter

/-- A buffer of zeros. -/
def zeroed (n : ℕ) : SliceWriter := { buf := List.replicate n 0 }

def next (w : SliceWriter) (data : Bytes) : Except IoError ℕ × SliceWriter :=
  if w.pos + data.length ≤ w.buf.length then
    (.ok data.length, {
      buf := w.buf.take w.pos ++ data ++ w.buf.drop (w.pos + data.length)
      pos := w.pos + data.length
      len := max w.len (w.pos + data.length) })
  else (.error (.simple .writeZero (ascii "output bound exceeded")), w)

instance : Write SliceWriter IoError where
  write := next
  patience _ := 0
  le_length h := by
    unfold next at h
    split at h <;> cases h
    exact le_rfl
  patience_le _ := le_rfl
  patience_lt h hi := by
    unfold next at h
    split at h <;> cases h
    cases hi

/-- What was written. -/
def written (w : SliceWriter) : Bytes := w.buf.take w.len

end SliceWriter

/-- A failure of the output is the crate's own, where the output is its buffer. -/
def ours : DecryptError → DecryptError
  | .io e => .internal (ascii "output buffer: " ++ e.text)
  | e => e

/-- What a member takes besides its data and its name. -/
def perMember : ℕ := 30 + 46 + 2 * 64 + 1024

section

variable {ρ ζ ω : Type} [Read ρ IoError] (P : Prims)

def openMemberRaw (archive : Archive ρ) (index : ℕ) : Decrypt ω ρ := fun s =>
  ((archive.byIndexRaw s.opened index).mapError fun e => .zip e.message,
    { s with opened := s.opened + 1 })

/-- The most that one member comes to in the rebuilt package. -/
def addMember (archive : Archive ρ) (bound : ℕ) (entry : FileData × ℕ) : Decrypt ω ℕ := do
  let (file, index) := entry
  let _ ← openMemberRaw archive index
  let body := min (max file.size file.compressedSize) inflateCeiling
  return bound + perMember + 2 * file.nameRaw.length + deflateBound body

/-- The most that the rebuilt package comes to. -/
def rebuildBound (archive : Archive ρ) (cls : Classification) : Decrypt ω ℕ := do
  let bound ← Prog.each (addMember archive) (22 + 1024) archive.directory.zipIdx
  return cls.encryptedEntries.foldl
    (fun bound row => bound + deflateBound (min row.size.toNat inflateCeiling)) bound

/-- Write a zip archive to the output, with the zip crate's own writer. -/
def intoCrate (ζ : Type) {α : Type} [CrateOver ζ ω] (limits : DecryptLimits)
    (x : Decrypt (SeekableZipSink ζ) α) : Decrypt ω α :=
  inOutput (fun out => ⟨CrateOver.wrap out⟩) (fun sink => CrateOver.unwrap sink.zip) do
    let a ← x
    onOutput fun sink =>
      let (result, zip) := sink.finish
      (result.mapError (zipStreamError limits), ⟨zip⟩)
    return a

/-- The run of `decrypt`, once the mode is known. -/
def decryptSliceRun (ζ : Type) [CrateOver ζ SliceWriter] (archive : Archive ρ)
    (cls : Classification) (password : Str) (limits : DecryptLimits) : Decrypt SliceWriter Unit := do
  match cls.mode with
  | .wholesome =>
    let (rowIndex, row) ← Prog.lift (wholesomeRow cls)
    let n ← Prog.lift (inflatedLen row.size)
    onOutput fun _ => (.ok (), .zeroed n)
    (wholesome P archive rowIndex row password limits .wholeBuffer).mapError ours
  | _ =>
    let bound ← rebuildBound archive cls
    onOutput fun _ => (.ok (), .zeroed bound)
    (intoCrate ζ limits
      do let _ ← perEntry P archive cls password limits .wholeBuffer).mapError ours

/-- Decrypt a package in memory; the source is over a cursor, which never fails. -/
def decryptSlice (ζ : Type) [CrateOver ζ SliceWriter] (source : Source ρ) (password : Str)
    (limits : DecryptLimits) : Except DecryptError Bytes × Run SliceWriter :=
  if password.isEmpty then (.error .emptyPassword, { out := .zeroed 0 })
  else
    let run : Decrypt SliceWriter Unit := do
      let (cls, archive) ← begin_ P source limits
      decryptSliceRun P ζ archive cls password limits
    let (result, s) := run { out := .zeroed 0 }
    (result.map fun () => s.out.written, s)

end

end OdfCrypto
