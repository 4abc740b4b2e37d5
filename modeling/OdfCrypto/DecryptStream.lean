import OdfCrypto.Decrypt
import OdfCrypto.Stream.Gcm
import OdfCrypto.Stream.Inflate
import OdfCrypto.ZipStream

/-!
# Decrypting: one member

The streaming half of decryption (`decrypt_stream.rs`), up to one AES-GCM member:
a first pass finds a key that its tag accepts, a second one decrypts it.
-/

namespace OdfCrypto

open ByteStream Text

inductive IntegrityOutcome
  | verified
  | passwordCheckOnly
  deriving DecidableEq

/-! ### Errors of streams -/

def faultError (limits : DecryptLimits) : Fault → DecryptError
  | .wrongPassword => .wrongPassword
  | .changed => .io (.simple .invalidData
      (ascii "the input changed between the verify and release passes"))
  | .badParameters b => .badParameters b
  | .internal s => .internal s
  | .inflate s => .inflate s
  | .outputLimit => .outputLimit limits.maxOutputBytes
  | .alloc n => .hostCannotAllocate .streamBuffer n
  | .deflate s => .internal (ascii "deflate failed: " ++ s)

def readErrorWith (limits : DecryptLimits) (e : IoError) : DecryptError :=
  match Fault.take e with
  | .ok fault => faultError limits fault
  | .error e => .zip e.text

def readError (e : IoError) : DecryptError := readErrorWith {} e

def zipStreamError (limits : DecryptLimits) : ZipStreamError → DecryptError
  | .read e => readErrorWith limits e
  | .write e => .io e
  | .corrupt s => .zip s

/-! ### Opened members -/

section

variable {ρ σ ω : Type} [Read ρ IoError] [Read σ IoError]

/-- Read some bytes in a run, as many as there are of `n`. -/
def readSome (r : σ) (n : ℕ) : Decrypt ω (Bytes × σ) :=
  .lift (match readFull r n with
    | (.ok bs, r) => .ok (bs, r)
    | (.error e, _) => .error (readError e))

/-- The length of a member by the directory, and its first bytes. -/
def memberShape (archive : Archive ρ) (index : ℕ) : Decrypt ω (ℕ × Bytes) := do
  let file ← openMember archive index
  let (head, _) ← readSome file aesGcmIvLen
  return ((archive.file index).size, head)

/-- Open a member, past its IV. -/
def openAfterIv (archive : Archive ρ) (index : ℕ) : Decrypt ω ρ := do
  let file ← openMember archive index
  let (iv, file) ← readSome file aesGcmIvLen
  if iv.length ≠ aesGcmIvLen then .fail (.badParameters (.member .shorterThanIvAndTag))
  else return file

/-- Check that there is nothing left to read. -/
def ensureEnd (r : σ) : Decrypt ω Unit := do
  let (one, _) ← readSome r 1
  if one = [] then return () else .fail (.badParameters (.member .longerThanHeader))

/-- Read to the end, and forget what was read. -/
def drain (r : σ) : Decrypt ω σ :=
  .lift (match discard chunk readError r with
    | (.ok (), r) => .ok r
    | (.error e, _) => .error e)

end

/-! ### An AES-GCM member -/

section

variable {ρ ω : Type} [Read ρ IoError] (P : Prims) (archive : Archive ρ) (index : ℕ)
  (row : EntryEncryption)

/-- How much of an AES-GCM member of some length is ciphertext. -/
def ctLen (len : ℕ) : ℕ := len - (aesGcmIvLen + aesGcmTagLen)

/-- Whether the tag of a member accepts a key. -/
def gcmAccepts (len : ℕ) (key : Bytes) : Decrypt ω Bool := do
  let file ← openAfterIv archive index
  let (ok, file) ← Prog.lift (match gcmVerify P key row.iv file (ctLen len) with
    | (.ok b, file) => .ok (b, file)
    | (.error e, _) => .error (readError e))
  ensureEnd file
  return ok

/-- The key of a member, by its tag. -/
def gcmKey (len : ℕ) (password : Str) (limits : DecryptLimits) : Decrypt ω Bytes := do
  let key ← findKey P row password limits (gcmAccepts P archive index row len)
  record (.accepted row index key)
  return key

/-- Decrypt a member: `release` reads its plaintext. -/
def gcmMember (len : ℕ) (password : Str) (limits : DecryptLimits)
    (release : GcmDecryptReader P ρ → Decrypt ω (GcmDecryptReader P ρ)) : Decrypt ω Unit := do
  let key ← gcmKey P archive index row len password limits
  let file ← openAfterIv archive index
  match GcmStream.new P key row.iv with
  | none => .fail (.internal (ascii "an AES-GCM key length screen_shape passed"))
  | some gcm =>
    let plain ← release (.new P file gcm (ctLen len))
    let plain ← drain plain
    ensureEnd plain.src

end

/-! ### A wholesome package -/

section

variable {ρ σ ω : Type} [Read ρ IoError] [Read σ IoError] [Write ω IoError] (P : Prims)

/-- What a member inflates to, counted as it is handed out. -/
abbrev Inflating (P : Prims) (σ τ : Type) := Metered (InflateReader P.inflater σ τ)

section

variable {P : Prims} {τ : Type} [Write τ IoError] {src : σ} {tap : τ} {size cap n : ℕ} {bs : Bytes}
  {inflate inflate' : Inflating P σ τ}

/-- What is drawn of a new inflater is within the limit, and no longer than was
    announced. -/
theorem drawn_given (h : Drawn (⟨.withTap P.inflater src size cap tap, []⟩ : Inflating P σ τ)
    bs inflate) : inflate.given.sum ≤ cap ∧ inflate.given.sum ≤ size := by
  obtain ⟨⟨r, hr⟩, hsum⟩ := Metered.drawn h
  rw [hsum, List.sum_nil, Nat.zero_add]
  exact InflateReader.reads_le hr

/-- What is read of a new inflater to its end is what was announced. -/
theorem reads_given (h : Reads (⟨.withTap P.inflater src size cap tap, []⟩ : Inflating P σ τ)
      bs inflate) (hend : read inflate n = (.ok [], inflate')) (hn : n ≠ 0) :
    inflate'.given.sum = size := by
  obtain ⟨hr, hsum⟩ := Metered.reads h
  obtain ⟨hread, hg⟩ := Metered.next_ok hend
  rw [hg, List.sum_append, hsum, List.sum_nil, Nat.zero_add, List.length_nil, List.sum_singleton,
    Nat.add_zero, InflateReader.reads_length hr hread hn]

end

/-- Inflate, and write. -/
def copyOut (deflated : σ) (w : ω) (expected : ℕ) (limits : DecryptLimits) :
    Except DecryptError Unit × ω × Inflating P σ (Sink IoError) :=
  eachPiece chunk (readErrorWith limits) (writePiece DecryptError.io) w
    (Metered.mk (InflateReader.new P.inflater deflated expected limits.maxOutputBytes) [])

/-- Log what was handed out of a member of a row. -/
def releases (row : EntryEncryption) (index : ℕ) (given : List ℕ) : List Event :=
  given.map (Event.released row index)

/-- Inflate and write what is decrypted of a member. -/
def releaseOut (row : EntryEncryption) (index expected : ℕ) (limits : DecryptLimits) (plain : σ) :
    Decrypt ω σ := fun s =>
  let (result, out, inflate) := copyOut P plain s.out expected limits
  (result.map fun _ => inflate.inner.src,
    { s with out, log := s.log ++ releases row index inflate.given })

def wholesome (archive : Archive ρ) (rowIndex : ℕ) (row : EntryEncryption) (password : Str)
    (limits : DecryptLimits) (sizes : Sizes) : Decrypt ω Unit := do
  let expected ← Prog.lift (sizes.declared row.size)
  let (index, _) ← memberForArchive archive row.path (noMember rowIndex)
  let (len, head) ← memberShape archive index
  Prog.lift (screenShape row len head)
  record (.screened row index len head)
  record (.decrypting row index)
  gcmMember P archive index row len password limits (releaseOut P row index expected limits)

end

end OdfCrypto
