import OdfCrypto.Archive
import OdfCrypto.Lib.Copy
import OdfCrypto.Lib.Crc32
import OdfCrypto.Lib.LittleEndian
import OdfCrypto.Stream.Deflate

/-!
# The streaming zip writer

`zip_stream.rs`: a zip archive written in one pass to a writer that cannot seek
(`ZipStreamWriter`), whose deflated members have data descriptors, and the same
members handed to the zip crate's own writer (`SeekableZipSink`). Offsets and
sizes are the numbers that were written, however large.
-/

namespace OdfCrypto

open ByteStream Text Crc32

/-! ### Records -/

def signatureLocal : ℕ := 0x04034b50
def signatureDescriptor : ℕ := 0x08074b50
def signatureCentral : ℕ := 0x02014b50
def signatureEnd : ℕ := 0x06054b50
def signatureEnd64 : ℕ := 0x06064b50
def signatureLocator64 : ℕ := 0x07064b50

def methodStored : ℕ := 0
def methodDeflated : ℕ := 8

def flagDescriptor : ℕ := 2 ^ 3
def flagUtf8 : ℕ := 2 ^ 11
def madeByUnix : ℕ := 3 * 2 ^ 8
def externalAttributes : ℕ := 0o100644 * 2 ^ 16
def dosDate : ℕ := 2 ^ 5 + 1
def zip64Tag : ℕ := 0x0001

def u32Limit : ℕ := 2 ^ 32 - 1
def u16Limit : ℕ := 2 ^ 16 - 1

inductive ZipStreamError
  | read (e : IoError)
  | write (e : IoError)
  | corrupt (s : Str)
  deriving DecidableEq

/-- What the central directory says of a member. -/
structure Central where
  name : Bytes
  method : ℕ
  flags : ℕ
  crc : UInt32
  compressed : ℕ
  uncompressed : ℕ
  offset : ℕ
  zip64Local : Bool
  deriving DecidableEq

/-- A sum that stays within 64 bits. -/
def saturatingAdd (a b : ℕ) : ℕ := min (a + b) (2 ^ 64 - 1)

/-- A product that stays within 64 bits. -/
def saturatingMul (a b : ℕ) : ℕ := min (a * b) (2 ^ 64 - 1)

/-- The most that deflating so many bytes can come to. -/
def deflateBound (n : ℕ) : ℕ :=
  saturatingAdd (saturatingAdd n (saturatingMul (n / 65535 + 1) 10)) 64

theorem deflateBound_mono {m n : ℕ} (h : m ≤ n) : deflateBound m ≤ deflateBound n := by
  have hdiv : m / 65535 ≤ n / 65535 := Nat.div_le_div_right h
  unfold deflateBound saturatingAdd saturatingMul
  omega

/-- The version that is needed to extract a member. -/
def needed (method : ℕ) (zip64 : Bool) : ℕ :=
  if zip64 then 45 else if method = methodDeflated then 20 else 10

def nameFlags (name : Bytes) : ℕ := if name.all fun b => b.toNat < 128 then 0 else flagUtf8

/-- A local header. -/
def localHeader (name : Bytes) (method flags : ℕ) (crc : UInt32) (compressed uncompressed : ℕ)
    (zip64 : Bool) : Bytes :=
  le 4 signatureLocal ++ le 2 (needed method zip64) ++ le 2 flags ++ le 2 method ++ le 2 0 ++
    le 2 dosDate ++ le 4 crc.toNat ++
    (if zip64 then le 4 u32Limit ++ le 4 u32Limit else le 4 compressed ++ le 4 uncompressed) ++
    le 2 name.length ++ le 2 (if zip64 then 20 else 0) ++ name ++
    if zip64 then le 2 zip64Tag ++ le 2 16 ++ le 8 uncompressed ++ le 8 compressed else []

/-- A data descriptor. -/
def dataDescriptor (crc : UInt32) (compressed uncompressed : ℕ) (zip64 : Bool) : Bytes :=
  le 4 signatureDescriptor ++ le 4 crc.toNat ++
    if zip64 then le 8 compressed ++ le 8 uncompressed
    else le 4 compressed ++ le 4 uncompressed

/-- The fields of a member that need 64 bits in its central header. -/
def Central.extra (e : Central) : Bytes :=
  (if u32Limit ≤ e.uncompressed then le 8 e.uncompressed else []) ++
    (if u32Limit ≤ e.compressed then le 8 e.compressed else []) ++
    if u32Limit ≤ e.offset then le 8 e.offset else []

def Central.zip64 (e : Central) : Bool := ¬ e.extra.isEmpty ∨ e.zip64Local

/-- A number of 32 bits, or the mark that it has 64. -/
def clip (v : ℕ) : ℕ := if u32Limit ≤ v then u32Limit else v

/-- A central header. -/
def Central.header (e : Central) : Bytes :=
  let need := needed e.method e.zip64
  le 4 signatureCentral ++ le 2 (madeByUnix ||| need) ++ le 2 need ++ le 2 e.flags ++
    le 2 e.method ++ le 2 0 ++ le 2 dosDate ++ le 4 e.crc.toNat ++ le 4 (clip e.compressed) ++
    le 4 (clip e.uncompressed) ++ le 2 e.name.length ++
    le 2 (if e.extra.isEmpty then 0 else 4 + e.extra.length) ++ le 2 0 ++ le 2 0 ++ le 2 0 ++
    le 4 externalAttributes ++ le 4 (clip e.offset) ++ e.name ++
    if e.extra.isEmpty then [] else le 2 zip64Tag ++ le 2 e.extra.length ++ e.extra

/-- Whether the end of an archive needs 64 bits. -/
def zip64End (count cdStart cdSize : ℕ) : Bool :=
  u16Limit ≤ count ∨ u32Limit ≤ cdStart ∨ u32Limit ≤ cdSize

/-- The Zip64 end record and its locator. -/
def endRecords64 (count cdStart cdSize end64At : ℕ) : Bytes :=
  le 4 signatureEnd64 ++ le 8 44 ++ le 2 (madeByUnix ||| 45) ++ le 2 45 ++ le 4 0 ++ le 4 0 ++
    le 8 count ++ le 8 count ++ le 8 cdSize ++ le 8 cdStart ++
    le 4 signatureLocator64 ++ le 4 0 ++ le 8 end64At ++ le 4 1

/-- The end record. -/
def endRecord (count cdStart cdSize : ℕ) : Bytes :=
  let zip64 := zip64End count cdStart cdSize
  let count16 := if zip64 then u16Limit else count
  let clip := fun v => if zip64 ∧ u32Limit ≤ v then u32Limit else v
  le 4 signatureEnd ++ le 2 0 ++ le 2 0 ++ le 2 count16 ++ le 2 count16 ++ le 4 (clip cdSize) ++
    le 4 (clip cdStart) ++ le 2 0

/-! ### The streaming writer -/

/-- A zip archive under way: how much was written, and its members so far. -/
structure ZipStreamWriter (P : Prims) (ω : Type) where
  out : ω
  pos : ℕ := 0
  entries : List Central := []

/-- A writer that counts what it takes. -/
structure Counting (ω : Type) where
  out : ω
  written : ℕ := 0

namespace Counting

variable {ω : Type} [Write ω IoError]

def next (c : Counting ω) (bs : Bytes) : Except IoError ℕ × Counting ω :=
  match write c.out bs with
  | (.ok n, out) => (.ok n, ⟨out, c.written + n⟩)
  | (.error e, out) => (.error e, ⟨out, c.written⟩)

variable {c c' : Counting ω} {bs : Bytes} {n : ℕ} {e : IoError}

theorem next_ok (h : c.next bs = (.ok n, c')) :
    write c.out bs = (.ok n, c'.out) ∧ c'.written = c.written + n := by
  unfold next at h
  split at h
  · next hw => cases h; exact ⟨hw, rfl⟩
  · cases h

theorem next_error (h : c.next bs = (.error e, c')) :
    write c.out bs = (.error e, c'.out) ∧ c'.written = c.written := by
  unfold next at h
  split at h
  · cases h
  · next hw => cases h; exact ⟨hw, rfl⟩

instance : Write (Counting ω) IoError where
  write := next
  patience c := patience c.out
  le_length h := Write.le_length (next_ok h).1
  patience_le h := Write.patience_le (next_ok h).1
  patience_lt h hi := Write.patience_lt (next_error h).1 hi

/-- What is written through is written, and counted. -/
theorem writes (h : Writes c bs c') :
    Writes c.out bs c'.out ∧ c'.written = c.written + bs.length := by
  induction h with
  | refl c => exact ⟨.refl _, rfl⟩
  | ok h _ ih =>
    obtain ⟨hw, hn⟩ := next_ok h
    have hle := Write.le_length hw
    refine ⟨.ok hw ih.1, ?_⟩
    rw [ih.2, hn, List.length_append, List.length_take, Nat.min_eq_left hle, Nat.add_assoc]
  | retry h hi _ ih =>
    obtain ⟨hw, hn⟩ := next_error h
    exact ⟨.retry hw hi ih.1, by rw [ih.2, hn]⟩

end Counting

namespace ZipStreamWriter

variable {P : Prims} {ω : Type}

def new (P : Prims) (out : ω) : ZipStreamWriter P ω := { out }

variable [Write ω IoError]

/-- Write some bytes. -/
def put (z : ZipStreamWriter P ω) (bs : Bytes) :
    Except ZipStreamError Unit × ZipStreamWriter P ω :=
  match writeAll z.out bs with
  | (.ok (), out) => (.ok (), { z with out, pos := z.pos + bs.length })
  | (.error e, out) => (.error (.write e), { z with out })

/-- A stored member under way: the writer, what is hashed, how much is left to
    copy, and the reader it comes from. -/
structure Copying (P : Prims) (ω ρ : Type) where
  zip : ZipStreamWriter P ω
  hasher : Hasher := {}
  left : ℕ
  src : ρ

section

variable {ρ : Type} [Read ρ IoError]

/-- One pass of the copy of a stored member. -/
def storedStep (c : Copying P ω ρ) :
    (Except ZipStreamError Unit × Copying P ω ρ) ⊕ Copying P ω ρ :=
  if 0 < c.left then
    match read c.src (min c.left chunk) with
    | (.error e, src) => .inl (.error (.read e), { c with src })
    | (.ok [], src) => .inl (.error (.corrupt (ascii "stored member is short")), { c with src })
    | (.ok bs, src) =>
      let c := { c with src, hasher := c.hasher.update bs }
      match c.zip.put bs with
      | (.error e, zip) => .inl (.error e, { c with zip })
      | (.ok (), zip) => .inr { c with zip, left := c.left - bs.length }
  else .inl (.ok (), c)

/-- The loop of `copyStored`. -/
def storedLoop : Loop (Copying P ω ρ) (Except ZipStreamError Unit × Copying P ω ρ) where
  body := storedStep
  rank c := left c.src
  rank_lt := by
    intro c c' h
    unfold storedStep at h
    split at h
    · split at h
      · cases h
      · cases h
      · next hne hr =>
        dsimp only at h
        split at h
        · cases h
        · cases h; exact Read.left_lt hr fun h => hne (by simp [h])
    · cases h

/-- Copy the data of a stored member, and check its CRC. -/
def copyStored (c : Copying P ω ρ) (crc : UInt32) :
    Except ZipStreamError Unit × Copying P ω ρ :=
  match storedLoop.run c with
  | (.error e, c) => (.error e, c)
  | (.ok (), c) =>
    match read c.src 1 with
    | (.error e, src) => (.error (.read e), { c with src })
    | (.ok extra, src) =>
      if extra ≠ [] then (.error (.corrupt (ascii "stored member is long")), { c with src })
      else if c.hasher.finalize ≠ crc then
        (.error (.corrupt (ascii "stored member CRC mismatch")), { c with src })
      else (.ok (), { c with src })

/-- Add a member to the directory. -/
def push (z : ZipStreamWriter P ω) (e : Central) : ZipStreamWriter P ω :=
  { z with entries := z.entries ++ [e] }

def stored (z : ZipStreamWriter P ω) (name : Str) (crc : UInt32) (size : ℕ) (data : ρ) :
    Except ZipStreamError Unit × ZipStreamWriter P ω × ρ :=
  let raw := utf8Encode name
  let zip64 : Bool := u32Limit ≤ size
  let flags := nameFlags raw
  match z.put (localHeader raw methodStored flags crc size size zip64) with
  | (.error e, z) => (.error e, z, data)
  | (.ok (), zip) =>
    match copyStored { zip, left := size, src := data } crc with
    | (.error e, c) => (.error e, c.zip, c.src)
    | (.ok (), c) =>
      (.ok (), c.zip.push ⟨raw, methodStored, flags, crc, size, size, z.pos, zip64⟩, c.src)

end

/-- Whether a deflated member's header announces 64 bits: by what it can come to. -/
def announces64 (sizeHint : ℕ) : Bool :=
  u32Limit ≤ deflateBound sizeHint ∨ u32Limit ≤ sizeHint

def largerThan (limit : ℕ) : ZipStreamError :=
  .corrupt (ascii "member is larger than the " ++ decimal limit ++ ascii " bytes expected")

/-- Write the data descriptor of a member, and add it to the directory. -/
def endDeflated (z : ZipStreamWriter P ω) (raw : Bytes) (flags offset : ℕ) (crc : UInt32)
    (compressed uncompressed : ℕ) (zip64 : Bool) :
    Except ZipStreamError Unit × ZipStreamWriter P ω :=
  match z.put (dataDescriptor crc compressed uncompressed zip64) with
  | (.error e, z) => (.error e, z)
  | (.ok (), z) =>
    (.ok (), z.push ⟨raw, methodDeflated, flags, crc, compressed, uncompressed, offset, zip64⟩)

/-- What is deflated of a member so far. -/
structure Deflating (P : Prims) (ω : Type) where
  deflate : DeflateWriter P (Counting ω)
  hasher : Hasher := {}
  uncompressed : ℕ := 0

/-- Deflate one piece of a member. -/
def deflatePiece (sizeHint : ℕ) (d : Deflating P ω) (bs : Bytes) :
    Except ZipStreamError Unit × Deflating P ω :=
  let d := { d with uncompressed := d.uncompressed + bs.length }
  if sizeHint < d.uncompressed then (.error (largerThan sizeHint), d)
  else
    let d := { d with hasher := d.hasher.update bs }
    match writeAll d.deflate bs with
    | (.error e, deflate) => (.error (.write e), { d with deflate })
    | (.ok (), deflate) => (.ok (), { d with deflate })

section

variable {ρ : Type} [Read ρ IoError]

def deflated (z : ZipStreamWriter P ω) (name : Str) (sizeHint : ℕ) (data : ρ) :
    Except ZipStreamError ℕ × ZipStreamWriter P ω × ρ :=
  let raw := utf8Encode name
  let zip64 := announces64 sizeHint
  let flags := nameFlags raw ||| flagDescriptor
  match z.put (localHeader raw methodDeflated flags 0 0 0 zip64) with
  | (.error e, z) => (.error e, z, data)
  | (.ok (), zip) =>
    match eachPiece chunk ZipStreamError.read (deflatePiece sizeHint)
        { deflate := .new P ⟨zip.out, 0⟩ } data with
    | (.error e, d, data) => (.error e, { zip with out := d.deflate.dst.out }, data)
    | (.ok (), d, data) =>
      match d.deflate.finish with
      | (.error e, sink) => (.error (.write e), { zip with out := sink.out }, data)
      | (.ok (), sink) =>
        let zip := { zip with out := sink.out, pos := zip.pos + sink.written }
        match zip.endDeflated raw flags z.pos d.hasher.finalize sink.written d.uncompressed zip64 with
        | (.error e, zip) => (.error e, zip, data)
        | (.ok (), zip) => (.ok d.uncompressed, zip, data)

end

end ZipStreamWriter

/-- Where the deflated data of a member comes from: opened, to be read inflated,
    or copied as it is. -/
class DeflatedSource (δ : Type) where
  Inner : Type
  readInner : Read Inner IoError
  /-- Open what the source inflates to. -/
  openInflated : δ → Except ZipStreamError Inner × δ
  /-- The source once what was opened of it is closed again. -/
  closeInflated : Inner → δ → δ
  /-- Copy the deflated data: the CRC and the length of what it inflates to. -/
  copyDeflated : {ω : Type} → [Write ω IoError] → δ → ω →
    Except ZipStreamError (UInt32 × ℕ) × δ × ω

instance {δ : Type} [DeflatedSource δ] : Read (DeflatedSource.Inner δ) IoError :=
  DeflatedSource.readInner

export DeflatedSource (openInflated closeInflated copyDeflated)

namespace ZipStreamWriter

variable {P : Prims} {ω δ : Type} [Write ω IoError] [DeflatedSource δ]

def deflatedFrom (z : ZipStreamWriter P ω) (name : Str) (sizeHint : ℕ) (src : δ) :
    Except ZipStreamError ℕ × ZipStreamWriter P ω × δ :=
  let raw := utf8Encode name
  let zip64 := announces64 sizeHint
  let flags := nameFlags raw ||| flagDescriptor
  match z.put (localHeader raw methodDeflated flags 0 0 0 zip64) with
  | (.error e, z) => (.error e, z, src)
  | (.ok (), zip) =>
    match copyDeflated src (Counting.mk zip.out 0) with
    | (.error e, src, sink) => (.error e, { zip with out := sink.out }, src)
    | (.ok (crc, uncompressed), src, sink) =>
      let zip := { zip with out := sink.out, pos := zip.pos + sink.written }
      if sizeHint < uncompressed then (.error (largerThan sizeHint), zip, src)
      else if ¬ zip64 ∧ u32Limit ≤ sink.written then
        (.error (.corrupt (ascii "member's DEFLATE data outgrew its 32-bit header")), zip, src)
      else
        match zip.endDeflated raw flags z.pos crc sink.written uncompressed zip64 with
        | (.error e, zip) => (.error e, zip, src)
        | (.ok (), zip) => (.ok uncompressed, zip, src)

omit [DeflatedSource δ]

/-- Write the central headers of some members. -/
def putCentrals (z : ZipStreamWriter P ω) :
    List Central → Except ZipStreamError Unit × ZipStreamWriter P ω
  | [] => (.ok (), z)
  | e :: entries =>
    match z.put e.header with
    | (.error e, z) => (.error e, z)
    | (.ok (), z) => putCentrals z entries

/-- Write the end records of a directory that began at `cdStart`. -/
def putEnd (z : ZipStreamWriter P ω) (count cdStart : ℕ) :
    Except ZipStreamError Unit × ZipStreamWriter P ω :=
  let cdSize := z.pos - cdStart
  if zip64End count cdStart cdSize then
    match z.put (endRecords64 count cdStart cdSize z.pos) with
    | (.error e, z) => (.error e, z)
    | (.ok (), z) => z.put (endRecord count cdStart cdSize)
  else z.put (endRecord count cdStart cdSize)

/-- Write the directory, and flush. -/
def finish [Flush ω IoError] (z : ZipStreamWriter P ω) : Except ZipStreamError Unit × ω :=
  match z.putCentrals z.entries with
  | (.error e, z) => (.error e, z.out)
  | (.ok (), z') =>
    match z'.putEnd z.entries.length z.pos with
    | (.error e, z) => (.error e, z.out)
    | (.ok (), z) => ((flush z.out).1.mapError .write, (flush z.out).2)

end ZipStreamWriter

/-! ### The zip crate's writer -/

/-- The zip crate's own writer: it is given members one after the other. -/
class CrateWriter (ζ : Type) extends Write ζ IoError where
  startFile : ζ → (name : Str) → CompressionMethod → (largeFile : Bool) →
    Except ZipError Unit × ζ
  finishArchive : ζ → Except ZipError Unit × ζ

export CrateWriter (startFile finishArchive)

/-- Report an error of the zip crate's writer. -/
def crateError : ZipError → ZipStreamError
  | .io e => .write e
  | e => .corrupt e.message

/-- A zip archive under way in the zip crate's writer. -/
structure SeekableZipSink (ζ : Type) where
  zip : ζ

namespace SeekableZipSink

variable {ζ : Type} [CrateWriter ζ]

/-- What was copied of a member so far. -/
structure Copied (ζ : Type) where
  zip : ζ
  total : ℕ := 0
  hasher : Hasher := {}

/-- Copy one piece of a member. -/
def copyPiece (limit : ℕ) (c : Copied ζ) (bs : Bytes) : Except ZipStreamError Unit × Copied ζ :=
  let c := { c with total := c.total + bs.length }
  if limit < c.total then (.error (ZipStreamWriter.largerThan limit), c)
  else
    let c := { c with hasher := c.hasher.update bs }
    match writeAll c.zip bs with
    | (.error e, zip) => (.error (.write e), { c with zip })
    | (.ok (), zip) => (.ok (), { c with zip })

section

variable {ρ : Type} [Read ρ IoError]

def copy (z : ζ) (data : ρ) (limit : ℕ) : Except ZipStreamError (ℕ × UInt32) × ζ × ρ :=
  match eachPiece chunk ZipStreamError.read (copyPiece limit) { zip := z } data with
  | (.ok (), c, data) => (.ok (c.total, c.hasher.finalize), c.zip, data)
  | (.error e, c, data) => (.error e, c.zip, data)

def stored (z : SeekableZipSink ζ) (name : Str) (crc : UInt32) (size : ℕ) (data : ρ) :
    Except ZipStreamError Unit × SeekableZipSink ζ × ρ :=
  match startFile z.zip name .stored false with
  | (.error e, zip) => (.error (crateError e), ⟨zip⟩, data)
  | (.ok (), zip) =>
    match copy zip data size with
    | (.error e, zip, data) => (.error e, ⟨zip⟩, data)
    | (.ok (got, gotCrc), zip, data) =>
      if got ≠ size then (.error (.corrupt (ascii "stored member is short")), ⟨zip⟩, data)
      else if gotCrc ≠ crc then
        (.error (.corrupt (ascii "stored member CRC mismatch")), ⟨zip⟩, data)
      else (.ok (), ⟨zip⟩, data)

def deflated (z : SeekableZipSink ζ) (name : Str) (sizeHint : ℕ) (data : ρ) :
    Except ZipStreamError ℕ × SeekableZipSink ζ × ρ :=
  match startFile z.zip name .deflated false with
  | (.error e, zip) => (.error (crateError e), ⟨zip⟩, data)
  | (.ok (), zip) =>
    match copy zip data sizeHint with
    | (.error e, zip, data) => (.error e, ⟨zip⟩, data)
    | (.ok (got, _), zip, data) => (.ok got, ⟨zip⟩, data)

end

/-- Deflate anew what the source inflates to. -/
def deflatedFrom {δ : Type} [DeflatedSource δ] (z : SeekableZipSink ζ) (name : Str)
    (sizeHint : ℕ) (src : δ) : Except ZipStreamError ℕ × SeekableZipSink ζ × δ :=
  match openInflated src with
  | (.error e, src) => (.error e, z, src)
  | (.ok inner, src) =>
    let (result, z, inner) := z.deflated name sizeHint inner
    (result, z, closeInflated inner src)

def finish (z : SeekableZipSink ζ) : Except ZipStreamError Unit × ζ :=
  ((finishArchive z.zip).1.mapError crateError, (finishArchive z.zip).2)

end SeekableZipSink

/-! ### What a package is rebuilt into -/

/-- Either writer. -/
class ZipSink (S : Type) where
  stored : {ρ : Type} → [Read ρ IoError] → S → (name : Str) → (crc : UInt32) → (size : ℕ) →
    (data : ρ) → Except ZipStreamError Unit × S × ρ
  deflated : {ρ : Type} → [Read ρ IoError] → S → (name : Str) → (sizeHint : ℕ) → (data : ρ) →
    Except ZipStreamError ℕ × S × ρ
  deflatedFrom : {δ : Type} → [DeflatedSource δ] → S → (name : Str) → (sizeHint : ℕ) →
    (src : δ) → Except ZipStreamError ℕ × S × δ

instance {P : Prims} {ω : Type} [Write ω IoError] : ZipSink (ZipStreamWriter P ω) where
  stored := ZipStreamWriter.stored
  deflated := ZipStreamWriter.deflated
  deflatedFrom := ZipStreamWriter.deflatedFrom

instance {ζ : Type} [CrateWriter ζ] : ZipSink (SeekableZipSink ζ) where
  stored := SeekableZipSink.stored
  deflated := SeekableZipSink.deflated
  deflatedFrom := SeekableZipSink.deflatedFrom

/-! ### How a source is used -/

section

variable {δ : Type} [DeflatedSource δ]

/-- How a source of deflated data was left: it was not used, or could not be
    opened, or what was opened of it was read, or it was copied. -/
inductive Used (src : δ) : δ → Prop
  | unused : Used src src
  | refused {src' : δ} {e : ZipStreamError} (h : openInflated src = (.error e, src')) :
      Used src src'
  | read {src₁ : δ} {inner inner' : DeflatedSource.Inner δ} {bs : Bytes}
      (h : openInflated src = (.ok inner, src₁)) (hr : Drawn inner bs inner') :
      Used src (closeInflated inner' src₁)
  | copied {ω : Type} [Write ω IoError] {w w' : ω} {src' : δ}
      {result : Except ZipStreamError (UInt32 × ℕ)}
      (h : copyDeflated src w = (result, src', w')) : Used src src'

/-- How a source was left that was read or copied to its end. -/
inductive UsedUp (src : δ) : δ → Prop
  | read {src₁ : δ} {inner inner₁ inner' : DeflatedSource.Inner δ} {bs : Bytes}
      (h : openInflated src = (.ok inner, src₁)) (hr : Reads inner bs inner₁)
      (hend : ByteStream.read inner₁ chunk = (.ok [], inner')) :
      UsedUp src (closeInflated inner' src₁)
  | copied {ω : Type} [Write ω IoError] {w w' : ω} {src' : δ} {crc : UInt32} {n : ℕ}
      (h : copyDeflated src w = (.ok (crc, n), src', w')) : UsedUp src src'

end

/-- A sink that takes the deflated data of a member from its source, and all of it
    if the member is written. -/
class LawfulSink (S : Type) [ZipSink S] : Prop where
  used : ∀ {δ : Type} [DeflatedSource δ] {z z' : S} {name : Str} {sizeHint : ℕ} {src src' : δ}
    {result : Except ZipStreamError ℕ},
    ZipSink.deflatedFrom z name sizeHint src = (result, z', src') → Used src src'
  usedUp : ∀ {δ : Type} [DeflatedSource δ] {z z' : S} {name : Str} {sizeHint n : ℕ}
    {src src' : δ}, ZipSink.deflatedFrom z name sizeHint src = (.ok n, z', src') → UsedUp src src'

section

variable {δ : Type} [DeflatedSource δ] {name : Str} {sizeHint n : ℕ} {src src' : δ}
  {result : Except ZipStreamError ℕ}

namespace ZipStreamWriter

variable {P : Prims} {ω : Type} [Write ω IoError] {z z' : ZipStreamWriter P ω}

theorem deflatedFrom_used (h : z.deflatedFrom name sizeHint src = (result, z', src')) :
    Used src src' := by
  unfold deflatedFrom at h
  dsimp only at h
  split at h
  · cases h; exact .unused
  · split at h
    · next hc => cases h; exact .copied hc
    · next hc =>
      split at h
      · cases h; exact .copied hc
      · split at h
        · cases h; exact .copied hc
        · split at h <;> cases h <;> exact .copied hc

theorem deflatedFrom_usedUp (h : z.deflatedFrom name sizeHint src = (.ok n, z', src')) :
    UsedUp src src' := by
  unfold deflatedFrom at h
  dsimp only at h
  split at h
  · cases h
  · split at h
    · cases h
    · next hc =>
      split at h
      · cases h
      · split at h
        · cases h
        · split at h
          · cases h
          · cases h; exact .copied hc

instance : LawfulSink (ZipStreamWriter P ω) where
  used := deflatedFrom_used
  usedUp := deflatedFrom_usedUp

end ZipStreamWriter

namespace SeekableZipSink

variable {ζ : Type} [CrateWriter ζ] {z z' : SeekableZipSink ζ} {ρ : Type} [Read ρ IoError]
  {data data' : ρ}

omit [DeflatedSource δ] in
theorem copy_drawn {zip zip' : ζ} {limit : ℕ} {result : Except ZipStreamError (ℕ × UInt32)}
    (h : copy zip data limit = (result, zip', data')) : ∃ bs, Drawn data bs data' := by
  unfold copy at h
  split at h <;> next he => cases h; exact eachPiece_drawn he

theorem deflated_drawn (h : z.deflated name sizeHint data = (result, z', data')) :
    ∃ bs, Drawn data bs data' := by
  unfold deflated at h
  split at h
  · cases h; exact ⟨[], (Reads.refl _).drawn⟩
  · split at h <;> next hc => cases h; exact copy_drawn hc

theorem deflated_ok (h : z.deflated name sizeHint data = (.ok n, z', data')) :
    ∃ bs data₁, Reads data bs data₁ ∧ read data₁ chunk = (.ok [], data') := by
  unfold deflated copy at h
  split at h
  · cases h
  · split at h
    · cases h
    · next hc =>
      split at hc
      · next he =>
        cases hc
        cases h
        obtain ⟨bs, data₁, hr, hend, -⟩ :=
          eachPiece_ok (fun _ _ _ => True) (fun _ => trivial) (fun _ _ => trivial) he
        exact ⟨bs, data₁, hr, hend⟩
      · cases hc

instance : LawfulSink (SeekableZipSink ζ) where
  used {_ _ z z' name sizeHint src src' result} h := by
    change z.deflatedFrom name sizeHint src = _ at h
    unfold deflatedFrom at h
    split at h
    · next ho => cases h; exact .refused ho
    · next inner src₁ ho =>
      rcases hd : z.deflated name sizeHint inner with ⟨r, z₁, inner'⟩
      rw [hd] at h
      cases h
      exact (deflated_drawn hd).elim fun _ hr => .read ho hr
  usedUp {_ _ z z' name sizeHint n src src'} h := by
    change z.deflatedFrom name sizeHint src = _ at h
    unfold deflatedFrom at h
    split at h
    · cases h
    · next inner src₁ ho =>
      rcases hd : z.deflated name sizeHint inner with ⟨r, z₁, inner'⟩
      rw [hd] at h
      cases h
      obtain ⟨bs, inner₁, hr, hend⟩ := deflated_ok hd
      exact .read ho hr hend

end SeekableZipSink

end

end OdfCrypto
