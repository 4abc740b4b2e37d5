import Mathlib.Data.List.Forall2
import OdfCrypto.Kdf
import OdfCrypto.ZipStream.ReadBack

/-!
# Any calls, read back

What `ZipStreamWriter` leaves after any sequence of `stored`, `deflated` and
`deflatedFrom` that all succeed, read from its end record by a reader of zip
archives that takes a member only if its local header, its descriptor and its
central header agree (`readArchive_archiveBytes`).

* `localMember_bytes`: each member is read back at its local header;
* `runCalls_laid`: what the calls leave, member by member;
* `runCalls_readArchive`: the archive is read back.
-/

namespace OdfCrypto

open ByteStream Text Crc32

/-! ### Local headers -/

theorem hasDescriptor_nameFlags (name : Bytes) : Zip.hasDescriptor (nameFlags name) = false := by
  unfold nameFlags
  split <;> rfl

theorem hasDescriptor_descriptor (name : Bytes) :
    Zip.hasDescriptor (nameFlags name ||| flagDescriptor) = true := by
  unfold nameFlags
  split <;> rfl

/-- A member as a reader of archives finds it. -/
def Placed.member (p : Placed) : Zip.Member where
  name := p.entry.name
  method := p.entry.method
  crc := p.entry.crc.toNat
  uncompressed := p.entry.uncompressed
  data := p.data

/-- A member whose sizes have 64 bits, and 32 bits where its header does not announce
    64 for them. -/
structure Placed.Fits (p : Placed) : Prop where
  compressed : p.entry.compressed < 2 ^ 64
  uncompressed : p.entry.uncompressed < 2 ^ 64
  narrow : p.entry.zip64Local = false →
    p.entry.compressed < u32Limit ∧ p.entry.uncompressed < u32Limit

theorem Placed.Fits.read_compressed {p : Placed} (h : p.Fits) :
    p.entry.read.compressed = p.entry.compressed :=
  Nat.mod_eq_of_lt h.compressed

theorem Placed.Fits.read_uncompressed {p : Placed} (h : p.Fits) :
    p.entry.read.uncompressed = p.entry.uncompressed :=
  Nat.mod_eq_of_lt h.uncompressed

/-- The Zip64 field of a local header. -/
def localExtra (compressed uncompressed : ℕ) (zip64 : Bool) : Bytes :=
  if zip64 then le 2 zip64Tag ++ le 2 16 ++ le 8 uncompressed ++ le 8 compressed else []

/-- What its field has. -/
def localField (compressed uncompressed : ℕ) (zip64 : Bool) : Option Bytes :=
  if zip64 then some (le 8 uncompressed ++ le 8 compressed) else none

theorem zip64Field_localExtra (compressed uncompressed : ℕ) (zip64 : Bool) :
    Zip.zip64Field (localExtra compressed uncompressed zip64) =
      some (localField compressed uncompressed zip64) := by
  rcases zip64 with - | -
  · exact zip64Field_nil
  · have hlen : (le 8 uncompressed ++ le 8 compressed).length = 16 := by
      rw [List.length_append, length_le, length_le]
    have h := @zip64Field_single (le 8 uncompressed ++ le 8 compressed) (by omega)
    rw [hlen] at h
    simp only [localExtra, localField, if_true, List.append_assoc] at h ⊢
    exact h

theorem length_localExtra (compressed uncompressed : ℕ) (zip64 : Bool) :
    (localExtra compressed uncompressed zip64).length = if zip64 then 20 else 0 := by
  rcases zip64 with - | -
  · rfl
  · simp only [localExtra, if_true, List.length_append, length_le]

/-- A number of 32 bits of a local header: the mark where the field has it. -/
def localSize (v : ℕ) (zip64 : Bool) : ℕ := if zip64 then u32Limit else v % 2 ^ 32

/-- The two sizes of a stored member are read off its local header. -/
theorem localSizes_read {compressed uncompressed : ℕ} {zip64 : Bool} (hc : compressed < 2 ^ 64)
    (hu : uncompressed < 2 ^ 64)
    (hnarrow : zip64 = false → compressed < u32Limit ∧ uncompressed < u32Limit) :
    (do
      let uncompressed ← Zip.wide (localSize uncompressed zip64)
      let compressed ← Zip.wide (localSize compressed zip64)
      return (uncompressed, compressed) : Zip.Parser (ℕ × ℕ))
        ((localField compressed uncompressed zip64).getD []) =
      some ((uncompressed, compressed), []) := by
  rcases zip64 with - | -
  · obtain ⟨hc, hu⟩ := hnarrow rfl
    have hmod : ∀ v < u32Limit, v % 2 ^ 32 = v ∧ v ≠ Zip.mark32 := by
      intro v hv
      unfold u32Limit at hv
      unfold Zip.mark32
      omega
    simp only [localSize, localField, Bool.false_eq_true, if_false, (hmod _ hc).1, (hmod _ hu).1,
      Zip.wide, (hmod _ hc).2, (hmod _ hu).2]
    rfl
  · simp only [localSize, localField, if_true, Zip.wide, show u32Limit = Zip.mark32 from rfl,
      Option.getD_some]
    rw [Zip.number_bind hu]
    nth_rewrite 1 [← List.append_nil (le 8 compressed)]
    rw [Zip.number_bind hc]
    rfl

section

variable {name data rest : Bytes} {method flags : ℕ} {crc : UInt32} {compressed uncompressed : ℕ}
  {zip64 : Bool} {e : Zip.Entry}

/-- What is left to read of a member after its local header. -/
def afterHeader (e : Zip.Entry) (name : Bytes) (method flags crc compressed uncompressed : ℕ)
    (field : Option Bytes) : Zip.Parser Zip.Member := do
  let data ← Zip.bytes e.compressed
  if Zip.hasDescriptor flags then
    Zip.magic 0x08074b50
    let crc ← Zip.number 4
    let compressed ← Zip.number (if field.isSome then 8 else 4)
    let uncompressed ← Zip.number (if field.isSome then 8 else 4)
    Zip.check (crc = e.crc ∧ compressed = e.compressed ∧ uncompressed = e.uncompressed)
  else
    let sizes : Zip.Parser (ℕ × ℕ) := do
      let uncompressed ← Zip.wide uncompressed
      let compressed ← Zip.wide compressed
      return (uncompressed, compressed)
    let ((uncompressed, compressed), _) ← StateT.lift (sizes (field.getD []))
    Zip.check (crc = e.crc ∧ compressed = e.compressed ∧ uncompressed = e.uncompressed)
  return { name, method, crc := e.crc, uncompressed := e.uncompressed, data }

/-- A local header is read, if it agrees with the central one. -/
theorem localMember_localHeader (hname : name.length < 2 ^ 16) (hflags : flags < 2 ^ 16)
    (hmethod : method < 2 ^ 16) (he : name = e.name ∧ flags = e.flags ∧ method = e.method) :
    Zip.localMember e (localHeader name method flags crc compressed uncompressed zip64 ++ rest) =
      afterHeader e name method flags crc.toNat (localSize compressed zip64)
        (localSize uncompressed zip64) (localField compressed uncompressed zip64) rest := by
  have hsizes : (if zip64 then le 4 u32Limit ++ le 4 u32Limit
      else le 4 compressed ++ le 4 uncompressed) =
        le 4 (if zip64 then u32Limit else compressed) ++
          le 4 (if zip64 then u32Limit else uncompressed) := by
    split <;> rfl
  have hlocal : ∀ v, (if zip64 then u32Limit else v) % 2 ^ (8 * 4) = localSize v zip64 := by
    intro v
    unfold localSize
    split <;> rfl
  unfold localHeader Zip.localMember
  rw [hsizes, show (if zip64 then le 2 zip64Tag ++ le 2 16 ++ le 8 uncompressed ++ le 8 compressed
    else []) = localExtra compressed uncompressed zip64 from rfl]
  simp only [List.append_assoc, signatureLocal]
  rw [Zip.magic_bind (by decide), Zip.number_bind_mod, Zip.number_bind hflags,
    Zip.number_bind hmethod, Zip.number_bind (by decide), Zip.number_bind (by decide),
    Zip.number_bind crc.toNat_lt, Zip.number_bind_mod, Zip.number_bind_mod, Zip.number_bind hname,
    Zip.number_bind (by split <;> decide), Zip.bytes_bind rfl,
    Zip.bytes_bind (length_localExtra compressed uncompressed zip64), Zip.check_bind he,
    Zip.lift_bind (zip64Field_localExtra compressed uncompressed zip64), hlocal, hlocal]
  rfl

/-- The data of a stored member is read, if its header agrees with the central one. -/
theorem afterHeader_stored (hflags : Zip.hasDescriptor flags = false)
    (hlen : data.length = e.compressed) (hcrc : crc.toNat = e.crc)
    (hc : e.compressed < 2 ^ 64) (hu : e.uncompressed < 2 ^ 64)
    (hnarrow : zip64 = false → e.compressed < u32Limit ∧ e.uncompressed < u32Limit) :
    afterHeader e name method flags crc.toNat (localSize e.compressed zip64)
        (localSize e.uncompressed zip64) (localField e.compressed e.uncompressed zip64)
        (data ++ rest) =
      some (⟨name, method, e.crc, e.uncompressed, data⟩, rest) := by
  unfold afterHeader
  rw [Zip.bytes_bind hlen, hflags, if_neg Bool.false_ne_true,
    Zip.lift_bind (localSizes_read hc hu hnarrow)]
  dsimp only
  rw [Zip.check_bind ⟨hcrc, rfl, rfl⟩]
  rfl

/-- The data of a deflated member is read, and its descriptor, which has eight bytes for
    a size just where the local header announced them. -/
theorem afterHeader_deflated {crc₀ c₀ u₀ : ℕ} {field : Option Bytes}
    (hflags : Zip.hasDescriptor flags = true) (hfield : field.isSome = zip64)
    (hlen : data.length = e.compressed) (hcrc : crc.toNat = e.crc)
    (hc : e.compressed < 2 ^ 64) (hu : e.uncompressed < 2 ^ 64)
    (hnarrow : zip64 = false → e.compressed < u32Limit ∧ e.uncompressed < u32Limit) :
    afterHeader e name method flags crc₀ c₀ u₀ field
        (data ++ (dataDescriptor crc e.compressed e.uncompressed zip64 ++ rest)) =
      some (⟨name, method, e.crc, e.uncompressed, data⟩, rest) := by
  have hsizes : (if zip64 then le 8 e.compressed ++ le 8 e.uncompressed
      else le 4 e.compressed ++ le 4 e.uncompressed) =
        le (if zip64 then 8 else 4) e.compressed ++ le (if zip64 then 8 else 4) e.uncompressed := by
    split <;> rfl
  have hroom : e.compressed < 2 ^ (8 * if zip64 then 8 else 4) ∧
      e.uncompressed < 2 ^ (8 * if zip64 then 8 else 4) := by
    rcases zip64 with - | -
    · obtain ⟨hc, hu⟩ := hnarrow rfl
      unfold u32Limit at hc hu
      exact ⟨hc.trans (by decide), hu.trans (by decide)⟩
    · exact ⟨hc, hu⟩
  unfold afterHeader dataDescriptor
  rw [Zip.bytes_bind hlen, if_pos hflags, hsizes, hfield]
  simp only [List.append_assoc, signatureDescriptor]
  rw [Zip.magic_bind (by decide), Zip.number_bind crc.toNat_lt, Zip.number_bind hroom.1,
    Zip.number_bind hroom.2, Zip.check_bind ⟨hcrc, rfl, rfl⟩]
  rfl

end

/-! ### Members -/

section

variable {placed : List Placed} {p : Placed}

/-- A member is read back at its local header. -/
theorem localMember_bytes (hname : p.entry.name.length < 2 ^ 16) (hk : p.entry.Kind)
    (hlen : p.data.length = p.entry.compressed) (hfits : p.Fits) (rest : Bytes) :
    Zip.localMember p.entry.read (p.bytes ++ rest) = some (p.member, rest) := by
  have hc := hfits.read_compressed
  have hu := hfits.read_uncompressed
  have hc64 := hfits.compressed
  have hu64 := hfits.uncompressed
  have hnarrow := hfits.narrow
  rw [← hc] at hc64 hlen
  rw [← hu] at hu64
  rw [← hc, ← hu] at hnarrow
  have hmember : (⟨p.entry.name, p.entry.method, p.entry.read.crc, p.entry.read.uncompressed,
      p.data⟩ : Zip.Member) = p.member := by rw [hu]; rfl
  have hflags := hk.flags_lt
  have hmethod := hk.method_lt
  unfold Placed.bytes Central.opening Central.closing
  -- A stored member has its sizes in the header; a deflated one, in the descriptor
  -- after its data.
  rcases hk with ⟨hm, hf, -, -⟩ | ⟨sizeHint, hm, hf, -, -⟩
  · have hne : ¬ p.entry.method = methodDeflated := by rw [hm]; decide
    rw [if_neg hne, if_neg hne, List.append_nil, List.append_assoc,
      localMember_localHeader hname hflags hmethod ⟨rfl, rfl, rfl⟩, ← hmember, ← hc, ← hu]
    exact afterHeader_stored (by rw [hf]; exact hasDescriptor_nameFlags _) hlen rfl hc64 hu64 hnarrow
  · rw [if_pos hm, if_pos hm, List.append_assoc, List.append_assoc,
      localMember_localHeader hname hflags hmethod ⟨rfl, rfl, rfl⟩, ← hmember, ← hc, ← hu]
    refine afterHeader_deflated (by rw [hf]; exact hasDescriptor_descriptor _) ?_ hlen rfl hc64 hu64
      hnarrow
    unfold localField
    split <;> simp_all

/-- The members are read back, each at the offset that the directory has for it. -/
theorem readArchive_archiveBytes (h : InOrder placed)
    (hnames : ∀ p ∈ placed, p.entry.name.length < 2 ^ 16) (hfits : ∀ p ∈ placed, p.Fits)
    (hlen : (archiveBytes placed).length < 2 ^ 64) :
    Zip.readArchive (archiveBytes placed) = some (placed.map Placed.member) := by
  have hcentrals := centrals_directory h.kind hnames []
  rw [List.append_nil] at hcentrals
  unfold Zip.readArchive
  rw [readEnd_archiveBytes hlen, Option.bind_eq_bind, Option.bind_some, directory_archiveBytes,
    hcentrals, Option.bind_eq_bind, Option.bind_some]
  dsimp only
  rw [if_neg (not_not_intro rfl)]
  change List.mapM _ _ = _
  rw [List.mapM_map]
  refine Zip.mapM_of_forall fun p hp => ?_
  obtain ⟨before, after, rfl⟩ := List.append_of_mem hp
  obtain ⟨rest, hsplit⟩ := archiveBytes_split before p after
  have hoffset : p.entry.read.offset = (bodyBytes before).length := by
    have hle : (bodyBytes before).length < 2 ^ 64 := by
      rw [hsplit, List.length_append] at hlen
      omega
    rw [Central.read, h.offset rfl, Nat.mod_eq_of_lt hle]
  rw [Function.comp_apply, hoffset, hsplit, readAt_length,
    localMember_bytes (hnames p hp) (h.kind p hp) (h.length p hp) (hfits p hp)]
  rfl

end

/-! ### Calls -/

/-- A source of deflated data that, where it copies it, only writes. -/
class OnlyWrites (δ : Type) [DeflatedSource δ] : Prop where
  writes : ∀ {ω : Type} [Write ω IoError] {src src' : δ} {w w' : ω} {a : UInt32 × ℕ},
    copyDeflated src w = (.ok a, src', w') → ∃ code, Writes w code w'

/-- What it copies is some code, whatever it is. -/
theorem OnlyWrites.copies {δ ω : Type} [DeflatedSource δ] [OnlyWrites δ] [Write ω IoError]
    {src src' : δ} {w w' : ω} {a : UInt32 × ℕ} (h : copyDeflated src w = (.ok a, src', w')) :
    ∃ code, True ∧ Writes w code w' :=
  (OnlyWrites.writes h).imp fun _ hw => ⟨trivial, hw⟩

namespace ZipStreamWriter

/-- A call that adds a member. -/
inductive Call : Type 1
  | stored {ρ : Type} [Read ρ IoError] (name : Str) (crc : UInt32) (size : ℕ) (data : ρ)
  | deflated {ρ : Type} [Read ρ IoError] (name : Str) (sizeHint : ℕ) (data : ρ)
  | deflatedFrom {δ : Type} [DeflatedSource δ] [OnlyWrites δ] (name : Str) (sizeHint : ℕ) (src : δ)

section

variable {ρ δ : Type} [Read ρ IoError] [DeflatedSource δ]

/-- The bytes that are read of a stored member, of the size and with the CRC given. -/
def StoredOf (crc : UInt32) (size : ℕ) (data : ρ) (m : Zip.Member) : Prop :=
  m.method = methodStored ∧ m.crc = crc.toNat ∧ m.uncompressed = size ∧ m.data.length = size ∧
    crc32 m.data = crc ∧ ∃ data₁ data', Reads data m.data data₁ ∧ read data₁ 1 = (.ok [], data')

/-- What the bytes that are read of a member deflate to, with their CRC and their length. -/
def DeflatedOf (P : Prims) (data : ρ) (m : Zip.Member) : Prop :=
  m.method = methodDeflated ∧ ∃ bs data₁ data', Reads data bs data₁ ∧
    read data₁ chunk = (.ok [], data') ∧ m.crc = (crc32 bs).toNat ∧ m.uncompressed = bs.length ∧
    DeflateWriter.DeflatesTo P bs m.data

/-- What is copied of a source, with the CRC and the length that it gives. -/
def CopiedOf (ω : Type) [Write ω IoError] (src : δ) (m : Zip.Member) : Prop :=
  m.method = methodDeflated ∧ ∃ (w : ω) (w' : Counting ω) (crc : UInt32) (src' : δ),
    copyDeflated src (Counting.mk w 0) = (.ok (crc, m.uncompressed), src', w') ∧
      m.crc = crc.toNat ∧ Writes (Counting.mk w 0) m.data w'

end

namespace Call

/-- The name of the member. -/
def name : Call → Str
  | stored name .. => name
  | deflated name .. => name
  | deflatedFrom name .. => name

/-- The size that is given with the call. -/
def size : Call → ℕ
  | stored _ _ size _ => size
  | deflated _ sizeHint _ => sizeHint
  | deflatedFrom _ sizeHint _ => sizeHint

/-- What the data of the member is that a call adds. -/
def Data (P : Prims) (ω : Type) [Write ω IoError] : Call → Zip.Member → Prop
  | stored _ crc size data => StoredOf crc size data
  | deflated _ _ data => DeflatedOf P data
  | deflatedFrom _ _ src => CopiedOf ω src

/-- What the member is that a call adds. -/
def Describes (P : Prims) (ω : Type) [Write ω IoError] (c : Call) (m : Zip.Member) : Prop :=
  m.name = utf8Encode c.name ∧ c.Data P ω m

/-- Where the compressor of the writer is used, it makes no more than its bound. -/
def Bounded : Call → Central → Prop
  | deflated .., e => e.compressed ≤ deflateBound e.uncompressed
  | _, _ => True

end Call

variable {P : Prims} {ω : Type} [Write ω IoError] {z z₁ z' : ZipStreamWriter P ω}

/-- Make a call. -/
def call (z : ZipStreamWriter P ω) : Call → Except ZipStreamError Unit × ZipStreamWriter P ω
  | @Call.stored _ _ name crc size data =>
    let (result, z, _) := z.stored name crc size data
    (result, z)
  | @Call.deflated _ _ name sizeHint data =>
    let (result, z, _) := z.deflated name sizeHint data
    (result.map fun _ => (), z)
  | @Call.deflatedFrom _ _ _ name sizeHint src =>
    let (result, z, _) := z.deflatedFrom name sizeHint src
    (result.map fun _ => (), z)

/-- Make some calls, one after the other, as long as they succeed. -/
def calls (z : ZipStreamWriter P ω) :
    List Call → Except ZipStreamError Unit × ZipStreamWriter P ω
  | [] => (.ok (), z)
  | c :: cs =>
    match z.call c with
    | (.error e, z) => (.error e, z)
    | (.ok (), z) => calls z cs

/-- A header that announces 32 bits has room for what is expected. -/
theorem not_announces64 {sizeHint : ℕ} (h : announces64 sizeHint = false) :
    deflateBound sizeHint < u32Limit ∧ sizeHint < u32Limit := by
  simpa only [announces64, decide_eq_false_iff_not, not_or, Nat.not_le] using h

/-- What a call adds that succeeds. -/
structure Added (c : Call) (z : ZipStreamWriter P ω) (p : Placed) (z' : ZipStreamWriter P ω) :
    Prop where
  adds : Adds z p z'
  describes : c.Describes P ω p.member
  fits : c.size < 2 ^ 64 → p.data.length < 2 ^ 64 → c.Bounded p.entry → p.Fits

theorem stored_added {ρ : Type} [Read ρ IoError] {name : Str} {crc : UInt32} {size : ℕ}
    {data data' : ρ} (h : z.stored name crc size data = (.ok (), z', data')) :
    ∃ p, Added (.stored name crc size data) z p z' := by
  obtain ⟨bs, data₁, hr, hend, hlen, hcrc, ha⟩ := stored_adds h
  have hdata := (⟨rfl, rfl, rfl, hlen, hcrc, data₁, data', hr, hend⟩ : StoredOf crc size data
    ⟨utf8Encode name, methodStored, crc.toNat, size, bs⟩)
  refine ⟨_, ha, ⟨rfl, hdata⟩, fun hsize _ _ => ⟨hsize, hsize, fun h64 => ?_⟩⟩
  have hlt : size < u32Limit := Nat.not_le.1 (of_decide_eq_false h64)
  exact ⟨hlt, hlt⟩

theorem deflated_added {ρ : Type} [Read ρ IoError] {name : Str} {sizeHint n : ℕ} {data data' : ρ}
    (h : z.deflated name sizeHint data = (.ok n, z', data')) :
    ∃ p, Added (.deflated name sizeHint data) z p z' := by
  obtain ⟨bs, data₁, code, hr, hend, -, hle, hcode, ha⟩ := deflated_adds h
  have hdata := (⟨rfl, bs, data₁, data', hr, hend, rfl, rfl, hcode⟩ : DeflatedOf P data
    ⟨utf8Encode name, methodDeflated, (crc32 bs).toNat, bs.length, code⟩)
  refine ⟨_, ha, ⟨rfl, hdata⟩, fun hsize hlen hb => ⟨hlen, hle.trans_lt hsize, fun h64 => ?_⟩⟩
  obtain ⟨hbound, hhint⟩ := not_announces64 h64
  exact ⟨(hb.trans (deflateBound_mono hle)).trans_lt hbound, hle.trans_lt hhint⟩

theorem deflatedFrom_added {δ : Type} [DeflatedSource δ] [OnlyWrites δ] {name : Str}
    {sizeHint n : ℕ} {src src' : δ} (h : z.deflatedFrom name sizeHint src = (.ok n, z', src')) :
    ∃ p, Added (.deflatedFrom name sizeHint src) z p z' := by
  obtain ⟨w, w', crc, code, hc, hw, -, hle, hnarrow, ha⟩ := deflatedFrom_adds OnlyWrites.copies h
  have hdata := (⟨rfl, w, w', crc, src', hc, rfl, hw⟩ : CopiedOf ω src
    ⟨utf8Encode name, methodDeflated, crc.toNat, n, code⟩)
  refine ⟨_, ha, ⟨rfl, hdata⟩, fun hsize hlen _ => ⟨hlen, hle.trans_lt hsize, fun h64 => ?_⟩⟩
  exact ⟨hnarrow h64, hle.trans_lt (not_announces64 h64).2⟩

/-- A call that succeeds adds the member that it describes. -/
theorem call_added {c : Call} (h : z.call c = (.ok (), z')) : ∃ p, Added c z p z' := by
  rcases c with ⟨name, crc, size, data⟩ | ⟨name, sizeHint, data⟩ | ⟨name, sizeHint, src⟩
  · rcases hs : z.stored name crc size data with ⟨result, z₁, data'⟩
    simp only [call, hs, Prod.mk.injEq] at h
    obtain ⟨rfl, rfl⟩ := h
    exact stored_added hs
  · rcases hd : z.deflated name sizeHint data with ⟨result, z₁, data'⟩
    simp only [call, hd, Prod.mk.injEq, Except.map_eq_ok] at h
    obtain ⟨⟨n, rfl, -⟩, rfl⟩ := h
    exact deflated_added hd
  · rcases hd : z.deflatedFrom name sizeHint src with ⟨result, z₁, src'⟩
    simp only [call, hd, Prod.mk.injEq, Except.map_eq_ok] at h
    obtain ⟨⟨n, rfl, -⟩, rfl⟩ := h
    exact deflatedFrom_added hd

/-- What some calls add that succeed, after the members there are. -/
theorem calls_laid {w : ω} {cs : List Call} {placed : List Placed} (hl : Laid w placed z)
    (h : z.calls cs = (.ok (), z')) :
    ∃ added, Laid w (placed ++ added) z' ∧
      List.Forall₂ (fun c p => ∃ z z' : ZipStreamWriter P ω, Added c z p z') cs added := by
  induction cs generalizing z placed with
  | nil =>
    cases h
    exact ⟨[], by rwa [List.append_nil], .nil⟩
  | cons c cs ih =>
    unfold calls at h
    split at h
    · cases h
    · next z₁ hc =>
      obtain ⟨p, hp⟩ := call_added hc
      obtain ⟨added, hadded, hall⟩ := ih (hl.add hp.adds) h
      refine ⟨p :: added, ?_, .cons ⟨z, z₁, hp⟩ hall⟩
      rwa [List.append_assoc, List.singleton_append] at hadded

theorem exists_of_forall₂ {α β : Type*} {R : α → β → Prop} {as : List α} {bs : List β}
    (h : List.Forall₂ R as bs) : ∀ b ∈ bs, ∃ a ∈ as, R a b := by
  induction h with
  | nil => exact fun _ hb => absurd hb List.not_mem_nil
  | cons hab _ ih =>
    intro b hb
    rcases List.mem_cons.1 hb with rfl | hb
    · exact ⟨_, List.mem_cons_self, hab⟩
    · obtain ⟨a, ha, h⟩ := ih b hb
      exact ⟨a, List.mem_cons_of_mem _ ha, h⟩

theorem forall₂_and {α β : Type*} {R S : α → β → Prop} {as : List α} {bs : List β}
    (h : List.Forall₂ R as bs) (h' : List.Forall₂ S as bs) :
    List.Forall₂ (fun a b => R a b ∧ S a b) as bs := by
  induction h with
  | nil => exact .nil
  | cons hab _ ih =>
    obtain ⟨hab', h'⟩ := List.forall₂_cons.1 h'
    exact .cons ⟨hab, hab'⟩ (ih h')

/-- The data of a member is no longer than the archive. -/
theorem length_data_le {placed : List Placed} {p : Placed} (h : p ∈ placed) :
    p.data.length ≤ (archiveBytes placed).length := by
  obtain ⟨before, after, rfl⟩ := List.append_of_mem h
  obtain ⟨rest, hsplit⟩ := archiveBytes_split before p after
  rw [hsplit, Placed.bytes]
  simp only [List.length_append]
  omega

/-- After any calls that all succeed, with names that have room in 16 bits and sizes
    that have 64, and a compressor that keeps to its bound, the archive is read from its
    end record: it has the members of the calls, in order. (None is read whose headers
    and descriptor do not agree, or whose descriptor has eight bytes for a size where
    its local header does not announce them.) -/
theorem calls_readArchive [Flush ω IoError] {w w' : ω} {cs : List Call}
    (hnames : ∀ c ∈ cs, (utf8Encode c.name).length ≤ 65535) (hsizes : ∀ c ∈ cs, c.size < 2 ^ 64)
    (hcalls : (new P w).calls cs = (.ok (), z)) (hbound : List.Forall₂ Call.Bounded cs z.entries)
    (hfinish : z.finish = (.ok (), w')) :
    ∃ out w₁ members, Writes w out w₁ ∧ flush w₁ = (.ok (), w') ∧
      List.Forall₂ (Call.Describes P ω) cs members ∧
      (out.length < 2 ^ 64 → Zip.readArchive out = some members) := by
  obtain ⟨placed, hl, hadded⟩ := calls_laid (.new w) hcalls
  obtain ⟨w₁, hw, hflush⟩ := hl.finish hfinish
  rw [List.nil_append] at hl hw
  rw [hl.entries, List.forall₂_map_right_iff] at hbound
  refine ⟨_, w₁, placed.map Placed.member, hw, hflush, List.forall₂_map_right_iff.2 ?_,
    fun hlen => readArchive_archiveBytes hl.inOrder ?_ ?_ hlen⟩
  · refine hadded.imp fun c p h => ?_
    obtain ⟨z, z', h⟩ := h
    exact h.describes
  · intro p hp
    obtain ⟨c, hc, z, z', h⟩ := exists_of_forall₂ hadded p hp
    have hname : p.entry.name = utf8Encode c.name := h.describes.1
    rw [hname]
    exact Nat.lt_succ_of_le (hnames c hc)
  · intro p hp
    obtain ⟨c, hc, ⟨z, z', h⟩, hb⟩ := exists_of_forall₂ (forall₂_and hadded hbound) p hp
    exact h.fits (hsizes c hc) ((length_data_le hp).trans_lt hlen) hb

/-- A stored and a deflated member. -/
def sampleCalls : List Call :=
  [.stored (ascii "a") (crc32 [0x41]) 1 ({ rest := [0x41], cuts := fun _ => 1 } : Pieces IoError),
    .deflated (ascii "b") 3 ({ rest := [0x42, 0x43], cuts := fun _ => 0 } : Pieces IoError)]

/-- The archive of the two members in memory. -/
def sampleWriter : ZipStreamWriter knownPrims (Buffer IoError) := ((new _ ⟨[]⟩).calls sampleCalls).2

/-- The archive of a stored and of a deflated member, read back. -/
theorem calls_readArchive_sample : ∃ members,
    List.Forall₂ (Call.Describes knownPrims (Buffer IoError)) sampleCalls members ∧
      Zip.readArchive sampleWriter.finish.2.bytes = some members := by
  have hcalls : (new knownPrims (⟨[]⟩ : Buffer IoError)).calls sampleCalls = (.ok (), sampleWriter) :=
    Prod.ext (by decide +kernel) rfl
  have hentries : sampleWriter.entries =
      [⟨[0x61], 0, 0, 3554254475, 1, 1, 0, false⟩, ⟨[0x62], 8, 8, 1816342354, 9, 2, 32, false⟩] := by
    decide +kernel
  have hbound : List.Forall₂ Call.Bounded sampleCalls sampleWriter.entries := by
    rw [hentries]
    exact .cons trivial (.cons (show 9 ≤ deflateBound 2 by decide) .nil)
  obtain ⟨out, w₁, members, hw, hflush, hdesc, hread⟩ := calls_readArchive (by decide)
    (fun c hc => by rcases List.mem_pair.1 hc with rfl | rfl <;> decide) hcalls hbound
    (show sampleWriter.finish = (.ok (), sampleWriter.finish.2) from Prod.ext (by decide +kernel) rfl)
  have hbytes : sampleWriter.finish.2.bytes = out := by
    rw [← (Prod.mk.inj hflush).2]
    exact Buffer.writes hw
  refine ⟨members, hdesc, ?_⟩
  rw [hbytes]
  refine hread ?_
  rw [← hbytes]
  decide +kernel

end ZipStreamWriter

end OdfCrypto
