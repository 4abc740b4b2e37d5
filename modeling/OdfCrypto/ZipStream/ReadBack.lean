import OdfCrypto.Lib.Zip
import OdfCrypto.ZipStream.Layout

/-!
# Reading a rebuilt package back

The archive that the streaming writer leaves, read from its end record by a reader
of zip archives.
-/

namespace OdfCrypto

open ByteStream Text Crc32

/-! ### Central headers -/

section

variable {e : Central} {rest : Bytes} {α : Type}

theorem nameFlags_lt (name : Bytes) : nameFlags name < 2 ^ 16 := by
  unfold nameFlags
  split <;> decide

theorem Central.Kind.flags_lt (h : e.Kind) : e.flags < 2 ^ 16 := by
  rcases h with ⟨-, hf, -, -⟩ | ⟨_, -, hf, -, -⟩
  · rw [hf]
    exact nameFlags_lt _
  · rw [hf]
    exact Nat.or_lt_two_pow (nameFlags_lt _) (by decide)

theorem Central.Kind.method_lt (h : e.Kind) : e.method < 2 ^ 16 := by
  rcases h with ⟨hm, -, -, -⟩ | ⟨_, hm, -, -, -⟩ <;> rw [hm] <;> decide

theorem clip_lt (v : ℕ) : clip v < 2 ^ 32 := by
  unfold clip
  split
  · decide
  · next h => exact (Nat.not_le.1 h).trans (by decide)

/-- What is read of a number of which a Zip64 field has the part above 32 bits. -/
theorem wide_bind (v : ℕ) (f : ℕ → Zip.Parser α) :
    (Zip.wide (clip v) >>= f) ((if u32Limit ≤ v then le 8 v else []) ++ rest) =
      f (v % 2 ^ 64) rest := by
  unfold Zip.wide clip
  by_cases h : u32Limit ≤ v
  · rw [if_pos h, if_pos h, if_pos (show u32Limit = Zip.mark32 from rfl), Zip.number_bind_mod]
  · rw [if_neg h, if_neg h, if_neg (show v ≠ Zip.mark32 from Nat.ne_of_lt (Nat.not_le.1 h)), pure_bind,
      List.nil_append,
      Nat.mod_eq_of_lt ((Nat.not_le.1 h).trans (by decide))]

/-- What is read of a central header. -/
def Central.read (e : Central) : Zip.Entry where
  name := e.name
  method := e.method
  flags := e.flags
  crc := e.crc.toNat
  compressed := e.compressed % 2 ^ 64
  uncompressed := e.uncompressed % 2 ^ 64
  offset := e.offset % 2 ^ 64

theorem length_extra_le (e : Central) : e.extra.length ≤ 24 := by
  unfold Central.extra
  split_ifs <;> simp

theorem zip64Field_nil : Zip.zip64Field [] = some none := rfl

/-- An extra field with one Zip64 field. -/
theorem zip64Field_single {data : Bytes} (h : data.length < 2 ^ 16) :
    Zip.zip64Field (le 2 zip64Tag ++ le 2 data.length ++ data) = some (some data) := by
  have hparse : (do
      let tag ← Zip.number 2
      let n ← Zip.number 2
      let data ← Zip.bytes n
      return (tag, data) : Zip.Parser (ℕ × Bytes)) (le 2 zip64Tag ++ le 2 data.length ++ data) =
        some ((zip64Tag, data), []) := by
    rw [List.append_assoc, Zip.number_bind (by decide), Zip.number_bind h]
    nth_rewrite 2 [← List.append_nil data]
    rw [Zip.bytes_bind rfl]
    rfl
  rcases hx : le 2 zip64Tag ++ le 2 data.length ++ data with _ | ⟨b, tl⟩
  · cases hx
  · rw [hx] at hparse
    unfold Zip.zip64Field
    rw [List.length_cons, Zip.fields, hparse]
    · cases tl <;> rfl
    · exact List.cons_ne_nil b tl

/-- The extra field of a central header. -/
def Central.extraField (e : Central) : Bytes :=
  if e.extra.isEmpty then [] else le 2 zip64Tag ++ le 2 e.extra.length ++ e.extra

theorem length_extraField (e : Central) :
    e.extraField.length = if e.extra.isEmpty then 0 else 4 + e.extra.length := by
  unfold Central.extraField
  split
  · rfl
  · simp only [List.length_append, length_le]

theorem length_header (e : Central) :
    e.header.length = 46 + e.name.length + e.extraField.length := by
  unfold Central.header
  rw [show (if e.extra.isEmpty then [] else le 2 zip64Tag ++ le 2 e.extra.length ++ e.extra) =
    e.extraField from rfl]
  simp only [List.length_append, length_le]

theorem zip64Field_extraField (e : Central) :
    ∃ field, Zip.zip64Field e.extraField = some field ∧ field.getD [] = e.extra := by
  have hlen := length_extra_le e
  unfold Central.extraField
  split
  · next h => exact ⟨none, rfl, (List.isEmpty_iff.1 h).symm⟩
  · exact ⟨some e.extra, zip64Field_single (by omega), rfl⟩

/-- A central header is read back. -/
theorem central_header (hname : e.name.length < 2 ^ 16) (hk : e.Kind) :
    Zip.central (e.header ++ rest) = some (e.read, rest) := by
  have hextra := length_extra_le e
  obtain ⟨field, hfield, hdata⟩ := zip64Field_extraField e
  unfold Central.header Zip.central
  rw [show (if e.extra.isEmpty then [] else le 2 zip64Tag ++ le 2 e.extra.length ++ e.extra) =
    e.extraField from rfl]
  simp only [List.append_assoc, signatureCentral, externalAttributes]
  rw [Zip.magic_bind (by decide), Zip.number_bind_mod, Zip.number_bind_mod,
    Zip.number_bind hk.flags_lt, Zip.number_bind hk.method_lt, Zip.number_bind (by decide),
    Zip.number_bind (by decide), Zip.number_bind e.crc.toNat_lt,
    Zip.number_bind (clip_lt _), Zip.number_bind (clip_lt _), Zip.number_bind hname,
    Zip.number_bind (by split <;> omega), Zip.number_bind (by decide), Zip.number_bind (by decide),
    Zip.number_bind (by decide), Zip.number_bind (by decide), Zip.number_bind (clip_lt _),
    Zip.bytes_bind rfl, Zip.bytes_bind (length_extraField e), Zip.bytes_zero_bind,
    Zip.check_bind rfl, Zip.lift_bind hfield]
  -- the numbers that the Zip64 field has are read off it in their order
  have hsizes : ((do
      let uncompressed ← Zip.wide (clip e.uncompressed)
      let compressed ← Zip.wide (clip e.compressed)
      let offset ← Zip.wide (clip e.offset)
      return (⟨e.name, e.method, e.flags, e.crc.toNat, compressed, uncompressed, offset⟩ : Zip.Entry) :
        Zip.Parser Zip.Entry) (field.getD [])) = some (e.read, []) := by
    rw [hdata, Central.extra, List.append_assoc, wide_bind, wide_bind, ← List.append_nil (ite _ _ _),
      wide_bind]
    rfl
  rw [Zip.lift_bind hsizes]
  rfl

end

/-- The central directory is read back. -/
theorem centrals_directory {placed : List Placed} (hk : ∀ p ∈ placed, p.entry.Kind)
    (hnames : ∀ p ∈ placed, p.entry.name.length < 2 ^ 16) (rest : Bytes) :
    Zip.centrals placed.length (directoryBytes placed ++ rest) =
      some (placed.map fun p => p.entry.read, rest) := by
  induction placed with
  | nil => rfl
  | cons p placed ih =>
    have hp := List.mem_cons_self (a := p) (l := placed)
    have ih := ih (fun q hq => hk q (List.mem_cons_of_mem _ hq))
      fun q hq => hnames q (List.mem_cons_of_mem _ hq)
    rw [List.length_cons, Zip.centrals, directoryBytes, List.flatMap_cons, List.append_assoc,
      Zip.bind_apply, central_header (hnames p hp) (hk p hp), Option.bind_some, Zip.bind_apply]
    rw [directoryBytes] at ih
    rw [ih]
    rfl

/-! ### The end of an archive -/

section

variable {count cdStart cdSize : ℕ} {body rest : Bytes}

/-- What the end record has: each number that has no room is marked. -/
def endRead (count cdStart cdSize : ℕ) : Zip.End :=
  let zip64 := zip64End count cdStart cdSize
  let clip := fun v => if zip64 ∧ u32Limit ≤ v then u32Limit else v
  { count := if zip64 then u16Limit else count, size := clip cdSize, start := clip cdStart }

theorem not_zip64End : zip64End count cdStart cdSize = false ↔
    count < u16Limit ∧ cdStart < u32Limit ∧ cdSize < u32Limit := by
  simp only [zip64End, decide_eq_false_iff_not, not_or, Nat.not_le]

theorem endRecord_read : Zip.endRecord 0 (endRecord count cdStart cdSize ++ rest) =
    some (endRead count cdStart cdSize, rest) := by
  have hlt : (endRead count cdStart cdSize).count < 2 ^ (8 * 2) ∧
      (endRead count cdStart cdSize).size < 2 ^ (8 * 4) ∧
      (endRead count cdStart cdSize).start < 2 ^ (8 * 4) := by
    unfold endRead u32Limit u16Limit
    cases h : zip64End count cdStart cdSize with
    | true =>
      simp only [true_and, if_true]
      refine ⟨by decide, ?_, ?_⟩ <;> split <;> omega
    | false =>
      obtain ⟨hc, hs, hz⟩ := not_zip64End.1 h
      unfold u32Limit at hs hz
      unfold u16Limit at hc
      simp only [Bool.false_eq_true, false_and, if_false]
      omega
  unfold endRead at hlt
  unfold endRecord Zip.endRecord
  simp only [List.append_assoc, signatureEnd]
  rw [Zip.magic_bind (by decide), Zip.number_bind (by decide), Zip.number_bind (by decide),
    Zip.number_bind hlt.1, Zip.number_bind hlt.1, Zip.number_bind hlt.2.1, Zip.number_bind hlt.2.2,
    Zip.number_bind (by decide), Zip.check_bind ⟨rfl, rfl, rfl, rfl⟩]
  rfl

theorem length_endRecord (count cdStart cdSize : ℕ) :
    (endRecord count cdStart cdSize).length = 22 := by
  simp only [endRecord, List.length_append, length_le]

/-- What is read after the front of an archive. -/
theorem readAt_length {α : Type} (front rest : Bytes) (p : Zip.Parser α) :
    Zip.readAt (front ++ rest) front.length p = (p rest).map Prod.fst := by
  rw [Zip.readAt, if_pos (by rw [List.length_append]; omega), List.drop_left]

/-- The end record is found at the end. -/
theorem findEnd_endRecord : Zip.findEnd (body ++ endRecord count cdStart cdSize) =
    some (endRead count cdStart cdSize, body.length) := by
  have hlen := length_endRecord count cdStart cdSize
  have hread := @endRecord_read count cdStart cdSize []
  rw [List.append_nil] at hread
  unfold Zip.findEnd
  rw [show 2 ^ 16 = 65535 + 1 from rfl, List.range_succ_eq_map, List.findSome?_cons]
  have hat : (body ++ endRecord count cdStart cdSize).length - (22 + 0) = body.length := by
    rw [List.length_append, hlen]
    omega
  rw [if_pos (by rw [List.length_append, hlen]; omega)]
  dsimp only
  rw [hat, readAt_length, hread]
  rfl

/-- The Zip64 end record, with its locator after it. -/
theorem endRecords64_read {end64At : ℕ} (hc : count < 2 ^ 64) (hs : cdStart < 2 ^ 64)
    (hz : cdSize < 2 ^ 64) :
    Zip.endRecord64 (endRecords64 count cdStart cdSize end64At ++ rest) =
      some (⟨count, cdSize, cdStart⟩,
        le 4 signatureLocator64 ++ (le 4 0 ++ (le 8 end64At ++ (le 4 1 ++ rest)))) := by
  unfold endRecords64 Zip.endRecord64
  simp only [List.append_assoc, signatureEnd64]
  rw [Zip.magic_bind (by decide), Zip.number_bind_mod, Zip.number_bind_mod, Zip.number_bind_mod,
    Zip.number_bind (by decide), Zip.number_bind (by decide), Zip.number_bind hc, Zip.number_bind hc,
    Zip.number_bind hz, Zip.number_bind hs, Zip.check_bind ⟨rfl, rfl, rfl⟩]
  rfl

theorem locator_read {end64At : ℕ} (h : end64At < 2 ^ 64) :
    Zip.locator (le 4 signatureLocator64 ++ (le 4 0 ++ (le 8 end64At ++ (le 4 1 ++ rest)))) =
      some (end64At, rest) := by
  unfold Zip.locator
  simp only [signatureLocator64]
  rw [Zip.magic_bind (by decide), Zip.number_bind (by decide), Zip.number_bind h,
    Zip.number_bind (by decide), Zip.check_bind ⟨rfl, rfl⟩]
  rfl

/-- The Zip64 end record has 56 bytes, and its locator comes after it. -/
theorem endRecords64_split (count cdStart cdSize end64At : ℕ) :
    ∃ front : Bytes, front.length = 56 ∧ endRecords64 count cdStart cdSize end64At =
      front ++ (le 4 signatureLocator64 ++ (le 4 0 ++ (le 8 end64At ++ le 4 1))) := by
  refine ⟨le 4 signatureEnd64 ++ le 8 44 ++ le 2 (madeByUnix ||| 45) ++ le 2 45 ++ le 4 0 ++
    le 4 0 ++ le 8 count ++ le 8 count ++ le 8 cdSize ++ le 8 cdStart, ?_, ?_⟩
  · simp only [List.length_append, length_le]
  · simp only [endRecords64, List.append_assoc]

/-- The end records say where the directory is, and how many members it has. -/
theorem readEnd_endBytes (hbody : body.length = cdStart + cdSize) (hc : count < 2 ^ 64)
    (hb : body.length < 2 ^ 64) :
    Zip.readEnd (body ++ endBytes count cdStart cdSize) = some ⟨count, cdSize, cdStart⟩ := by
  unfold endBytes Zip.readEnd
  rw [← List.append_assoc, findEnd_endRecord]
  -- The end record carries the values themselves, unless one of them needs the Zip64
  -- records.
  cases h : zip64End count cdStart cdSize with
  | false =>
    obtain ⟨h1, h2, h3⟩ := not_zip64End.1 h
    have hread : endRead count cdStart cdSize = ⟨count, cdSize, cdStart⟩ := by
      simp only [endRead, h, Bool.false_eq_true, false_and, if_false]
    have hne : ¬ (count = Zip.mark16 ∨ cdSize = Zip.mark32 ∨ cdStart = Zip.mark32) := by
      unfold u32Limit at h2 h3
      unfold u16Limit at h1
      unfold Zip.mark16 Zip.mark32
      omega
    rw [hread]
    exact if_neg hne
  | true =>
    have hmark : (endRead count cdStart cdSize).count = Zip.mark16 := by
      simp only [endRead, h, if_true]
      rfl
    -- A field is clipped exactly when it is marked, and then the Zip64 record has the
    -- value.
    have hclip : ∀ v, (if (if true ∧ u32Limit ≤ v then u32Limit else v) = Zip.mark32 then v
        else if true ∧ u32Limit ≤ v then u32Limit else v) = v := by
      intro v
      by_cases hv : u32Limit ≤ v
      · have hmarked : (if true ∧ u32Limit ≤ v then u32Limit else v) = u32Limit := if_pos ⟨rfl, hv⟩
        rw [hmarked, if_pos (show u32Limit = Zip.mark32 from rfl)]
      · have hsmall : (if true ∧ u32Limit ≤ v then u32Limit else v) = v := if_neg fun h => hv h.2
        rw [hsmall, ite_self]
    -- The locator stands right before the end record, and points back at the Zip64 end
    -- record.
    obtain ⟨front, hfront, heq⟩ := endRecords64_split count cdStart cdSize (cdStart + cdSize)
    have hlocator : Zip.readAt (body ++ endRecords64 count cdStart cdSize (cdStart + cdSize) ++
        endRecord count cdStart cdSize) (body.length + 56) Zip.locator = some (cdStart + cdSize) := by
      rw [heq, ← List.append_assoc, List.append_assoc (body ++ front),
        show body.length + 56 = (body ++ front).length by rw [List.length_append, hfront],
        readAt_length]
      simp only [List.append_assoc]
      rw [locator_read (by omega)]
      rfl
    have hend : Zip.readAt (body ++ endRecords64 count cdStart cdSize (cdStart + cdSize) ++
        endRecord count cdStart cdSize) (cdStart + cdSize) Zip.endRecord64 =
          some ⟨count, cdSize, cdStart⟩ := by
      rw [List.append_assoc, ← hbody, readAt_length,
        endRecords64_read hc (by omega) (by omega)]
      rfl
    have hat : (body ++ endRecords64 count cdStart cdSize (cdStart + cdSize)).length - 20 =
        body.length + 56 := by
      rw [heq]
      simp only [List.length_append, length_le, hfront]
      omega
    have hroom : ¬ (body ++ endRecords64 count cdStart cdSize (cdStart + cdSize)).length < 20 := by
      omega
    simp only [if_true, Option.bind_eq_bind, Option.bind_some, hmark, true_or, if_neg hroom, hat,
      hlocator, hend, pure]
    have hsize : (endRead count cdStart cdSize).size =
        if true ∧ u32Limit ≤ cdSize then u32Limit else cdSize := by
      simp only [endRead, h]
    have hstart : (endRead count cdStart cdSize).start =
        if true ∧ u32Limit ≤ cdStart then u32Limit else cdStart := by
      simp only [endRead, h]
    rw [hsize, hstart, hclip, hclip]

end

/-! ### Members -/

section

variable {placed : List Placed} {p : Placed}

theorem localName_opening (hname : p.entry.name.length < 2 ^ 16) (hk : p.entry.Kind) (rest : Bytes) :
    ∃ rest', Zip.localName (p.bytes ++ rest) = some (p.entry.name, rest') := by
  have hread : ∀ crc c u rest, ∃ rest', Zip.localName
      (localHeader p.entry.name p.entry.method p.entry.flags crc c u p.entry.zip64Local ++ rest) =
        some (p.entry.name, rest') := by
    intro crc c u rest
    unfold localHeader Zip.localName
    have hsizes : ∃ a b, (if p.entry.zip64Local then le 4 u32Limit ++ le 4 u32Limit
        else le 4 c ++ le 4 u) = le 4 a ++ le 4 b := by
      split <;> exact ⟨_, _, rfl⟩
    obtain ⟨a, b, hab⟩ := hsizes
    rw [hab]
    simp only [List.append_assoc, signatureLocal]
    rw [Zip.magic_bind (by decide), Zip.number_bind_mod, Zip.number_bind hk.flags_lt,
      Zip.number_bind hk.method_lt, Zip.number_bind (by decide), Zip.number_bind (by decide),
      Zip.number_bind_mod, Zip.number_bind_mod, Zip.number_bind_mod, Zip.number_bind hname,
      Zip.number_bind_mod, Zip.bytes, if_pos (by rw [List.length_append]; omega), List.take_left]
    exact ⟨_, rfl⟩
  unfold Placed.bytes Central.opening
  rw [List.append_assoc, List.append_assoc]
  split <;> exact hread _ _ _ _

/-- Where a member lies in an archive. -/
theorem archiveBytes_split (before : List Placed) (p : Placed) (after : List Placed) :
    ∃ rest, archiveBytes (before ++ p :: after) = bodyBytes before ++ (p.bytes ++ rest) := by
  refine ⟨bodyBytes after ++ (directoryBytes (before ++ p :: after) ++
    endBytes (before ++ p :: after).length (bodyBytes (before ++ p :: after)).length
      (directoryBytes (before ++ p :: after)).length), ?_⟩
  unfold archiveBytes
  rw [show bodyBytes (before ++ p :: after) = bodyBytes before ++ (p.bytes ++ bodyBytes after) by
    rw [bodyBytes, List.flatMap_append, List.flatMap_cons]; rfl]
  simp only [List.append_assoc]

/-- A member takes at least a byte of the directory. -/
theorem length_le_directoryBytes (placed : List Placed) :
    placed.length ≤ (directoryBytes placed).length := by
  induction placed with
  | nil => exact Nat.zero_le _
  | cons p placed ih =>
    rw [directoryBytes, List.flatMap_cons, List.length_append, List.length_cons]
    rw [directoryBytes] at ih
    have := length_header p.entry
    omega

/-- The directory of an archive is found. -/
theorem readEnd_archiveBytes (hlen : (archiveBytes placed).length < 2 ^ 64) :
    Zip.readEnd (archiveBytes placed) = some ⟨placed.length, (directoryBytes placed).length,
      (bodyBytes placed).length⟩ := by
  have hle := length_le_directoryBytes placed
  unfold archiveBytes at hlen ⊢
  rw [List.length_append, List.length_append] at hlen
  exact readEnd_endBytes List.length_append (by omega) (by rw [List.length_append]; omega)

theorem directory_archiveBytes (placed : List Placed) :
    ((archiveBytes placed).drop (bodyBytes placed).length).take (directoryBytes placed).length =
      directoryBytes placed := by
  unfold archiveBytes
  rw [List.append_assoc, List.drop_left, List.take_left]

/-- The names of the members are read back just when each has room in its headers. -/
theorem readNames_archiveBytes (h : InOrder placed) (hlen : (archiveBytes placed).length < 2 ^ 64) :
    Zip.readNames (archiveBytes placed) = some (placed.map fun p => p.entry.name) ↔
      ∀ p ∈ placed, p.entry.name.length < 2 ^ 16 := by
  constructor
  · intro hr p hp
    exact Zip.length_of_mem_readNames hr (List.mem_map_of_mem hp)
  · intro hnames
    have hcentrals := centrals_directory h.kind hnames []
    rw [List.append_nil] at hcentrals
    unfold Zip.readNames
    rw [readEnd_archiveBytes hlen, Option.bind_eq_bind, Option.bind_some, directory_archiveBytes,
      hcentrals, Option.bind_eq_bind, Option.bind_some]
    dsimp only
    rw [if_pos rfl, List.mapM_map]
    refine Zip.mapM_of_forall fun p hp => ?_
    obtain ⟨before, after, rfl⟩ := List.append_of_mem hp
    obtain ⟨rest, hsplit⟩ := archiveBytes_split before p after
    obtain ⟨rest', hread⟩ := localName_opening (hnames p hp) (h.kind p hp) rest
    have hoffset : p.entry.read.offset = (bodyBytes before).length := by
      have hle : (bodyBytes before).length < 2 ^ 64 := by
        rw [hsplit, List.length_append] at hlen
        omega
      rw [Central.read, h.offset rfl, Nat.mod_eq_of_lt hle]
    rw [Function.comp_apply, Zip.nameOf, hoffset, hsplit, readAt_length, hread]
    exact if_pos rfl

end

end OdfCrypto
