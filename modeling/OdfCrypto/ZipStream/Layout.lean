import OdfCrypto.ZipStream

/-!
# What the streaming zip writer writes

An archive of `ZipStreamWriter` is its members one after the other, each with its
header before the data and, where it is deflated, its descriptor after it, then
the central headers, then the end records (`archiveBytes`).

* `stored_adds`, `deflated_adds`, `deflatedFrom_adds`: a call that succeeds writes
  one member more, and records it at the offset it is at;
* `Laid.add`, `Laid.finish`: a run of such calls writes the archive.
-/

namespace OdfCrypto

open ByteStream Text Crc32

/-! ### The layout -/

/-- What is written of a member before its data. -/
def Central.opening (e : Central) : Bytes :=
  if e.method = methodDeflated then localHeader e.name e.method e.flags 0 0 0 e.zip64Local
  else localHeader e.name e.method e.flags e.crc e.compressed e.uncompressed e.zip64Local

/-- What is written of a member after its data. -/
def Central.closing (e : Central) : Bytes :=
  if e.method = methodDeflated then dataDescriptor e.crc e.compressed e.uncompressed e.zip64Local
  else []

/-- A member as it lies in an archive. -/
structure Placed where
  entry : Central
  data : Bytes

def Placed.bytes (p : Placed) : Bytes := p.entry.opening ++ p.data ++ p.entry.closing

/-- The members, one after the other. -/
def bodyBytes (placed : List Placed) : Bytes := placed.flatMap Placed.bytes

/-- The central directory. -/
def directoryBytes (placed : List Placed) : Bytes := placed.flatMap fun p => p.entry.header

/-- The end records of a directory. -/
def endBytes (count cdStart cdSize : ℕ) : Bytes :=
  (if zip64End count cdStart cdSize then endRecords64 count cdStart cdSize (cdStart + cdSize)
    else []) ++ endRecord count cdStart cdSize

def archiveBytes (placed : List Placed) : Bytes :=
  bodyBytes placed ++ directoryBytes placed ++
    endBytes placed.length (bodyBytes placed).length (directoryBytes placed).length

/-- What the entry of a member is, by how it was added: stored, with its size known
    before, or deflated, within the size that was expected. -/
inductive Central.Kind (e : Central) : Prop
  | stored (method : e.method = methodStored) (flags : e.flags = nameFlags e.name)
      (size : e.compressed = e.uncompressed) (zip64 : e.zip64Local = decide (u32Limit ≤ e.uncompressed))
  | deflated (sizeHint : ℕ) (method : e.method = methodDeflated)
      (flags : e.flags = nameFlags e.name ||| flagDescriptor) (size : e.uncompressed ≤ sizeHint)
      (zip64 : e.zip64Local = ZipStreamWriter.announces64 sizeHint)

/-- Members of which each is recorded at the offset it is at. -/
structure InOrder (placed : List Placed) : Prop where
  offset : ∀ {before p after}, placed = before ++ p :: after →
    p.entry.offset = (bodyBytes before).length
  length : ∀ p ∈ placed, p.data.length = p.entry.compressed
  kind : ∀ p ∈ placed, p.entry.Kind

theorem InOrder.nil : InOrder [] := ⟨fun h => by simp at h, nofun, nofun⟩

theorem bodyBytes_concat (placed : List Placed) (p : Placed) :
    bodyBytes (placed ++ [p]) = bodyBytes placed ++ p.bytes := by
  rw [bodyBytes, List.flatMap_append, List.flatMap_singleton]
  rfl

theorem InOrder.concat {placed : List Placed} {p : Placed} (h : InOrder placed)
    (offset : p.entry.offset = (bodyBytes placed).length)
    (length : p.data.length = p.entry.compressed) (kind : p.entry.Kind) :
    InOrder (placed ++ [p]) where
  offset := by
    intro before q after heq
    -- the member is one of those before, or the last
    rcases List.eq_nil_or_concat after with rfl | ⟨after, r, rfl⟩
    · obtain ⟨rfl, hq⟩ := List.append_inj' heq rfl
      obtain rfl := List.singleton_inj.1 hq
      exact offset
    · rw [List.concat_eq_append, ← List.cons_append, ← List.append_assoc] at heq
      exact h.offset (List.append_inj' heq rfl).1
  length := by
    intro q hq
    rcases List.mem_append.1 hq with hq | hq
    · exact h.length q hq
    · rwa [List.mem_singleton.1 hq]
  kind := by
    intro q hq
    rcases List.mem_append.1 hq with hq | hq
    · exact h.kind q hq
    · rwa [List.mem_singleton.1 hq]

namespace ZipStreamWriter

variable {P : Prims} {ω : Type} [Write ω IoError] {z z₁ z' : ZipStreamWriter P ω} {bs cs : Bytes}

/-! ### Writing some bytes -/

/-- Some bytes were written, and counted. -/
structure Put (z : ZipStreamWriter P ω) (bs : Bytes) (z' : ZipStreamWriter P ω) : Prop where
  writes : Writes z.out bs z'.out
  pos : z'.pos = z.pos + bs.length
  entries : z'.entries = z.entries

theorem Put.refl (z : ZipStreamWriter P ω) : Put z [] z := ⟨.refl _, rfl, rfl⟩

theorem Put.trans (h : Put z bs z₁) (h' : Put z₁ cs z') : Put z (bs ++ cs) z' where
  writes := h.writes.trans h'.writes
  pos := by rw [h'.pos, h.pos, List.length_append, Nat.add_assoc]
  entries := h'.entries.trans h.entries

theorem put_ok (h : z.put bs = (.ok (), z')) : Put z bs z' := by
  unfold put at h
  split at h
  · next hw => cases h; exact ⟨writeAll_writes hw, rfl, rfl⟩
  · cases h

/-! ### Adding a member -/

/-- A member was written, and recorded at the offset it is at. -/
structure Adds (z : ZipStreamWriter P ω) (p : Placed) (z' : ZipStreamWriter P ω) : Prop where
  writes : Writes z.out p.bytes z'.out
  pos : z'.pos = z.pos + p.bytes.length
  entries : z'.entries = z.entries ++ [p.entry]
  offset : p.entry.offset = z.pos
  length : p.data.length = p.entry.compressed
  kind : p.entry.Kind

/-- What is put of a member, and then recorded. -/
theorem Put.adds {p : Placed} (h : Put z p.bytes z') (offset : p.entry.offset = z.pos)
    (length : p.data.length = p.entry.compressed) (kind : p.entry.Kind) :
    Adds z p (z'.push p.entry) where
  writes := h.writes
  pos := h.pos
  entries := by rw [push, h.entries]
  offset := offset
  length := length
  kind := kind

section

variable {ρ : Type} [Read ρ IoError] {c c' : Copying P ω ρ} {crc : UInt32}

/-- What was copied of a stored member: all that was left of it, as it was read. -/
structure Copied (c : Copying P ω ρ) (bs : Bytes) (c' : Copying P ω ρ) : Prop where
  put : Put c.zip bs c'.zip
  reads : Reads c.src bs c'.src
  left : c.left = bs.length + c'.left
  hasher : c'.hasher = c.hasher.update bs

theorem Copied.step {c₁ : Copying P ω ρ} (h : Copied c bs c₁) (hs : storedStep c₁ = .inr c') :
    ∃ cs, Copied c (bs ++ cs) c' := by
  unfold storedStep at hs
  split at hs
  · split at hs
    · cases hs
    · cases hs
    · next hr =>
      dsimp only at hs
      split at hs
      · cases hs
      · next hp =>
        cases hs
        have hle := Read.length_le hr
        refine ⟨_, h.put.trans (put_ok hp), h.reads.trans (.single hr), ?_, ?_⟩
        · rw [h.left, List.length_append]
          dsimp only
          omega
        · rw [h.hasher]
          exact congrArg Hasher.mk (List.foldl_append ..).symm
  · cases hs

theorem storedLoop_ok (h : storedLoop.run c = (.ok (), c')) :
    ∃ bs, Copied c bs c' ∧ c'.left = 0 := by
  refine Loop.run_induct (l := storedLoop) (s := c) (fun c₁ => ∃ bs, Copied c bs c₁)
    (P := fun b => ∀ c', b = (.ok (), c') → ∃ bs, Copied c bs c' ∧ c'.left = 0)
    ⟨[], .refl _, .refl _, (Nat.zero_add _).symm, rfl⟩ ?_ ?_ c' h
  · rintro c₁ c₂ ⟨bs, hc⟩ hs
    obtain ⟨cs, hc⟩ := hc.step hs
    exact ⟨_, hc⟩
  · rintro c₁ b ⟨bs, hc⟩ hs c' rfl
    simp only [storedLoop, storedStep] at hs
    split at hs
    · split at hs
      · cases hs
      · cases hs
      · split at hs <;> cases hs
    · next h0 =>
      cases hs
      exact ⟨bs, hc, Nat.eq_zero_of_not_pos h0⟩

/-- All of a stored member is copied, and it is what its CRC says. -/
theorem copyStored_ok (h : copyStored c crc = (.ok (), c')) :
    ∃ bs src₁, Put c.zip bs c'.zip ∧ Reads c.src bs src₁ ∧ read src₁ 1 = (.ok [], c'.src) ∧
      bs.length = c.left ∧ (c.hasher.update bs).finalize = crc := by
  unfold copyStored at h
  split at h
  · cases h
  · next c₁ hl =>
    obtain ⟨bs, hc, h0⟩ := storedLoop_ok hl
    split at h
    · cases h
    · next extra src hr =>
      split at h
      · cases h
      · next hextra =>
        split at h
        · cases h
        · next hcrc =>
          cases h
          rw [not_not] at hextra hcrc
          refine ⟨bs, c₁.src, hc.put, hc.reads, by rw [hr, hextra], ?_, by rw [← hcrc, hc.hasher]⟩
          rw [hc.left, h0, Nat.add_zero]

/-- A stored member that was written. -/
theorem stored_adds {name : Str} {size : ℕ} {data data' : ρ}
    (h : z.stored name crc size data = (.ok (), z', data')) :
    ∃ bs data₁, Reads data bs data₁ ∧ read data₁ 1 = (.ok [], data') ∧ bs.length = size ∧
      crc32 bs = crc ∧
      Adds z ⟨⟨utf8Encode name, methodStored, nameFlags (utf8Encode name), crc, size, size, z.pos,
        u32Limit ≤ size⟩, bs⟩ z' := by
  unfold stored at h
  dsimp only at h
  split at h
  · cases h
  · next zip hp =>
    split at h
    · cases h
    · next c hc =>
      cases h
      obtain ⟨bs, src₁, hput, hr, hend, hlen, hcrc⟩ := copyStored_ok hc
      refine ⟨bs, src₁, hr, hend, hlen, hcrc, Put.adds ?_ rfl hlen (.stored rfl rfl rfl rfl)⟩
      have hput := (put_ok hp).trans hput
      rwa [← List.append_nil (_ ++ bs)] at hput

end

/-! ### Adding a deflated member -/

theorem endDeflated_ok {raw : Bytes} {flags offset compressed uncompressed : ℕ} {crc : UInt32}
    {zip64 : Bool}
    (h : z.endDeflated raw flags offset crc compressed uncompressed zip64 = (.ok (), z')) :
    ∃ z₁, Put z (dataDescriptor crc compressed uncompressed zip64) z₁ ∧
      z' = z₁.push ⟨raw, methodDeflated, flags, crc, compressed, uncompressed, offset, zip64⟩ := by
  unfold endDeflated at h
  split at h
  · cases h
  · next z₁ hp => cases h; exact ⟨z₁, put_ok hp, rfl⟩

/-- The entry of a member that was deflated, or was so already. -/
def deflatedEntry (z : ZipStreamWriter P ω) (name : Str) (sizeHint : ℕ) (crc : UInt32)
    (compressed uncompressed : ℕ) : Central :=
  ⟨utf8Encode name, methodDeflated, nameFlags (utf8Encode name) ||| flagDescriptor, crc, compressed,
    uncompressed, z.pos, announces64 sizeHint⟩

/-- A header, some data and a descriptor are a member. -/
theorem deflatedEntry_adds {name : Str} {sizeHint compressed uncompressed : ℕ} {crc : UInt32}
    {w : ω} {data : Bytes}
    (hheader : z.put (localHeader (utf8Encode name) methodDeflated
      (nameFlags (utf8Encode name) ||| flagDescriptor) 0 0 0 (announces64 sizeHint)) = (.ok (), z₁))
    (hdata : Writes z₁.out data w) (hlen : data.length = compressed)
    (hsize : uncompressed ≤ sizeHint)
    (hend : ({ z₁ with out := w, pos := z₁.pos + compressed } : ZipStreamWriter P ω).endDeflated
      (utf8Encode name) (nameFlags (utf8Encode name) ||| flagDescriptor) z.pos crc compressed
      uncompressed (announces64 sizeHint) = (.ok (), z')) :
    Adds z ⟨z.deflatedEntry name sizeHint crc compressed uncompressed, data⟩ z' := by
  obtain ⟨z₂, hd, rfl⟩ := endDeflated_ok hend
  have hmid : Put z₁ data { z₁ with out := w, pos := z₁.pos + compressed } :=
    ⟨hdata, by rw [hlen], rfl⟩
  refine Put.adds (p := ⟨z.deflatedEntry name sizeHint crc compressed uncompressed, data⟩) ?_ rfl
    hlen (.deflated sizeHint rfl rfl hsize rfl)
  exact ((put_ok hheader).trans hmid).trans hd

/-- What was deflated of a member so far. -/
structure Deflated (sizeHint : ℕ) (d : Deflating P ω) (bs : Bytes) (d' : Deflating P ω) :
    Prop where
  writes : Writes d.deflate bs d'.deflate
  hasher : d'.hasher = d.hasher.update bs
  uncompressed : d'.uncompressed = d.uncompressed + bs.length
  le_hint : d.uncompressed ≤ sizeHint → d'.uncompressed ≤ sizeHint

theorem Deflated.piece {sizeHint : ℕ} {d d₁ d' : Deflating P ω} (h : Deflated sizeHint d bs d₁)
    (hp : deflatePiece sizeHint d₁ cs = (.ok (), d')) : Deflated sizeHint d (bs ++ cs) d' := by
  unfold deflatePiece at hp
  dsimp only at hp
  split at hp
  · cases hp
  · next hle =>
    split at hp
    · cases hp
    · next hw =>
      cases hp
      refine ⟨h.writes.trans (writeAll_writes hw), ?_, ?_, fun _ => Nat.not_lt.1 hle⟩
      · rw [h.hasher]
        exact congrArg Hasher.mk (List.foldl_append ..).symm
      · dsimp only
        rw [h.uncompressed, List.length_append, Nat.add_assoc]

section

variable {ρ : Type} [Read ρ IoError]

/-- A member that was deflated and written, all that its reader had. -/
theorem deflated_adds {name : Str} {sizeHint n : ℕ} {data data' : ρ}
    (h : z.deflated name sizeHint data = (.ok n, z', data')) :
    ∃ bs data₁ code, Reads data bs data₁ ∧ read data₁ chunk = (.ok [], data') ∧ n = bs.length ∧
      bs.length ≤ sizeHint ∧ DeflateWriter.DeflatesTo P bs code ∧
      Adds z ⟨z.deflatedEntry name sizeHint (crc32 bs) code.length bs.length, code⟩ z' := by
  unfold deflated at h
  dsimp only at h
  split at h
  · cases h
  · next zip hp =>
    split at h
    · cases h
    · next d data₁ he =>
      split at h
      · cases h
      · next sink hf =>
        split at h
        · cases h
        · next hend =>
          cases h
          -- All checks passed: the pieces read are deflated, hashed and counted as one string.
          obtain ⟨bs, data₂, hr, hread, hd⟩ := eachPiece_ok (Deflated sizeHint)
            (fun d => ⟨.refl _, rfl, rfl, id⟩) (fun hd hp => hd.piece hp) he
          obtain ⟨code, hcode, hw⟩ := DeflateWriter.deflatesTo_of_finish hd.writes hf
          obtain ⟨hout, hwritten⟩ := Counting.writes hw
          have hlen : code.length = sink.written := by
            rw [hwritten]
            exact (Nat.zero_add _).symm
          have hsize : d.uncompressed = bs.length := hd.uncompressed.trans (Nat.zero_add _)
          have hle : bs.length ≤ sizeHint := hsize ▸ hd.le_hint (Nat.zero_le _)
          refine ⟨bs, data₂, code, hr, hread, hsize, hle, hcode, ?_⟩
          rw [hlen, ← hsize, show crc32 bs = d.hasher.finalize by rw [hd.hasher]; rfl]
          exact deflatedEntry_adds hp hout hlen (hd.le_hint (Nat.zero_le _)) hend

end

section

variable {δ : Type} [DeflatedSource δ]

/-- A member that was deflated already and copied, from a source that only writes. -/
theorem deflatedFrom_adds {Q : Bytes → Prop} {name : Str} {sizeHint n : ℕ} {src src' : δ}
    (hsrc : ∀ {w w' : Counting ω} {a : UInt32 × ℕ} {src'}, copyDeflated src w = (.ok a, src', w') →
      ∃ code, Q code ∧ Writes w code w')
    (h : z.deflatedFrom name sizeHint src = (.ok n, z', src')) :
    ∃ (w : ω) (w' : Counting ω) (crc : UInt32) (code : Bytes),
      copyDeflated src (Counting.mk w 0) = (.ok (crc, n), src', w') ∧
      Writes (Counting.mk w 0) code w' ∧ Q code ∧ n ≤ sizeHint ∧
      (announces64 sizeHint = false → code.length < u32Limit) ∧
      Adds z ⟨z.deflatedEntry name sizeHint crc code.length n, code⟩ z' := by
  unfold deflatedFrom at h
  dsimp only at h
  split at h
  · cases h
  · next zip hp =>
    split at h
    · cases h
    · next crc uncompressed src₁ sink hc =>
      split at h
      · cases h
      · next hle =>
        split at h
        · cases h
        · next h32 =>
          split at h
          · cases h
          · next hend =>
            cases h
            obtain ⟨code, hQ, hw⟩ := hsrc hc
            obtain ⟨hout, hwritten⟩ := Counting.writes hw
            have hlen : code.length = sink.written := by
              rw [hwritten]
              exact (Nat.zero_add _).symm
            -- Every check of the source passed: the size is within the hint, and a member that
            -- announced no Zip64 needs none.
            refine ⟨zip.out, sink, crc, code, hc, hw, hQ, Nat.not_lt.1 hle, fun h64 => ?_, ?_⟩
            · rw [hlen]
              exact Nat.not_le.1 fun h => h32 ⟨by simp [h64], h⟩
            · rw [hlen]
              exact deflatedEntry_adds hp hout hlen (Nat.not_lt.1 hle) hend

end

/-! ### Whole archives -/

/-- Some members were written. -/
structure Laid (w : ω) (placed : List Placed) (z : ZipStreamWriter P ω) : Prop where
  writes : Writes w (bodyBytes placed) z.out
  pos : z.pos = (bodyBytes placed).length
  entries : z.entries = placed.map Placed.entry
  inOrder : InOrder placed

theorem Laid.new (w : ω) : Laid w [] (.new P w) := ⟨.refl w, rfl, rfl, .nil⟩

theorem Laid.add {w : ω} {placed : List Placed} {p : Placed} (h : Laid w placed z)
    (hp : Adds z p z') : Laid w (placed ++ [p]) z' where
  writes := by
    rw [bodyBytes_concat]
    exact h.writes.trans hp.writes
  pos := by rw [hp.pos, h.pos, bodyBytes_concat, List.length_append]
  entries := by rw [hp.entries, h.entries, List.map_append, List.map_singleton]
  inOrder := h.inOrder.concat (hp.offset.trans h.pos) hp.length hp.kind

theorem putCentrals_ok {entries : List Central} (h : z.putCentrals entries = (.ok (), z')) :
    Put z (entries.flatMap Central.header) z' := by
  induction entries generalizing z with
  | nil => cases h; exact .refl _
  | cons e entries ih =>
    unfold putCentrals at h
    split at h
    · cases h
    · next hp => exact (put_ok hp).trans (ih h)

theorem putEnd_ok {count cdStart : ℕ} (hle : cdStart ≤ z.pos)
    (h : z.putEnd count cdStart = (.ok (), z')) :
    Put z (endBytes count cdStart (z.pos - cdStart)) z' := by
  unfold putEnd at h
  unfold endBytes
  rw [Nat.add_sub_cancel' hle]
  dsimp only at h
  split at h
  · next h64 =>
    rw [if_pos h64]
    split at h
    · cases h
    · next hp => exact (put_ok hp).trans (put_ok h)
  · next h64 =>
    rw [if_neg h64]
    exact put_ok h

/-- What is written in the end is the archive of the members. -/
theorem Laid.finish [Flush ω IoError] {w w' : ω} {placed : List Placed} (h : Laid w placed z)
    (hf : z.finish = (.ok (), w')) :
    ∃ w₁, Writes w (archiveBytes placed) w₁ ∧ flush w₁ = (.ok (), w') := by
  unfold ZipStreamWriter.finish at hf
  split at hf
  · cases hf
  · next z₁ hc =>
    split at hf
    · cases hf
    · next z₂ he =>
      have hput : Put z (directoryBytes placed) z₁ := by
        have hp := putCentrals_ok hc
        rwa [h.entries, List.flatMap_map] at hp
      have hend := putEnd_ok (by rw [hput.pos]; exact Nat.le_add_right _ _) he
      rw [hput.pos, Nat.add_sub_cancel_left, h.entries, List.length_map, h.pos] at hend
      refine ⟨z₂.out, (h.writes.trans hput.writes).trans hend.writes, ?_⟩
      simp only [Prod.mk.injEq] at hf
      exact Prod.ext (Except.mapError_eq_ok.1 hf.1) hf.2

end ZipStreamWriter

end OdfCrypto
