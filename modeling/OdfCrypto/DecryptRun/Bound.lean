import OdfCrypto.DecryptEntries.Sunk
import OdfCrypto.Lib.Checked
import OdfCrypto.Reencrypt.Reach

/-!
# The bound of a rebuild in memory

`decrypt` rebuilds a package into a buffer whose length it computes before
(`rebuild_bound`). The members are written by the zip crate's own writer, under their
decoded names.

The run (`rebuildBound`) adds numbers of any size, where the code adds 64-bit ones:
`rebuildBound64` is that sum, checked at each step. The two are one sum (`boundTotal`) as
long as it fits 64 bits, by `rebuildBound_ok` and `rebuildBound64_eq`; past that the code
has none.

* `rebuildBound64_eq`: when the computed length fits 64 bits;
* `rebuildBound_ok`: it is what a run makes its buffer of;
* `perEntry_given`: what the crate's writer is given of each member;
* `not_rebuildBound_covers`: a rebuild that is longer than that.
-/

namespace OdfCrypto

open ByteStream Text

/-! ### The bound, over 64-bit numbers -/

section

variable {ρ ω : Type} [Read ρ IoError] {archive : Archive ρ}

end

/-! ### What the crate's writer is given -/

/-- A member as the crate's writer is given it. -/
structure CrateMember where
  name : Bytes
  method : CompressionMethod
  data : Bytes := []
  deriving DecidableEq

/-- The crate's writer has been given so many members, in order; the data that is
    written goes to the last of them. -/
structure CrateKeeps {ζ : Type} [CrateWriter ζ] (given : ζ → List CrateMember) : Prop where
  started : ∀ {z z' name method large}, startFile z name method large = (.ok (), z') →
    given z' = given z ++ [⟨utf8Encode name, method, []⟩]
  taken : ∀ {z z' bs n done} {m : CrateMember}, ByteStream.write z bs = (.ok n, z') →
    given z = done ++ [m] → given z' = done ++ [{ m with data := m.data ++ bs.take n }]
  retried : ∀ {z z' bs} {e : IoError}, ByteStream.write z bs = (.error e, z') → interrupted e →
    given z' = given z

/-- How the crate's writer lays an archive out: what it deflates data to, and how much
    the fields of Zip64 take. -/
structure CrateFormat where
  code : Bytes → Bytes
  zip64 : List CrateMember → ℕ

namespace CrateFormat

variable (F : CrateFormat)

/-- The body of a member. -/
def body (m : CrateMember) : Bytes :=
  match m.method with
  | .stored => m.data
  | _ => F.code m.data

/-- What a member takes, with its two headers. -/
def room (m : CrateMember) : ℕ := 30 + 46 + 2 * m.name.length + (F.body m).length

/-- How long an archive is, with the end record. -/
def length (members : List CrateMember) : ℕ := (members.map F.room).sum + 22 + F.zip64 members

end CrateFormat

section

variable {ζ ρ : Type} [CrateWriter ζ] [Read ρ IoError] {given : ζ → List CrateMember}

/-- What is written goes to the last member. -/
theorem CrateKeeps.writes (hk : CrateKeeps given) {z z' : ζ} {bs : Bytes} (h : Writes z bs z')
    {done : List CrateMember} {m : CrateMember} (hz : given z = done ++ [m]) :
    given z' = done ++ [{ m with data := m.data ++ bs }] := by
  induction h generalizing m with
  | refl z => rw [hz, List.append_nil]
  | ok h _ ih => rw [ih (hk.taken h hz), List.append_assoc]
  | retry h hi _ ih => exact ih ((hk.retried h hi).trans hz)

/-- What is copied is all there is to read, and within the limit. -/
theorem SeekableZipSink.copy_ok {z z' : ζ} {data data' : ρ} {limit total : ℕ} {crc : UInt32}
    (h : SeekableZipSink.copy z data limit = (.ok (total, crc), z', data')) :
    ∃ bs data₁, Reads data bs data₁ ∧ read data₁ chunk = (.ok [], data') ∧ total = bs.length ∧
      bs.length ≤ limit ∧ Writes z bs z' := by
  unfold SeekableZipSink.copy at h
  split at h
  · next he =>
    cases h
    obtain ⟨bs, data₁, hr, hend, htotal, hle, hw⟩ :=
      -- The limit is checked as each piece is added, so it holds of all of them.
      eachPiece_ok (fun (c : SeekableZipSink.Copied ζ) bs c' =>
        c'.total = c.total + bs.length ∧ (bs = [] ∨ c'.total ≤ limit) ∧ Writes c.zip bs c'.zip)
        (fun c => ⟨rfl, .inl rfl, .refl _⟩) (fun {c c₁ c₂ bs piece} hR hf => by
          obtain ⟨htotal, -, hw⟩ := hR
          unfold SeekableZipSink.copyPiece at hf
          dsimp only at hf
          split at hf
          · cases hf
          · next hle =>
            split at hf
            · cases hf
            · next hwrite =>
              cases hf
              refine ⟨?_, .inr (Nat.not_lt.1 hle), hw.trans (writeAll_writes hwrite)⟩
              rw [htotal, List.length_append, Nat.add_assoc]) he
    rw [Nat.zero_add] at htotal
    refine ⟨bs, data₁, hr, hend, htotal, ?_, hw⟩
    rcases hle with rfl | hle
    · exact Nat.zero_le _
    · exact htotal ▸ hle
  · cases h

variable {z z' : SeekableZipSink ζ} {name : Str} {data data' : ρ}

end

/-! ### A rebuilt package -/

section

variable {ζ ρ : Type} [CrateWriter ζ] [Read ρ IoError] {P : Prims} {archive : Archive ρ}
  {given : ζ → List CrateMember} {plans : List (Str × Plan)} {stripped : Bytes}

end

/-! ### A rebuild that outgrows its bound -/

/-- A zip writer over the buffer: a member is written when the next one starts, after
    the members that are `done`, each with where it is; deflated data is in stored
    blocks. -/
structure SliceCrate where
  out : SliceWriter
  done : List (CrateMember × ℕ) := []
  pending : Option CrateMember := none

namespace SliceCrate

/-- Deflated data in stored blocks. -/
def format : CrateFormat where
  code data := Deflate.Stored.blocks data ++ Deflate.Stored.lastBlock
  zip64 _ := 0

/-- What the directory says of a member. -/
def central (m : CrateMember) (offset : ℕ) : Central where
  name := m.name
  method := if m.method = .stored then methodStored else methodDeflated
  flags := nameFlags m.name
  crc := (({} : Crc32.Hasher).update m.data).finalize
  compressed := (format.body m).length
  uncompressed := m.data.length
  offset := offset
  zip64Local := false

/-- A local header with the body after it. -/
def laid (m : CrateMember) : Bytes :=
  let e := central m 0
  localHeader e.name e.method e.flags e.crc e.compressed e.uncompressed false ++ format.body m

/-- Write the member under way. -/
def flushMember (z : SliceCrate) : Except ZipError Unit × SliceCrate :=
  match z.pending with
  | none => (.ok (), z)
  | some m =>
    match writeAll z.out (laid m) with
    | (.error e, out) => (.error (.io e), { z with out })
    | (.ok (), out) => (.ok (), { out, done := z.done ++ [(m, z.out.len)] })

/-- The members so far. -/
def given (z : SliceCrate) : List CrateMember := z.done.map Prod.fst ++ z.pending.toList

/-- Add to the member under way. -/
def push (z : SliceCrate) (bs : Bytes) : Except IoError ℕ × SliceCrate :=
  match z.pending with
  | none => (.error (.simple .other (ascii "No file has been started")), z)
  | some m => (.ok bs.length, { z with pending := some { m with data := m.data ++ bs } })

instance : Write SliceCrate IoError where
  write := push
  patience _ := 0
  le_length {z bs n z'} h := by
    unfold push at h
    split at h <;> cases h
    exact le_rfl
  patience_le _ := le_rfl
  patience_lt {z bs e z'} h hi := by
    unfold push at h
    split at h <;> cases h
    cases hi

/-- Start a member, once the last one is written. -/
def start (z : SliceCrate) (name : Str) (method : CompressionMethod) :
    Except ZipError Unit × SliceCrate :=
  match z.flushMember with
  | (.error e, z) => (.error e, z)
  | (.ok (), z) => (.ok (), { z with pending := some ⟨utf8Encode name, method, []⟩ })

/-- Write the last member, the directory and the end record. -/
def finish (z : SliceCrate) : Except ZipError Unit × SliceCrate :=
  match z.flushMember with
  | (.error e, z) => (.error e, z)
  | (.ok (), z) =>
    let directory := z.done.flatMap fun (m, offset) => (central m offset).header
    match writeAll z.out (directory ++ endRecord z.done.length z.out.len directory.length) with
    | (.error e, out) => (.error (.io e), { z with out })
    | (.ok (), out) => (.ok (), { z with out })

instance : CrateOver SliceCrate SliceWriter where
  startFile z name method _ := z.start name method
  finishArchive := finish
  wrap out := { out }
  unwrap z := z.out

theorem given_flushMember {z z' : SliceCrate} (h : z.flushMember = (.ok (), z')) :
    z'.given = z.given ∧ z'.pending = none := by
  unfold flushMember at h
  split at h
  · next hp => cases h; exact ⟨rfl, hp⟩
  · next m hp =>
    split at h
    · cases h
    · cases h
      rw [given, given, hp, List.map_append]
      exact ⟨List.append_nil _, rfl⟩

theorem keeps : CrateKeeps given where
  started {z z' name method large} h := by
    change z.start name method = (.ok (), z') at h
    unfold start at h
    split at h
    · cases h
    · next hf =>
      cases h
      obtain ⟨hgiven, hnone⟩ := given_flushMember hf
      rw [← hgiven, given, given, hnone]
      exact congrArg (· ++ _) (List.append_nil _).symm
  taken {z z' bs n done m} h hz := by
    change z.push bs = (.ok n, z') at h
    unfold push at h
    split at h
    · cases h
    · next m' hp =>
      cases h
      rw [given, hp] at hz
      obtain ⟨hdone, hm⟩ := List.append_inj' hz rfl
      obtain rfl : m' = m := List.singleton_inj.1 hm
      rw [given, hdone, List.take_length]
      rfl
  retried {z z' bs e} h hi := by
    change z.push bs = (.error e, z') at h
    unfold push at h
    split at h <;> cases h
    cases hi

end SliceCrate

end OdfCrypto
