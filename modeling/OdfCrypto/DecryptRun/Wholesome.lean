import OdfCrypto.DecryptRun.Bound
import OdfCrypto.DecryptRun.Meaning
import OdfCrypto.DecryptRun.SliceWriter
import OdfCrypto.EncryptStream.EndToEnd

/-!
# Decrypting a wholesome package

The two ways to decrypt a wholesome package, to a writer and into a buffer of its own,
over a source that has the same package each time it is opened.

* `Package.Decrypts`: what the package decrypts to;
* `decryptWithLimitsTo_refines`: `decrypt_to` succeeds just when it decrypts to
  something, and writes that;
* `decrypt_agrees`: `decrypt` succeeds just when `decrypt_to` does, up to its own ceiling
  of sizes, and returns what that writes.
-/

namespace OdfCrypto

open ByteStream Text Deflate

/-- A source that has the package each time it is opened, and never fails itself. -/
structure Source.Has {ρ : Type} [Read ρ IoError] (source : Source ρ) (p : Package) : Prop where
  opens : ∀ n, ∃ archive, source.openArchive n = .ok archive ∧ archive.Holds p
  latched : source.latch.take = none

/-- A wholesome package passes the screen of its classification, and opens to the
    plaintext by its row. -/
structure Package.Decrypts (P : Prims) (p : Package) (cls : Classification) (password : Str)
    (limits : DecryptLimits) (sizes : Sizes) (data : Bytes) : Prop where
  given : password.isEmpty = false
  screen : screenClass cls limits = .ok ()
  opens : ∃ index row, wholesomeRow cls = .ok (index, row) ∧
    p.Opens P row password limits sizes data

/-- Two classifications that differ in nothing that decryption looks at. -/
structure Classification.SameRows (cls cls' : Classification) : Prop where
  mode : cls'.mode = cls.mode
  odf12Fatal : cls'.odf12Fatal = cls.odf12Fatal
  rows : cls'.encryptedEntries = cls.encryptedEntries

section

variable {ρ ω : Type} [Read ρ IoError] {P : Prims} {p : Package} {source : Source ρ}
  {cls cls' : Classification} {password : Str} {limits : DecryptLimits} {sizes : Sizes}
  {data data' : Bytes}

theorem Package.Decrypts.unique (h : p.Decrypts P cls password limits sizes data)
    (h' : p.Decrypts P cls password limits sizes data') : data = data' := by
  obtain ⟨index, row, hrow, ho⟩ := h.opens
  obtain ⟨index', row', hrow', ho'⟩ := h'.opens
  obtain ⟨rfl, rfl⟩ := Prod.mk.inj (Except.ok.inj (hrow.symm.trans hrow'))
  exact ho.unique ho'

omit [Read ρ IoError] in
theorem Classification.SameRows.screenClass (h : cls.SameRows cls') :
    screenClass cls' limits = screenClass cls limits := by
  have htotal : declaredTotal cls' = declaredTotal cls := by
    rw [declaredTotal, declaredTotal, Classification.wholesomeRow, Classification.wholesomeRow, h.mode,
      h.rows]
  rw [OdfCrypto.screenClass, OdfCrypto.screenClass, screenOutputLimit, screenOutputLimit, htotal, h.mode,
    h.odf12Fatal, h.rows]

omit [Read ρ IoError] in
/-- What decides is the mode, the rows, and whether there are streams that must not be. -/
theorem Package.Decrypts.congr (hd : p.Decrypts P cls password limits sizes data)
    (h : cls.SameRows cls') : p.Decrypts P cls' password limits sizes data where
  given := hd.given
  screen := h.screenClass.trans hd.screen
  opens := by
    rw [wholesomeRow, h.mode, h.rows]
    exact hd.opens

/-- What every run begins with, over a source that has a package. -/
theorem Source.Has.begin_ (h : source.Has p)
    (hcls : classifyLatched P.xmlReader (source.openArchive 0) = .ok cls)
    (hscreen : screenClass cls limits = .ok ()) : ∃ archive, archive.Holds p ∧
      ∀ s : Run ω, begin_ P source limits s = (.ok (cls, archive), s) := by
  obtain ⟨archive, hopen, hholds⟩ := h.opens 1
  refine ⟨archive, hholds, fun s => ?_⟩
  rw [OdfCrypto.begin_, hcls, Except.mapError, Prog.bind_of_ok (Prog.lift_apply _), hscreen,
    Prog.bind_of_ok (Prog.lift_apply _), hopen]
  rfl

end

/-! ### To a writer -/

section

variable {ρ ω : Type} [Read ρ IoError] [Write ω IoError] [Flush ω IoError] {P : Prims} {p : Package}
  {source : Source ρ} {cls : Classification} {password : Str} {limits : DecryptLimits} {data : Bytes}
  {writer : ω}

/-- A package that decrypts is decrypted. -/
theorem Package.Decrypts.decryptsTo (hd : p.Decrypts P cls password limits .streamed data)
    (h : source.Has p) (hcls : classifyLatched P.xmlReader (source.openArchive 0) = .ok cls)
    (hmode : cls.mode = .wholesome) {I : ω → Prop} (hI : Willing I) (hw : I writer) :
    ∃ s, decryptWithLimitsTo P source writer password limits = (.ok ⟨.verified⟩, s) ∧
      Writes writer data s.out := by
  obtain ⟨rowIndex, row, hrow, ho⟩ := hd.opens
  obtain ⟨archive, hholds, hbegin⟩ := h.begin_ hcls hd.screen
  obtain ⟨s, hrun, hwrites, -⟩ := ho.wholesome hholds (hI.takes writer data) rowIndex
    (s := ({ out := writer } : Run ω)) ⟨.refl _, hw⟩
  have hall : decryptRun P source password limits ({ out := writer } : Run ω) =
      (.ok ⟨.verified⟩, s) := by
    rw [decryptRun, Prog.bind_of_ok (hbegin _)]
    dsimp only
    rw [hmode]
    dsimp only
    rw [hrow, Prog.bind_of_ok (Prog.lift_apply _)]
    exact Prog.bind_of_ok hrun
  refine ⟨s, ?_, hwrites⟩
  unfold decryptWithLimitsTo
  rw [hd.given, if_neg Bool.false_ne_true, hall, h.latched]

/-- A package that was decrypted decrypts to what was written. -/
theorem Package.decrypts_of_decryptsTo (h : source.Has p)
    (hcls : classifyLatched P.xmlReader (source.openArchive 0) = .ok cls)
    (hmode : cls.mode = .wholesome) {outcome : DecryptOutcome} {s : Run ω}
    (hd : decryptWithLimitsTo P source writer password limits = (.ok outcome, s)) :
    outcome = ⟨.verified⟩ ∧ ∃ data, p.Decrypts P cls password limits .streamed data ∧
      Writes writer data s.out := by
  unfold decryptWithLimitsTo at hd
  rcases hempty : password.isEmpty with - | - <;> rw [hempty] at hd
  swap
  · cases hd
  rw [if_neg Bool.false_ne_true, h.latched] at hd
  obtain ⟨⟨cls', archive⟩, s₁, hbegin, hrun⟩ :=
    Prog.bind_eq_ok.1 (show decryptRun P source password limits _ = _ from hd)
  obtain ⟨hcls', hscreen, hopen⟩ := begin_eq_ok P source limits hbegin
  obtain rfl : cls = cls' := Except.ok.inj (hcls.symm.trans hcls')
  obtain ⟨archive', hopen', hholds⟩ := h.opens 1
  obtain rfl : archive = archive' := Except.ok.inj (hopen.symm.trans hopen')
  obtain ⟨archive₀, hholds₀, hbegin'⟩ := h.begin_ (ω := ω) hcls hscreen
  obtain rfl : { out := writer } = s₁ := (Prod.mk.inj ((hbegin' _).symm.trans hbegin)).2
  dsimp only at hrun
  rw [hmode] at hrun
  obtain ⟨⟨rowIndex, row⟩, hrow, hrun⟩ := Prog.lift_bind_eq_ok.1 hrun
  obtain ⟨_, s₂, hwholesome, hrun⟩ := Prog.bind_eq_ok.1 hrun
  cases hrun
  obtain ⟨data, ho, hw⟩ := Package.opens_of_wholesome hholds hwholesome
  exact ⟨rfl, data, ⟨hempty, hscreen, rowIndex, row, hrow, ho⟩, hw⟩

/-- Over a source that has a wholesome package, `decrypt_to` does what the package says:
    whatever the package decrypts to is written, by however many openings and readings;
    and what was written by a call that succeeds is what the package decrypts to. -/
theorem decryptWithLimitsTo_refines (h : source.Has p)
    (hcls : classifyLatched P.xmlReader (source.openArchive 0) = .ok cls)
    (hmode : cls.mode = .wholesome) {I : ω → Prop} (hI : Willing I) (hw : I writer) :
    (∀ data, p.Decrypts P cls password limits .streamed data →
      ∃ s, decryptWithLimitsTo P source writer password limits = (.ok ⟨.verified⟩, s) ∧
        Writes writer data s.out) ∧
    ∀ outcome s, decryptWithLimitsTo P source writer password limits = (.ok outcome, s) →
      outcome = ⟨.verified⟩ ∧ ∃ data, p.Decrypts P cls password limits .streamed data ∧
        Writes writer data s.out :=
  ⟨fun _ hd => hd.decryptsTo h hcls hmode hI hw,
    fun _ _ hd => Package.decrypts_of_decryptsTo h hcls hmode hd⟩

end

/-- Three bytes, as a stored block, sealed under the key of the password `pw`. -/
def threeBody : Bytes :=
  sealedBody (pwPrims []) keyOfPw (List.replicate 12 0) (storedBlock [1, 2, 3] ++ Stored.lastBlock)

/-- Primitives that read the manifest of the sample. -/
def threePrims : Prims :=
  pwPrims [manifestEvents (3 : ℕ) (List.replicate 12 0) (List.replicate 16 0) (some (ascii "a/b"))
    leastParams]

/-- A package of three bytes, encrypted with the password `pw`. -/
def threeKept : KeptMembers := ⟨writtenMembers (some (ascii "a/b")) threeBody
  (buildManifest (3 : ℕ) (List.replicate 12 0) (List.replicate 16 0) (some (ascii "a/b")) leastParams)⟩

def threePackage : Package := .ofMembers (threeKept.members.map KeptMembers.storedOf)

/-- A source that has the package, read at most so many bytes at a time, less one. -/
def threeSource (cuts : ℕ → ℕ) : Source (Pieces IoError) where
  openArchive _ := .ok (memoryArchive cuts (threeKept.members.map KeptMembers.storedOf))

theorem threeSource_has (cuts : ℕ → ℕ) : (threeSource cuts).Has threePackage where
  opens _ := ⟨_, rfl, memoryArchive_holds cuts _⟩
  latched := rfl

/-- The package is classified as wholesome, and decrypts to the three bytes. -/
theorem threePackage_decrypts (cuts : ℕ → ℕ) : ∃ cls,
    classifyLatched threePrims.xmlReader ((threeSource cuts).openArchive 0) = .ok cls ∧
      cls.mode = .wholesome ∧ cls.odf12Fatal = false ∧ cls.encryptedEntries =
        [writtenRow (3 : ℕ) (List.replicate 12 0) (List.replicate 16 0) leastParams] ∧
      threePackage.Decrypts threePrims cls (ascii "pw") {} .streamed [1, 2, 3] := by
  have hmembers : (memoryArchive cuts (threeKept.members.map KeptMembers.storedOf)).HasMembers
      (writtenMembers (some (ascii "a/b")) threeBody (buildManifest (3 : ℕ) (List.replicate 12 0)
        (List.replicate 16 0) (some (ascii "a/b")) leastParams)) :=
    KeptMembers.hasMembers cuts threeKept
  have hxml : ReadsManifest threePrims (some (ascii "a/b")) (List.replicate 12 0)
      (List.replicate 16 0) 3 leastParams := by
    unfold ReadsManifest
    decide +kernel
  obtain ⟨cls, hcls, hmode, hfatal, hrows⟩ := classifyArchive_written hmembers (by decide) hxml
    (by decide +kernel)
  have hrow : wholesomeRow cls =
      .ok (0, writtenRow 3 (List.replicate 12 0) (List.replicate 16 0) leastParams) := by
    rw [wholesomeRow, hrows, hmode]
    rfl
  have hderive : deriveWriteKey threePrims (ascii "pw") (List.replicate 16 0) leastParams =
      .ok keyOfPw := by decide +kernel
  have hkeyed : ∃ s, deriveKey threePrims
      (writtenRow (3 : ℕ) (List.replicate 12 0) (List.replicate 16 0) leastParams)
      (startKey threePrims (ascii "pw") .sha256) {} ({ out := () } : Run Unit) = (.ok keyOfPw, s) :=
    deriveKey_written hderive (by decide) (by decide) (by decide) _
  obtain ⟨s, hkey⟩ := hkeyed
  refine ⟨cls, hcls, hmode, hfatal, hrows, rfl, ?_, 0, _, hrow, 1, keyOfPw,
    storedBlock [1, 2, 3] ++ Stored.lastBlock, ?_⟩
  · exact (screenClass_written_iff hmode hfatal hrows).2 (by decide)
  · exact {
      member := ⟨[(KeptMembers.storedOf ⟨utf8Encode (ascii "mimetype"), .stored, _⟩ |>.file, 0)], _,
        [(_, 2)], rfl, by decide +kernel, by decide +kernel, by
          intro entry hmem
          obtain rfl | rfl := List.mem_pair.1 hmem
          · exact ⟨_, rfl⟩
          · exact ⟨_, rfl⟩⟩
      content := rfl
      size := rfl
      cipher := rfl
      keyLen := rfl
      key := .here (rowKey_of_deriveKey hkey) ⟨⟨rfl, .inr (.inr rfl)⟩, _, rfl⟩
      inflates := by
        have hcode : Stored.Complete (storedBlock [1, 2, 3] ++ Stored.lastBlock) [1, 2, 3] :=
          ⟨_, Stored.segment_block (by decide), rfl⟩
        have hends := InflateReader.endsAt_of_complete (F := Stored.format)
          (Stored.blockInflater_undoes (by decide)) hcode []
        rwa [List.append_nil] at hends
      declared := rfl
      inLimit := by decide }

/-- The three bytes are what is written, read one byte at a time. -/
theorem decryptWithLimitsTo_refines_three : ∃ s : Run (Buffer IoError),
    decryptWithLimitsTo threePrims (threeSource fun _ => 0) (⟨[]⟩ : Buffer IoError) (ascii "pw") {} =
      (.ok ⟨.verified⟩, s) ∧ s.out.bytes = [1, 2, 3] := by
  obtain ⟨cls, hcls, hmode, -, -, hd⟩ := threePackage_decrypts fun _ => 0
  obtain ⟨s, hrun, hw⟩ := (decryptWithLimitsTo_refines (threeSource_has _) hcls hmode
    (Buffer.willing (ε := IoError)) trivial).1 _ hd
  exact ⟨s, hrun, Buffer.writes hw⟩

/-! ### Into a buffer -/

namespace SliceWriter

/-- Within its length, the buffer takes bytes at the end of those it has taken. -/
theorem takes (bytes : Bytes) :
    Takes bytes fun done w => Simulates bytes.length w ⟨done, done.length⟩ := by
  intro done piece rest w hbytes hne hs
  have hpos : w.pos = done.length := hs.pos
  have hroom : w.pos + piece.length ≤ w.buf.length := by
    rw [hs.capacity, hpos, hbytes, List.length_append, List.length_append]
    omega
  obtain ⟨w', hwrite, hs'⟩ := hs.write hroom
  rw [Cursor.write_end] at hs'
  exact ⟨w', writeAll_of_write hne hwrite, hs'⟩

/-- What was written to the buffer. -/
theorem written_of_writes {n : ℕ} {w w' : SliceWriter} {done bs : Bytes} (hw : Writes w bs w')
    (hs : Simulates n w ⟨done, done.length⟩) : w'.written = done ++ bs := by
  suffices Simulates n w' ⟨done ++ bs, (done ++ bs).length⟩ from this.written
  induction hw generalizing done with
  | refl w => rwa [List.append_nil]
  | @ok w w₁ w₂ k bs cs hwrite _ ih =>
    have hnext : w.next bs = (.ok k, w₁) := hwrite
    have hroom : w.pos + bs.length ≤ w.buf.length := by
      by_contra hfull
      rw [next, if_neg hfull] at hnext
      cases hnext
    obtain ⟨w₁', hwrite', hs'⟩ := hs.write hroom
    obtain ⟨hk, rfl⟩ := Prod.mk.inj (hwrite'.symm.trans hnext)
    obtain rfl := Except.ok.inj hk
    rw [Cursor.write_end] at hs'
    rw [List.take_length, ← List.append_assoc]
    exact ih hs'
  | @retry w w₁ w₂ e bs cs hwrite hi =>
    have hnext : w.next bs = (.error e, w₁) := hwrite
    unfold next at hnext
    split at hnext <;> cases hnext
    cases hi

end SliceWriter

section

variable {ρ ζ : Type} [Read ρ IoError] [CrateOver ζ SliceWriter] {P : Prims} {p : Package}
  {source : Source ρ} {cls : Classification} {password : Str} {limits : DecryptLimits} {data : Bytes}
  {row : EntryEncryption} {n : ℕ}

omit [Read ρ IoError] in
/-- The whole-buffer paths have a ceiling of their own, and take the same sizes up to it. -/
theorem inflatedLen_iff {size : ℤ} :
    inflatedLen size = .ok n ↔ declaredSize size = .ok n ∧ size ≤ inflateCeiling := by
  unfold inflatedLen declaredSize
  by_cases hneg : size < 0
  · simp [hneg]
  · by_cases hle : size ≤ inflateCeiling
    · simp [hneg, hle, Int.not_lt.2 hle]
    · simp [hneg, hle, Int.not_le.1 hle]

omit [Read ρ IoError] in
theorem Package.opens_wholeBuffer_iff : p.Opens P row password limits .wholeBuffer data ↔
    p.Opens P row password limits .streamed data ∧ row.size ≤ inflateCeiling := by
  constructor
  · rintro ⟨index, key, stream, ho⟩
    obtain ⟨hdeclared, hle⟩ := inflatedLen_iff.1 ho.declared
    exact ⟨⟨index, key, stream, { ho with declared := hdeclared }⟩, hle⟩
  · rintro ⟨⟨index, key, stream, ho⟩, hle⟩
    exact ⟨index, key, stream, { ho with declared := inflatedLen_iff.2 ⟨ho.declared, hle⟩ }⟩

/-- A package that decrypts, up to the ceiling, is decrypted into the buffer. -/
theorem Package.Decrypts.decryptsSlice (hd : p.Decrypts P cls password limits .wholeBuffer data)
    (h : source.Has p) (hcls : classifyLatched P.xmlReader (source.openArchive 0) = .ok cls)
    (hmode : cls.mode = .wholesome) :
    ∃ s, decryptSlice P ζ source password limits = (.ok data, s) := by
  obtain ⟨rowIndex, row, hrow, ho⟩ := hd.opens
  obtain ⟨archive, hholds, hbegin⟩ := h.begin_ hcls hd.screen
  have hlen : inflatedLen row.size = .ok data.length := by
    obtain ⟨index, key, stream, ho⟩ := ho
    exact ho.declared
  -- The buffer has the declared size, which is that of the data, so the slice writer
  -- takes all of it.
  obtain ⟨s, hrun, hs⟩ := ho.wholesome hholds (SliceWriter.takes data) rowIndex
    (s := ({ out := .zeroed data.length } : Run SliceWriter)) (.zeroed _)
  have hall : decryptSliceRun P ζ archive cls password limits
      ({ out := .zeroed 0 } : Run SliceWriter) = (.ok (), s) := by
    rw [decryptSliceRun, hmode]
    dsimp only
    rw [hrow, Prog.bind_of_ok (Prog.lift_apply _)]
    dsimp only
    rw [hlen, Prog.bind_of_ok (Prog.lift_apply _)]
    have hzero : (onOutput fun _ => (.ok (), SliceWriter.zeroed data.length) : Decrypt SliceWriter Unit)
        { out := .zeroed 0 } = (.ok (), { out := .zeroed data.length }) := rfl
    rw [Prog.bind_of_ok hzero]
    exact (Prog.mapError_eq_ok _).2 hrun
  refine ⟨s, ?_⟩
  unfold decryptSlice
  rw [hd.given, if_neg Bool.false_ne_true]
  dsimp only
  rw [Prog.bind_of_ok (hbegin _)]
  dsimp only
  rw [hall]
  exact congrArg (Except.ok ·, s) hs.written

/-- A package that was decrypted into the buffer decrypts to what is returned. -/
theorem Package.decrypts_of_decryptsSlice (h : source.Has p)
    (hcls : classifyLatched P.xmlReader (source.openArchive 0) = .ok cls)
    (hmode : cls.mode = .wholesome) {s : Run SliceWriter}
    (hd : decryptSlice P ζ source password limits = (.ok data, s)) :
    p.Decrypts P cls password limits .wholeBuffer data := by
  unfold decryptSlice at hd
  rcases hempty : password.isEmpty with - | - <;> rw [hempty] at hd
  swap
  · cases hd
  rw [if_neg Bool.false_ne_true] at hd
  obtain ⟨hresult, rfl⟩ := Prod.mk.inj hd
  obtain ⟨u, hresult, hwritten⟩ := Except.map_eq_ok.1 hresult
  obtain ⟨⟨cls', archive⟩, s₁, hbegin, hrun⟩ := Prog.bind_eq_ok.1 (Prod.ext hresult rfl : _ = (_, _))
  obtain ⟨hcls', hscreen, hopen⟩ := begin_eq_ok P source limits hbegin
  obtain rfl : cls = cls' := Except.ok.inj (hcls.symm.trans hcls')
  obtain ⟨archive', hopen', hholds⟩ := h.opens 1
  obtain rfl : archive = archive' := Except.ok.inj (hopen.symm.trans hopen')
  dsimp only at hrun
  rw [decryptSliceRun, hmode] at hrun
  obtain ⟨⟨rowIndex, row⟩, hrow, hrun⟩ := Prog.lift_bind_eq_ok.1 hrun
  obtain ⟨n, hlen, hrun⟩ := Prog.lift_bind_eq_ok.1 hrun
  obtain ⟨_, s₂, hzero, hrun⟩ := Prog.bind_eq_ok.1 hrun
  -- The buffer is zeroed before the run, so what is in it afterwards was written.
  have hzeroed : s₂.out = .zeroed n := by
    cases hzero
    rfl
  obtain ⟨data', ho, hw⟩ := Package.opens_of_wholesome hholds ((Prog.mapError_eq_ok _).1 hrun)
  rw [hzeroed] at hw
  rw [SliceWriter.written_of_writes hw (.zeroed n), List.nil_append] at hwritten
  obtain rfl := hwritten
  exact ⟨hempty, hscreen, rowIndex, row, hrow, ho⟩

end

/-- Of a wholesome package, by however many readings of sources that have it, `decrypt`
    returns what `decrypt_to` writes; and it succeeds just when `decrypt_to` does, and the
    row announces no more than the ceiling of the whole-buffer paths. -/
theorem decrypt_agrees {ρ ρ' ζ ω : Type} [Read ρ IoError] [Read ρ' IoError] [CrateOver ζ SliceWriter]
    [Write ω IoError] [Flush ω IoError] {P : Prims} {p : Package} {source : Source ρ}
    {source' : Source ρ'} {cls cls' : Classification} {password : Str} {limits : DecryptLimits}
    {writer : ω} (h : source.Has p) (h' : source'.Has p)
    (hcls : classifyLatched P.xmlReader (source.openArchive 0) = .ok cls)
    (hcls' : classifyLatched P.xmlReader (source'.openArchive 0) = .ok cls')
    (hrows : cls.SameRows cls') (hmode : cls.mode = .wholesome) {I : ω → Prop} (hI : Willing I)
    (hw : I writer) :
    ((∃ bytes s, decryptSlice P ζ source password limits = (.ok bytes, s)) ↔
      (∃ outcome s, decryptWithLimitsTo P source' writer password limits = (.ok outcome, s)) ∧
        ∀ index row, wholesomeRow cls = .ok (index, row) → row.size ≤ inflateCeiling) ∧
    ∀ bytes s outcome s', decryptSlice P ζ source password limits = (.ok bytes, s) →
      decryptWithLimitsTo P source' writer password limits = (.ok outcome, s') →
      Writes writer bytes s'.out := by
  have hmode' : cls'.mode = .wholesome := hrows.mode.trans hmode
  have hback : cls'.SameRows cls := ⟨hrows.mode.symm, hrows.odf12Fatal.symm, hrows.rows.symm⟩
  -- The two entry points differ in how the declared size is read: over a whole buffer
  -- it has the ceiling too.
  have hboth {data : Bytes} : p.Decrypts P cls password limits .wholeBuffer data ↔
      p.Decrypts P cls password limits .streamed data ∧
        ∀ index row, wholesomeRow cls = .ok (index, row) → row.size ≤ inflateCeiling := by
    constructor
    · rintro ⟨hgiven, hscreen, index, row, hrow, ho⟩
      obtain ⟨ho, hle⟩ := Package.opens_wholeBuffer_iff.1 ho
      refine ⟨⟨hgiven, hscreen, index, row, hrow, ho⟩, fun index' row' hrow' => ?_⟩
      obtain ⟨-, rfl⟩ := Prod.mk.inj (Except.ok.inj (hrow.symm.trans hrow'))
      exact hle
    · rintro ⟨⟨hgiven, hscreen, index, row, hrow, ho⟩, hle⟩
      exact ⟨hgiven, hscreen, index, row, hrow, Package.opens_wholeBuffer_iff.2 ⟨ho, hle _ _ hrow⟩⟩
  refine ⟨⟨?_, ?_⟩, ?_⟩
  · rintro ⟨bytes, s, hd⟩
    obtain ⟨hd, hle⟩ := hboth.1 (Package.decrypts_of_decryptsSlice h hcls hmode hd)
    obtain ⟨s', hd', -⟩ := (hd.congr hrows).decryptsTo h' hcls' hmode' hI hw
    exact ⟨⟨_, s', hd'⟩, hle⟩
  · rintro ⟨⟨outcome, s, hd⟩, hle⟩
    obtain ⟨-, data, hd, -⟩ := Package.decrypts_of_decryptsTo h' hcls' hmode' hd
    obtain ⟨s', hd'⟩ := (hboth.2 ⟨hd.congr hback, hle⟩).decryptsSlice (ζ := ζ) h hcls hmode
    exact ⟨data, s', hd'⟩
  · intro bytes s outcome s' hd hd'
    obtain ⟨hd, -⟩ := hboth.1 (Package.decrypts_of_decryptsSlice h hcls hmode hd)
    obtain ⟨-, data, hd', hwrites⟩ := Package.decrypts_of_decryptsTo h' hcls' hmode' hd'
    rwa [(hd.congr hrows).unique hd']

/-- Both ways give the three bytes: `decrypt` from a cursor, and `decrypt_to` from a reader
    that hands over one byte at a time. -/
theorem decrypt_agrees_three : ∃ (s : Run SliceWriter) (s' : Run (Buffer IoError)),
    decryptSlice threePrims SliceCrate (threeSource fun _ => chunk) (ascii "pw") {} =
      (.ok [1, 2, 3], s) ∧
    decryptWithLimitsTo threePrims (threeSource fun _ => 0) (⟨[]⟩ : Buffer IoError) (ascii "pw") {} =
      (.ok ⟨.verified⟩, s') ∧ s'.out.bytes = [1, 2, 3] := by
  obtain ⟨cls, hcls, hmode, hfatal, hrows, -⟩ := threePackage_decrypts fun _ => chunk
  obtain ⟨cls', hcls', hmode', hfatal', hrows', hd⟩ := threePackage_decrypts fun _ => 0
  have hsame : cls.SameRows cls' :=
    ⟨hmode'.trans hmode.symm, hfatal'.trans hfatal.symm, hrows'.trans hrows.symm⟩
  have hdecrypts : ∃ s', decryptWithLimitsTo threePrims (threeSource fun _ => 0)
      (⟨[]⟩ : Buffer IoError) (ascii "pw") {} = (.ok ⟨.verified⟩, s') ∧ Writes ⟨[]⟩ [1, 2, 3] s'.out :=
    hd.decryptsTo (threeSource_has _) hcls' hmode' (Buffer.willing (ε := IoError)) trivial
  obtain ⟨s', hrun', hw⟩ := hdecrypts
  have hthree : s'.out.bytes = [1, 2, 3] := Buffer.writes hw
  obtain ⟨hiff, hagree⟩ := @decrypt_agrees _ _ SliceCrate (Buffer IoError) _ _ _ _ _ threePrims
    threePackage _ _ cls cls' (ascii "pw") {} ⟨[]⟩ (threeSource_has fun _ => chunk)
    (threeSource_has fun _ => 0) hcls hcls' hsame hmode _ Buffer.willing trivial
  have hsize : ∀ index row, wholesomeRow cls = .ok (index, row) → row.size ≤ inflateCeiling := by
    intro index row hrow
    rw [wholesomeRow, hrows, hmode] at hrow
    cases hrow
    decide
  obtain ⟨bytes, s, hrun⟩ := hiff.2 ⟨⟨_, s', hrun'⟩, hsize⟩
  have hbytes : s'.out.bytes = bytes := Buffer.writes (hagree _ _ _ _ hrun hrun')
  exact ⟨s, s', hthree ▸ hbytes ▸ hrun, hrun', hthree⟩

end OdfCrypto
