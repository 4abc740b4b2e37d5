import OdfCrypto.DecryptEntries.Deciphered
import OdfCrypto.DecryptRun.Wholesome

/-!
# What a rebuilt package has

A per-entry package that reads the same every time, rebuilt by the streaming writer: a
member for each entry of its directory, in order, under the name of the entry as it is
decoded. The manifest is the stripped one, deflated; the member of a row is the deflated
stream that was encrypted, and any other member is as it was, each with the CRC and the
length of its content.

* `Package.Plans`: the plans of a package are its rows, the last one for each name;
* `Remade`: what the member of an entry is;
* `rebuildMember_remade`: each step of a rebuild adds such a member.
-/

namespace OdfCrypto

open ByteStream Text Crc32 BlockModes

/-! ### Which rows are decrypted -/

/-- A path leads to an entry of some name. -/
def Package.LeadsToName (p : Package) (path name : Str) : Prop :=
  ∃ index, p.LeadsTo path index ∧ zipEntryName (p.file index).nameRaw = name

/-- A row is the last of those that lead to an entry of some name. -/
def Package.RowOf (p : Package) (rows : List EntryEncryption) (name : Str) (row : EntryEncryption) :
    Prop :=
  ∃ before after, rows = before ++ row :: after ∧ p.LeadsToName row.path name ∧
    ∀ r ∈ after, ¬ p.LeadsToName r.path name

/-- The plans of some rows: by each name, that of the last row that leads to it. -/
structure Package.Plans (p : Package) (rows : List EntryEncryption) (sizes : Sizes)
    (plans : List (Str × Plan)) : Prop where
  planned : ∀ {name plan}, plans.lookup name = some plan →
    p.RowOf rows name plan.row ∧ sizes.declared plan.row.size = .ok plan.expected
  unplanned : ∀ {name}, plans.lookup name = none → ∀ row ∈ rows, ¬ p.LeadsToName row.path name

section

variable {p : Package} {rows : List EntryEncryption} {row : EntryEncryption} {path name name' : Str}
  {sizes : Sizes} {plans : List (Str × Plan)}

theorem Package.LeadsToName.unique (h : p.LeadsToName path name) (h' : p.LeadsToName path name') :
    name = name' := by
  obtain ⟨index, hl, rfl⟩ := h
  obtain ⟨index', hl', rfl⟩ := h'
  rw [hl.unique hl']

theorem Package.Plans.nil : p.Plans [] sizes [] where
  planned hl := by cases hl
  unplanned _ _ hr := by cases hr

/-- One row more takes the place of those before it that lead to its name. -/
theorem Package.Plans.assign (h : p.Plans rows sizes plans) {plan : Plan}
    (hlead : p.LeadsToName plan.row.path name)
    (hdeclared : sizes.declared plan.row.size = .ok plan.expected) :
    p.Plans (rows ++ [plan.row]) sizes (Assoc.assign name plan plans) where
  planned := by
    intro name' plan' hl
    rw [Assoc.lookup_assign] at hl
    split at hl
    · next hname =>
      subst hname
      obtain rfl := Option.some.inj hl
      exact ⟨⟨rows, [], rfl, hlead, fun _ hr => absurd hr List.not_mem_nil⟩, hdeclared⟩
    · -- A plan under another name keeps its row: the new row leads elsewhere.
      next hname =>
      obtain ⟨⟨before, after, hrows, hlead', hafter⟩, hdeclared'⟩ := h.planned hl
      refine ⟨⟨before, after ++ [plan.row], ?_, hlead', ?_⟩, hdeclared'⟩
      · rw [hrows, List.append_assoc, List.cons_append]
      · intro r hr hlr
        rcases List.mem_append.1 hr with hr | hr
        · exact hafter r hr hlr
        · obtain rfl := List.mem_singleton.1 hr
          exact hname (hlr.unique hlead)
  unplanned := by
    intro name' hl r hr hlr
    rw [Assoc.lookup_assign] at hl
    split at hl
    · cases hl
    · next hname =>
      rcases List.mem_append.1 hr with hr | hr
      · exact h.unplanned hl r hr hlr
      · obtain rfl := List.mem_singleton.1 hr
        exact hname (hlr.unique hlead)

variable {ρ ω : Type} [Read ρ IoError] {archive : Archive ρ}

/-- A lookup comes to an entry of the name that it returns. -/
theorem memberForArchive_leads (hholds : archive.Holds p) {missing : DecryptError} {index : ℕ}
    {s s' : Run ω} (h : memberForArchive archive path missing s = (.ok (index, name), s')) :
    p.LeadsTo path index ∧ p.LeadsToName path name := by
  have hlead := (memberForArchive_iff hholds missing s).1 ⟨name, s', h⟩
  obtain ⟨file, hfind, hname⟩ := firstMember_eq_ok h
  refine ⟨hlead, index, hlead, ?_⟩
  obtain ⟨hget, -, -⟩ := find?_zipIdx_eq_some.1 hfind
  rw [← hholds.file, Archive.file, List.getD_eq_getElem?_getD, hget, hname]
  rfl

/-- What is planned for the rows of a classification. -/
theorem planRows_plans (hholds : archive.Holds p) {cls : Classification}
    {planned : List (Str × Plan) × List (ℕ × Plan)} {s s' : Run ω}
    (h : planRows archive cls sizes s = (.ok planned, s')) :
    p.Plans cls.encryptedEntries sizes planned.1 := by
  have hall := Prog.each_induct
    (fun done planned _ => p.Plans (done.map Prod.fst) sizes planned.1) .nil ?_ h
  · rwa [List.zipIdx_map_fst] at hall
  intro done row rest before after s₁ s₂ _ hI hrow
  obtain ⟨row, rowIndex⟩ := row
  obtain ⟨expected, hdeclared, hrow⟩ := Prog.lift_bind_eq_ok.1 hrow
  obtain ⟨⟨index, name⟩, s₃, hfound, hrow⟩ := Prog.bind_eq_ok.1 hrow
  obtain ⟨⟨len, head⟩, s₄, -, hrow⟩ := Prog.bind_eq_ok.1 hrow
  obtain ⟨_, -, hrow⟩ := Prog.lift_bind_eq_ok.1 hrow
  obtain ⟨_, s₅, -, hrow⟩ := Prog.bind_eq_ok.1 hrow
  cases hrow
  rw [List.map_append, List.map_singleton]
  have hassigned : p.Plans (done.map Prod.fst ++ [(⟨row, expected, len⟩ : Plan).row]) sizes _ :=
    hI.assign (memberForArchive_leads hholds hfound).2 hdeclared
  exact hassigned

end

/-! ### The manifest -/

/-- The manifest of a package, of the length that is read at most. -/
structure Package.HasManifest (p : Package) (manifest : Bytes) : Prop where
  content : ∃ index, p.LeadsTo manifestPath index ∧ p.content index = .ok (manifest, none)
  length_le : manifest.length ≤ manifestReadCap

/-- The manifest is the content of the first entry of its name. -/
theorem Package.HasManifest.eq_of_find? {p : Package} {manifest bytes : Bytes}
    (h : p.HasManifest manifest) (index : ℕ)
    (hfind : (p.directory.zipIdx.find? fun entry =>
      memberMatchesPath (zipEntryName entry.1.nameRaw) manifestPath).map Prod.snd = some index)
    (hcontent : p.content index = .ok (bytes, none)) : manifest = bytes := by
  obtain ⟨index', hlead, hmanifest⟩ := h.content
  obtain ⟨file, hfile⟩ := hlead.find?
  rw [hfile] at hfind
  obtain rfl : index' = index := Option.some.inj hfind
  exact (Prod.mk.inj (Except.ok.inj (hmanifest.symm.trans hcontent))).1

theorem readManifest_eq_ok {ρ ω : Type} [Read ρ IoError] {archive : Archive ρ} {p : Package}
    (hholds : archive.Holds p) {manifest : Bytes} {s s' : Run ω}
    (h : readManifest archive s = (.ok manifest, s')) : p.HasManifest manifest := by
  obtain ⟨⟨index, name⟩, s₁, hfound, h⟩ := Prog.bind_eq_ok.1 h
  obtain ⟨file, s₂, ho, h⟩ := Prog.bind_eq_ok.1 h
  obtain ⟨buf, hbuf, h⟩ := Prog.lift_bind_eq_ok.1 h
  rw [Except.mapError_eq_ok] at hbuf
  obtain ⟨-, h⟩ | ⟨hle, h⟩ := Prog.ite_eq_ok.1 h
  · cases h
  cases h
  obtain ⟨bytes, e, hc, hp⟩ := hholds.opened (openMember_eq_ok ho).1
  -- all that is presented within the cap was read
  have htake := hp.take (manifestReadCap + 1)
  have hread : readToEnd readProbe (Take.mk file (manifestReadCap + 1)) = (.ok manifest, _) :=
    Prod.ext hbuf rfl
  generalize hend : (if manifestReadCap + 1 ≤ bytes.length then none else e) = e' at htake
  rcases e' with - | err
  · obtain ⟨r', hok, -⟩ := htake.readToEnd_ok (show 0 < readProbe by decide)
    obtain rfl := Except.ok.inj (Prod.mk.inj (hread.symm.trans hok)).1
    rw [List.length_take] at hle
    have hshort : ¬ manifestReadCap + 1 ≤ bytes.length := by omega
    rw [if_neg hshort] at hend
    rw [List.take_of_length_le (by omega)]
    exact ⟨⟨index, (memberForArchive_leads hholds hfound).1, hend ▸ hc⟩, by omega⟩
  · have hfail := htake.readToEnd_error (show 0 < readProbe by decide)
    cases hbuf.symm.trans hfail

/-- The compressor makes no more of some bytes, in whatever pieces they come, than
    `deflate_bound`. -/
def Prims.Bounded (P : Prims) : Prop := ∀ {bs code : Bytes}, bs.length < 2 ^ 63 →
  DeflateWriter.DeflatesTo P bs code → code.length ≤ deflateBound bs.length

/-- Data in stored blocks is within `deflate_bound`. -/
theorem length_stored_le {data : Bytes} (h : data.length < 2 ^ 63) :
    (Deflate.Stored.blocks data ++ Deflate.Stored.lastBlock).length ≤ deflateBound data.length := by
  rw [List.length_append, Deflate.Stored.length_blocks, Deflate.Stored.lastBlock]
  unfold deflateBound saturatingAdd saturatingMul
  simp only [List.length_cons, List.length_nil]
  omega

/-- A compressor that stores is within the bound. -/
theorem Prims.Bounded.stored {P : Prims} (h : P.compressor = Deflate.Stored.compressor) :
    P.Bounded := by
  intro bs code hlt hcode
  have hfinished := hcode.finished (F := Deflate.Stored.format) (h ▸ Deflate.Stored.makes)
  rw [h] at hfinished
  rw [Deflate.Stored.finished hfinished]
  exact length_stored_le hlt

/-! ### Members -/

section

variable {ρ σ ω : Type} [Read ρ IoError] [Read σ IoError] [Write ω IoError] {P : Prims} {name : Str}
  {row : EntryEncryption} {index expected : ℕ} {limits : DecryptLimits} {deflated deflated' : σ}
  {s s' : Run (ZipStreamWriter P ω)}

/-- Inflating a member into the writer has it copy the deflated data. -/
theorem writeInflated_copies
    (h : writeInflated P name row index expected limits deflated s = (.ok deflated', s')) :
    ∃ (n : ℕ) (src' : EncryptedDeflated P σ), deflated' = src'.deflated ∧
      s.out.deflatedFrom name expected
        (⟨deflated, expected, limits.maxOutputBytes, []⟩ : EncryptedDeflated P σ) =
          (.ok n, s'.out, src') := by
  obtain ⟨a, s₁, hs, h⟩ := Prog.bind_eq_ok.1 h
  cases h
  have hd := useSink_ok hs
  exact ⟨a.1, a.2, rfl, hd⟩

/-- It reads some of the deflated data. -/
theorem writeInflated_reads
    (h : writeInflated P name row index expected limits deflated s = (.ok deflated', s')) :
    ∃ taken, Reads deflated taken deflated' := by
  obtain ⟨n, src', rfl, hd⟩ := writeInflated_copies h
  obtain ⟨w, w', crc, -, hc, -⟩ :=
    ZipStreamWriter.deflatedFrom_adds OnlyWrites.copies hd
  obtain ⟨inflate, inflate', bs, hr, hend, rfl⟩ := EncryptedDeflated.copy_ok hc
  obtain ⟨hall, -⟩ := Metered.reads (hr.trans (.single hend))
  exact InflateReader.reads_src hall

/-- What is written is the deflated stream, up to where it ends. -/
theorem writeInflated_adds {plain : Bytes} {e : Option IoError} (hp : Presents deflated plain e)
    (h : writeInflated P name row index expected limits deflated s = (.ok deflated', s')) :
    ∃ data used, P.inflater.EndsAt chunk inflateWindow plain e.isSome used data ∧
      data.length = expected ∧ data.length ≤ limits.maxOutputBytes ∧
      (ZipStreamWriter.announces64 expected = false → (plain.take used).length < u32Limit) ∧
      s.out.Adds ⟨s.out.deflatedEntry name expected (crc32 data) (plain.take used).length data.length,
        plain.take used⟩ s'.out ∧
      ∃ rest, Presents deflated' rest e := by
  obtain ⟨n, src', rfl, hd⟩ := writeInflated_copies h
  -- what is copied is known by where the stream ends, which is in one place
  obtain ⟨w, w', crc, code, hc, -, ⟨data, used, hends, hsize, rfl⟩, -, hnarrow, hadds⟩ :=
    ZipStreamWriter.deflatedFrom_adds
      (Q := fun code => ∃ data used, P.inflater.EndsAt chunk inflateWindow plain e.isSome used data ∧
        data.length = expected ∧ code = plain.take used)
      (fun hc => by
        obtain ⟨data, used, hends, hsize, -, -, -, hw, -⟩ := EncryptedDeflated.copy_presented hp hc
        exact ⟨_, ⟨data, used, hends, hsize, rfl⟩, hw⟩) hd
  obtain ⟨data', used', hends', -, hlimit, rfl, rfl, -, hrest⟩ :=
    EncryptedDeflated.copy_presented hp hc
  obtain ⟨rfl, rfl⟩ := hends.unique hends'
  exact ⟨data, used, hends, hsize, hsize ▸ hlimit, hnarrow, hadds, hrest⟩

end

section

variable {ρ ω : Type} [Read ρ IoError] [Write ω IoError] {P : Prims} {archive : Archive ρ} {p : Package}
  {name : Str} {index : ℕ} {plan : Plan} {password : Str} {limits : DecryptLimits}
  {s s' : Run (ZipStreamWriter P ω)}

/-- What is written of a member that is decrypted: the deflated stream that its content
    deciphers to, under a key that the password stands for. -/
structure Unsealed (P : Prims) (p : Package) (row : EntryEncryption) (password : Str)
    (limits : DecryptLimits) (index : ℕ) (data code : Bytes) : Prop where
  deciphers : ∃ key body plain used, StandsFor P row password limits key ∧
    p.content index = .ok (body, none) ∧ Deciphers P row key body plain ∧
    P.inflater.EndsAt chunk inflateWindow plain false used data ∧ code = plain.take used
  inLimit : data.length ≤ limits.maxOutputBytes

/-- A member that was decrypted into the writer. -/
theorem decryptMember_unsealed (hholds : archive.Holds p)
    (hD : ∀ key block, (P.aesInverse key block).length = aesBlockLen)
    (h : decryptMember P archive index name plan password limits s = (.ok (), s')) :
    ∃ data code, Unsealed P p plan.row password limits index data code ∧
      data.length = plan.expected ∧
      (ZipStreamWriter.announces64 plan.expected = false → code.length < u32Limit) ∧
      s.out.Adds ⟨s.out.deflatedEntry name plan.expected (crc32 data) code.length data.length, code⟩
        s'.out := by
  obtain ⟨_, s₁, hrec, h⟩ := Prog.bind_eq_ok.1 h
  rw [← (record_keeps (ε := DecryptError) Run.out_logged _).of_ok hrec]
  rcases Prog.ite_eq_ok.1 h with ⟨hgcm, h⟩ | ⟨hgcm, h⟩
  · obtain ⟨key, s₂, hk, h⟩ := Prog.bind_eq_ok.1 h
    obtain ⟨hstands, s₃, s₄, haccepts⟩ :=
      findKey_standsFor (Untouched.gcmAccepts archive index P plan.row plan.len) hk
    obtain ⟨file, s₅, ho, h⟩ := Prog.bind_eq_ok.1 h
    rw [← (gcmKey_keeps P archive index _ _ _ _).of_ok hk,
      ← (openAfterIv_keeps Run.out_reopened archive index).of_ok ho]
    have hlens := gcmAccepts_lens haccepts
    obtain ⟨body, plain, hbody, hdeciphers, hpresents⟩ := gcmAccepts_deciphers hholds hgcm haccepts
    rw [GcmStream.new_eq_some.2 ⟨hlens.1, hlens.2, rfl⟩] at h
    dsimp only at h
    obtain ⟨rest, s₆, hw, h⟩ := Prog.bind_eq_ok.1 h
    obtain ⟨rest', s₇, hd, h⟩ := Prog.bind_eq_ok.1 h
    rw [(ensureEnd_keeps Run.out _).of_ok h, (drain_keeps Run.out _).of_ok hd]
    obtain ⟨data, used, hends, hsize, hlimit, hnarrow, hadds, -⟩ :=
      writeInflated_adds (hpresents _ _ (openAfterIv_eq_ok ho).1) hw
    exact ⟨data, _, ⟨⟨key, body, plain, used, hstands, hbody, hdeciphers, hends, rfl⟩, hlimit⟩, hsize,
      hnarrow, hadds⟩
  · obtain ⟨key, s₂, hk, h⟩ := Prog.bind_eq_ok.1 h
    obtain ⟨hstands, s₃, s₄, haccepts⟩ := findKey_standsFor Untouched.checksumAccepts hk
    obtain ⟨file, s₅, ho, h⟩ := Prog.bind_eq_ok.1 h
    obtain ⟨gate, hgate, h⟩ := Prog.lift_bind_eq_ok.1 h
    rw [Except.mapError_eq_ok] at hgate
    obtain ⟨gate', s₆, hw, h⟩ := Prog.bind_eq_ok.1 h
    obtain ⟨gate'', s₇, hd, h⟩ := Prog.bind_eq_ok.1 h
    cases h
    rw [← (checksumKey_keeps P archive index _ _ _).of_ok hk,
      ← (openMember_keeps Run.out_reopened archive index).of_ok ho, (drain_keeps Run.out _).of_ok hd]
    obtain ⟨body, e, hbody, hp⟩ := hholds.opened (openMember_eq_ok ho).1
    -- the gate came to its end, so the member has no error
    obtain ⟨taken, hreads⟩ := writeInflated_reads hw
    obtain ⟨⟨drained, g₁, hmore, hend⟩, -⟩ := drain_eq_ok hd
    obtain rfl : e = none := gated_ends hD hgate hp (hreads.trans hmore) hend
    have hpassing := gated_passing hD hholds (checksumAccepts_eq_ok haccepts) hbody hgate hp
    have hpresents := ChecksumGate.presents hpassing
    obtain ⟨data, used, hends, hsize, hlimit, hnarrow, hadds, rest, hrest⟩ :=
      writeInflated_adds hpresents hw
    have hnone := drain_presents hrest hd
    rw [hnone] at hends
    obtain ⟨-, -, -, -, hmatches⟩ := hpassing
    rw [(gated_eq_ok hgate).1] at hmatches
    exact ⟨data, _, ⟨⟨key, body, _, used, hstands, hbody, .gated hgcm (Prod.ext rfl hnone) hmatches,
      hends, rfl⟩, hlimit⟩, hsize, hnarrow, hadds⟩

end

/-! ### What becomes of an entry -/

section

variable (P : Prims) (p : Package) (rows : List EntryEncryption) (password : Str)
  (limits : DecryptLimits) (sizes : Sizes) (stripped : Bytes)

/-- The member that an entry of the directory is in the rebuilt package. -/
inductive Remade (entry : FileData × ℕ) : Zip.Member → Prop
  | manifest {code : Bytes}
      (isManifest : memberMatchesPath (zipEntryName entry.1.nameRaw) manifestPath = true)
      (deflates : DeflateWriter.DeflatesTo P stripped code) :
      Remade entry ⟨utf8Encode (zipEntryName entry.1.nameRaw), methodDeflated,
        (crc32 stripped).toNat, stripped.length, code⟩
  | unsealed {row : EntryEncryption} {data code : Bytes}
      (notManifest : memberMatchesPath (zipEntryName entry.1.nameRaw) manifestPath = false)
      (row_of : p.RowOf rows (zipEntryName entry.1.nameRaw) row)
      (unsealed : Unsealed P p row password limits entry.2 data code)
      (size : sizes.declared row.size = .ok data.length) :
      Remade entry ⟨utf8Encode (zipEntryName entry.1.nameRaw), methodDeflated,
        (crc32 data).toNat, data.length, code⟩
  | stored {data : Bytes}
      (notManifest : memberMatchesPath (zipEntryName entry.1.nameRaw) manifestPath = false)
      (noRow : ∀ row ∈ rows, ¬ p.LeadsToName row.path (zipEntryName entry.1.nameRaw))
      (method : entry.1.compression = .stored) (content : p.content entry.2 = .ok (data, none))
      (size : data.length = entry.1.size) (crc : crc32 data = entry.1.crc32) :
      Remade entry ⟨utf8Encode (zipEntryName entry.1.nameRaw), methodStored,
        (crc32 data).toNat, data.length, data⟩
  | deflated {data code : Bytes}
      (notManifest : memberMatchesPath (zipEntryName entry.1.nameRaw) manifestPath = false)
      (noRow : ∀ row ∈ rows, ¬ p.LeadsToName row.path (zipEntryName entry.1.nameRaw))
      (method : entry.1.compression = .deflated) (raw : p.raw entry.2 = .ok (code, none))
      (content : p.content entry.2 = .ok (data, none)) (size : data.length ≤ entry.1.size) :
      Remade entry ⟨utf8Encode (zipEntryName entry.1.nameRaw), methodDeflated,
        (crc32 data).toNat, data.length, code⟩

/-- Sizes have 64 bits, and the compressor makes no more of the manifest than its bound. -/
structure Roomy : Prop where
  sizes : ∀ file ∈ p.directory, file.size < 2 ^ 64
  output : limits.maxOutputBytes < 2 ^ 64
  manifest : stripped.length < 2 ^ 64
  deflated : ∀ code, DeflateWriter.DeflatesTo P stripped code →
    code.length ≤ deflateBound stripped.length

end

section

variable {ρ ω : Type} [Read ρ IoError] [Write ω IoError] {P : Prims} {archive : Archive ρ} {p : Package}
  {rows : List EntryEncryption} {plans : List (Str × Plan)} {password : Str} {limits : DecryptLimits}
  {sizes : Sizes} {stripped : Bytes} {entry : FileData × ℕ} {s s' : Run (ZipStreamWriter P ω)}

omit [Write ω IoError] in
/-- A deflated member has room in its headers, where its data is bounded by what they
    announce. -/
theorem deflatedEntry_fits {z : ZipStreamWriter P ω} {name : Str} {sizeHint n : ℕ} {crc : UInt32}
    {code : Bytes} (hle : n ≤ sizeHint) (hhint : sizeHint < 2 ^ 64) (hcode : code.length < 2 ^ 64)
    (hnarrow : ZipStreamWriter.announces64 sizeHint = false → code.length < u32Limit) :
    Placed.Fits ⟨z.deflatedEntry name sizeHint crc code.length n, code⟩ where
  compressed := hcode
  uncompressed := hle.trans_lt hhint
  narrow h := by
    dsimp only [ZipStreamWriter.deflatedEntry] at h ⊢
    exact ⟨hnarrow h, hle.trans_lt (ZipStreamWriter.not_announces64 h).2⟩

/-- The member of an entry was added, with room in its headers where there is room for
    its sizes. -/
structure Adds (P : Prims) (p : Package) (rows : List EntryEncryption) (password : Str)
    (limits : DecryptLimits) (sizes : Sizes) (stripped : Bytes) (entry : FileData × ℕ)
    (z : ZipStreamWriter P ω) (placed : Placed) (z' : ZipStreamWriter P ω) : Prop where
  adds : z.Adds placed z'
  remade : Remade P p rows password limits sizes stripped entry placed.member
  fits : Roomy P p limits stripped → entry.1.size < 2 ^ 64 → placed.data.length < 2 ^ 64 → placed.Fits

theorem copyMember_adds (hholds : archive.Holds p)
    (hmanifest : memberMatchesPath (zipEntryName entry.1.nameRaw) manifestPath = false)
    (hrow : ∀ row ∈ rows, ¬ p.LeadsToName row.path (zipEntryName entry.1.nameRaw))
    (h : copyMember archive (zipEntryName entry.1.nameRaw) entry.1 entry.2 limits s = (.ok (), s')) :
    ∃ placed, Adds P p rows password limits sizes stripped entry s.out placed s'.out := by
  unfold copyMember at h
  rcases hm : entry.1.compression with - | - | id <;> rw [hm] at h
  · -- A stored member is read as it is, with its size and checksum checked on the way.
    obtain ⟨file, s₁, ho, h⟩ := Prog.bind_eq_ok.1 h
    obtain ⟨a, s₂, hs, h⟩ := Prog.bind_eq_ok.1 h
    cases h
    rw [← (openMember_keeps Run.out_reopened archive entry.2).of_ok ho]
    have hstored : ZipSink.stored s₁.out (zipEntryName entry.1.nameRaw) entry.1.crc32 entry.1.size file =
        (.ok a.1, s'.out, a.2) := useSink_ok hs
    obtain ⟨data, file₁, hr, hend, hsize, hcrc, hadds⟩ := ZipStreamWriter.stored_adds hstored
    obtain ⟨data', e, hc, hp⟩ := hholds.opened (openMember_eq_ok ho).1
    obtain ⟨rfl, rfl⟩ : data' = data ∧ e = none := hp.all_of_end hr hend (by decide)
    refine ⟨_, hadds, ?_, fun _ hlt _ => ⟨hlt, hlt, fun h64 => ?_⟩⟩
    · have hremade : Remade P p rows password limits sizes stripped entry _ :=
        .stored hmanifest hrow hm hc hsize hcrc
      rwa [hsize, hcrc] at hremade
    · have hlt32 : entry.1.size < u32Limit := Nat.not_le.1 (of_decide_eq_false h64)
      exact ⟨hlt32, hlt32⟩
  · -- A deflated one is copied as its code, and what it inflates to is checked first.
    dsimp only at h
    rcases hd : ZipSink.deflatedFrom s.out (zipEntryName entry.1.nameRaw) entry.1.size
      (PlainDeflated.mk archive s.opened entry.2) with ⟨result, out, src⟩
    rw [hd] at h
    obtain ⟨hres, rfl⟩ := Prod.mk.inj h
    rw [Except.mapError_eq_ok] at hres
    obtain ⟨n, rfl, -⟩ := Except.map_eq_ok.1 hres
    obtain ⟨w, w', crc, code, hc, -, hraw, hle, hnarrow, hadds⟩ := ZipStreamWriter.deflatedFrom_adds
      (Q := fun code => p.raw entry.2 = .ok (code, none))
      (fun hc => by
        obtain ⟨code, data, hraw, -, -, -, hw⟩ := PlainDeflated.copy_presented hholds hc
        exact ⟨code, hraw, hw⟩) hd
    obtain ⟨code', data, -, hcontent, rfl, rfl, -⟩ := PlainDeflated.copy_presented hholds hc
    exact ⟨_, hadds, .deflated hmanifest hrow hm hraw hcontent hle,
      fun _ hlt hcode => deflatedEntry_fits hle hlt hcode hnarrow⟩
  · cases h

/-- A step of a rebuild adds the member of its entry. -/
theorem rebuildMember_remade (hholds : archive.Holds p)
    (hD : ∀ key block, (P.aesInverse key block).length = aesBlockLen)
    (hplans : p.Plans rows sizes plans) {done done' : Rebuilt}
    (h : rebuildMember P archive plans stripped password limits done entry s = (.ok done', s')) :
    ∃ placed, Adds P p rows password limits sizes stripped entry s.out placed s'.out := by
  obtain ⟨_, s₁, ho, h⟩ := Prog.bind_eq_ok.1 h
  rw [← (openMember_keeps Run.out_reopened archive entry.2).of_ok ho]
  dsimp only at h
  -- The three treatments: the manifest comes before the plans, and an entry with no
  -- plan is copied.
  by_cases hmanifest : memberMatchesPath (zipEntryName entry.1.nameRaw) manifestPath = true
  · rw [treatment, if_pos hmanifest] at h
    obtain ⟨a, s₂, hs, h⟩ := Prog.bind_eq_ok.1 h
    cases h
    have hdeflated : ZipSink.deflated s₁.out (zipEntryName entry.1.nameRaw) stripped.length
        (wholeManifest stripped) = (.ok a.1, s'.out, a.2) := useSink_ok hs
    obtain ⟨bs, data₁, code, hr, hend, -, hle, hcode, hadds⟩ := ZipStreamWriter.deflated_adds hdeflated
    obtain rfl : stripped = bs := (Pieces.presents _ rfl).eq_of_end hr hend (by decide)
    refine ⟨_, hadds, .manifest hmanifest hcode, fun hroom _ hlen => ?_⟩
    exact deflatedEntry_fits le_rfl hroom.manifest hlen fun h64 =>
      (hroom.deflated code hcode).trans_lt (ZipStreamWriter.not_announces64 h64).1
  rw [treatment, if_neg hmanifest] at h
  rcases hl : plans.lookup (zipEntryName entry.1.nameRaw) with - | plan <;> rw [hl] at h
  · obtain ⟨_, s₂, hc, h⟩ := Prog.bind_eq_ok.1 h
    cases h
    exact copyMember_adds hholds (Bool.eq_false_iff.2 hmanifest) (hplans.unplanned hl) hc
  · obtain ⟨_, s₂, hd, h⟩ := Prog.bind_eq_ok.1 h
    cases h
    rw [Prog.mapError_eq_ok] at hd
    obtain ⟨hrow, hdeclared⟩ := hplans.planned hl
    obtain ⟨data, code, hunsealed, hsize, hnarrow, hadds⟩ := decryptMember_unsealed hholds hD hd
    have hbudget : data.length ≤ limits.maxOutputBytes :=
      hunsealed.inLimit.trans (Nat.sub_le _ _)
    refine ⟨_, hadds, .unsealed (Bool.eq_false_iff.2 hmanifest) hrow ⟨?_, hbudget⟩ (hsize ▸ hdeclared),
      fun hroom _ hlen => ?_⟩
    · obtain ⟨key, body, plain, used, ⟨sk, hsk, hkey⟩, hrest⟩ := hunsealed.deciphers
      rw [rowKey_budget] at hkey
      exact ⟨key, body, plain, used, ⟨sk, hsk, hkey⟩, hrest⟩
    · rw [← hsize] at hnarrow ⊢
      exact deflatedEntry_fits le_rfl (hbudget.trans_lt hroom.output) hlen hnarrow

end

/-! ### The whole package -/

section

variable {ρ ω : Type} [Read ρ IoError] [Write ω IoError] [Flush ω IoError] {P : Prims}
  {archive : Archive ρ}
  {p : Package} {cls : Classification} {password : Str} {limits : DecryptLimits} {sizes : Sizes}

/-- The members of some entries, one after the other. -/
def AddsAll (P : Prims) (p : Package) (rows : List EntryEncryption) (password : Str)
    (limits : DecryptLimits) (sizes : Sizes) (stripped : Bytes) (ω : Type) [Write ω IoError] :
    List (FileData × ℕ) → List Placed → Prop :=
  List.Forall₂ fun entry placed => ∃ z z' : ZipStreamWriter P ω,
    Adds P p rows password limits sizes stripped entry z placed z'

omit [Flush ω IoError] in
/-- A rebuild that succeeds has added the member of every entry. -/
theorem perEntry_remade (hholds : archive.Holds p)
    (hD : ∀ key block, (P.aesInverse key block).length = aesBlockLen) {s s' : Run (ZipStreamWriter P ω)}
    {w : ω} {a : IntegrityOutcome} (hs : s.out = .new P w)
    (h : perEntry P archive cls password limits sizes s = (.ok a, s')) :
    ∃ manifest stripped placed, p.HasManifest manifest ∧
      stripManifest P.xmlReader manifest = .ok stripped ∧
      s'.out.Laid w placed ∧
      AddsAll P p cls.encryptedEntries password limits sizes stripped ω p.directory.zipIdx placed := by
  obtain ⟨⟨plans, superseded⟩, s₁, hp, h⟩ := Prog.bind_eq_ok.1 h
  obtain ⟨_, s₂, hk, h⟩ := Prog.bind_eq_ok.1 h
  obtain ⟨manifest, s₃, hm, h⟩ := Prog.bind_eq_ok.1 h
  obtain ⟨stripped, hstripped, h⟩ := Prog.lift_bind_eq_ok.1 h
  obtain ⟨done, s₄, he, h⟩ := Prog.bind_eq_ok.1 h
  cases h
  have hout : s₃.out = .new P w := by
    rw [(readManifest_keeps Run.out_reopened archive).of_ok hm,
      (Prog.Keeps.each (fun _ _ => keyFor_keeps P archive _ _ password limits) _ _).of_ok hk,
      (planRows_keeps archive cls sizes).of_ok hp, hs]
  -- The invariant over the entries: what was placed so far remakes those done, one for
  -- one.
  have hrun := Prog.each_induct
    (fun entries _ (s' : Run (ZipStreamWriter P ω)) => ∃ placed, s'.out.Laid w placed ∧
      AddsAll P p cls.encryptedEntries password limits sizes stripped ω entries placed)
    ⟨[], hout ▸ .new w, .nil⟩ ?_ he
  · obtain ⟨placed, hlaid, hall⟩ := hrun
    rw [← hholds.directory]
    exact ⟨manifest, stripped, placed, readManifest_eq_ok hholds hm, hstripped, hlaid, hall⟩
  intro entries entry rest done done' s₅ s₆ _ hI hstep
  obtain ⟨placed, hlaid, hall⟩ := hI
  obtain ⟨added, hadds⟩ := rebuildMember_remade hholds hD (planRows_plans hholds hp) hstep
  exact ⟨placed ++ [added], hlaid.add hadds.adds, List.rel_append hall (.cons ⟨_, _, hadds⟩ .nil)⟩

/-- What is written of a rebuilt package, and what is read back of it. -/
structure Rebuilds (P : Prims) (p : Package) (rows : List EntryEncryption) (password : Str)
    (limits : DecryptLimits) (sizes : Sizes) (stripped : Bytes) (members : List Zip.Member)
    (out : Bytes) : Prop where
  manifest : ∃ manifest, p.HasManifest manifest ∧ stripManifest P.xmlReader manifest = .ok stripped
  remade : List.Forall₂ (Remade P p rows password limits sizes stripped) p.directory.zipIdx members
  read_back : Roomy P p limits stripped →
    (∀ file ∈ p.directory, file.nameRaw.length + lossyGrowth file.nameRaw < 2 ^ 16) →
    out.length < 2 ^ 64 → Zip.readArchive out = some members

theorem Remade.name {rows : List EntryEncryption} {stripped : Bytes} {entry : FileData × ℕ}
    {m : Zip.Member} (h : Remade P p rows password limits sizes stripped entry m) :
    m.name = utf8Encode (zipEntryName entry.1.nameRaw) := by
  cases h <;> rfl

/-- What is written of a package that was rebuilt to a writer: an archive of the members of
    its entries. -/
theorem intoZip_remade (hholds : archive.Holds p)
    (hD : ∀ key block, (P.aesInverse key block).length = aesBlockLen) {s s' : Run ω}
    {a : IntegrityOutcome}
    (h : intoZip P limits (perEntry P archive cls password limits sizes) s = (.ok a, s')) :
    ∃ manifest stripped placed w, p.HasManifest manifest ∧
      stripManifest P.xmlReader manifest = .ok stripped ∧
      AddsAll P p cls.encryptedEntries password limits sizes stripped ω p.directory.zipIdx placed ∧
      InOrder placed ∧ Writes s.out (archiveBytes placed) w ∧ flush w = (.ok (), s'.out) := by
  unfold intoZip at h
  rcases hp : perEntry P archive cls password limits sizes (s.withOut (ZipStreamWriter.new P s.out)) with
    ⟨e | a', s₁⟩ <;>
    rw [hp] at h
  · cases h
  dsimp only at h
  rcases hf : s₁.out.finish with ⟨result, out⟩
  rw [hf] at h
  obtain ⟨hres, rfl⟩ := Prod.mk.inj h
  rw [Except.mapError_eq_ok] at hres
  obtain ⟨_, rfl, -⟩ := Except.map_eq_ok.1 hres
  obtain ⟨manifest, stripped, placed, hmanifest, hstripped, hlaid, hall⟩ :=
    perEntry_remade (w := s.out) hholds hD rfl hp
  obtain ⟨w, hw, hflush⟩ := hlaid.finish hf
  exact ⟨manifest, stripped, placed, w, hmanifest, hstripped, hall, hlaid.inOrder, hw, hflush⟩

/-- A package that was rebuilt to a writer. -/
theorem intoZip_rebuilds (hholds : archive.Holds p)
    (hD : ∀ key block, (P.aesInverse key block).length = aesBlockLen) {s s' : Run ω}
    {a : IntegrityOutcome}
    (h : intoZip P limits (perEntry P archive cls password limits sizes) s = (.ok a, s')) :
    ∃ stripped members out w,
      Rebuilds P p cls.encryptedEntries password limits sizes stripped members out ∧
        Writes s.out out w ∧ flush w = (.ok (), s'.out) := by
  obtain ⟨manifest, stripped, placed, w, hmanifest, hstripped, hall, hin, hw, hflush⟩ :=
    intoZip_remade hholds hD h
  refine ⟨stripped, placed.map Placed.member, archiveBytes placed, w, {
    manifest := ⟨manifest, hmanifest, hstripped⟩
    remade := List.forall₂_map_right_iff.2 (hall.imp fun _ _ h => ?_)
    read_back := ?_ }, hw, hflush⟩
  · obtain ⟨z, z', hadds⟩ := h
    exact hadds.remade
  intro hroom hnames hlen
  refine readArchive_archiveBytes hin ?_ ?_ hlen
  · intro q hq
    obtain ⟨entry, hentry, z, z', hadds⟩ := ZipStreamWriter.exists_of_forall₂ hall q hq
    have hname : q.entry.name = utf8Encode (zipEntryName entry.1.nameRaw) := hadds.remade.name
    rw [hname, zipEntryName, length_utf8Encode_utf8Lossy]
    exact hnames _ (List.fst_mem_of_mem_zipIdx hentry)
  · intro q hq
    obtain ⟨entry, hentry, z, z', hadds⟩ := ZipStreamWriter.exists_of_forall₂ hall q hq
    exact hadds.fits hroom (hroom.sizes _ (List.fst_mem_of_mem_zipIdx hentry))
      ((ZipStreamWriter.length_data_le hq).trans_lt hlen)

/-- What `decrypt_to` writes of a package that is not wholesome, over a source that has
    the package: the rebuilt package, member by member, and a reader of archives reads
    these members back. -/
theorem decryptWithLimitsTo_rebuilds {source : Source ρ} {writer : ω} {outcome : DecryptOutcome}
    {s : Run ω} (h : source.Has p) (hD : ∀ key block, (P.aesInverse key block).length = aesBlockLen)
    (hcls : classifyLatched P.xmlReader (source.openArchive 0) = .ok cls) (hmode : cls.mode ≠ .wholesome)
    (hrun : decryptWithLimitsTo P source writer password limits = (.ok outcome, s)) :
    ∃ stripped members out w,
      Rebuilds P p cls.encryptedEntries password limits .streamed stripped members out ∧
        Writes writer out w ∧ flush w = (.ok (), s.out) := by
  unfold decryptWithLimitsTo at hrun
  split at hrun
  · cases hrun
  rcases hr : decryptRun P source password limits { out := writer } with ⟨result, s₁⟩
  rw [hr, h.latched] at hrun
  obtain ⟨rfl, rfl⟩ := Prod.mk.inj hrun
  obtain ⟨⟨cls', archive⟩, s₂, hb, hr⟩ := Prog.bind_eq_ok.1 hr
  obtain ⟨hcls', -, hopen⟩ := begin_eq_ok P source limits hb
  obtain rfl := Except.ok.inj (hcls.symm.trans hcls')
  obtain ⟨archive', hopen', hholds⟩ := h.opens 1
  obtain rfl := Except.ok.inj (hopen.symm.trans hopen')
  -- Classification and opening write nothing.
  have hout : s₂.out = writer := (Prog.Keeps.bind (.lift _) fun _ => .bind (.lift _) fun _ =>
    .bind (.lift _) fun _ => .pure _ : Prog.Keeps Run.out (begin_ P source limits)).of_ok hb
  rw [← hout]
  dsimp only at hr
  rcases hm : cls.mode with - | - | - <;> rw [hm] at hr
  · obtain ⟨a, s₃, hz, hr⟩ := Prog.bind_eq_ok.1 hr
    cases hr
    exact intoZip_rebuilds hholds hD hz
  · obtain ⟨a, s₃, hz, hr⟩ := Prog.bind_eq_ok.1 hr
    cases hr
    exact intoZip_rebuilds hholds hD hz
  · exact absurd hm hmode

end

/-! ### A member of three bytes -/

/-- A manifest with one encrypted row, of three bytes. -/
def threeRowTokens : List Token :=
  [ .start (tag Uris.elementManifest [attr (ascii "xmlns:manifest") Uris.manifestNsOasis]),
    .start (tag Uris.elementFileEntry [
      attr Uris.attrFullPath (ascii "a"),
      attr Uris.attrSize (ascii "3")]),
    .start (tag Uris.elementEncryptionData []),
    .empty (tag Uris.elementAlgorithm [
      attr Uris.attrAlgorithmName Uris.aesgcm256Url,
      attr Uris.attrIv (ascii "AAAAAAAAAAAAAAAA")]),
    .empty (tag Uris.elementStartKeyGeneration [attr Uris.attrStartKeyName Uris.sha256Url]),
    .empty (tag Uris.elementKeyDerivation [
      attr Uris.attrKeyDerivationName Uris.argon2idUrlLo,
      attr Uris.attrArgon2TLo (ascii "1"),
      attr Uris.attrArgon2MLo (ascii "8"),
      attr Uris.attrArgon2PLo (ascii "1"),
      attr Uris.attrSalt (ascii "AAAAAAAAAAAAAAAAAAAAAA=="),
      attr Uris.attrKeySize (ascii "32")]),
    .close (utf8Encode Uris.elementEncryptionData),
    .close (utf8Encode Uris.elementFileEntry),
    .close (utf8Encode Uris.elementManifest)]

def threeRowPrims : Prims := pwPrims [threeRowTokens]

/-- A stored member with the CRC of its content. -/
def checkedMember (name : Str) (content : Bytes) : StoredMember :=
  let m := storedMember name content
  { m with file := { m.file with crc32 := crc32 content } }

/-- A package of that manifest, the sealed bytes and a member that is as it was. -/
def threeRowMembers : List StoredMember :=
  [checkedMember manifestPath (threeRowTokens.flatMap writeEvent), checkedMember (ascii "a") threeBody,
    checkedMember (ascii "b") [4]]

def threeRowSource : Source (Pieces IoError) where
  openArchive _ := .ok (memoryArchive (fun _ => 1024) threeRowMembers)

theorem threeRowSource_has : threeRowSource.Has (.ofMembers threeRowMembers) where
  opens _ := ⟨_, rfl, memoryArchive_holds _ _⟩
  latched := rfl

def threeRowDecrypted : Except DecryptError DecryptOutcome × Run (Buffer IoError) :=
  decryptWithLimitsTo threeRowPrims threeRowSource ⟨[]⟩ (ascii "pw") {}

theorem classified_threeRow : ∃ cls, classifyLatched threeRowPrims.xmlReader
    (threeRowSource.openArchive 0) = .ok cls ∧ cls.encryptedEntries.length = 1 ∧
      cls.mode = .perEntry := by
  have hrows : ((classifyLatched threeRowPrims.xmlReader (threeRowSource.openArchive 0)).toOption.map
      fun cls => (cls.encryptedEntries.length, cls.mode)) = some (1, .perEntry) := by decide +kernel
  obtain ⟨cls, hcls, h⟩ := Option.map_eq_some_iff.1 hrows
  exact ⟨cls, Except.toOption_eq_some.1 hcls, (Prod.mk.inj h).1, (Prod.mk.inj h).2⟩

theorem decrypted_threeRow : ∃ s : Run (Buffer IoError),
    decryptWithLimitsTo threeRowPrims threeRowSource ⟨[]⟩ (ascii "pw") {} = (.ok ⟨.verified⟩, s) ∧
      s.out.bytes.length < 2 ^ 64 := by
  have hok : threeRowDecrypted.1.toOption = some ⟨.verified⟩ ∧
      threeRowDecrypted.2.out.bytes.length < 2 ^ 64 := by decide +kernel
  rcases hrun : threeRowDecrypted with ⟨result, s⟩
  rw [hrun] at hok
  obtain rfl := Except.toOption_eq_some.1 hok.1
  exact ⟨s, hrun, hok.2⟩

/-- What is left of the manifest is short. -/
theorem threeRow_stripped {manifest stripped : Bytes}
    (h : (Package.ofMembers threeRowMembers).HasManifest manifest)
    (hs : stripManifest threeRowPrims.xmlReader manifest = .ok stripped) : stripped.length < 2 ^ 63 := by
  obtain rfl : manifest = threeRowTokens.flatMap writeEvent :=
    h.eq_of_find? 0 (by decide +kernel) rfl
  have hlen : ((stripManifest threeRowPrims.xmlReader (threeRowTokens.flatMap writeEvent)).toOption.map
      List.length).all (fun n => n < 2 ^ 63) = true := by decide +kernel
  rw [hs] at hlen
  exact of_decide_eq_true hlen

theorem threeRow_roomy {manifest stripped : Bytes}
    (h : (Package.ofMembers threeRowMembers).HasManifest manifest)
    (hs : stripManifest threeRowPrims.xmlReader manifest = .ok stripped) :
    Roomy threeRowPrims (.ofMembers threeRowMembers) {} stripped where
  sizes := by decide +kernel
  output := by decide
  manifest := (threeRow_stripped h hs).trans (by decide)
  deflated _ := Prims.Bounded.stored rfl (threeRow_stripped h hs)

/-- The package is rebuilt with its one encrypted member inflated, and read back. -/
theorem decryptWithLimitsTo_rebuilds_three : ∃ (cls : Classification) (stripped : Bytes)
    (members : List Zip.Member) (s : Run (Buffer IoError)),
    decryptWithLimitsTo threeRowPrims threeRowSource ⟨[]⟩ (ascii "pw") {} = (.ok ⟨.verified⟩, s) ∧
      cls.encryptedEntries.length = 1 ∧
      Rebuilds threeRowPrims (.ofMembers threeRowMembers) cls.encryptedEntries (ascii "pw") {} .streamed
        stripped members s.out.bytes ∧
      Roomy threeRowPrims (.ofMembers threeRowMembers) {} stripped ∧
      Zip.readArchive s.out.bytes = some members := by
  obtain ⟨cls, hcls, hrows, hmode⟩ := classified_threeRow
  obtain ⟨s, hrun, hlen⟩ := decrypted_threeRow
  have hperEntry : cls.mode ≠ .wholesome := by
    rw [hmode]
    decide
  obtain ⟨stripped, members, out, w, hrebuilds, hw, hflush⟩ :=
    decryptWithLimitsTo_rebuilds threeRowSource_has (fun _ _ => rfl) hcls hperEntry hrun
  obtain rfl : w = s.out := (Prod.mk.inj hflush).2
  obtain rfl : s.out.bytes = out := Buffer.writes hw
  obtain ⟨manifest, hmanifest, hstripped⟩ := hrebuilds.manifest
  have hroomy := threeRow_roomy hmanifest hstripped
  exact ⟨cls, stripped, members, s, hrun, hrows, hrebuilds, hroomy,
    hrebuilds.read_back hroomy (by decide +kernel) hlen⟩

end OdfCrypto
