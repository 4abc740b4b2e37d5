import OdfCrypto.DecryptRun.Meaning
import OdfCrypto.Encrypt.Params
import OdfCrypto.EncryptStream.MediaType
import OdfCrypto.EncryptStream.Written

/-!
# Encrypting, and decrypting again

A document that `encrypt_with_params_to` has encrypted is what `decrypt_to` makes of
the new package, given the same password: the zip crate reads back what it has
written, and each part of the run undoes its counterpart.

* `screenArgon2_written_iff`: when the limits admit the key derivation;
* `written_decrypts`: a package with a sealed member is decrypted;
* `encrypted_decrypts`: so it is of the whole.
-/

namespace OdfCrypto

open ByteStream Text Deflate

/-! ### Keys -/

/-- The limits admit a package of a document of so many bytes under these parameters. -/
structure DecryptLimits.Admits (limits : DecryptLimits) (params : Argon2Params) (n : ℕ) : Prop where
  size : n ≤ limits.maxOutputBytes
  t : params.t ≤ limits.argon2MaxT
  mKib : params.mKib ≤ limits.argon2MaxMKib
  p : params.p ≤ limits.argon2MaxP

/-- What is relied on of the Argon2 crate: it fills the key that it is given. -/
def Argon2Fills (P : Prims) : Prop :=
  ∀ {sk salt : Bytes} {t m p len : ℕ} {key : Bytes}, P.argon2id sk salt t m p len = .ok key →
    key.length = len

section

variable {P : Prims} {params : Argon2Params} {password : Str} {salt iv key : Bytes} {n : ℕ}
  {limits : DecryptLimits}

theorem saltLen_of_screen {t m p : ℤ} (h : screenArgon2 t m p salt limits = .ok ()) :
    argon2MinSaltLen ≤ salt.length ∧ salt.length ≤ argon2MaxSaltLen := by
  by_contra hsalt
  have hlen : salt.length < argon2MinSaltLen ∨ argon2MaxSaltLen < salt.length := by omega
  unfold screenArgon2 at h
  dsimp only at h
  rw [if_pos hlen] at h
  repeat' split at h
  all_goals cases h

/-- Parameters that a new key was derived with are screened by the limits alone. -/
theorem screenArgon2_written_iff
    (h : screenArgon2 params.t params.mKib params.p salt writeLimits = .ok ()) :
    screenArgon2 params.t params.mKib params.p salt limits = .ok () ↔
      params.t ≤ limits.argon2MaxT ∧ params.mKib ≤ limits.argon2MaxMKib ∧
        params.p ≤ limits.argon2MaxP := by
  have hsalt := saltLen_of_screen h
  rw [screenArgon2_ok_iff hsalt] at h ⊢
  omega

theorem deriveWriteKey_ok (h : deriveWriteKey P password salt params = .ok key) :
    screenArgon2 params.t params.mKib params.p salt writeLimits = .ok () ∧
      P.argon2id (startKey P password .sha256) salt params.t.toNat params.mKib.toNat params.p.toNat
        wholesomeProfile.derivedKeyLen = .ok key := by
  obtain ⟨_, hscreen, hkey⟩ := Except.bind_eq_ok.1 (Except.mapError_eq_ok.1 h)
  exact ⟨hscreen, Except.mapError_eq_ok.1 hkey⟩

/-- The key of the row that was written is the one that the package was sealed with. -/
theorem deriveKey_written {ω : Type} (h : deriveWriteKey P password salt params = .ok key)
    (ht : params.t ≤ limits.argon2MaxT) (hm : params.mKib ≤ limits.argon2MaxMKib)
    (hp : params.p ≤ limits.argon2MaxP) (s : Run ω) :
    ∃ s', deriveKey P (writtenRow n iv salt params) (startKey P password .sha256) limits s =
      (.ok key, s') := by
  obtain ⟨hscreen, hkey⟩ := deriveWriteKey_ok h
  have hscreen' := (screenArgon2_written_iff hscreen).2 ⟨ht, hm, hp⟩
  have hlen : ¬ ((writtenRow n iv salt params).derivedKeyLen < derivedKeyMinLen ∨
      derivedKeyMaxLen < (writtenRow n iv salt params).derivedKeyLen) :=
    (by decide : ¬ ((32 : ℤ) < derivedKeyMinLen ∨ derivedKeyMaxLen < (32 : ℤ)))
  have hkey' : P.argon2id (startKey P password .sha256) salt params.t.toNat params.mKib.toNat
      params.p.toNat (writtenRow n iv salt params).derivedKeyLen.toNat = .ok key := hkey
  refine ⟨{ s with log := s.log ++ [.derived (writtenRow n iv salt params)] }, ?_⟩
  rw [deriveKey, if_neg hlen]
  simp only [writtenRow] at hkey' ⊢
  rw [hscreen', hkey']
  rfl

end

/-! ### The package -/

section

variable {ρ ω : Type} [Read ρ IoError] [Write ω IoError] [Flush ω IoError] {P : Prims} {F : Format}
  {source : Source ρ} {writer : ω} {mimetype : Option Str} {data stream key iv salt : Bytes}
  {params : Argon2Params} {password : Str} {limits : DecryptLimits}

/-- A source that has, each time it is opened, the members of a new package of a document
    of so many bytes. -/
structure SourceOfWritten (source : Source ρ) (mimetype : Option Str) (body iv salt : Bytes) (n : ℕ)
    (params : Argon2Params) : Prop where
  latched : source.latch.take = none
  opens : ∀ k, ∃ archive, source.openArchive k = .ok archive ∧
    archive.HasMembers (writtenMembers mimetype body (buildManifest n iv salt mimetype params))

/-- The XML reader reads the manifest as it was written. -/
def ReadsManifest (P : Prims) (mimetype : Option Str) (iv salt : Bytes) (n : ℕ)
    (params : Argon2Params) : Prop :=
  P.xmlReader (buildManifest n iv salt mimetype params) =
    (manifestEvents n iv salt mimetype params, none)

omit [Read ρ IoError] [Write ω IoError] [Flush ω IoError] in
/-- The screen of a new package is the limit of the output. -/
theorem screenClass_written_iff {cls : Classification} {n : ℕ} (hmode : cls.mode = .wholesome)
    (hfatal : cls.odf12Fatal = false) (hrows : cls.encryptedEntries = [writtenRow n iv salt params]) :
    screenClass cls limits = .ok () ↔ n ≤ limits.maxOutputBytes := by
  have hpgp : (cls.encryptedEntries.any fun row => row.kdf = .pgpRsaOaepMgf1p) = false := by
    rw [hrows]
    rfl
  have hcount : ensureEncryptedEntryCount cls.encryptedEntries.length maxEncryptedEntries = .ok () := by
    rw [hrows]
    rfl
  have htotal : declaredTotal cls = n := by
    rw [declaredTotal, hmode]
    dsimp only
    rw [Classification.wholesomeRow, if_neg (not_not.2 hmode), hrows]
    rfl
  rw [screenClass, hmode, if_neg (by decide), hfatal, if_neg Bool.false_ne_true, hpgp,
    if_neg Bool.false_ne_true, hcount]
  have hlimit : screenOutputLimit cls limits.maxOutputBytes = .ok () ↔ n ≤ limits.maxOutputBytes := by
    rw [screenOutputLimit, htotal]
    by_cases h : limits.maxOutputBytes < n
    · rw [if_pos h]
      exact iff_of_false (fun he => by cases he) (Nat.not_le.2 h)
    · rw [if_neg h]
      exact iff_of_true rfl (Nat.le_of_not_lt h)
  exact hlimit

/-- A package with a sealed member is decrypted with the password that it was made with. -/
theorem written_decrypts {used : ℕ}
    (hends : P.inflater.EndsAt chunk inflateWindow stream false used data) (hargon : Argon2Fills P)
    (hsource : SourceOfWritten source mimetype (sealedBody P key iv stream) iv salt data.length params)
    (hxml : ReadsManifest P mimetype iv salt data.length params)
    (hcap : (buildManifest data.length iv salt mimetype params).length ≤ manifestReadCap)
    (hn : data.length < 2 ^ 63) (hiv : iv.length = aesGcmIvLen)
    (hderive : deriveWriteKey P password salt params = .ok key) (hpassword : password.isEmpty = false)
    (hadmits : limits.Admits params data.length) {I : ω → Prop} (hI : Willing I) (hw : I writer) :
    ∃ s, decryptWithLimitsTo P source writer password limits = (.ok ⟨.verified⟩, s) ∧
      Writes writer data s.out := by
  -- Classification opens the source once, and the run itself once more.
  obtain ⟨archive₀, hopen₀, hm₀⟩ := hsource.opens 0
  obtain ⟨archive, hopen, hm⟩ := hsource.opens 1
  obtain ⟨cls, hcls, hmode, hfatal, hrows⟩ := classifyArchive_written hm₀ hn hxml hcap
  have hscreen := (screenClass_written_iff hmode hfatal hrows).2 hadmits.size
  have hbegin : begin_ P source limits ({ out := writer } : Run ω) =
      (.ok (cls, archive), { out := writer }) := by
    rw [begin_, hopen₀, classifyLatched, hcls, Except.mapError, Prog.bind_of_ok (Prog.lift_apply _),
      hscreen, Prog.bind_of_ok (Prog.lift_apply _), hopen]
    rfl
  have hrow : wholesomeRow cls = .ok (0, writtenRow data.length iv salt params) := by
    rw [wholesomeRow, hrows, hmode]
    rfl
  have hlen : key.length = 32 := hargon (deriveWriteKey_ok hderive).2
  have hbody : MemberHolds archive 1 (sealedBody P key iv stream) := hm.memberHolds (i := 1) rfl
  have hlens : GcmLens key iv := ⟨hiv, .inr (.inr hlen)⟩
  have hkey (s : Run ω) : ∃ s', deriveKey P (writtenRow data.length iv salt params)
      (startKey P password .sha256) limits s = (.ok key, s') :=
    deriveKey_written hderive hadmits.t hadmits.mKib hadmits.p s
  have hdeclared : Sizes.declared (data.length : ℤ) .streamed = .ok data.length := by
    rw [Sizes.declared, declaredSize, if_neg (Int.not_lt.2 (Int.natCast_nonneg _))]
    rfl
  -- The run finds the one row, derives the key written, and releases what the stream
  -- inflates to.
  have hwholesome : ∃ s, wholesome P archive 0 (writtenRow data.length iv salt params) password limits
      .streamed ({ out := writer } : Run ω) = (.ok (), s) ∧ Writes writer data s.out ∧ I s.out :=
    wholesome_found hlens hbody rfl rfl (fun s => memberForArchive_written hm _ s)
      (findKey_first hkey fun s => ⟨_, gcmAccepts_sealed hbody hlens s⟩) hends hdeclared hadmits.size
      (hI.takes writer data) ⟨.refl _, hw⟩
  obtain ⟨s, hrun, hwrites, -⟩ := hwholesome
  refine ⟨s, ?_, hwrites⟩
  have hall : decryptRun P source password limits ({ out := writer } : Run ω) =
      (.ok ⟨.verified⟩, s) := by
    rw [decryptRun, Prog.bind_of_ok hbegin]
    dsimp only
    rw [hmode]
    dsimp only
    rw [hrow, Prog.bind_of_ok (Prog.lift_apply _)]
    exact Prog.bind_of_ok hrun
  unfold decryptWithLimitsTo
  rw [hpassword, if_neg Bool.false_ne_true, hall, hsource.latched]

/-- It is decrypted only by limits that admit it, and if its manifest is not longer than
    classification reads. -/
theorem written_decrypts_only
    (hsource : SourceOfWritten source mimetype (sealedBody P key iv stream) iv salt data.length params)
    (hxml : ReadsManifest P mimetype iv salt data.length params) (hn : data.length < 2 ^ 63)
    (hderive : deriveWriteKey P password salt params = .ok key) {outcome : DecryptOutcome} {s : Run ω}
    (h : decryptWithLimitsTo P source writer password limits = (.ok outcome, s)) :
    (buildManifest data.length iv salt mimetype params).length ≤ manifestReadCap ∧
      limits.Admits params data.length := by
  obtain ⟨archive₀, hopen₀, hm₀⟩ := hsource.opens 0
  have hrun : decryptRun P source password limits ({ out := writer } : Run ω) = (.ok outcome, s) := by
    unfold decryptWithLimitsTo at h
    split at h
    · cases h
    · rw [hsource.latched] at h
      exact h
  obtain ⟨⟨cls, archive⟩, s₁, hbegin, hrun⟩ := Prog.bind_eq_ok.1 hrun
  obtain ⟨hcls, hscreen, -⟩ := begin_eq_ok P source limits hbegin
  rw [hopen₀] at hcls
  have hcap : (buildManifest data.length iv salt mimetype params).length ≤ manifestReadCap := by
    by_contra hlong
    have hrefused : classifyArchive P.xmlReader archive₀ = .error (.zip (ascii "zip entry too large")) :=
      classifyArchive_longManifest hm₀ (Nat.lt_of_not_le hlong)
    cases hrefused.symm.trans hcls
  obtain ⟨cls', hcls', hmode, hfatal, hrows⟩ := classifyArchive_written hm₀ hn hxml hcap
  obtain rfl : cls' = cls := Except.ok.inj (hcls'.symm.trans hcls)
  have hsize := (screenClass_written_iff hmode hfatal hrows).1 hscreen
  dsimp only at hrun
  rw [hmode] at hrun
  have hrow : wholesomeRow cls' = .ok (0, writtenRow data.length iv salt params) := by
    rw [wholesomeRow, hrows, hmode]
    rfl
  obtain ⟨⟨rowIndex, row⟩, hfound, hrun⟩ := Prog.lift_bind_eq_ok.1 hrun
  obtain ⟨rfl, rfl⟩ := Prod.mk.inj (Except.ok.inj (hrow.symm.trans hfound))
  obtain ⟨_, s₂, hwholesome, -⟩ := Prog.bind_eq_ok.1 hrun
  -- the key of the row was derived, so its parameters passed the screen
  obtain ⟨_, -, hwholesome⟩ := Prog.lift_bind_eq_ok.1 hwholesome
  obtain ⟨⟨index, name⟩, s₃, -, hwholesome⟩ := Prog.bind_eq_ok.1 hwholesome
  obtain ⟨⟨len, head⟩, s₄, -, hwholesome⟩ := Prog.bind_eq_ok.1 hwholesome
  obtain ⟨_, -, hwholesome⟩ := Prog.lift_bind_eq_ok.1 hwholesome
  obtain ⟨_, s₅, -, hwholesome⟩ := Prog.bind_eq_ok.1 hwholesome
  obtain ⟨_, s₆, -, hwholesome⟩ := Prog.bind_eq_ok.1 hwholesome
  obtain ⟨_, s₇, hkey, -⟩ := Prog.bind_eq_ok.1 hwholesome
  obtain ⟨found, s₈, hfind, -⟩ := Prog.bind_eq_ok.1 hkey
  obtain ⟨sk, -, s₉, s₁₀, -, hd, -⟩ := tryKeys_eq_ok P (Untouched.gcmAccepts archive index P _ len) hfind
  obtain ⟨-, hd⟩ | ⟨-, hd⟩ := Prog.ite_eq_ok.1 hd
  · cases hd
  obtain ⟨_, hparams, -⟩ := Prog.lift_bind_eq_ok.1 hd
  obtain ⟨ht, hm, hp⟩ := (screenArgon2_written_iff (deriveWriteKey_ok hderive).1).1
    (Except.mapError_eq_ok.1 hparams)
  exact ⟨hcap, hsize, ht, hm, hp⟩

end

/-! ### The whole -/

section

variable {ρ₀ δ ζ ω : Type} [Read ρ₀ IoError] [Read δ IoError] [CrateOver ζ ω] {P : Prims} {F : Format}
  {src : Document ρ₀ δ} {out out' : ω} {random : Random} {password : Str} {params : Argon2Params}
  {data : Bytes} {given : ζ → List CrateMember}

/-- What `encrypt_with_params_to` leaves is read as a package of its document, sealed. -/
theorem encryptWithParamsTo_written {ρ : Type} [Read ρ IoError] {reads : ω → Source ρ}
    (hC : P.compressor.Makes F) (hk : CrateKeeps given) (hreads : CrateReadsBack given reads)
    (hfresh : given (CrateOver.wrap out) = []) (hsrc : Presents src.reader data none)
    (h : encryptWithParamsTo P ζ src out random password params = (.ok (), out')) :
    ∃ cls archive mimetype code key iv salt, ResolvedFrom P src.toSource cls archive mimetype ∧
      random.salt = .ok salt ∧ random.iv = .ok iv ∧ iv.length = aesGcmIvLen ∧
      deriveWriteKey P password salt params = .ok key ∧ password.isEmpty = false ∧
      data.length < 2 ^ 63 ∧ F.Complete code data ∧
      SourceOfWritten (reads out') mimetype (sealedBody P key iv code) iv salt data.length params := by
  obtain ⟨cls, archive, mimetype, size, salt, iv, key, hcls, -, hopen, hmime, -, -, hlt, hsalt, hiv,
    hkey, hpackage⟩ := encryptRun_ok (encryptWithParamsTo_ok h)
  have hpassword : password.isEmpty = false := by
    by_contra hempty
    unfold encryptWithParamsTo at h
    rw [if_pos (Bool.not_eq_false _ ▸ hempty)] at h
    cases h
  unfold Encrypting.package at hpackage
  rcases hm : Encrypting.members P src.reader size mimetype key iv salt params (CrateOver.wrap out : ζ)
    with ⟨result, zip⟩
  rw [hm] at hpackage
  obtain ⟨rfl, rfl⟩ := Prod.mk.inj hpackage
  obtain ⟨rfl, hlens, code, zip₁, hcode, hgiven, hfinish⟩ := Encrypting.members_given hk hC hsrc hm
  rw [hfresh, List.nil_append] at hgiven
  refine ⟨cls, archive, mimetype, code, key, iv, salt, ⟨hcls, hopen, hmime⟩, hsalt, hiv, hlens.1, hkey,
    hpassword, hlt, hcode, hreads.latched _, fun k => ?_⟩
  obtain ⟨archive', hopen', hmembers⟩ := hreads.opens hfinish k
  exact ⟨archive', hopen', hgiven ▸ hmembers⟩

/-- A document that was encrypted is decrypted with its password just by the limits that
    admit its size and the parameters of its key, as long as its new manifest is not
    longer than classification reads; and what is then written is the document, byte for
    byte, however the new package is read. -/
theorem encrypted_decrypts {ρ ω' : Type} [Read ρ IoError] [Write ω' IoError] [Flush ω' IoError]
    {reads : ω → Source ρ} (hC : P.compressor.Makes F) (hF : P.inflater.Undoes F inflateWindow)
    (hargon : Argon2Fills P) (hk : CrateKeeps given) (hreads : CrateReadsBack given reads)
    (hfresh : given (CrateOver.wrap out) = []) (hsrc : Presents src.reader data none)
    (h : encryptWithParamsTo P ζ src out random password params = (.ok (), out'))
    {cls : Classification} {archive : Archive ρ₀} {mimetype : Option Str} {iv salt : Bytes}
    (hmime : ResolvedFrom P src.toSource cls archive mimetype) (hsalt : random.salt = .ok salt)
    (hiv : random.iv = .ok iv) (hxml : ReadsManifest P mimetype iv salt data.length params)
    {limits : DecryptLimits} {I : ω' → Prop} (hI : Willing I) {writer : ω'} (hw : I writer) :
    ((∃ outcome s, decryptWithLimitsTo P (reads out') writer password limits = (.ok outcome, s)) ↔
      (buildManifest data.length iv salt mimetype params).length ≤ manifestReadCap ∧
        limits.Admits params data.length) ∧
    ∀ {outcome s}, decryptWithLimitsTo P (reads out') writer password limits = (.ok outcome, s) →
      outcome = ⟨.verified⟩ ∧ Writes writer data s.out := by
  obtain ⟨cls', archive', mimetype', code, key, iv', salt', hmime', hsalt', hiv', hlen, hkey, hpassword,
    hn, hcode, hsource⟩ := encryptWithParamsTo_written hC hk hreads hfresh hsrc h
  -- What the run chose is what the hypotheses name.
  obtain rfl : iv = iv' := Except.ok.inj (hiv.symm.trans hiv')
  obtain rfl : salt = salt' := Except.ok.inj (hsalt.symm.trans hsalt')
  obtain rfl : cls = cls' := Except.ok.inj (hmime.classified.symm.trans hmime'.classified)
  obtain rfl : archive = archive' := Except.ok.inj (hmime.opened.symm.trans hmime'.opened)
  obtain rfl : mimetype = mimetype' := Except.ok.inj (hmime.mimetype.symm.trans hmime'.mimetype)
  -- Within cap and limits it decrypts; outside, `written_decrypts_only` refuses it.
  have hopens : (buildManifest data.length iv salt mimetype params).length ≤ manifestReadCap ∧
      limits.Admits params data.length →
      ∃ s, decryptWithLimitsTo P (reads out') writer password limits = (.ok ⟨.verified⟩, s) ∧
        Writes writer data s.out := by
    rintro ⟨hcap, hadmits⟩
    obtain ⟨used, hends⟩ := InflateReader.endsAt_of_complete hF hcode []
    rw [List.append_nil] at hends
    exact written_decrypts hends hargon hsource hxml hcap hn hlen hkey hpassword hadmits hI hw
  have honly : ∀ {outcome s},
      decryptWithLimitsTo P (reads out') writer password limits = (.ok outcome, s) →
      (buildManifest data.length iv salt mimetype params).length ≤ manifestReadCap ∧
        limits.Admits params data.length :=
    fun hd => written_decrypts_only hsource hxml hn hkey hd
  refine ⟨⟨?_, fun hcond => ?_⟩, fun {outcome s} hd => ?_⟩
  · rintro ⟨outcome, s, hd⟩
    exact honly hd
  · obtain ⟨s, hd, -⟩ := hopens hcond
    exact ⟨_, s, hd⟩
  · obtain ⟨s', hd', hwrites⟩ := hopens (honly hd)
    obtain ⟨hresult, rfl⟩ := Prod.mk.inj (hd'.symm.trans hd)
    exact ⟨(Except.ok.inj hresult).symm, hwrites⟩

end

/-! ### A document that is encrypted, and decrypted again -/

/-- A zip writer that keeps what it is given. -/
structure KeptMembers where
  members : List CrateMember := []
  deriving DecidableEq

namespace KeptMembers

/-- Add to the member under way. -/
def push (z : KeptMembers) (bs : Bytes) : KeptMembers :=
  match z.members.getLast? with
  | some m => ⟨z.members.dropLast ++ [{ m with data := m.data ++ bs }]⟩
  | none => z

instance : Write KeptMembers IoError where
  write z bs := (.ok bs.length, z.push bs)
  patience _ := 0
  le_length h := by cases h; exact le_rfl
  patience_le h := by cases h; exact le_rfl
  patience_lt h := by cases h

instance : Flush KeptMembers IoError where
  flush z := (.ok (), z)

instance : CrateOver KeptMembers KeptMembers where
  startFile z name method _ := (.ok (), ⟨z.members ++ [⟨utf8Encode name, method, []⟩]⟩)
  finishArchive z := (.ok (), z)
  wrap z := z
  unwrap z := z

theorem keeps : CrateKeeps KeptMembers.members where
  started h := by cases h; rfl
  taken h hz := by
    cases h
    rw [push, hz, List.getLast?_concat]
    dsimp only
    rw [List.dropLast_concat, List.take_length]
  retried h := by cases h

/-- The member as it is found in memory, stored or inflated. -/
def storedOf (m : CrateMember) : StoredMember where
  file := { nameRaw := m.name, compression := m.method, size := m.data.length }
  content := m.data
  raw := m.data

/-- What was kept, read one byte at a time. -/
def source (z : KeptMembers) : Source (Pieces IoError) where
  openArchive _ := .ok (memoryArchive (fun _ => 0) (z.members.map storedOf))

theorem hasMembers (cuts : ℕ → ℕ) (z : KeptMembers) :
    (memoryArchive cuts (z.members.map storedOf)).HasMembers z.members := by
  constructor
  · rw [memoryArchive, List.map_map, List.forall₂_map_left_iff]
    refine List.forall₂_same.2 fun m _ => ⟨rfl, rfl, ?_, rfl⟩
    simp [FileData.isDosFolder, storedOf]
  · intro i m hm k
    refine ⟨{ rest := m.data, cuts }, ?_, Pieces.presents _ rfl⟩
    have hmap : (z.members.map storedOf)[i]? = some (storedOf m) := by
      rw [List.getElem?_map, hm]
      rfl
    have hopen : openPieces cuts ((z.members.map storedOf)[i]?.map StoredMember.content) =
        .ok { rest := m.data, cuts } := by
      rw [hmap]
      rfl
    exact hopen

theorem readsBack : CrateReadsBack KeptMembers.members source where
  latched _ := rfl
  opens {z z'} h _ := by
    cases h
    exact ⟨_, rfl, hasMembers _ z⟩

end KeptMembers

/-- The least that Argon2 takes. -/
def leastParams : Argon2Params where
  t := 1
  mKib := 8
  p := 1
  t_range := by decide
  m_range := by decide
  p_range := by decide
  lanes := by decide

/-- SHA-256 of `pw`. -/
def sha256OfPw : Bytes :=
  Gcm.bigEndian 32 0x30C952FAB122C3F9759F02A6D95C3758B246B4FEE239957B2D4FEE46E26170C4

/-- What Argon2id makes of it with the least parameters and a salt of zeros. -/
def keyOfPw : Bytes :=
  Gcm.bigEndian 32 0x0050B7C0FF3CCCC814A17171094605B567A3A8EECA9918499BDFC7D36C46B6E8

/-- AES under that key, of the numbers from zero on. -/
def blocksOfPw : List ℕ :=
  [0xE40C03E06537F08B6D2FA45D07C8E19F, 0xA6FF79CD057550D1D537A87BEED1ACF7,
   0xDCBC985BBE502513F94A2524649434EA, 0x0D68BC3A3901F71F73618889552D3141,
   0xA874FCCF04D644D89ABC9865E8EE7843, 0x50E5C8F6E2F5061EBDD306558B10E9DD,
   0xEC7E2B92BFB55D7158B08D8346E03460, 0x928E17A11AC4D1128BA6D141B46A1B71,
   0xE4C4844BC24CB8A25C40F35BFB203F26, 0xFE13D9AC6FF507CBCDE75D6FFF036E0F,
   0x4BAC898D820E2981D3EFE92070106CCC, 0xDFCDEF69F0B67CBDD90062C843FF5935,
   0xC6A9352B82CA3750A1DEB02FA4287FEC, 0xD3FF3D8918529751E3A2888C13292E3A,
   0x7B38EE19C6551375864E8577723FA4DC, 0x4E0DE930AF482B0ED26529AC0A112A99,
   0x19323C32A0FE7BA13B8955DFEDC2DF69, 0xDE1B926B725E36434533B2423E4220C9,
   0x918FE1EBCE0CD649DD96F2EE447AB05B, 0xAE1E02DD77E3194156D8E58A10C19FE6,
   0xBB4C69667EE702EEFFE654340736969F, 0x5C82EDC27FAB3CDE47C0534B84612773,
   0xD8B1B2AD98BB4F67B48E01555C1DA92D]

/-- Primitives that are known where the sample needs them. -/
def pwPrims (tokens : List (List Token)) : Prims :=
  { knownPrims with
    sha256 := fun bs => if bs = bytesOf "pw" then sha256OfPw else List.replicate 32 0
    argon2id := fun sk salt t m p len =>
      if (sk, salt, t, m, p, len) = (sha256OfPw, List.replicate 16 0, 1, 8, 1, 32) then .ok keyOfPw
      else .error .other
    aes := fun _ block => Gcm.bigEndian 16 (blocksOfPw.getD (block.getLastD 0).toNat 0)
    inflater := Stored.blockInflater
    xmlReader := fun xml =>
      match tokens.find? fun tokens => xml = tokens.flatMap writeEvent with
      | some tokens => (tokens, none)
      | none => ([], none) }

/-- The document of the sample, and the events of its manifest and of the new one. -/
def pwDocument : Document (Pieces IoError) (Pieces IoError) := documentOf (bytesOf "a/b")

def pwEvents : List (List Token) := [
  onlyInManifest (bytesOf "a/b"),
  manifestEvents 318 (List.replicate 12 0) (List.replicate 16 0) (some (ascii "a/b")) leastParams]

/-- A document of 318 bytes is encrypted with the password `pw`; the new package, read
    one byte at a time, is decrypted to the document. -/
theorem encrypted_decrypts_sample :
    ∃ (out : KeptMembers) (s : Run (Buffer IoError)),
      encryptWithParamsTo (pwPrims pwEvents) KeptMembers pwDocument {} zeroRandom (ascii "pw")
        leastParams = (.ok (), out) ∧
      decryptWithLimitsTo (pwPrims pwEvents) out.source (⟨[]⟩ : Buffer IoError) (ascii "pw") {} =
        (.ok ⟨.verified⟩, s) ∧
      s.out.bytes = pwDocument.reader.rest := by
  have hrun : (encryptWithParamsTo (pwPrims pwEvents) KeptMembers pwDocument {} zeroRandom (ascii "pw")
      leastParams).1.toOption = some () := by decide +kernel
  have henc := Except.eq_of_toOption hrun
  have hclass : ((classifyLatched (pwPrims pwEvents).xmlReader (pwDocument.openArchive 0)).toOption.map
      (·.mediaType)) = some (some (ascii "a/b")) := by decide +kernel
  obtain ⟨cls, hcls, hmt⟩ := Option.map_eq_some_iff.1 hclass
  have hmime : ResolvedFrom (pwPrims pwEvents) pwDocument.toSource cls
      (memoryArchive (fun _ => chunk) (manifestOnly (bytesOf "a/b"))) (some (ascii "a/b")) :=
    ⟨Except.toOption_eq_some.1 hcls, rfl, by rw [hmt]; rfl⟩
  have hfills : Argon2Fills (pwPrims pwEvents) := by
    intro sk salt t m p len key hkey
    simp only [pwPrims] at hkey
    split at hkey
    · next htuple =>
      cases hkey
      simp only [Prod.mk.injEq] at htuple
      rw [htuple.2.2.2.2.2]
      rfl
    · cases hkey
  have hxml : ReadsManifest (pwPrims pwEvents) (some (ascii "a/b")) (List.replicate 12 0)
      (List.replicate 16 0) pwDocument.reader.rest.length leastParams := by
    unfold ReadsManifest
    decide +kernel
  have hempty : (fun _ : Buffer IoError => True) ⟨[]⟩ := trivial
  have hadmits : DecryptLimits.Admits {} leastParams pwDocument.reader.rest.length :=
    ⟨by decide +kernel, by decide, by decide, by decide⟩
  obtain ⟨hiff, hsame⟩ := encrypted_decrypts (F := Stored.format) Stored.makes
    (Stored.blockInflater_undoes (by decide)) hfills KeptMembers.keeps KeptMembers.readsBack rfl
    (Pieces.presents pwDocument.reader rfl) henc hmime rfl rfl hxml
    (Buffer.willing (ε := IoError)) hempty
  obtain ⟨outcome, s, hdec⟩ := hiff.2 ⟨by decide +kernel, hadmits⟩
  obtain ⟨rfl, hwrites⟩ := hsame hdec
  have hbytes := Buffer.writes hwrites
  rw [List.nil_append] at hbytes
  exact ⟨_, s, henc, hdec, hbytes⟩

end OdfCrypto
