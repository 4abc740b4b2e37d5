import OdfCrypto.DecryptLog.TwoPasses
import OdfCrypto.EncryptStream.MediaType
import OdfCrypto.Lib.StoredInflate

/-!
# Sealing and opening

The body of the encrypted member of a new package (IV, what the document deflates to,
encrypted, and its tag), and what the decryption of a wholesome package makes of it.

* `Encrypting.payload_ok`, `Encrypting.payload_willing`: what is sealed;
* `wholesome_opens`: what is opened, however the openings are read;
* `sealed_opens`: the two together.
-/

namespace OdfCrypto

open ByteStream Text Deflate

/-! ### Sealing -/

/-- What is deflated, encrypted, and its tag. -/
def sealedCode (P : Prims) (key iv code : Bytes) : Bytes :=
  Gcm.ctr (P.aes key) iv 16 code ++ Gcm.tag (P.aes key) iv (Gcm.ctr (P.aes key) iv 16 code)

namespace Encrypting

variable {δ ζ ω : Type} [Read δ IoError] {P : Prims} {F : Format} {src : δ} {data key iv : Bytes}

theorem pump_ok [Write ω IoError] {dst dst' : DeflateWriter P ω}
    (hsrc : Presents src data none) (h : pump P src dst = (.ok (), dst')) : Writes dst data dst' := by
  unfold pump at h
  rcases he : eachPiece chunk EncryptError.io (writePiece EncryptError.ofWrite) dst src
    with ⟨result, dst₁, src₁⟩
  rw [he] at h
  cases h
  obtain ⟨bs, src₂, hr, hend, hw⟩ := eachPiece_writePiece_ok he
  rwa [hsrc.eq_of_end hr hend (by decide)]

/-- A payload that was written is what a stream of the document comes to. -/
theorem payload_ok [Write ω IoError] (hC : P.compressor.Makes F) (hsrc : Presents src data none)
    {size : ℕ} {out out' : ω}
    (h : payload P (.absorbed P key iv [] 0) src size out = (.ok (), out')) :
    size = data.length ∧ ∃ code, F.Complete code data ∧ Writes out (sealedCode P key iv code) out' := by
  unfold payload at h
  rcases hp : pump P src (.adaptive P (⟨out, .absorbed P key iv [] 0⟩ : GcmEncryptWriter P ω))
    with ⟨e | u, deflate⟩ <;> rw [hp] at h
  · cases h
  have hwritten := (DeflateWriter.written_adaptive F _).writes hC (pump_ok hsrc hp)
  rw [List.nil_append] at hwritten
  dsimp only at h
  split at h
  · cases h
  next hsize =>
  rcases hf : deflate.finish with ⟨e | u, sealer⟩ <;> rw [hf] at h
  · cases h
  obtain ⟨code, hcode, hcomplete⟩ := DeflateWriter.finish_ok hC hwritten hf
  have hnone : (.absorbed P key iv [] 0 : GcmStream) = .absorbed P key iv [] ([] : Bytes).length := rfl
  obtain ⟨hct, hgcm⟩ := GcmEncryptWriter.writes hnone hcode
  rw [List.nil_append] at hgcm
  refine ⟨(not_not.1 hsize).symm.trans hwritten.1, code, hcomplete, hct.trans ?_⟩
  dsimp only at h
  rcases ht : sealer.finish with ⟨e | u, out₁⟩ <;> rw [ht] at h <;> cases h
  rw [GcmEncryptWriter.finish, hgcm, GcmStream.tag_eq] at ht
  exact writeAll_writes ht

/-- The payload is written to a writer that takes what it is given. -/
theorem payload_willing [Write ω IoError] (hC : P.compressor.Makes F) (hsrc : Presents src data none)
    {J : ω → Prop} (hJ : Willing J) {out : ω} (hout : J out) :
    ∃ out', payload P (.absorbed P key iv [] 0) src data.length out = (.ok (), out') := by
  let sealer : GcmEncryptWriter P ω := ⟨out, .absorbed P key iv [] 0⟩
  -- The writer stack is willing as far as its innermost writer is.
  have hdeflate : Willing fun w : DeflateWriter P (GcmEncryptWriter P ω) => J w.dst.dst ∧
      ∃ dst₀ data, DeflateWriter.Written F dst₀ w data :=
    DeflateWriter.willing hC (GcmEncryptWriter.willing hJ)
  obtain ⟨deflate, ⟨hwritten, hd⟩, src', hp, -⟩ := @eachPiece_presents _ _ _ _ _ _ chunk
    EncryptError.io (writePiece EncryptError.ofWrite) (.adaptive P sealer) src
    (fun done w => DeflateWriter.Written F sealer w done ∧ J w.dst.dst) data none (by decide) hsrc
    (by
      rintro done piece rest w - - - ⟨hw, hd⟩
      obtain ⟨w', hwrite, hd', -⟩ := hdeflate.writeAll ⟨hd, sealer, done, hw⟩ piece
      refine ⟨w', writePiece_eq_ok.2 hwrite, hw.writes hC (writeAll_writes hwrite), hd'⟩)
    ⟨DeflateWriter.written_adaptive F sealer, hout⟩
  obtain ⟨sealer', hf, hs⟩ := DeflateWriter.finish_willing hC (GcmEncryptWriter.willing hJ) hwritten hd
  obtain ⟨out', ht, -⟩ := hJ.writeAll hs sealer'.gcm.tag
  refine ⟨out', ?_⟩
  have hpump : pump P src (.adaptive P sealer) = (.ok (), deflate) := by
    rw [pump, hp]
    rfl
  rw [payload, hpump]
  dsimp only
  rw [if_neg (not_not.2 hwritten.1), hf]
  dsimp only
  rw [GcmEncryptWriter.finish, ht]
  rfl

end Encrypting

/-! ### Opening -/

section

variable {ρ ω : Type} [Read ρ IoError] {P : Prims} {archive : Archive ρ} {index : ℕ}
  {row : EntryEncryption} {key iv body : Bytes}

/-- A member of so many bytes, which each of its openings presents. -/
structure MemberHolds (archive : Archive ρ) (index : ℕ) (body : Bytes) : Prop where
  size : (archive.file index).size = body.length
  opens : ∀ k, ∃ file, archive.byIndex k index = .ok file ∧ Presents file body none

theorem readSome_of_readFull {σ : Type} [Read σ IoError] {r r' : σ} {n : ℕ} {bs : Bytes}
    (h : readFull r n = (.ok bs, r')) (s : Run ω) : readSome r n s = (.ok (bs, r'), s) := by
  rw [readSome, Prog.lift_apply, h]

theorem ensureEnd_presents {σ : Type} [Read σ IoError] {r : σ}
    (h : Presents r [] (none : Option IoError))
    (s : Run ω) : ensureEnd r s = (.ok (), s) := by
  obtain ⟨r', hr, -⟩ := h.readFull_gt (n := 1) Nat.one_pos
  rw [ensureEnd, Prog.bind_of_ok (readSome_of_readFull hr s)]
  rfl

variable (hbody : MemberHolds archive index body)

include hbody

theorem openMember_holds (s : Run ω) : ∃ file, Presents file body none ∧
    openMember archive index s = (.ok file, { s with opened := s.opened + 1 }) := by
  obtain ⟨file, ho, hp⟩ := hbody.opens s.opened
  exact ⟨file, hp, by rw [openMember, ho]; rfl⟩

theorem memberShape_holds (hlen : aesGcmIvLen ≤ body.length) (s : Run ω) :
    memberShape archive index s =
      (.ok (body.length, body.take aesGcmIvLen), { s with opened := s.opened + 1 }) := by
  obtain ⟨file, hp, ho⟩ := openMember_holds hbody s
  obtain ⟨file', hr, -⟩ := hp.readFull_le hlen
  rw [memberShape, Prog.bind_of_ok ho, Prog.bind_of_ok (readSome_of_readFull hr _), hbody.size]
  rfl

theorem openAfterIv_holds (hlen : aesGcmIvLen ≤ body.length) (s : Run ω) :
    ∃ r, Presents r (body.drop aesGcmIvLen) none ∧
      openAfterIv archive index s = (.ok r, { s with opened := s.opened + 1 }) := by
  obtain ⟨file, hp, ho⟩ := openMember_holds hbody s
  obtain ⟨file', hr, hp'⟩ := hp.readFull_le hlen
  refine ⟨file', hp', ?_⟩
  rw [openAfterIv, Prog.bind_of_ok ho, Prog.bind_of_ok (readSome_of_readFull hr _)]
  dsimp only
  rw [if_neg (not_not.2 (List.length_take_of_le hlen))]
  rfl

end

section

variable {ρ ω : Type} [Read ρ IoError] {P : Prims} {archive : Archive ρ} {index : ℕ}
  {row : EntryEncryption} {key code : Bytes}

/-- The body of a member that was sealed. -/
def sealedBody (P : Prims) (key iv code : Bytes) : Bytes := iv ++ sealedCode P key iv code

theorem length_sealedBody (key iv code : Bytes) :
    (sealedBody P key iv code).length = iv.length + (code.length + aesGcmTagLen) := by
  rw [sealedBody, sealedCode, List.length_append, List.length_append, Gcm.length_ctr, Gcm.length_tag]
  rfl

theorem drop_sealedBody {iv : Bytes} (hiv : iv.length = aesGcmIvLen) (key code : Bytes) :
    (sealedBody P key iv code).drop aesGcmIvLen = sealedCode P key iv code := by
  rw [← hiv, sealedBody, List.drop_left]

theorem ctLen_sealedBody {iv : Bytes} (hiv : iv.length = aesGcmIvLen) (key code : Bytes) :
    ctLen (sealedBody P key iv code).length = (Gcm.ctr (P.aes key) iv 16 code).length := by
  rw [ctLen, length_sealedBody, hiv, Gcm.length_ctr]
  omega

variable (hbody : MemberHolds archive index (sealedBody P key row.iv code)) (hlens : GcmLens key row.iv)

include hbody hlens

/-- The first pass accepts the key that sealed the member. -/
theorem gcmAccepts_sealed (s : Run ω) :
    gcmAccepts P archive index row (sealedBody P key row.iv code).length key s =
      (.ok true, { s with opened := s.opened + 1 }) := by
  have hle : aesGcmIvLen ≤ (sealedBody P key row.iv code).length := by
    rw [length_sealedBody, hlens.1]
    omega
  obtain ⟨r, hp, ho⟩ := openAfterIv_holds hbody hle s
  rw [drop_sealedBody hlens.1, ← List.append_nil (sealedCode P key row.iv code), sealedCode] at hp
  obtain ⟨r', hv, hp'⟩ := gcmVerify_presents hlens hp (Gcm.length_tag ..)
  rw [gcmAccepts, Prog.bind_of_ok ho, ctLen_sealedBody hlens.1, hv]
  rw [show ctEq _ _ = true from ctEq_iff.2 rfl]
  exact Prog.bind_of_ok (ensureEnd_presents hp' _)

omit hbody hlens in
/-- The key that the row's own start key gives is found, if it is accepted. -/
theorem findKey_first {password : Str} {limits : DecryptLimits} {accepts : Bytes → Decrypt ω Bool}
    (hkey : ∀ s : Run ω, ∃ s',
      deriveKey P row (startKey P password row.startKey) limits s = (.ok key, s'))
    (haccepts : ∀ s, ∃ s', accepts key s = (.ok true, s')) (s : Run ω) :
    ∃ s', findKey P row password limits accepts s = (.ok key, s') := by
  obtain ⟨s₁, hd⟩ := hkey s
  obtain ⟨s₂, ha⟩ := haccepts s₁
  have hattempt : attempt P row limits accepts (startKey P password row.startKey) s =
      (.ok (some key), s₂) := by
    rw [attempt, Prog.bind_of_ok hd, Prog.bind_of_ok ha]
    rfl
  refine ⟨s₂, ?_⟩
  rw [findKey, startKeys, tryKeys, Prog.bind_of_ok hattempt]
  rfl

/-- Once its key is found, a release that writes the data is followed by the rest of the
    member, and its tag. -/
theorem gcmMember_found {password : Str} {limits : DecryptLimits}
    {release : GcmDecryptReader P ρ → Decrypt ω (GcmDecryptReader P ρ)} {I : ω → Prop}
    {R : ω → ω → Prop}
    (hfind : ∀ s : Run ω, ∃ s', findKey P row password limits
      (gcmAccepts P archive index row (sealedBody P key row.iv code).length) s = (.ok key, s'))
    (hrelease : ∀ {plain : GcmDecryptReader P ρ}, Presents plain code none → ∀ {s : Run ω}, I s.out →
      ∃ plain' ct s', release plain s = (.ok plain', s') ∧ Reads plain ct plain' ∧ R s.out s'.out)
    {s : Run ω} (hs : I s.out) :
    ∃ s', gcmMember P archive index row (sealedBody P key row.iv code).length password limits
      release s = (.ok (), s') ∧ R s.out s'.out := by
  obtain ⟨s₁, hfound⟩ := hfind s
  have hgcmKey : gcmKey P archive index row (sealedBody P key row.iv code).length password limits s =
      (.ok key, { s₁ with log := s₁.log ++ [.accepted row index key] }) := by
    rw [gcmKey, Prog.bind_of_ok hfound]
    rfl
  have hout : s₁.out = s.out := by
    have hkeep : Run.out { s₁ with log := s₁.log ++ [.accepted row index key] } = s.out :=
      (gcmKey_keeps P archive index row _ password limits).of_ok hgcmKey
    exact hkeep
  have hle : aesGcmIvLen ≤ (sealedBody P key row.iv code).length := by
    rw [length_sealedBody, hlens.1]
    omega
  obtain ⟨r, hp, ho⟩ := openAfterIv_holds hbody hle
    { s₁ with log := s₁.log ++ [.accepted row index key] }
  rw [drop_sealedBody hlens.1, sealedCode] at hp
  have hplain := GcmDecryptReader.presents (P := P) (by rw [List.append_nil]; exact hp)
  rw [GcmDecryptReader.plainOf, Gcm.ctr_ctr, ← ctLen_sealedBody hlens.1] at hplain
  let s₁' : Run ω := { s₁ with opened := s₁.opened + 1, log := s₁.log ++ [.accepted row index key] }
  obtain ⟨plain, ct, s₂, hrel, hreads, hR⟩ := hrelease hplain (s := s₁') (hout ▸ hs)
  obtain ⟨rest, -, hrest⟩ := hplain.reads hreads
  obtain ⟨plain', hdiscard, -⟩ :
      ∃ plain', discard chunk readError plain = (.ok (), plain') ∧ _ :=
    discard_presents (by decide) hrest
  have hdrain : drain plain s₂ = (.ok plain', s₂) := by
    rw [drain, Prog.lift_apply, hdiscard]
  -- so both the ciphertext and the tag are read
  obtain ⟨cs, plain₁, hdrained, hend⟩ := discard_ok hdiscard
  obtain ⟨ct', hlen, hsrc, -⟩ := GcmDecryptReader.reads_ok (hreads.trans hdrained) hend (by decide)
  obtain ⟨after, heq, hafter⟩ := hp.reads hsrc
  obtain rfl : after = [] := by
    have hl := congrArg List.length heq
    rw [List.length_append, List.length_append, List.length_append, Gcm.length_tag, Gcm.length_tag,
      hlen, ctLen_sealedBody hlens.1] at hl
    exact List.length_eq_zero_iff.1 (by omega)
  refine ⟨s₂, ?_, hout ▸ hR⟩
  rw [gcmMember, Prog.bind_of_ok hgcmKey, Prog.bind_of_ok ho,
    GcmStream.new_eq_some.2 ⟨hlens.1, hlens.2, rfl⟩]
  dsimp only
  rw [Prog.bind_of_ok hrel, Prog.bind_of_ok hdrain]
  exact ensureEnd_presents hafter s₂

/-- The same of the key that the row's own start key gives. -/
theorem gcmMember_sealed {password : Str} {limits : DecryptLimits}
    {release : GcmDecryptReader P ρ → Decrypt ω (GcmDecryptReader P ρ)} {I : ω → Prop}
    {R : ω → ω → Prop}
    (hkey : ∀ s : Run ω, ∃ s',
      deriveKey P row (startKey P password row.startKey) limits s = (.ok key, s'))
    (hrelease : ∀ {plain : GcmDecryptReader P ρ}, Presents plain code none → ∀ {s : Run ω}, I s.out →
      ∃ plain' ct s', release plain s = (.ok plain', s') ∧ Reads plain ct plain' ∧ R s.out s'.out)
    {s : Run ω} (hs : I s.out) :
    ∃ s', gcmMember P archive index row (sealedBody P key row.iv code).length password limits
      release s = (.ok (), s') ∧ R s.out s'.out :=
  gcmMember_found hbody hlens (findKey_first hkey fun s => ⟨_, gcmAccepts_sealed hbody hlens s⟩)
    hrelease hs

end

section

variable {ρ σ ω : Type} [Read ρ IoError] [Read σ IoError] [Write ω IoError] {P : Prims} {F : Format}
  {archive : Archive ρ} {row : EntryEncryption} {limits : DecryptLimits} {key code data : Bytes}
  {I : ω → Prop}

/-- What an inflater presents is written to a writer that takes it. -/
theorem releaseOut_inflates {plain : σ} {size : ℕ} (hinflated : Presents
      (InflateReader.new P.inflater plain size limits.maxOutputBytes) data (none : Option IoError))
    {J : Bytes → ω → Prop} (hJ : Takes data J) {index : ℕ} {s : Run ω} (hs : J [] s.out) :
    ∃ plain' ct s', releaseOut P row index size limits plain s = (.ok plain', s') ∧
      Reads plain ct plain' ∧ J data s'.out := by
  have hmetered : Presents (Metered.mk (InflateReader.new P.inflater plain size
      limits.maxOutputBytes) [] : Inflating P σ (Sink IoError)) data none :=
    Metered.presents hinflated
  obtain ⟨out, hout, inflate, hcopy, -⟩ := @eachPiece_presents _ _ _ _ _ _ chunk
    (readErrorWith limits) (writePiece DecryptError.io) s.out _ J data none (by decide) hmetered
    (by
      intro done piece rest w hdata hne _ hw
      obtain ⟨w', hwrite, hw'⟩ := hJ hdata hne hw
      exact ⟨w', writePiece_eq_ok.2 hwrite, hw'⟩) hs
  have hrelease : releaseOut P row index size limits plain s = (.ok inflate.inner.src,
      { s with out, log := s.log ++ releases row index inflate.given }) := by
    rw [releaseOut, copyOut, hcopy]
    rfl
  obtain ⟨ct, hreads⟩ := releaseOut_onlyReads.reads hrelease
  exact ⟨_, ct, _, hrelease, hreads, hout⟩

/-- A complete stream is inflated to a writer that takes what it is given. -/
theorem releaseOut_presents (hF : P.inflater.Undoes F inflateWindow) (hcode : F.Complete code data)
    (hcap : data.length ≤ limits.maxOutputBytes) (hI : Willing I) {plain : σ}
    (hplain : Presents plain code (none : Option IoError)) {index : ℕ} {s : Run ω} (hs : I s.out) :
    ∃ plain' ct s', releaseOut P row index data.length limits plain s = (.ok plain', s') ∧
      Reads plain ct plain' ∧ Writes s.out data s'.out ∧ I s'.out :=
  releaseOut_inflates (InflateReader.presents (J := fun _ => True) hF hcode Sink.willing hcap trivial
    (by rw [List.append_nil]; exact hplain)) (hI.takes s.out data) ⟨.refl _, hs⟩

/-- A row for a member that was sealed under some key, of a document of so many bytes. -/
structure RowOfSealed (row : EntryEncryption) (key iv : Bytes) (n : ℕ) (limits : DecryptLimits)
    (sizes : Sizes) : Prop where
  cipher : row.cipher = .aesGcmW3c
  keyLen : row.derivedKeyLen = key.length
  iv : row.iv = iv
  size : row.size = n
  inLimit : n ≤ limits.maxOutputBytes
  /-- The whole-buffer paths have a ceiling of their own. -/
  inCeiling : sizes = .streamed ∨ n ≤ inflateCeiling

omit [Read ρ IoError] [Read σ IoError] [Write ω IoError] in
theorem RowOfSealed.declared {n : ℕ} {iv : Bytes} {sizes : Sizes}
    (h : RowOfSealed row key iv n limits sizes) : sizes.declared row.size = .ok n := by
  rw [h.size]
  rcases sizes with - | -
  · rw [Sizes.declared, declaredSize, if_neg (Int.not_lt.2 (Int.natCast_nonneg n))]
    rfl
  · have hle : n ≤ inflateCeiling := by
      rcases h.inCeiling with hs | hle
      · cases hs
      · exact hle
    rw [Sizes.declared, inflatedLen, if_neg (not_or.2
      ⟨Int.not_lt.2 (Int.natCast_nonneg n), Int.not_lt.2 (Int.ofNat_le.2 hle)⟩)]
    rfl

theorem screenShape_sealed {n : ℕ} {iv : Bytes} {sizes : Sizes}
    (h : RowOfSealed row key iv n limits sizes) (hlens : GcmLens key iv) :
    screenShape row (sealedBody P key iv code).length
      ((sealedBody P key iv code).take aesGcmIvLen) = .ok () := by
  have hkey : cipherAcceptsKeyLen row.cipher row.derivedKeyLen = true := by
    rw [h.cipher, h.keyLen]
    rcases hlens.2 with hk | hk | hk <;> rw [hk] <;> rfl
  have htake : (sealedBody P key iv code).take aesGcmIvLen = iv := by
    rw [← hlens.1, sealedBody, List.take_left]
  have hlen : ¬ ((sealedBody P key iv code).length < aesGcmIvLen + aesGcmTagLen ∨
      iv.length < aesGcmIvLen) := by
    rw [length_sealedBody, hlens.1]
    omega
  have hiv : screenIvLen row .aesGcm aesGcmIvLen = .ok () := if_pos (h.iv ▸ hlens.1)
  rw [screenShape, if_neg (not_not.2 hkey), h.cipher, htake]
  dsimp only
  rw [hiv, if_neg hlen, List.take_of_length_le hlens.1.le, if_neg (not_not.2 h.iv.symm)]
  rfl

/-- The member is opened, and what was sealed is written. -/
theorem wholesome_opens {index rowIndex : ℕ} {password : Str} {iv : Bytes} {sizes : Sizes}
    (hF : P.inflater.Undoes F inflateWindow) (hcode : F.Complete code data)
    (hrow : RowOfSealed row key iv data.length limits sizes) (hlens : GcmLens key iv)
    (hbody : MemberHolds archive index (sealedBody P key iv code))
    (hkey : ∀ s : Run ω, ∃ s',
      deriveKey P row (startKey P password row.startKey) limits s = (.ok key, s'))
    (hfound : ∀ s : Run ω, ∃ name s',
      memberForArchive archive row.path (noMember rowIndex) s = (.ok (index, name), s'))
    (hI : Willing I) {s : Run ω} (hs : I s.out) :
    ∃ s', wholesome P archive rowIndex row password limits sizes s = (.ok (), s') ∧
      Writes s.out data s'.out := by
  obtain ⟨name, s₁, hmember⟩ := hfound s
  have hout₁ : s₁.out = s.out := (memberForArchive_keeps Run.out_reopened archive _ _).of_ok hmember
  have hle : aesGcmIvLen ≤ (sealedBody P key iv code).length := by
    rw [length_sealedBody, hlens.1]
    omega
  obtain rfl := hrow.iv
  -- The state in which the key is looked for: the member was opened, and both events
  -- are logged.
  let s₂ : Run ω := { s₁ with
    opened := s₁.opened + 1
    log := s₁.log ++ [.screened row index (sealedBody P key row.iv code).length
      ((sealedBody P key row.iv code).take aesGcmIvLen)] ++ [.decrypting row index] }
  have hs₂ : I s₂.out := hout₁ ▸ hs
  obtain ⟨s', hrun, hw⟩ := gcmMember_sealed (R := fun out out' => Writes out data out') hbody hlens hkey
    (fun hplain s hs => (releaseOut_presents hF hcode hrow.inLimit hI hplain hs).imp fun plain h =>
      h.imp fun ct h => h.imp fun s' h => ⟨h.1, h.2.1, h.2.2.1⟩) hs₂
  refine ⟨s', ?_, hout₁ ▸ hw⟩
  unfold wholesome
  rw [hrow.declared, Prog.bind_of_ok (Prog.lift_apply _), Prog.bind_of_ok hmember]
  dsimp only
  rw [Prog.bind_of_ok (memberShape_holds hbody hle s₁)]
  dsimp only
  rw [screenShape_sealed hrow hlens, Prog.bind_of_ok (Prog.lift_apply _)]
  exact hrun

end

/-! ### Opening what was sealed -/

section

variable {δ ζ : Type} [Read δ IoError] [CrateWriter ζ] {P : Prims} {F : Format} {src : δ}
  {data key iv salt : Bytes} {size : ℕ} {mimetype : Option Str} {params : Argon2Params}

/-- The encrypted member of a package that was written. -/
theorem Encrypting.members_ok (hC : P.compressor.Makes F) (hsrc : Presents src data none) {zip zip' : ζ}
    (h : members P src size mimetype key iv salt params zip = (.ok (), zip')) :
    size = data.length ∧ ∃ (zip₀ zip₁ zip₂ zip₃ : ζ) (code : Bytes), F.Complete code data ∧
      startMember (ascii "encrypted-package") .stored
        (u32Limit ≤ iv.length + aesGcmTagLen + deflateBound size) zip₀ = (.ok (), zip₁) ∧
      Writes zip₁ (sealedBody P key iv code) zip₂ ∧
      startMember manifestPath .deflated false zip₂ = (.ok (), zip₃) := by
  obtain ⟨_, z₀, -, h⟩ := Prog.bind_eq_ok.1 h
  obtain ⟨_, z₁, -, h⟩ := Prog.bind_eq_ok.1 h
  obtain ⟨_, z₂, hstart, h⟩ := Prog.bind_eq_ok.1 h
  obtain ⟨_, z₃, hwrite, h⟩ := Prog.bind_eq_ok.1 h
  rcases hnew : GcmStream.new P key iv with - | gcm <;> rw [hnew] at h
  · cases h
  obtain ⟨-, -, rfl⟩ := GcmStream.new_eq_some.1 hnew
  obtain ⟨_, z₄, hpayload, h⟩ := Prog.bind_eq_ok.1 h
  obtain ⟨_, z₅, hmanifest, -⟩ := Prog.bind_eq_ok.1 h
  obtain ⟨hsize, code, hcode, hw⟩ := payload_ok hC hsrc hpayload
  exact ⟨hsize, z₁, z₂, z₄, z₅, code, hcode, hstart,
    (writeAll_writes (writePiece_eq_ok.1 hwrite)).trans hw, hmanifest⟩

/-- Whatever row and archive it is found in, the body opens to the data under the key. -/
def OpensTo (P : Prims) (key iv body data : Bytes) : Prop :=
  ∀ {ρ ω : Type} [Read ρ IoError] [Write ω IoError] {archive : Archive ρ} {index rowIndex : ℕ}
    {row : EntryEncryption} {password : Str} {limits : DecryptLimits} {sizes : Sizes} {I : ω → Prop}
    {s : Run ω},
    RowOfSealed row key iv data.length limits sizes → MemberHolds archive index body →
    (∀ s : Run ω, ∃ s',
      deriveKey P row (startKey P password row.startKey) limits s = (.ok key, s')) →
    (∀ s : Run ω, ∃ name s',
      memberForArchive archive row.path (noMember rowIndex) s = (.ok (index, name), s')) →
    Willing I → I s.out →
    ∃ s', wholesome P archive rowIndex row password limits sizes s = (.ok (), s') ∧
      Writes s.out data s'.out

/-- A document is sealed to any writer that takes what it is given, and what the
    package then has for its encrypted member opens to the document. -/
theorem sealed_opens (hC : P.compressor.Makes F) (hF : P.inflater.Undoes F inflateWindow)
    (hsrc : Presents src data none) (hkey : key.length = 32) (hiv : iv.length = 12) :
    (∀ {ω : Type} [Write ω IoError] {J : ω → Prop}, Willing J → ∀ out, J out → ∃ out',
      Encrypting.payload P (.absorbed P key iv [] 0) src data.length out = (.ok (), out')) ∧
    ∀ {zip zip' : ζ},
      Encrypting.members P src size mimetype key iv salt params zip = (.ok (), zip') →
      size = data.length ∧ ∃ (zip₀ zip₁ zip₂ zip₃ : ζ) (body : Bytes),
        Encrypting.startMember (ascii "encrypted-package") .stored
          (u32Limit ≤ iv.length + aesGcmTagLen + deflateBound size) zip₀ = (.ok (), zip₁) ∧
        Writes zip₁ body zip₂ ∧
        Encrypting.startMember manifestPath .deflated false zip₂ = (.ok (), zip₃) ∧
        OpensTo P key iv body data := by
  constructor
  · rintro ω _ J hJ out hout
    exact Encrypting.payload_willing hC hsrc hJ hout
  · rintro zip zip' h
    obtain ⟨hsize, zip₀, zip₁, zip₂, zip₃, code, hcode, hstart, hw, hmanifest⟩ :=
      Encrypting.members_ok hC hsrc h
    refine ⟨hsize, zip₀, zip₁, zip₂, zip₃, _, hstart, hw, hmanifest, ?_⟩
    rintro ρ ω _ _ archive index rowIndex row password limits sizes I s hrow hbody hderive hfound hI hs
    exact wholesome_opens hF hcode hrow ⟨hiv, .inr (.inr hkey)⟩ hbody hderive hfound hI hs

end

/-- AES under the key of 32 zeros, on the blocks that three bytes need. -/
def zeroKeyAes256 (_ block : Bytes) : Bytes :=
  if block = List.replicate 16 0 then
    [0xDC, 0x95, 0xC0, 0x78, 0xA2, 0x40, 0x89, 0x89, 0xAD, 0x48, 0xA2, 0x14, 0x92, 0x84, 0x20, 0x87]
  else if block = List.replicate 15 0 ++ [1] then
    [0x53, 0x0F, 0x8A, 0xFB, 0xC7, 0x45, 0x36, 0xB9, 0xA9, 0x63, 0xB4, 0xF1, 0xC4, 0xCB, 0x73, 0x8B]
  else
    [0xCE, 0xA7, 0x40, 0x3D, 0x4D, 0x60, 0x6B, 0x6E, 0x07, 0x4E, 0xC5, 0xD3, 0xBA, 0xF3, 0x9D, 0x18]

/-- Primitives that deflate to stored blocks, and inflate these. -/
def sealingPrims : Prims :=
  { knownPrims with aes := zeroKeyAes256, inflater := Stored.blockInflater }

/-- An archive of one member, which has the body. -/
def archiveOfBody (body : Bytes) : Archive (Pieces IoError) :=
  memoryArchive (fun _ => 0)
    [⟨{ nameRaw := bytesOf "encrypted-package", size := body.length }, body, body⟩]

theorem memberForArchive_archiveOfBody {ω : Type} (body : Bytes) (missing : DecryptError) (s : Run ω) :
    ∃ name s', memberForArchive (archiveOfBody body) (ascii "encrypted-package") missing s =
      (.ok (0, name), s') := by
  have hname : memberMatchesPath (zipEntryName (bytesOf "encrypted-package"))
      (ascii "encrypted-package") = true := by decide +kernel
  have hopen : openMember (archiveOfBody body) 0 s =
      (.ok { rest := body, cuts := fun _ => 0 }, { s with opened := s.opened + 1 }) := rfl
  refine ⟨zipEntryName (bytesOf "encrypted-package"), { s with opened := s.opened + 1 }, ?_⟩
  have hdir : (archiveOfBody body).directory.zipIdx =
      [({ nameRaw := bytesOf "encrypted-package", size := body.length }, 0)] := rfl
  rw [memberForArchive, hdir, firstMember, Prog.bind_of_ok hopen]
  dsimp only
  rw [if_pos hname]
  rfl

/-- Three bytes are sealed, and opened again, one byte at a time. -/
theorem sealed_opens_three :
    ∃ (zip zip₁ zip₂ : MemberStore) (body : Bytes) (s : Run (Buffer IoError)),
      Encrypting.members sealingPrims ({ rest := [1, 2, 3], cuts := fun _ => 0 } : Pieces IoError) 3 none
        (List.replicate 32 0) (List.replicate 12 0) (List.replicate 16 0) .libreofficeDefault
        (⟨[]⟩ : MemberStore) = (.ok (), zip) ∧
      Writes zip₁ body zip₂ ∧
      wholesome sealingPrims (archiveOfBody body) 0
        (writtenRow 3 (List.replicate 12 0) (List.replicate 16 0) .libreofficeDefault) (ascii "pw") {}
        .streamed { out := ⟨[]⟩ } = (.ok (), s) ∧
      s.out.bytes = [1, 2, 3] := by
  let src : Pieces IoError := { rest := [1, 2, 3], cuts := fun _ => 0 }
  have hmembers : (Encrypting.members sealingPrims src 3 none (List.replicate 32 0)
      (List.replicate 12 0) (List.replicate 16 0) .libreofficeDefault
      (⟨[]⟩ : MemberStore)).1.toOption = some () := by decide +kernel
  have hseal := Except.eq_of_toOption hmembers
  obtain ⟨-, -, zip₁, zip₂, -, body, -, hw, -, hopens⟩ :=
    (@sealed_opens _ MemberStore _ _ sealingPrims Stored.format src [1, 2, 3]
      (List.replicate 32 0) (List.replicate 12 0) (List.replicate 16 0) 3 none .libreofficeDefault
      Stored.makes (Stored.blockInflater_undoes (by decide)) (Pieces.presents src rfl) rfl rfl).2 hseal
  obtain ⟨s, hrun, hdata⟩ := @hopens (Pieces IoError) (Buffer IoError) _ _ (archiveOfBody body) 0 0
    (writtenRow 3 (List.replicate 12 0) (List.replicate 16 0) .libreofficeDefault) (ascii "pw") {}
    .streamed (fun _ => True) { out := ⟨[]⟩ }
    { cipher := rfl, keyLen := rfl, iv := rfl, size := rfl, inLimit := by decide, inCeiling := .inl rfl }
    { size := rfl, opens := fun _ => ⟨_, rfl, Pieces.presents _ rfl⟩ }
    (fun _ => ⟨_, rfl⟩) (memberForArchive_archiveOfBody body _) Buffer.willing trivial
  exact ⟨_, zip₁, zip₂, body, s, hseal, hw, hrun, Buffer.writes hdata⟩

end OdfCrypto
