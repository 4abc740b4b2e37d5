import OdfCrypto.DecryptEntries.Names
import OdfCrypto.DecryptLog.Passwords
import OdfCrypto.DecryptRun.Meaning
import OdfCrypto.Stream.Legacy.Presents

/-!
# What members decipher to

The members of a package that reads the same every time, as the rebuild takes them to its
sink: an encrypted one as what its ciphertext deciphers to under a key that it accepted,
by whichever of the three ciphers its row names, and a deflated one as it is stored.

* `Deciphers`: the plaintext of a member under a key;
* `gcmAccepts_deciphers`, `gated_passing`: a key that was accepted deciphers;
* `EncryptedDeflated.copy_presented`, `PlainDeflated.copy_presented`: what is copied of
  either source, with the CRC and the length of what it inflates to.
-/

namespace OdfCrypto

open ByteStream Text Crc32 BlockModes

/-! ### To the end of a reader -/

section

variable {σ : Type} [Read σ IoError] {r r' : σ}

/-- The CRC and the length of what was read to the end. -/
theorem crcToEnd_crc32 {a : UInt32 × ℕ} (h : crcToEnd r = (.ok a, r')) :
    ∃ bs r₁, Reads r bs r₁ ∧ read r₁ chunk = (.ok [], r') ∧ a = (crc32 bs, bs.length) := by
  unfold crcToEnd at h
  split at h
  · next hasher total r₁ he =>
    cases h
    obtain ⟨bs, r₁, hr, hend, hhash⟩ := eachPiece_ok
      (fun (c : Hasher × ℕ) bs c' => ∀ done, c = (hashed done, done.length) →
        c' = (hashed (done ++ bs), (done ++ bs).length))
      (fun c done hc => by rw [List.append_nil]; exact hc)
      (fun {c c₁ c₂ bs piece} hR hf done hc => by
        cases hf
        rw [hR done hc, hashed_update, List.append_assoc, ← List.length_append, List.append_assoc]) he
    obtain ⟨rfl, rfl⟩ := Prod.mk.inj (hhash [] rfl)
    exact ⟨bs, r₁, hr, hend, rfl⟩
  · cases h

/-- What was drained ended without an error. -/
theorem drain_presents {ω : Type} {bs : Bytes} {e : Option IoError} {s s' : Run ω}
    (hp : Presents r bs e) (h : drain r s = (.ok r', s')) : e = none := by
  obtain ⟨⟨rest, r₁, hr, hend⟩, -⟩ := drain_eq_ok h
  exact (hp.all_of_end hr hend (by decide)).2

end

/-- A member that opens as it is stored presents what the package has for it. -/
theorem Archive.Holds.openedRaw {ρ : Type} [Read ρ IoError] {archive : Archive ρ} {p : Package}
    (h : archive.Holds p) {k index : ℕ} {raw : ρ} (ho : archive.byIndexRaw k index = .ok raw) :
    ∃ bs e, p.raw index = .ok (bs, e) ∧ Presents raw bs e := by
  have hgives := h.raw k index
  rcases hc : p.raw index with err | ⟨bs, e⟩ <;> rw [hc] at hgives
  · cases ho.symm.trans (show archive.byIndexRaw k index = .error err from hgives)
  · obtain ⟨raw', ho', hp⟩ := hgives
    obtain rfl := Except.ok.inj (ho.symm.trans ho')
    exact ⟨bs, e, rfl, hp⟩

/-! ### Sources of deflated data -/

section

variable {ρ σ ω : Type} [Read ρ IoError] [Read σ IoError] [Write ω IoError] {P : Prims} {w w' : ω}
  {crc : UInt32} {n : ℕ}

/-- What is copied of a member that is decrypted: as much of the deflated stream as the
    inflater used, with the CRC and the length of what this inflates to. -/
theorem EncryptedDeflated.copy_presented {src src' : EncryptedDeflated P σ} {plain : Bytes}
    {e : Option IoError} (hp : Presents src.deflated plain e)
    (h : src.copy w = (.ok (crc, n), src', w')) : ∃ data used,
      P.inflater.EndsAt chunk inflateWindow plain e.isSome used data ∧ data.length = src.expected ∧
        src.expected ≤ src.limit ∧ crc = crc32 data ∧ n = data.length ∧
        Writes w (plain.take used) w' ∧ ∃ rest, Presents src'.deflated rest e := by
  rw [copy] at h
  dsimp only at h
  rcases hc : crcToEnd (⟨.withTap P.inflater src.deflated src.expected src.limit ⟨w, none⟩, []⟩ :
    Inflating P σ (LatchedWrite ω)) with ⟨result, inflate⟩
  rw [hc] at h
  dsimp only at h
  split at h
  · cases h
  · next hfailed =>
    cases h
    obtain ⟨data, inflate₁, hr, hend, ha⟩ := crcToEnd_crc32 hc
    obtain ⟨rfl, rfl⟩ := Prod.mk.inj ha
    obtain ⟨hall, -⟩ := Metered.reads (hr.trans (.single hend))
    have hends : InflateReader.ReadsToEnd (.withTap P.inflater src.deflated src.expected src.limit
        (⟨w, none⟩ : LatchedWrite ω)) data inflate.inner :=
      ⟨inflate₁.inner, chunk, (Metered.reads hr).1, by decide, (Metered.next_ok hend).1⟩
    obtain ⟨hsize, hcap, used, he, hw⟩ := hends.endsAt hp
    obtain ⟨taken, hread⟩ := InflateReader.reads_src hall
    obtain ⟨rest, -, hrest⟩ := hp.reads hread
    exact ⟨data, used, he, hsize, hcap, rfl, rfl, (LatchedWrite.writes hw hfailed).2, rest, hrest⟩

/-- What is copied of a member that is deflated: all of it as it is stored, with the CRC
    and the length of its content. -/
theorem PlainDeflated.copy_presented {p : Package} {src src' : PlainDeflated ρ}
    (hholds : src.archive.Holds p) (h : src.copy w = (.ok (crc, n), src', w')) : ∃ code data,
      p.raw src.index = .ok (code, none) ∧ p.content src.index = .ok (data, none) ∧
        crc = crc32 data ∧ n = data.length ∧ Writes w code w' := by
  unfold PlainDeflated.copy at h
  split at h
  · cases h
  · next raw src₁ hraw =>
    split at h
    · cases h
    · next he =>
      split at h
      · cases h
      · next file src₂ hfile =>
        -- what is read back is opened after what is copied
        have hopenRaw : src.archive.byIndexRaw src.opened src.index = .ok raw :=
          Except.mapError_eq_ok.1 (congrArg Prod.fst hraw)
        have hsrc₁ : ({ src with opened := src.opened + 1 } : PlainDeflated ρ) = src₁ :=
          congrArg Prod.snd hraw
        subst hsrc₁
        have hopen : src.archive.byIndex (src.opened + 1) src.index = .ok file :=
          Except.mapError_eq_ok.1 (congrArg Prod.fst hfile)
        obtain ⟨hcrc, h⟩ := Prod.mk.inj h
        obtain ⟨-, rfl⟩ := Prod.mk.inj h
        obtain ⟨code, raw₁, hr, hend, hw⟩ := eachPiece_writePiece_ok he
        obtain ⟨code', e, hcode, hp⟩ := hholds.openedRaw hopenRaw
        obtain ⟨rfl, rfl⟩ : code' = code ∧ e = none := hp.all_of_end hr hend (by decide)
        obtain ⟨data, file₁, hr', hend', ha⟩ :=
          crcToEnd_crc32 (Prod.ext hcrc rfl : crcToEnd file = (.ok (crc, n), _))
        obtain ⟨rfl, rfl⟩ := Prod.mk.inj ha
        obtain ⟨data', e', hdata, hp'⟩ := hholds.opened hopen
        obtain ⟨rfl, rfl⟩ : data' = data ∧ e' = none := hp'.all_of_end hr' hend' (by decide)
        exact ⟨_, _, hcode, hdata, rfl, rfl, hw⟩

end

/-! ### Keys and plaintexts -/

/-- A key that a password stands for. -/
def StandsFor (P : Prims) (row : EntryEncryption) (password : Str) (limits : DecryptLimits)
    (key : Bytes) : Prop :=
  ∃ sk ∈ startKeys P row password, rowKey P row limits sk = .ok key

/-- What comes of the body of a member that is not AES-GCM, with the error after it. -/
def legacyPlain (P : Prims) (row : EntryEncryption) (key body : Bytes) : Content :=
  match row.cipher with
  | .aesCbcW3c => CbcDecryptReader.outcome P key row.iv body
  | _ => ((cfbDecrypt (P.blowfish key) blowfishIvLen { mask := P.blowfish key row.iv } body).1, none)

/-- A body deciphers to a plaintext under a key: it is what the plaintext was sealed to,
    after as many bytes as an IV has, or what comes of it has the checksum of its row. -/
inductive Deciphers (P : Prims) (row : EntryEncryption) (key body plain : Bytes) : Prop
  | sealed (head : Bytes) (cipher : row.cipher = .aesGcmW3c) (lens : GcmLens key row.iv)
      (head_length : head.length = aesGcmIvLen) (body_eq : body = head ++ sealedCode P key row.iv plain)
  | gated (cipher : row.cipher ≠ .aesGcmW3c) (plain_eq : legacyPlain P row key body = (plain, none))
      (checksum : ChecksumGate.matches_ P (plain.take checksumWindow) row.checksum = true)

section

variable {P : Prims} {row : EntryEncryption} {key body plain plain' : Bytes} {limits : DecryptLimits}

/-- A body deciphers to one plaintext under a key. -/
theorem Deciphers.unique (h : Deciphers P row key body plain) (h' : Deciphers P row key body plain') :
    plain = plain' := by
  rcases h with ⟨head, hc, -, hlen, hbody⟩ | ⟨hc, hplain, -⟩
  · rcases h' with ⟨head', -, -, hlen', hbody'⟩ | ⟨hc', -, -⟩
    · have hcode := List.append_inj_right (hbody.symm.trans hbody') (hlen.trans hlen'.symm)
      have hsame : sealedBody P key row.iv plain = sealedBody P key row.iv plain' := by
        rw [sealedBody, sealedBody, hcode]
      exact sealedBody_inj hsame
    · exact absurd hc hc'
  · rcases h' with ⟨-, hc', -, -, -⟩ | ⟨-, hplain', -⟩
    · exact absurd hc' hc
    · exact (Prod.mk.inj (hplain.symm.trans hplain')).1

/-- What is left of the output does not matter to a key. -/
theorem rowKey_budget (budget : ℕ) (sk : Bytes) :
    rowKey P row { limits with maxOutputBytes := budget } sk = rowKey P row limits sk := by
  unfold rowKey deriveKey
  rcases row.kdf with ⟨iterations, salt⟩ | ⟨t, m, p, salt⟩ | - <;> rfl

variable {ρ ω : Type} [Read ρ IoError] {archive : Archive ρ} {p : Package} {index len : ℕ}
  {password : Str} {e : Option IoError} {s s' : Run ω}

/-- A key that is found on the ladder, and logged, is one that the password stands for. -/
theorem findKey_standsFor {accepts : Bytes → Decrypt ω Bool}
    (haccepts : ∀ key, Prog.Within Untouched (accepts key)) {event : Bytes → Event}
    (h : (do
      let key ← findKey P row password limits accepts
      record (event key)
      return key : Decrypt ω Bytes) s = (.ok key, s')) :
    StandsFor P row password limits key ∧ ∃ s₁ s₂, accepts key s₁ = (.ok true, s₂) := by
  obtain ⟨found, s₂, hfind, h⟩ := Prog.bind_eq_ok.1 h
  cases h
  obtain ⟨sk, hsk, s₀, s₁, -, hd, -, ha⟩ := tryKeys_eq_ok P haccepts hfind
  exact ⟨⟨sk, hsk, rowKey_of_deriveKey hd⟩, s₁, _, ha⟩

/-! ### AES-GCM members -/

/-- A member that accepted a key is what some plaintext was sealed to under it, and every
    opening of it past its IV presents that plaintext, decrypted. -/
theorem gcmAccepts_deciphers (hholds : archive.Holds p) (hcipher : row.cipher = .aesGcmW3c)
    (h : gcmAccepts P archive index row len key s = (.ok true, s')) : ∃ body plain,
      p.content index = .ok (body, none) ∧ Deciphers P row key body plain ∧
        ∀ k r, PastIv archive index k r →
          Presents (GcmDecryptReader.new P r (.absorbed P key row.iv [] 0) (ctLen len)) plain none := by
  obtain ⟨body, hbody, hlen⟩ := gcmAccepts_content hholds h
  have hlens := gcmAccepts_lens h
  -- an opening past its IV presents what comes after as many bytes
  have hpast {k : ℕ} {r : ρ} (hr : PastIv archive index k r) :
      Presents r (body.drop aesGcmIvLen) none := by
    obtain ⟨file, head, ho, hread, hheadLen⟩ := hr
    obtain ⟨body', e, hc, hp⟩ := hholds.opened ho
    obtain ⟨rfl, rfl⟩ := Prod.mk.inj (Except.ok.inj (hbody.symm.trans hc))
    obtain ⟨rest, hcut, hp'⟩ := hp.reads (readFull_reads hread).1
    rwa [hcut, ← hheadLen, List.drop_left]
  obtain ⟨r, r₁, -, hr, hv, -⟩ := gcmAccepts_inv h
  obtain ⟨ct, tag, hreads, hct, htag, hiff⟩ := gcmVerify_ok hv
  obtain ⟨left, hcut, -⟩ := (hpast hr).reads hreads
  obtain rfl : left = [] := by
    have hlength := congrArg List.length hcut
    rw [List.length_drop, List.length_append, List.length_append, hlen, hct, htag] at hlength
    exact List.eq_nil_of_length_eq_zero (by omega)
  obtain rfl : Gcm.tag (P.aes key) row.iv ct = tag := hiff.1 rfl
  refine ⟨body, GcmDecryptReader.plainOf P key row.iv ct, hbody, .sealed (body.take aesGcmIvLen) hcipher
    hlens (by rw [List.length_take, hlen]; omega) ?_, ?_⟩
  · rw [sealedCode, GcmDecryptReader.plainOf, Gcm.ctr_ctr, ← List.append_nil (ct ++ _), ← hcut,
      List.take_append_drop]
  · intro k r hr
    have hp := hpast hr
    rw [hcut] at hp
    rw [← hct]
    exact GcmDecryptReader.presents hp

/-! ### Members with a checksum -/

variable {file : ρ} {gate : ChecksumGate P (LegacyReader P ρ)}

omit [Read ρ IoError] in
/-- A gate is built over a reader of the cipher, and is not verified yet. -/
theorem gated_eq_ok (hg : gated P file row key = .ok gate) :
    gate.checksum = row.checksum ∧ gate.verified = false ∧ gate.pos = 0 ∧
      ((∃ d, row.cipher = .aesCbcW3c ∧ CbcDecryptReader.new P file key row.iv = .ok d ∧
          gate.src = .cbc d) ∨
        row.cipher = .blowfishCfb8 ∧
          gate.src = .blowfish ⟨file, key, { mask := P.blowfish key row.iv }⟩) := by
  unfold gated at hg
  rcases hc : row.cipher with - | - | - <;> rw [hc] at hg
  · rcases hnew : BlowfishDecryptReader.new P file key row.iv with err | d <;>
      rw [hnew] at hg <;> cases hg
    refine ⟨rfl, rfl, rfl, .inr ⟨rfl, ?_⟩⟩
    unfold BlowfishDecryptReader.new at hnew
    split at hnew <;> cases hnew
    rfl
  · rcases hnew : CbcDecryptReader.new P file key row.iv with err | d <;> rw [hnew] at hg <;> cases hg
    exact ⟨rfl, rfl, rfl, .inl ⟨d, rfl, rfl, rfl⟩⟩
  · cases hg

section

variable (hD : ∀ key block, (P.aesInverse key block).length = aesBlockLen)

include hD

theorem gated_presents (hg : gated P file row key = .ok gate) (hs : Presents file body none) :
    Presents gate.src (legacyPlain P row key body).1 (legacyPlain P row key body).2 := by
  obtain ⟨-, -, -, ⟨d, hc, hnew, hsrc⟩ | ⟨hc, hsrc⟩⟩ := gated_eq_ok hg
  · rw [hsrc, legacyPlain, hc]
    exact LegacyReader.presents_cbc (CbcDecryptReader.presents_whole hnew (hD key) hs).1
  · rw [hsrc, legacyPlain, hc]
    exact LegacyReader.presents_blowfish (BlowfishDecryptReader.presents hs)

/-- Where a gate comes to its end, the member does. -/
theorem gated_ends (hg : gated P file row key = .ok gate) (hs : Presents file body e) {bs : Bytes}
    {g₁ g' : ChecksumGate P (LegacyReader P ρ)} (hr : Reads gate bs g₁)
    (hend : read g₁ chunk = (.ok [], g')) : e = none := by
  obtain ⟨cs, d₁, hcs, hd⟩ := ChecksumGate.src_ends hr hend (by decide)
  obtain ⟨-, -, -, ⟨d, hc, hnew, hsrc⟩ | ⟨hc, hsrc⟩⟩ := gated_eq_ok hg
  · rw [hsrc] at hcs
    have hcbc (c : CbcDecryptReader P ρ) (n : ℕ) : read (LegacyReader.cbc c) n =
        ((read c n).1, .cbc (read c n).2) := rfl
    obtain ⟨c, rfl, hreads⟩ := LegacyReader.reads_of hcbc hcs
    have hnil : (read c chunk).1 = .ok [] := congrArg Prod.fst hd
    have hlast : read c chunk = (.ok [], (read c chunk).2) := Prod.ext hnil rfl
    exact CbcDecryptReader.src_ends hD hnew hs hreads hlast (by decide)
  · rw [hsrc] at hcs
    have hblowfish (c : BlowfishDecryptReader P ρ) (n : ℕ) : read (LegacyReader.blowfish c) n =
        ((read c n).1, .blowfish (read c n).2) := rfl
    obtain ⟨c, rfl, hreads⟩ := LegacyReader.reads_of hblowfish hcs
    have hnil : (read c chunk).1 = .ok [] := congrArg Prod.fst hd
    have hlast : read c chunk = (.ok [], (read c chunk).2) := Prod.ext hnil rfl
    have hplain := BlowfishDecryptReader.presents (P := P)
      (d := ⟨file, key, { mask := P.blowfish key row.iv }⟩) hs
    exact (hplain.all_of_end hreads hlast (by decide)).2

/-- Every gate over a member whose checksum accepted the key lets the member through. -/
theorem gated_passing (hholds : archive.Holds p) {k : ℕ}
    (hpass : DigestPass P archive row index key k) (hbody : p.content index = .ok (body, none))
    (hg : gated P file row key = .ok gate) (hs : Presents file body none) :
    gate.Passing (legacyPlain P row key body).1 (legacyPlain P row key body).2 := by
  obtain ⟨file₁, gate₁, ho, hg₁, hv⟩ := hpass
  obtain ⟨body₁, e₁, hc, hs₁⟩ := hholds.opened ho
  obtain ⟨rfl, rfl⟩ := Prod.mk.inj (Except.ok.inj (hbody.symm.trans hc))
  obtain ⟨hsum₁, hver₁, hpos₁, -⟩ := gated_eq_ok hg₁
  obtain ⟨-, -, -, hlen, hm⟩ := ChecksumGate.Passing.of_verify hver₁ hpos₁ (gated_presents hD hg₁ hs₁) hv
  obtain ⟨hsum, hver, hpos, -⟩ := gated_eq_ok hg
  exact ⟨hver, hpos, gated_presents hD hg hs, hlen, by rwa [hsum, ← hsum₁]⟩

end

end

end OdfCrypto
