import OdfCrypto.DecryptRun.Wholesome
import OdfCrypto.Reencrypt
import OdfCrypto.Stream.Inflate.Through

/-!
# A new password for a wholesome package

What `reencrypt_to` makes of a wholesome package decrypts with the new password to what
the package decrypts to with the old one. The deflated stream is not made again: it is
sealed under the new key as it was, all of it, while it is inflated besides to check it.

* `writePackage_given`: what the crate's writer is given of the new package;
* `teeOut_sealed`: what goes through to it, and what that inflates to;
* `rewholesome_rekeys`: the stream that was sealed under the old key is sealed under the
  new one;
* `reencryptTo_rekeys`: so decrypting the new package does what decrypting the old does.
-/

namespace OdfCrypto

open ByteStream Text Deflate

/-! ### The new package -/

section

variable {ω ζ : Type} [CrateOver ζ ω] {P : Prims} {given : ζ → List CrateMember}

theorem startMember_eq_ok {name : Str} {method : CompressionMethod} {large : Bool} {s s' : Run ζ}
    (h : startMember name method large s = (.ok (), s')) :
    startFile s.out name method large = (.ok (), s'.out) := by
  obtain ⟨hresult, rfl⟩ := Prod.mk.inj h
  exact Prod.ext (Except.mapError_eq_ok.1 hresult) rfl

theorem writeOut_eq_ok {τ : Type} [Write τ IoError] {bs : Bytes} {s s' : Run τ}
    (h : writeOut bs s = (.ok (), s')) : Writes s.out bs s'.out := by
  obtain ⟨hresult, rfl⟩ := Prod.mk.inj h
  exact writeAll_writes (writePiece_eq_ok.1 (Prod.ext hresult rfl))

/-- What was sealed is what the payload wrote, encrypted, and its tag. -/
theorem sealed_writes {α : Type} {key iv : Bytes} {a : α}
    {payload : Reencrypt (GcmEncryptWriter P ζ) α} {s s' : Run ζ}
    (h : sealed P (.absorbed P key iv [] 0) payload s = (.ok a, s')) :
    ∃ s₁, payload (s.withOut ⟨s.out, .absorbed P key iv [] 0⟩) = (.ok a, s₁) ∧
      ∀ {stream}, Writes (⟨s.out, .absorbed P key iv [] 0⟩ : GcmEncryptWriter P ζ) stream s₁.out →
        Writes s.out (sealedCode P key iv stream) s'.out := by
  unfold sealed at h
  rcases hx : payload (s.withOut ⟨s.out, .absorbed P key iv [] 0⟩) with ⟨e | b, s₁⟩ <;> rw [hx] at h
  · cases h
  dsimp only at h
  rcases ht : s₁.out.finish with ⟨e | u, zip⟩ <;> rw [ht] at h <;> cases h
  refine ⟨s₁, rfl, fun {stream} hw => ?_⟩
  have hnone : (.absorbed P key iv [] 0 : GcmStream) = .absorbed P key iv [] ([] : Bytes).length := rfl
  obtain ⟨hct, hgcm⟩ := GcmEncryptWriter.writes hnone hw
  rw [List.nil_append] at hgcm
  rw [GcmEncryptWriter.finish, hgcm, GcmStream.tag_eq] at ht
  exact hct.trans (writeAll_writes ht)

/-- A wholesome package that was written has been given to the crate's writer: its payload
    sealed, whatever it has written, and with its size in the manifest. -/
theorem writePackage_given (hk : CrateKeeps given) {random : Random} {new : Str}
    {params : Argon2Params} {mimetype : Option Str} {couldReach : ℕ}
    {payload : Reencrypt (GcmEncryptWriter P ζ) (ℕ × DecryptOutcome)} {outcome : DecryptOutcome}
    {s s' : Run ω}
    (h : writePackage P ζ random new params mimetype couldReach payload s = (.ok outcome, s')) :
    ∃ salt iv key, random.salt = .ok salt ∧ random.iv = .ok iv ∧
      deriveWriteKey P new salt params = .ok key ∧ GcmLens key iv ∧
      ∃ size s₁ s₂, s₁.opened = s.opened ∧ payload s₁ = (.ok (size, outcome), s₂) ∧ size < 2 ^ 63 ∧
        ∀ {stream}, Writes s₁.out stream s₂.out → ∃ zip zip',
          given zip = given (CrateOver.wrap s.out) ++ writtenMembers mimetype
            (sealedBody P key iv stream) (buildManifest size iv salt mimetype params) ∧
          finishArchive zip = (.ok (), zip') ∧ s'.out = CrateOver.unwrap zip' := by
  obtain ⟨salt, hsalt, h⟩ := Prog.lift_bind_eq_ok.1 h
  obtain ⟨iv, hiv, h⟩ := Prog.lift_bind_eq_ok.1 h
  obtain ⟨key, hkey, h⟩ := Prog.lift_bind_eq_ok.1 h
  rw [Except.mapError_eq_ok] at hsalt hiv hkey
  obtain ⟨s₀, hin, rfl⟩ := inOutput_eq_ok h
  obtain ⟨_, s₁, h₁, hin⟩ := Prog.bind_eq_ok.1 hin
  obtain ⟨_, s₂, h₂, hin⟩ := Prog.bind_eq_ok.1 hin
  obtain ⟨_, s₃, h₃, hin⟩ := Prog.bind_eq_ok.1 hin
  obtain ⟨_, s₄, h₄, hin⟩ := Prog.bind_eq_ok.1 hin
  rcases hg : GcmStream.new P key iv with - | gcm <;> rw [hg] at hin
  · cases hin
  obtain ⟨hlen, hlens, rfl⟩ := GcmStream.new_eq_some.1 hg
  obtain ⟨⟨size, outcome'⟩, s₅, hseal, hin⟩ := Prog.bind_eq_ok.1 hin
  obtain ⟨s₆, hp, hsealed⟩ := sealed_writes hseal
  rcases Prog.ite_eq_ok.1 hin with ⟨-, hin⟩ | ⟨hsize, hin⟩
  · cases hin
  obtain ⟨_, s₇, h₇, hin⟩ := Prog.bind_eq_ok.1 hin
  obtain ⟨_, s₈, h₈, hin⟩ := Prog.bind_eq_ok.1 hin
  obtain ⟨_, s₉, h₉, hin⟩ := Prog.bind_eq_ok.1 hin
  cases hin
  -- Writing members opens nothing.
  have hopened : s₄.opened = s.opened := by
    rw [(onOutput_untouched h₄).1, (onOutput_untouched h₃).1, (onOutput_untouched h₂).1,
      (onOutput_untouched h₁).1]
    rfl
  refine ⟨salt, iv, key, hsalt, hiv, hkey, ⟨hlen, hlens⟩, size, _, s₆, hopened, hp,
    Nat.not_le.1 hsize, fun {stream} hw => ⟨s₈.out, s₀.out, ?_, ?_, rfl⟩⟩
  · -- The three members in the order they are written.
    have hgiven₀ := hk.member (startMember_eq_ok h₁) (writeOut_eq_ok h₂)
    have hgiven₁ := hk.member (startMember_eq_ok h₃) ((writeOut_eq_ok h₄).trans (hsealed hw))
    have hgiven₂ := hk.member (startMember_eq_ok h₇) (writeOut_eq_ok h₈)
    rw [hgiven₂, hgiven₁, hgiven₀, List.append_assoc, List.append_assoc]
    rfl
  · obtain ⟨hresult, rfl⟩ := Prod.mk.inj h₉
    exact Prod.ext (Except.mapError_eq_ok.1 hresult) rfl

end

/-! ### What goes through -/

section

variable {ρ σ τ : Type} [Read ρ IoError] [Read σ IoError] [Write τ IoError] {P : Prims}
  {row : EntryEncryption} {index expected : ℕ} {limits : DecryptLimits}

theorem Tee.through : Through (Tee.src : Tee σ τ → σ) where
  ok h := (Tee.next_ok h).1
  retry h hi := (Tee.next_error h hi).1

/-- What was copied of a plaintext is all of it; and it inflates to what was announced. -/
theorem teeOut_sealed {plain : GcmDecryptReader P ρ} {stream : Bytes}
    {result : ℕ × DecryptOutcome} {s s' : Run τ} (hp : Presents plain stream none)
    (h : teeOut P row index expected limits plain s = (.ok result, s')) :
    result = (expected, ⟨.verified⟩) ∧ Writes s.out stream s'.out ∧ ∃ data used,
      P.inflater.EndsAt chunk inflateWindow stream false used data ∧ data.length = expected ∧
        expected ≤ limits.maxOutputBytes := by
  obtain ⟨rfl, check, tee, hc, ht, hout⟩ := teeOut_ok P h
  rw [hout]
  obtain ⟨bs, check₁, hr, hend⟩ := discard_ok hc
  obtain ⟨ct, htee⟩ := reads_deflated hr hend
  obtain ⟨cs, tee₁, hrest, hend'⟩ := discard_ok ht
  refine ⟨rfl, ?_, ?_⟩
  · -- all of the plaintext was read through the copy, up to a read of nothing
    have hall := htee.trans hrest
    obtain rfl := hp.eq_of_end (Tee.reads hall).1 (Tee.next_ok hend').1 (by decide)
    have hw := (Tee.reads (hall.trans (.single hend'))).2
    rwa [List.append_nil] at hw
  · -- what was inflated through the copy is what the plaintext inflates to
    have hview : Through fun r :
        InflateReader P.inflater (Tee (GcmDecryptReader P ρ) τ) (Sink IoError) =>
        r.seen Tee.src limits.maxOutputBytes := InflateReader.through Tee.through
    have hseen : (InflateReader.new P.inflater (⟨plain, s.out⟩ : Tee (GcmDecryptReader P ρ) τ) expected
        limits.maxOutputBytes).seen Tee.src limits.maxOutputBytes =
          .new P.inflater plain expected limits.maxOutputBytes := InflateReader.seen_withTap le_rfl
    have hreads := hview.reads (Metered.reads hr).1
    rw [hseen] at hreads
    have hends : InflateReader.ReadsToEnd
        (InflateReader.new P.inflater plain expected limits.maxOutputBytes) bs _ :=
      ⟨_, chunk, hreads, by decide, hview.ok (Metered.next_ok hend).1⟩
    obtain ⟨hsize, hcap, used, he, -⟩ := hends.endsAt hp
    exact ⟨bs, used, he, hsize, hcap⟩

end

/-! ### Changing the password -/

section

variable {ρ ω ζ : Type} [Read ρ IoError] [CrateOver ζ ω] {P : Prims} {p : Package} {archive : Archive ρ}
  {cls : Classification} {random : Random} {old new : Str} {limits : DecryptLimits}
  {params : Argon2Params} {mimetype : Option Str} {outcome : DecryptOutcome}
  {given : ζ → List CrateMember} {salt iv : Bytes}

/-- What was sealed in a package under the old key has been sealed in another under the
    new one, just as it was. -/
structure Package.Rekeys (P : Prims) (p : Package) (cls : Classification) (old new : Str)
    (limits : DecryptLimits) (params : Argon2Params) (salt iv data stream key : Bytes) : Prop where
  opens : ∃ rowIndex row index oldKey, wholesomeRow cls = .ok (rowIndex, row) ∧
    p.OpensBy P row old limits .streamed data index oldKey stream
  derived : deriveWriteKey P new salt params = .ok key
  lens : GcmLens key iv
  size : data.length < 2 ^ 63

/-- The stream of a wholesome package is sealed anew, all of it, with the length of what
    it inflates to. -/
theorem rewholesome_rekeys (h : archive.Holds p) (hk : CrateKeeps given) {s s' : Run ω}
    (hw : rewholesome P archive cls ζ random old new limits params mimetype s = (.ok outcome, s')) :
    outcome = ⟨.verified⟩ ∧ ∃ salt iv key data stream, random.salt = .ok salt ∧
      random.iv = .ok iv ∧ p.Rekeys P cls old new limits params salt iv data stream key ∧
      ∃ zip zip', given zip = given (CrateOver.wrap s.out) ++ writtenMembers mimetype
          (sealedBody P key iv stream) (buildManifest data.length iv salt mimetype params) ∧
        finishArchive zip = (.ok (), zip') ∧ s'.out = CrateOver.unwrap zip' := by
  obtain ⟨⟨rowIndex, row⟩, hrow, hw⟩ := Prog.lift_bind_eq_ok.1 hw
  obtain ⟨expected, hexpected, hw⟩ := Prog.lift_bind_eq_ok.1 hw
  obtain ⟨⟨index, name⟩, s₁, hfound, hw⟩ := Prog.bind_eq_ok.1 hw
  obtain ⟨⟨len, head⟩, s₂, hshape, hw⟩ := Prog.bind_eq_ok.1 hw
  obtain ⟨_, hscreen, hw⟩ := Prog.lift_bind_eq_ok.1 hw
  obtain ⟨_, s₃, hrec, hw⟩ := Prog.bind_eq_ok.1 hw
  obtain ⟨_, s₄, hrec', hw⟩ := Prog.bind_eq_ok.1 hw
  obtain ⟨oldKey, s₅, hkey, hw⟩ := Prog.bind_eq_ok.1 hw
  rw [Except.mapError_eq_ok] at hrow hexpected hscreen
  rw [ofDecrypt, Prog.mapError_eq_ok] at hfound hshape hkey
  obtain ⟨stream, hsealed, rfl⟩ := gcmKey_sealed h hfound hshape hscreen hkey
  obtain ⟨hlens, -⟩ := hsealed.key.isGood
  -- Nothing was written until the key was found.
  have hout : s₅.out = s.out := by
    rw [(gcmKey_keeps P archive index row _ old limits).of_ok hkey,
      (record_keeps Run.out_logged _).of_ok hrec', (record_keeps Run.out_logged _).of_ok hrec,
      (memberShape_keeps Run.out_reopened archive index).of_ok hshape,
      (memberForArchive_keeps Run.out_reopened archive _ _).of_ok hfound]
  obtain ⟨salt, iv, key, hsalt, hiv, hderived, hnew, size, s₆, s₇, -, hpay, hsize, hgiven⟩ :=
    writePackage_given hk hw
  obtain ⟨r, s₈, ho, hpay⟩ := Prog.bind_eq_ok.1 hpay
  rw [ofDecrypt, Prog.mapError_eq_ok] at ho
  rw [GcmStream.new_eq_some.2 ⟨hlens.1, hlens.2, rfl⟩] at hpay
  -- The plaintext of the sealed member is copied to the new one and inflated on the
  -- way.
  obtain ⟨hresult, hwrites, data, used, hends, rfl, hcap⟩ := teeOut_sealed (hsealed.plain h ho) hpay
  obtain ⟨rfl, rfl⟩ := Prod.mk.inj hresult
  rw [(openAfterIv_keeps Run.out_reopened archive index).of_ok ho] at hwrites
  have hzip := hgiven hwrites
  rw [hout] at hzip
  refine ⟨rfl, salt, iv, key, data, stream, hsalt, hiv, ?_, hzip⟩
  exact {
    opens := ⟨rowIndex, row, index, oldKey, hrow, { hsealed with
      inflates := ⟨used, hends⟩
      declared := hexpected
      inLimit := hcap }⟩
    derived := hderived
    lens := hnew
    size := hsize }

theorem declaredSize_eq_ok {size : ℤ} {n : ℕ} (h : declaredSize size = .ok n) : size = n := by
  unfold declaredSize at h
  split at h
  · cases h
  · cases h
    omega

omit [CrateOver ζ ω] in
/-- The `mimetype` member comes before what the classifier found. -/
theorem resolveMimetype_of_member {k : ℕ} {raw : Bytes} {found : Option Str}
    (h : readInputMimetypeMember archive k = .ok (some raw)) :
    resolveMimetype archive k found = (validateMediaType raw).map some := by
  rw [resolveMimetype, h]
  rfl

/-- A wholesome package whose password was changed decrypts with the old password to what
    the new package decrypts to with the new one: byte for byte, however each is read,
    and just by the limits that admit the size and the parameters of the new key (as long
    as its manifest is not longer than classification reads). -/
theorem reencryptTo_rekeys {ρ' ω' : Type} [Read ρ' IoError] [Write ω' IoError] [Flush ω' IoError]
    [Flush ζ IoError] {source : Source ρ} {writer : ω} {s : Run ω} {reads : ω → Source ρ'}
    (h : source.Has p) (hargon : Argon2Fills P) (hk : CrateKeeps given)
    (hreads : CrateReadsBack given reads) (hfresh : given (CrateOver.wrap writer) = [])
    (hrun : reencryptTo P ζ source writer random old new limits params = (.ok outcome, s))
    (hmime : ResolvedFrom P source cls archive mimetype) (hmode : cls.mode = .wholesome)
    (hsalt : random.salt = .ok salt) (hiv : random.iv = .ok iv) {I : ω' → Prop} (hI : Willing I)
    {out : ω'} (hw : I out) :
    outcome = ⟨.verified⟩ ∧ ∃ data,
      (∃ rowIndex row, wholesomeRow cls = .ok (rowIndex, row) ∧ row.size = data.length) ∧
      (∃ s', decryptWithLimitsTo P source out old limits = (.ok ⟨.verified⟩, s') ∧
        Writes out data s'.out) ∧
      (ReadsManifest P mimetype iv salt data.length params → ∀ limits' : DecryptLimits,
        ((∃ outcome' s', decryptWithLimitsTo P (reads s.out) out new limits' = (.ok outcome', s')) ↔
          (buildManifest data.length iv salt mimetype params).length ≤ manifestReadCap ∧
            limits'.Admits params data.length) ∧
        ∀ outcome' s', decryptWithLimitsTo P (reads s.out) out new limits' = (.ok outcome', s') →
          outcome' = ⟨.verified⟩ ∧ Writes out data s'.out) := by
  obtain ⟨hold, hnew⟩ : old.isEmpty = false ∧ new.isEmpty = false := by
    unfold reencryptTo at hrun
    split at hrun
    · cases hrun
    · split at hrun
      · cases hrun
      · next hold hnew => exact ⟨Bool.eq_false_iff.2 hold, Bool.eq_false_iff.2 hnew⟩
  -- The run read the same classification, archive and media type as the hypotheses
  -- name.
  obtain ⟨cls', archive', mimetype', hcls', hscreen, -, hopen', hmime', hcases⟩ :=
    reencryptRun_ok (reencryptTo_ok hrun)
  obtain rfl : cls = cls' := Except.ok.inj (hmime.classified.symm.trans hcls')
  obtain rfl : archive = archive' := Except.ok.inj (hmime.opened.symm.trans hopen')
  obtain rfl : mimetype = mimetype' := Except.ok.inj (hmime.mimetype.symm.trans hmime')
  obtain ⟨-, hrewholesome⟩ := hcases.resolve_right fun hne => hne.1 hmode
  obtain ⟨archive₁, hopen₁, hholds⟩ := h.opens 1
  obtain rfl : archive = archive₁ := Except.ok.inj (hmime.opened.symm.trans hopen₁)
  -- One run of re-encryption opens the old package to `data` and writes the new one
  -- over it.
  obtain ⟨rfl, salt', iv', key, data, stream, hsalt', hiv', hrekeys, zip, zip', hgiven, hfinish, hout⟩ :=
    rewholesome_rekeys hholds hk hrewholesome
  obtain rfl : salt = salt' := Except.ok.inj (hsalt.symm.trans hsalt')
  obtain rfl : iv = iv' := Except.ok.inj (hiv.symm.trans hiv')
  obtain ⟨rowIndex, row, index, oldKey, hrow, hopens⟩ := hrekeys.opens
  have hdecrypts : p.Decrypts P cls old limits .streamed data :=
    ⟨hold, hscreen, rowIndex, row, hrow, index, oldKey, stream, hopens⟩
  obtain ⟨s₁, hsource, hwrites⟩ := hdecrypts.decryptsTo h hmime.classified hmode hI hw
  have hsize : row.size = data.length := declaredSize_eq_ok hopens.declared
  refine ⟨rfl, data, ⟨rowIndex, row, hrow, hsize⟩, ⟨s₁, hsource, hwrites⟩, fun hxml limits' => ?_⟩
  -- What the crate reads back of the output is the package as it was written.
  have hwritten : SourceOfWritten (reads s.out) mimetype (sealedBody P key iv stream) iv salt data.length
      params := by
    refine ⟨hreads.latched _, fun k => ?_⟩
    obtain ⟨archive', hopen', hmembers⟩ := hreads.opens hfinish k
    have hfresh' : given (CrateOver.wrap (Run.out { out := writer, opened := 0 + 1 })) = [] := hfresh
    rw [hgiven, hfresh', List.nil_append] at hmembers
    rw [hout]
    exact ⟨archive', hopen', hmembers⟩
  obtain ⟨used, hends⟩ := hopens.inflates
  have honly {outcome' : DecryptOutcome} {s' : Run ω'}
      (hd : decryptWithLimitsTo P (reads s.out) out new limits' = (.ok outcome', s')) :
      (buildManifest data.length iv salt mimetype params).length ≤ manifestReadCap ∧
        limits'.Admits params data.length :=
    written_decrypts_only hwritten hxml hrekeys.size hrekeys.derived hd
  have hback (hcap : (buildManifest data.length iv salt mimetype params).length ≤ manifestReadCap)
      (hadmits : limits'.Admits params data.length) : ∃ s',
      decryptWithLimitsTo P (reads s.out) out new limits' = (.ok ⟨.verified⟩, s') ∧
        Writes out data s'.out :=
    written_decrypts hends hargon hwritten hxml hcap hrekeys.size hrekeys.lens.1 hrekeys.derived hnew
      hadmits hI hw
  refine ⟨⟨?_, ?_⟩, fun outcome' s' hd => ?_⟩
  · rintro ⟨outcome', s', hd⟩
    exact honly hd
  · rintro ⟨hcap, hadmits⟩
    obtain ⟨s', hd, -⟩ := hback hcap hadmits
    exact ⟨_, s', hd⟩
  · obtain ⟨hcap, hadmits⟩ := honly hd
    obtain ⟨s'', hd', hwrites'⟩ := hback hcap hadmits
    obtain ⟨hresult, rfl⟩ := Prod.mk.inj (hd'.symm.trans hd)
    exact ⟨(Except.ok.inj hresult).symm, hwrites'⟩

end

/-- SHA-256 of `new`. -/
def sha256OfNew : Bytes :=
  Gcm.bigEndian 32 0x11507A0E2F5E69D5DFA40A62A1BD7B6EE57E6BCD85C67C9B8431B36FFF21C437

/-- What Argon2id makes of it with the least parameters and a salt of zeros. -/
def keyOfNew : Bytes :=
  Gcm.bigEndian 32 0xC845ABD338139B6D07F4393701CE17E3C6DD127EC91DAE6F48AAE9F545AA7948

/-- AES under that key, of the numbers from zero on. -/
def blocksOfNew : List ℕ :=
  [0xBC6C837790430D8217A040B24ED3C339, 0x575840CAE9B97EA6CDB232C9E6AA9B3F,
   0x2B322DA0E33C8FF23782B64899F092D0]

/-- Primitives that know both passwords. -/
def rekeyPrims : Prims :=
  { threePrims with
    sha256 := fun bs => if bs = bytesOf "new" then sha256OfNew else threePrims.sha256 bs
    argon2id := fun sk salt t m p len =>
      if (sk, salt, t, m, p, len) = (sha256OfNew, List.replicate 16 0, 1, 8, 1, 32) then .ok keyOfNew
      else threePrims.argon2id sk salt t m p len
    aes := fun key block =>
      if key = keyOfNew then Gcm.bigEndian 16 (blocksOfNew.getD (block.getLastD 0).toNat 0)
      else threePrims.aes key block }

/-- The change of the password of the package of three bytes succeeds. -/
theorem rekeyed_three : ∃ s, reencryptTo rekeyPrims KeptMembers (threeSource fun _ => chunk)
    ({} : KeptMembers) zeroRandom (ascii "pw") (ascii "new") {} leastParams = (.ok ⟨.verified⟩, s) := by
  have hok : (reencryptTo rekeyPrims KeptMembers (threeSource fun _ => chunk) ({} : KeptMembers)
      zeroRandom (ascii "pw") (ascii "new") {} leastParams).1.toOption = some ⟨.verified⟩ := by
    decide +kernel
  exact ⟨_, Except.eq_of_toOption hok⟩

/-- The password of the package of three bytes is changed from `pw` to `new`. -/
theorem reencryptTo_rekeys_three : ∃ (s : Run KeptMembers) (s₁ s₂ : Run (Buffer IoError)),
    reencryptTo rekeyPrims KeptMembers (threeSource fun _ => chunk) ({} : KeptMembers) zeroRandom
      (ascii "pw") (ascii "new") {} leastParams = (.ok ⟨.verified⟩, s) ∧
    decryptWithLimitsTo rekeyPrims (threeSource fun _ => chunk) (⟨[]⟩ : Buffer IoError) (ascii "pw") {} =
      (.ok ⟨.verified⟩, s₁) ∧
    decryptWithLimitsTo rekeyPrims s.out.source (⟨[]⟩ : Buffer IoError) (ascii "new") {} =
      (.ok ⟨.verified⟩, s₂) ∧ s₂.out.bytes = s₁.out.bytes := by
  obtain ⟨s, hrun⟩ := rekeyed_three
  obtain ⟨cls, hcls, hmode, -, hrows, -⟩ := threePackage_decrypts fun _ => chunk
  have hresolved : ResolvedFrom rekeyPrims (threeSource fun _ => chunk) cls
      (memoryArchive (fun _ => chunk) (threeKept.members.map KeptMembers.storedOf))
      (some (ascii "a/b")) := by
    refine ⟨hcls, rfl, ?_⟩
    have hmember : (readInputMimetypeMember (memoryArchive (fun _ => chunk)
        (threeKept.members.map KeptMembers.storedOf)) 0).toOption = some (some (bytesOf "a/b")) := by
      decide +kernel
    exact (resolveMimetype_of_member (Except.toOption_eq_some.1 hmember)).trans rfl
  have hfills : Argon2Fills rekeyPrims := by
    intro sk salt t m p len key hkey
    simp only [rekeyPrims, threePrims, pwPrims] at hkey
    split at hkey
    · next htuple =>
      cases hkey
      simp only [Prod.mk.injEq] at htuple
      rw [htuple.2.2.2.2.2]
      rfl
    · split at hkey
      · next htuple =>
        cases hkey
        simp only [Prod.mk.injEq] at htuple
        rw [htuple.2.2.2.2.2]
        rfl
      · cases hkey
  have hxml : ReadsManifest rekeyPrims (some (ascii "a/b")) (List.replicate 12 0)
      (List.replicate 16 0) 3 leastParams := by
    unfold ReadsManifest
    decide +kernel
  obtain ⟨-, data, ⟨rowIndex, row, hrow, hsize⟩, ⟨s₁, hold, hwrites⟩, hnew⟩ := reencryptTo_rekeys
    (threeSource_has fun _ => chunk) hfills KeptMembers.keeps KeptMembers.readsBack rfl hrun hresolved
    hmode rfl rfl (Buffer.willing (ε := IoError))
    (show (fun _ : Buffer IoError => True) ⟨[]⟩ from trivial)
  have hthree : data.length = 3 := by
    rw [wholesomeRow, hrows, hmode] at hrow
    cases hrow
    exact Int.ofNat.inj hsize.symm
  obtain ⟨hiff, hsame⟩ := hnew (hthree.symm ▸ hxml) {}
  have hcap : (buildManifest data.length (List.replicate 12 0) (List.replicate 16 0)
      (some (ascii "a/b")) leastParams).length ≤ manifestReadCap := by
    rw [hthree]
    decide +kernel
  obtain ⟨outcome, s₂, hdec⟩ :=
    hiff.2 ⟨hcap, by rw [hthree]; decide, by decide, by decide, by decide⟩
  obtain ⟨rfl, hwrites₂⟩ := hsame _ _ hdec
  have hbytes : s₂.out.bytes = [] ++ data := Buffer.writes hwrites₂
  exact ⟨_, s₁, s₂, hrun, hold, hdec, hbytes.trans (Buffer.writes hwrites).symm⟩

end OdfCrypto
