import OdfCrypto.DecryptRun.Wholesome
import OdfCrypto.Lib.Below
import OdfCrypto.Stream.Inflate.Through
import OdfCrypto.ZipStream.Through

/-!
# Higher limits

What the limits of a decryption do: they refuse. A decryption that succeeds under some
limits succeeds under higher ones, and is the same run. Each part of a decryption is
below the same part under higher limits; an inflater is seen through the view that
raises its limit.

* `DecryptLimits.AtMost`: no limit is higher than the other's;
* `perEntry_raised`, `wholesome_raised`: the two ways to decrypt;
* `decrypt_raised`: the entry points.
-/

namespace OdfCrypto

open ByteStream Text Crc32

/-- None of the limits is higher than the other's. -/
structure DecryptLimits.AtMost (limits limits' : DecryptLimits) : Prop where
  t : limits.argon2MaxT ≤ limits'.argon2MaxT
  mKib : limits.argon2MaxMKib ≤ limits'.argon2MaxMKib
  p : limits.argon2MaxP ≤ limits'.argon2MaxP
  iterations : limits.pbkdf2MaxIter ≤ limits'.pbkdf2MaxIter
  output : limits.maxOutputBytes ≤ limits'.maxOutputBytes

/-- The limits with less output left. -/
theorem DecryptLimits.AtMost.spend {limits limits' : DecryptLimits} (h : limits.AtMost limits')
    (n : ℕ) : ({ limits with maxOutputBytes := limits.maxOutputBytes - n } : DecryptLimits).AtMost
      { limits' with maxOutputBytes := limits'.maxOutputBytes - n } :=
  { h with output := Nat.sub_le_sub_right h.output n }

/-! ### Screens and keys -/

section

variable {P : Prims} {ρ ω : Type} {row : EntryEncryption} {limits limits' : DecryptLimits}
  (hl : limits.AtMost limits')

include hl

theorem screenClass_raised {cls : Classification} (h : screenClass cls limits = .ok ()) :
    screenClass cls limits' = .ok () := by
  unfold screenClass at h ⊢
  split at h
  · cases h
  split at h
  · cases h
  split at h
  · cases h
  next hplain hfatal hpgp =>
  obtain ⟨_, hcount, h⟩ := Except.bind_eq_ok.1 h
  have htotal : declaredTotal cls ≤ limits.maxOutputBytes := by
    by_contra hlt
    rw [screenOutputLimit, if_pos (Nat.lt_of_not_le hlt)] at h
    cases h
  rw [if_neg hplain, if_neg hfatal, if_neg hpgp]
  exact Except.bind_eq_ok.2 ⟨(), hcount, if_neg (Nat.not_lt.2 (htotal.trans hl.output))⟩

theorem screenIterations_raised {iterations : ℤ} {n : ℕ}
    (h : screenIterations iterations limits = .ok n) :
    screenIterations iterations limits' = .ok n := by
  have hle := hl.iterations
  unfold screenIterations at h ⊢
  split at h
  · next hc => rw [if_pos ⟨hc.1, by omega, hc.2.2⟩, h]
  · cases h

theorem screenArgon2_raised {t m p : ℤ} {salt : Bytes} (h : screenArgon2 t m p salt limits = .ok ()) :
    screenArgon2 t m p salt limits' = .ok () := by
  have hsalt := saltLen_of_screen h
  obtain ⟨ht, hm, hp, hlanes⟩ := (screenArgon2_ok_iff hsalt).1 h
  have hle := hl.t
  have hle' := hl.mKib
  have hle'' := hl.p
  exact (screenArgon2_ok_iff hsalt).2 ⟨by omega, by omega, by omega, hlanes⟩

theorem deriveKey_raised (sk : Bytes) : Prog.Below
    (deriveKey P row sk limits : Decrypt ω Bytes) (deriveKey P row sk limits') := by
  unfold deriveKey
  split
  · exact .refl _
  rcases row.kdf with ⟨iterations, salt⟩ | ⟨t, m, p, salt⟩ | -
  · exact .bind (.lift fun n => screenIterations_raised hl) fun n => .refl _
  · refine .bind (.lift fun u hu => ?_) fun _ => .refl _
    rw [Except.mapError_eq_ok] at hu ⊢
    exact screenArgon2_raised hl hu
  · exact .refl _

/-- Where a member accepts the keys that it accepted, the key that is found is the same. -/
theorem findKey_raised {password : Str} {accepts accepts' : Bytes → Decrypt ω Bool}
    (ha : ∀ key, Prog.Below (accepts key) (accepts' key)) : Prog.Below
      (findKey P row password limits accepts) (findKey P row password limits' accepts') := by
  unfold findKey
  induction startKeys P row password with
  | nil => exact .refl _
  | cons sk sks ih =>
    refine .bind ?_ fun found => ?_
    · exact (deriveKey_raised hl sk).bind fun key => (ha key).bind fun _ => .refl _
    · rcases found with - | key
      · exact ih
      · exact .refl _

end

/-! ### Inflating -/

theorem crcToEnd_through {ρ σ : Type} [Read ρ IoError] [Read σ IoError] {view : σ → ρ}
    (hv : Through view) {r r' : σ} {a : UInt32 × ℕ} (h : crcToEnd r = (.ok a, r')) :
    crcToEnd (view r) = (.ok a, view r') := by
  unfold crcToEnd at h ⊢
  split at h
  · next he =>
    cases h
    rw [hv.eachPiece (fun hf => hf) he]
  · cases h

namespace EncryptedDeflated

variable {P : Prims} {σ : Type} [Read σ IoError] (cap : ℕ)

omit [Read σ IoError] in
/-- The source, with its limit raised. -/
def raised (src : EncryptedDeflated P σ) : EncryptedDeflated P σ :=
  { src with limit := max src.limit cap }

/-- What is inflated of the source, with its limit raised. -/
def raisedInner {τ : Type} (inflate : Inflating P σ τ) : Inflating P σ τ :=
  ⟨inflate.inner.seen (fun r => r) cap, inflate.given⟩

theorem raisedInner_through {τ : Type} [Write τ IoError] :
    Through (raisedInner cap : Inflating P σ τ → Inflating P σ τ) :=
  (InflateReader.through .refl).metered

/-- A source is seen through the view that raises its limit. -/
def raised_through : SourceThrough (raised cap : EncryptedDeflated P σ → EncryptedDeflated P σ) where
  inner := raisedInner cap
  through := raisedInner_through cap
  opened h := by
    cases h
    rfl
  closed _ _ := rfl
  copied {ω _ src src' w w' a} h := by
    change src.copy w = _ at h
    change (src.raised cap).copy w = _
    unfold copy at h ⊢
    dsimp only at h ⊢
    rcases hc : crcToEnd (⟨.withTap P.inflater src.deflated src.expected src.limit ⟨w, none⟩, []⟩ :
      Inflating P σ (LatchedWrite ω)) with ⟨result, inflate⟩
    rw [hc] at h
    dsimp only at h
    split at h
    · cases h
    · next hfailed =>
      cases h
      have hseen : crcToEnd (⟨.withTap P.inflater (src.raised cap).deflated (src.raised cap).expected
          (src.raised cap).limit ⟨w, none⟩, []⟩ : Inflating P σ (LatchedWrite ω)) =
          (.ok a, raisedInner cap inflate) :=
        crcToEnd_through (raisedInner_through cap) hc
      have htap : (raisedInner cap inflate).inner.tap.failed = none := hfailed
      rw [hseen]
      dsimp only
      rw [htap]
      rfl

end EncryptedDeflated

section

variable {ρ σ ω S : Type} [Read ρ IoError] [Read σ IoError] {P : Prims}
  {archive : Archive ρ} {index expected len : ℕ} {row : EntryEncryption} {password : Str}
  {limits limits' : DecryptLimits} (hl : limits.AtMost limits')

omit [Read ρ IoError] [Read σ IoError] in
theorem useSink_eq_ok {α β : Type} {f : ω → Except ZipStreamError α × ω × β}
    {events : β → List Event} {s s' : Run ω} {a : α} {b : β} :
    useSink limits f events s = (.ok (a, b), s') ↔
      ∃ out, f s.out = (.ok a, out, b) ∧ s' = { s with out, log := s.log ++ events b } := by
  constructor
  · intro h
    have hf := useSink_ok h
    refine ⟨s'.out, hf, ?_⟩
    unfold useSink at h
    rw [hf] at h
    exact (Prod.mk.inj h).2.symm
  · rintro ⟨out, hf, rfl⟩
    unfold useSink
    rw [hf]
    rfl

include hl

omit [Read ρ IoError] in
theorem writeInflated_raised [ZipSink S] [ObliviousSink S] {name : Str} (deflated : σ) :
    Prog.Below (writeInflated P name row index expected limits deflated : Decrypt S σ)
      (writeInflated P name row index expected limits' deflated) := by
  intro s a s' h
  obtain ⟨⟨n, src⟩, s₁, hs, h⟩ := Prog.bind_eq_ok.1 h
  obtain ⟨out, hsink, rfl⟩ := useSink_eq_ok.1 hs
  cases h
  have hseen := ObliviousSink.deflatedFrom
    (EncryptedDeflated.raised_through limits'.maxOutputBytes) hsink
  rw [EncryptedDeflated.raised, Nat.max_eq_right hl.output] at hseen
  exact Prog.bind_eq_ok.2 ⟨(n, src.raised _), _, useSink_eq_ok.2 ⟨out, hseen, rfl⟩, rfl⟩

omit [Read ρ IoError] in
theorem releaseOut_raised [Write ω IoError] (plain : σ) :
    Prog.Below (releaseOut P row index expected limits plain : Decrypt ω σ)
      (releaseOut P row index expected limits' plain) := by
  intro s a s' h
  unfold releaseOut copyOut at h ⊢
  dsimp only at h ⊢
  rcases he : eachPiece chunk (readErrorWith limits) (writePiece DecryptError.io) s.out
    (⟨.new P.inflater plain expected limits.maxOutputBytes, []⟩ : Inflating P σ (Sink IoError))
    with ⟨e | u, out, inflate⟩ <;> rw [he] at h
  · cases h
  cases h
  have hseen : eachPiece chunk (readErrorWith limits') (writePiece DecryptError.io) s.out _ =
      (.ok (), out, _) :=
    (EncryptedDeflated.raisedInner_through limits'.maxOutputBytes).eachPiece (fun hf => hf) he
  rw [EncryptedDeflated.raisedInner, InflateReader.new, InflateReader.seen_withTap hl.output] at hseen
  rw [InflateReader.new, hseen]
  rfl

omit [Read σ IoError]

theorem gcmKey_raised : Prog.Below (gcmKey P archive index row len password limits : Decrypt ω Bytes)
    (gcmKey P archive index row len password limits') :=
  .bind (findKey_raised hl fun _ => .refl _) fun _ => .refl _

theorem gcmMember_raised {release release' : GcmDecryptReader P ρ → Decrypt ω (GcmDecryptReader P ρ)}
    (hr : ∀ plain, Prog.Below (release plain) (release' plain)) : Prog.Below
      (gcmMember P archive index row len password limits release)
      (gcmMember P archive index row len password limits' release') := by
  refine .bind (gcmKey_raised hl) fun key => .bind (.refl _) fun file => ?_
  rcases GcmStream.new P key row.iv with - | gcm
  · exact .refl _
  · exact .bind (hr _) fun plain => .refl _

/-- The decryption of a wholesome package. -/
theorem wholesome_raised [Write ω IoError] {rowIndex : ℕ} {sizes : Sizes} : Prog.Below
    (wholesome P archive rowIndex row password limits sizes : Decrypt ω Unit)
    (wholesome P archive rowIndex row password limits' sizes) := by
  unfold wholesome
  refine .bind (.refl _) fun expected => .bind (.refl _) fun member => .bind (.refl _) fun shape => ?_
  refine .bind (.refl _) fun _ => .bind (.refl _) fun _ => .bind (.refl _) fun _ => ?_
  exact gcmMember_raised hl fun plain => releaseOut_raised hl plain

/-! ### Encrypted members -/

theorem checksumKey_raised : Prog.Below
    (checksumKey P archive index row password limits : Decrypt ω Bytes)
    (checksumKey P archive index row password limits') := by
  refine .bind (findKey_raised hl fun key => ?_) fun _ => .refl _
  refine .bind (.refl _) fun file => .bind ?_ fun gate => ?_
  · exact .lift_mapError _ _ _
  · rcases gate.verify.1 with e | _
    · dsimp only
      -- A fault of the gate is a wrong password, or fails under any limits.
      rcases Fault.take e with e | fault
      · exact .refl _
      · cases fault <;> first | exact .refl _ | exact .fail _ _
    · exact .refl _

theorem keyFor_raised {plan : Plan} : Prog.Below
    (keyFor P archive index plan password limits : Decrypt ω Unit)
    (keyFor P archive index plan password limits') := by
  unfold keyFor
  split
  · exact .bind (gcmKey_raised hl) fun _ => .refl _
  · exact .bind (checksumKey_raised hl) fun _ => .refl _

variable [ZipSink S] [ObliviousSink S]

theorem decryptMember_raised {name : Str} {plan : Plan} : Prog.Below
    (decryptMember P archive index name plan password limits : Decrypt S Unit)
    (decryptMember P archive index name plan password limits') := by
  unfold decryptMember
  refine .bind (.refl _) fun _ => ?_
  split
  · exact gcmMember_raised hl fun plain => writeInflated_raised hl plain
  · refine .bind (checksumKey_raised hl) fun key => .bind (.refl _) fun file => ?_
    exact .bind (.lift_mapError _ _ _) fun gate => .bind (writeInflated_raised hl gate) fun _ => .refl _

omit [ObliviousSink S] hl in
theorem copyMember_raised {name : Str} {file : FileData} : Prog.Below
    (copyMember archive name file index limits : Decrypt S Unit)
    (copyMember archive name file index limits') := by
  unfold copyMember
  rcases file.compression with - | - | id
  · refine .bind (.refl _) fun data => .bind ?_ fun _ => .refl _
    intro s a s' h
    exact useSink_eq_ok.2 (useSink_eq_ok.1 h)
  · intro s a s' h
    dsimp only at h ⊢
    rcases hd : ZipSink.deflatedFrom s.out name file.size (PlainDeflated.mk archive s.opened index)
      with ⟨e | n, out, src⟩ <;> rw [hd] at h
    · cases h
    · exact h
  · exact .refl _

theorem rebuildMember_raised {plans : List (Str × Plan)} {stripped : Bytes} (done : Rebuilt)
    (entry : FileData × ℕ) : Prog.Below
      (rebuildMember P archive plans stripped password limits done entry : Decrypt S Rebuilt)
      (rebuildMember P archive plans stripped password limits' done entry) := by
  unfold rebuildMember
  refine .bind (.refl _) fun _ => ?_
  dsimp only
  split
  · refine .bind ?_ fun _ => .refl _
    intro s a s' h
    exact useSink_eq_ok.2 (useSink_eq_ok.1 h)
  · -- What was produced so far is the same, so no budget is lower.
    exact .bind (.mapError (decryptMember_raised (hl.spend _)) _ _) fun _ => .refl _
  · exact .bind copyMember_raised fun _ => .refl _

/-- The decryption of a package with encrypted members. -/
theorem perEntry_raised {cls : Classification} {sizes : Sizes} : Prog.Below
    (perEntry P archive cls password limits sizes : Decrypt S IntegrityOutcome)
    (perEntry P archive cls password limits' sizes) := by
  unfold perEntry
  refine .bind (.refl _) fun planned => .bind ?_ fun _ => ?_
  · exact .each (fun _ _ => keyFor_raised hl) _ _
  refine .bind (.refl _) fun manifest => .bind (.refl _) fun stripped => .bind ?_ fun _ => .refl _
  exact .each (rebuildMember_raised hl) _ _

end

/-! ### Whole runs -/

section

variable {ρ ω : Type} [Read ρ IoError] {P : Prims} {source : Source ρ} {password : Str}
  {limits limits' : DecryptLimits} (hl : limits.AtMost limits')

theorem inOutput_below {ω ω' ε ε' α : Type} {wrap : ω → ω'} {unwrap : ω' → ω}
    {x : Prog (Run ω') ε α} {y : Prog (Run ω') ε' α} (h : Prog.Below x y) :
    Prog.Below (inOutput wrap unwrap x) (inOutput wrap unwrap y) := by
  intro s a s' hs
  unfold inOutput at hs ⊢
  rcases hx : x (s.withOut (wrap s.out)) with ⟨e | a, s₁⟩ <;> rw [hx] at hs
  · cases hs
  · rw [h _ _ _ hx]
    cases hs
    rfl

omit [Read ρ IoError] in
theorem intoZip_below [Write ω IoError] [Flush ω IoError] {α : Type}
    {x y : Decrypt (ZipStreamWriter P ω) α} (h : Prog.Below x y) :
    Prog.Below (intoZip P limits x) (intoZip P limits' y) := by
  intro s a s' hs
  unfold intoZip at hs ⊢
  rcases hx : x (s.withOut (.new P s.out)) with ⟨e | a, s₁⟩ <;> rw [hx] at hs
  · cases hs
  rw [h _ _ _ hx]
  dsimp only at hs ⊢
  rcases hf : s₁.out.finish with ⟨e | u, out⟩ <;> rw [hf] at hs
  · cases hs
  · exact hs

omit [Read ρ IoError] in
theorem intoCrate_below {ζ : Type} [CrateOver ζ ω] {α : Type}
    {x y : Decrypt (SeekableZipSink ζ) α} (h : Prog.Below x y) :
    Prog.Below (intoCrate ζ limits x) (intoCrate ζ limits' y) := by
  refine inOutput_below (.bind h fun a => .bind ?_ fun _ => .refl _)
  intro s a s' hs
  unfold onOutput at hs ⊢
  dsimp only at hs ⊢
  rcases hf : s.out.finish with ⟨e | u, zip⟩ <;> rw [hf] at hs
  · cases hs
  · exact hs

include hl

theorem begin_raised : Prog.Below (begin_ P source limits : Decrypt ω (Classification × Archive ρ))
    (begin_ P source limits') :=
  .bind (.refl _) fun _ => .bind (.lift fun _ h => screenClass_raised hl h) fun _ => .refl _

theorem decryptRun_raised [Write ω IoError] [Flush ω IoError] : Prog.Below
    (decryptRun P source password limits : Decrypt ω DecryptOutcome)
    (decryptRun P source password limits') := by
  refine .bind (begin_raised hl) fun ⟨cls, archive⟩ => ?_
  dsimp only
  split
  · exact .bind (.refl _) fun row => .bind (wholesome_raised hl) fun _ => .refl _
  · exact .bind (intoZip_below (perEntry_raised hl)) fun _ => .refl _

theorem decryptSliceRun_raised {ζ : Type} [CrateOver ζ SliceWriter] {archive : Archive ρ}
    {cls : Classification} : Prog.Below
    (decryptSliceRun P ζ archive cls password limits)
    (decryptSliceRun P ζ archive cls password limits') := by
  unfold decryptSliceRun
  split
  · refine .bind (.refl _) fun row => .bind (.refl _) fun n => .bind (.refl _) fun _ => ?_
    exact .mapError (wholesome_raised hl) _ _
  · refine .bind (.refl _) fun bound => .bind (.refl _) fun _ => ?_
    exact .mapError (intoCrate_below (.bind (perEntry_raised hl) fun _ => .refl _)) _ _

/-- **Limits only refuse**: a decryption that succeeds, to a writer or into a buffer, is the
    same run under higher limits, with the same outcome, log and output. -/
theorem decrypt_raised {ζ : Type} [Write ω IoError] [Flush ω IoError] [CrateOver ζ SliceWriter] :
    (∀ (writer : ω) (outcome : DecryptOutcome) (s : Run ω),
      decryptWithLimitsTo P source writer password limits = (.ok outcome, s) →
        decryptWithLimitsTo P source writer password limits' = (.ok outcome, s)) ∧
    ∀ (bytes : Bytes) (s : Run SliceWriter),
      decryptSlice P ζ source password limits = (.ok bytes, s) →
        decryptSlice P ζ source password limits' = (.ok bytes, s) := by
  constructor
  · intro writer outcome s h
    unfold decryptWithLimitsTo at h ⊢
    split at h
    · cases h
    · next hgiven =>
      rw [if_neg hgiven]
      rcases hrun : decryptRun P source password limits { out := writer } with ⟨e | a, s₁⟩ <;>
        rw [hrun] at h
      · -- A run that fails is no success, whatever the reader says.
        dsimp only at h
        split at h <;> cases h
      · rw [decryptRun_raised hl _ _ _ hrun]
        exact h
  · intro bytes s h
    unfold decryptSlice at h ⊢
    split at h
    · cases h
    · next hgiven =>
      rw [if_neg hgiven]
      dsimp only at h ⊢
      obtain ⟨hmap, rfl⟩ := Prod.mk.inj h
      obtain ⟨u, hok, -⟩ := Except.map_eq_ok.1 hmap
      obtain ⟨⟨cls, archive⟩, s₁, hb, hr⟩ := Prog.bind_eq_ok.1 (Prod.ext hok rfl : _ = (_, _))
      have hr' := decryptSliceRun_raised hl _ _ _ hr
      rw [Prog.bind_of_ok (begin_raised hl _ _ _ hb)]
      dsimp only
      rw [hr']
      rw [hok] at hmap
      exact Prod.ext hmap rfl

end

/-- The three bytes, decrypted within the default limits, are decrypted the same way
    within the widest ones. -/
theorem decrypt_raised_three : ∃ (s : Run (Buffer IoError)) (s' : Run SliceWriter),
    decryptWithLimitsTo threePrims (threeSource fun _ => 0) (⟨[]⟩ : Buffer IoError) (ascii "pw")
      .permissive = (.ok ⟨.verified⟩, s) ∧
    decryptSlice threePrims SliceCrate (threeSource fun _ => 0) (ascii "pw") .permissive =
      (.ok [1, 2, 3], s') := by
  obtain ⟨cls, hcls, hmode, -, hrows, hd⟩ := threePackage_decrypts fun _ => 0
  obtain ⟨s, hrun, -⟩ := hd.decryptsTo (threeSource_has _) hcls hmode
    (Buffer.willing (ε := IoError)) trivial
  have hslice : threePackage.Decrypts threePrims cls (ascii "pw") {} .wholeBuffer [1, 2, 3] := by
    obtain ⟨hgiven, hscreen, index, row, hrow, ho⟩ := hd
    refine ⟨hgiven, hscreen, index, row, hrow, Package.opens_wholeBuffer_iff.2 ⟨ho, ?_⟩⟩
    rw [wholesomeRow, hrows, hmode] at hrow
    cases hrow
    decide
  obtain ⟨s', hrun'⟩ := hslice.decryptsSlice (ζ := SliceCrate) (threeSource_has _) hcls hmode
  have hl : DecryptLimits.AtMost {} .permissive :=
    ⟨by decide, by decide, by decide, by decide, by decide⟩
  exact ⟨s, s', (decrypt_raised (ω := Buffer IoError) (ζ := SliceCrate) hl).1 _ _ _ hrun,
    (decrypt_raised (ω := Buffer IoError) (ζ := SliceCrate) hl).2 _ _ hrun'⟩

end OdfCrypto
