import OdfCrypto.DecryptRun.RaisedLimits
import OdfCrypto.Reencrypt.Rekey

/-!
# Higher limits, with a new password

The limits of `reencrypt_to` are those of the decryption in it, and refuse only as well:
under higher ones, the same package is written.

* `teeOut_raised`: the deflated stream of a wholesome source, copied and inflated;
* `reencrypt_raised`: the whole run.
-/

namespace OdfCrypto

open ByteStream Text

section

variable {ρ ω τ : Type} [Read ρ IoError] {P : Prims} {archive : Archive ρ} {cls : Classification}
  {source : Source ρ} {random : Random} {old new : Str} {params : Argon2Params}
  {mimetype : Option Str} {limits limits' : DecryptLimits}

/-! ### Parts that write -/

theorem sealed_below {ζ α : Type} [CrateOver ζ ω] {gcm : GcmStream}
    {x y : Reencrypt (GcmEncryptWriter P ζ) α} (h : Prog.Below x y) :
    Prog.Below (sealed P gcm x) (sealed P gcm y) := by
  intro s a s' hs
  unfold sealed at hs ⊢
  rcases hx : x (s.withOut ⟨s.out, gcm⟩) with ⟨e | b, s₁⟩ <;> rw [hx] at hs
  · cases hs
  · rw [h _ _ _ hx]
    exact hs

/-- The package is the same, where the payload is. -/
theorem writePackage_below {ζ : Type} [CrateOver ζ ω] {couldReach : ℕ}
    {x y : Reencrypt (GcmEncryptWriter P ζ) (ℕ × DecryptOutcome)} (h : Prog.Below x y) :
    Prog.Below (writePackage P ζ random new params mimetype couldReach x : Reencrypt ω DecryptOutcome)
      (writePackage P ζ random new params mimetype couldReach y) := by
  unfold writePackage
  refine .bind (.refl _) fun salt => .bind (.refl _) fun iv => .bind (.refl _) fun key => ?_
  refine inOutput_below (.bind (.refl _) fun _ => .bind (.refl _) fun _ => ?_)
  refine .bind (.refl _) fun _ => .bind (.refl _) fun _ => ?_
  rcases GcmStream.new P key iv with - | gcm
  · exact .refl _
  · exact .bind (sealed_below h) fun _ => .refl _

variable (hl : limits.AtMost limits')

include hl

/-- What is copied while it is inflated is the same under a higher limit. -/
theorem teeOut_raised [Write τ IoError] {row : EntryEncryption} {index expected : ℕ}
    (plain : GcmDecryptReader P ρ) : Prog.Below
      (teeOut P row index expected limits plain : Reencrypt τ (ℕ × DecryptOutcome))
      (teeOut P row index expected limits' plain) := by
  intro s a s' h
  rw [teeOut] at h ⊢
  generalize hc : drainTo limits (⟨.new P.inflater ⟨plain, s.out⟩ expected limits.maxOutputBytes, []⟩ :
    Checking P ρ τ) = drained at h
  obtain ⟨e | u, check⟩ := drained
  · cases h
  have hseen : discard chunk (ReencryptError.ofRead limits') _ = (.ok (), _) :=
    (EncryptedDeflated.raisedInner_through limits'.maxOutputBytes).discard hc
  rw [EncryptedDeflated.raisedInner, InflateReader.new, InflateReader.seen_withTap hl.output] at hseen
  rw [InflateReader.new, drainTo, hseen]
  dsimp only at h ⊢
  -- What is left behind the stream is copied under no limit.
  rcases hd : drainTo limits check.inner.src with ⟨e | u, tee⟩ <;> rw [hd] at h
  · cases h
  have hrest : drainTo limits' (EncryptedDeflated.raisedInner limits'.maxOutputBytes check).inner.src =
      (.ok (), tee) := Through.refl.discard hd
  rw [hrest]
  exact h

theorem rewholesome_raised {ζ : Type} [CrateOver ζ ω] : Prog.Below
    (rewholesome P archive cls ζ random old new limits params mimetype : Reencrypt ω DecryptOutcome)
    (rewholesome P archive cls ζ random old new limits' params mimetype) := by
  unfold rewholesome
  refine .bind (.refl _) fun row => .bind (.refl _) fun expected => .bind (.refl _) fun member => ?_
  refine .bind (.refl _) fun shape => .bind (.refl _) fun _ => .bind (.refl _) fun _ => ?_
  refine .bind (.refl _) fun _ => .bind (.mapError (gcmKey_raised hl) _ _) fun oldKey => ?_
  refine writePackage_below (.bind (.refl _) fun file => ?_)
  rcases GcmStream.new P oldKey row.2.iv with - | gcm
  · exact .refl _
  · exact teeOut_raised hl _

theorem deflateRebuilt_raised [Write τ IoError] [Flush τ IoError] : Prog.Below
    (deflateRebuilt P archive cls old limits : Reencrypt τ (ℕ × DecryptOutcome))
    (deflateRebuilt P archive cls old limits') := by
  intro s a s' h
  rw [deflateRebuilt] at h ⊢
  dsimp only at h ⊢
  have hbelow : Prog.Below
      (ofDecrypt (intoZip P limits (perEntry P archive cls old limits .streamed)) :
        Reencrypt (DeflateWriter P τ) IntegrityOutcome)
      (ofDecrypt (intoZip P limits' (perEntry P archive cls old limits' .streamed))) :=
    .mapError (intoZip_below (perEntry_raised hl)) _ _
  rcases hr : ofDecrypt (intoZip P limits (perEntry P archive cls old limits .streamed))
    (s.withOut (DeflateWriter.adaptive P s.out)) with ⟨e | integrity, s₁⟩ <;> rw [hr] at h
  · cases h
  · rw [hbelow _ _ _ hr]
    exact h

theorem rePerEntry_raised {ζ : Type} [CrateOver ζ ω] [Flush ζ IoError] : Prog.Below
    (rePerEntry P archive cls ζ random old new limits params mimetype : Reencrypt ω DecryptOutcome)
    (rePerEntry P archive cls ζ random old new limits' params mimetype) :=
  .bind (.refl _) fun _ => .bind (.refl _) fun _ => writePackage_below (deflateRebuilt_raised hl)

theorem reencryptRun_raised {ζ : Type} [CrateOver ζ ω] [Flush ζ IoError] : Prog.Below
    (reencryptRun P ζ source random old new limits params : Reencrypt ω DecryptOutcome)
    (reencryptRun P ζ source random old new limits' params) := by
  unfold reencryptRun
  refine .bind (.refl _) fun cls => .bind (.lift fun u hu => ?_) fun _ => ?_
  · rw [Except.mapError_eq_ok] at hu ⊢
    exact screenClass_raised hl hu
  dsimp only
  split
  · refine .bind (.refl _) fun _ => .bind (.refl _) fun archive => .bind (.refl _) fun mimetype => ?_
    split
    · exact rewholesome_raised hl
    · exact rePerEntry_raised hl
  · refine .bind (.refl _) fun archive => .bind (.refl _) fun mimetype => ?_
    split
    · exact rewholesome_raised hl
    · exact rePerEntry_raised hl

/-- **Limits only refuse**: a change of the password that succeeds is the same run under
    higher limits, with the same outcome, log and output. -/
theorem reencrypt_raised {ζ : Type} [CrateOver ζ ω] [Flush ζ IoError] {writer : ω}
    {outcome : DecryptOutcome} {s : Run ω}
    (h : reencryptTo P ζ source writer random old new limits params = (.ok outcome, s)) :
    reencryptTo P ζ source writer random old new limits' params = (.ok outcome, s) := by
  unfold reencryptTo at h ⊢
  split at h
  · cases h
  split at h
  · cases h
  next hold hnew =>
  rw [if_neg hold, if_neg hnew]
  rcases hrun : reencryptRun P ζ source random old new limits params { out := writer }
    with ⟨e | a, s₁⟩ <;> rw [hrun] at h
  · dsimp only at h
    split at h <;> cases h
  · rw [reencryptRun_raised hl _ _ _ hrun]
    exact h

end

/-- The password of the package of three bytes is changed the same way within the widest
    limits. -/
theorem reencrypt_raised_three : ∃ s, reencryptTo rekeyPrims KeptMembers
    (threeSource fun _ => chunk) ({} : KeptMembers) zeroRandom (ascii "pw") (ascii "new") .permissive
    leastParams = (.ok ⟨.verified⟩, s) := by
  obtain ⟨s, hrun⟩ := rekeyed_three
  exact ⟨s, reencrypt_raised ⟨by decide, by decide, by decide, by decide, by decide⟩ hrun⟩

end OdfCrypto
