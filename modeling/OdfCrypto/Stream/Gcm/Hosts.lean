import OdfCrypto.Lib.Readers
import OdfCrypto.Stream.Gcm

/-!
# Verifying on 32-bit and on 64-bit hosts

`gcm_verify` casts what is left of a member to a `usize`, so that what it does
depends on the host. On a 64-bit host it is `gcmVerify`. On a 32-bit host it is
too while less than 4 GiB are left; from there on it comes to a multiple of 4 GiB
that is left, and reads nothing for ever.

* `Host.gcmVerify_run`: where it comes to its end;
* `Host.gcmVerify_stalls`: where it does not;
* `Host.gcmVerify_iff`: the two together.
-/

namespace OdfCrypto

open ByteStream Text

/-- How wide a `usize` is. -/
inductive Host
  | bits32
  | bits64
  deriving DecidableEq

namespace Host

def bits : Host → ℕ
  | bits32 => 32
  | bits64 => 64

/-- The cast to a `usize`. -/
def usize (host : Host) (v : ℕ) : ℕ := v % 2 ^ host.bits

theorem usize_of_lt {host : Host} {v : ℕ} (h : v < 2 ^ host.bits) : host.usize v = v :=
  Nat.mod_eq_of_lt h

theorem bits_ge (host : Host) : 32 ≤ host.bits := by
  rcases host with - | - <;> decide

variable {ρ : Type} [Read ρ IoError]

/-- One pass of the verification. -/
def gcmVerifyStep (host : Host) (bufLen : ℕ) : GcmStream × ℕ × ρ →
    (Except IoError Bool × ρ) ⊕ (GcmStream × ℕ × ρ)
  | (gcm, left, r) =>
    if 0 < left then
      let want := min (host.usize left) bufLen
      match readFull r want with
      | (.ok bs, r') =>
        if bs.length ≠ want then .inl (.error .unexpectedEof, r')
        else .inr (gcm.absorb bs, left - want, r')
      | (.error e, r') => .inl (.error e, r')
    else
      match readFull r aesGcmTagLen with
      | (.ok wantTag, r') =>
        if wantTag.length ≠ aesGcmTagLen then .inl (.error .unexpectedEof, r')
        else .inl (.ok (ctEq gcm.tag wantTag), r')
      | (.error e, r') => .inl (.error e, r')

/-- The buffer of the verification. -/
def gcmVerifyBuffer (host : Host) (ctLen : ℕ) : ℕ := max (min chunk (host.usize ctLen)) aesGcmTagLen

/-- The verification, for `fuel` passes at most. -/
def gcmVerify (host : Host) (P : Prims) (key iv : Bytes) (r : ρ) (ctLen fuel : ℕ) :
    Option (Except IoError Bool × ρ) :=
  match GcmStream.new P key iv with
  | none => some (.error (Fault.internal (ascii "an AES-GCM key length the screen passed")).intoIo, r)
  | some gcm => Loop.iterate (host.gcmVerifyStep (host.gcmVerifyBuffer ctLen)) fuel (gcm, ctLen, r)

variable {host : Host} {P : Prims} {key iv : Bytes} {r : ρ} {ctLen : ℕ}

/-- Where what there is to read fits a `usize`, the verification comes to its
    end, with the result of the one without casts. -/
theorem gcmVerify_run (h : ctLen < 2 ^ host.bits) :
    ∃ fuel, host.gcmVerify P key iv r ctLen fuel = some (OdfCrypto.gcmVerify P key iv r ctLen) := by
  unfold Host.gcmVerify OdfCrypto.gcmVerify
  rcases GcmStream.new P key iv with - | gcm
  · exact ⟨0, rfl⟩
  have hbuf : host.gcmVerifyBuffer ctLen = OdfCrypto.gcmVerifyBuffer ctLen := by
    rw [Host.gcmVerifyBuffer, usize_of_lt h, OdfCrypto.gcmVerifyBuffer]
  rw [hbuf]
  refine Loop.iterate_of_run (gcmVerifyLoop ctLen) (fun s => s.2.1 < 2 ^ host.bits) h ?_ ?_
  · rintro ⟨gcm, left, r⟩ hl
    simp only [Host.gcmVerifyStep, usize_of_lt hl]
    rfl
  · rintro s s' hl hs
    exact lt_trans ((gcmVerifyLoop ctLen).rank_lt hs) hl

/-- Where it does not fit, and there is enough to read, the verification does not
    come to its end. -/
theorem gcmVerify_stalls {ct rest : Bytes} {e : Option IoError} (hk : GcmLens key iv)
    (hr : Presents r (ct ++ rest) e) (h : 2 ^ host.bits ≤ ct.length) (fuel : ℕ) :
    host.gcmVerify P key iv r ct.length fuel = none := by
  have hnew : GcmStream.new P key iv = some (GcmStream.absorbed P key iv [] 0) :=
    GcmStream.new_eq_some.2 ⟨hk.1, hk.2, rfl⟩
  simp only [Host.gcmVerify, hnew]
  refine Loop.iterate_none (fun s => ∃ todo, Presents s.2.2 (todo ++ rest) e ∧
    s.2.1 = todo.length ∧ 2 ^ host.bits ≤ todo.length) ?_ ⟨ct, hr, rfl, h⟩ fuel
  rintro ⟨gcm, left, r⟩ ⟨todo, hP, rfl, hle⟩
  -- no pass takes more than what is left exceeds a multiple of the width by
  let want := min (host.usize todo.length) (host.gcmVerifyBuffer ct.length)
  have hwant : want ≤ todo.length % 2 ^ host.bits := Nat.min_le_left _ _
  have hpos : 0 < 2 ^ host.bits := Nat.pow_pos (by decide)
  have hmod : want + 2 ^ host.bits ≤ todo.length := by
    have hdiv := Nat.div_add_mod todo.length (2 ^ host.bits)
    have hone := Nat.mul_le_mul_left (2 ^ host.bits) (Nat.div_pos hle hpos)
    omega
  obtain ⟨r', hread, hP'⟩ := hP.readFull_le (n := want) (by rw [List.length_append]; omega)
  rw [List.take_append_of_le_length (by omega)] at hread
  rw [List.drop_append_of_le_length (by omega)] at hP'
  refine ⟨(gcm.absorb (todo.take want), todo.length - want, r'), ?_, todo.drop want, hP',
    (List.length_drop ..).symm, by rw [List.length_drop]; omega⟩
  simp only [Host.gcmVerifyStep]
  rw [if_pos (by omega), hread]
  simp only [List.length_take]
  rw [if_neg (by omega)]

/-- Given as much ciphertext as was announced, with some tag, the verification
    comes to its end, with the ciphertext hashed and the tag read and compared, if
    and only if the host has 64 bits or less than 4 GiB are announced. -/
theorem gcmVerify_iff {ct tag rest : Bytes} {e : Option IoError} (hk : GcmLens key iv)
    (hr : Presents r (ct ++ tag ++ rest) e) (htag : tag.length = aesGcmTagLen)
    (hlen : ct.length < 2 ^ 64) :
    (∃ fuel r', host.gcmVerify P key iv r ct.length fuel =
        some (.ok (ctEq (Gcm.tag (P.aes key) iv ct) tag), r') ∧ Presents r' rest e) ↔
      host = .bits64 ∨ ct.length < 2 ^ 32 := by
  constructor
  · rintro ⟨fuel, r', h, -⟩
    by_contra hcon
    push Not at hcon
    have h32 : host = .bits32 := by
      rcases host with - | -
      · rfl
      · exact absurd rfl hcon.1
    -- On 32 bits a length of `2 ^ 32` or more stalls: the loop asks for no bytes and
    -- never ends.
    subst h32
    rw [List.append_assoc] at hr
    rw [@gcmVerify_stalls ρ _ .bits32 P key iv r ct (tag ++ rest) e hk hr hcon.2] at h
    cases h
  · intro h
    have hfits : ct.length < 2 ^ host.bits := by
      obtain rfl | h := h
      · exact hlen
      · exact lt_of_lt_of_le h (Nat.pow_le_pow_right (by decide) host.bits_ge)
    obtain ⟨r', hv, hP⟩ := gcmVerify_presents (P := P) hk hr htag
    obtain ⟨fuel, hf⟩ := @gcmVerify_run ρ _ host P key iv r ct.length hfits
    exact ⟨fuel, r', hf.trans (congrArg some hv), hP⟩

/-- A block of zeros under a key and an IV of zeros, and its tag. -/
def sealedZeros : Bytes × Bytes :=
  ([0x03, 0x88, 0xDA, 0xCE, 0x60, 0xB6, 0xA3, 0x92, 0xF3, 0x28, 0xC2, 0xB9, 0x71, 0xB2, 0xFE, 0x78],
   [0xAB, 0x6E, 0x47, 0xD4, 0x2C, 0xEC, 0x13, 0xBD, 0xF5, 0x3A, 0x67, 0xB2, 0x12, 0x57, 0xBD, 0xDF])

/-- On a 32-bit host, the block is verified, three bytes at a time, and what comes after the
    tag is left. -/
theorem gcmVerify_iff_sample :
    ∃ fuel r', bits32.gcmVerify knownPrims (List.replicate 16 0) (List.replicate 12 0)
        (⟨sealedZeros.1 ++ sealedZeros.2 ++ [0xFF], fun _ => 2, none, 0⟩ : Pieces IoError) 16 fuel =
          some (.ok true, r') ∧
      Presents r' [0xFF] (none : Option IoError) := by
  have htag : ctEq (Gcm.tag (zeroKeyAes (List.replicate 16 0)) (List.replicate 12 0) sealedZeros.1)
      sealedZeros.2 = true := by decide +kernel
  have h := (@gcmVerify_iff _ _ .bits32 knownPrims (List.replicate 16 0) (List.replicate 12 0)
    (⟨sealedZeros.1 ++ sealedZeros.2 ++ [0xFF], fun _ => 2, none, 0⟩ : Pieces IoError) sealedZeros.1
    sealedZeros.2 [0xFF] none ⟨rfl, .inl rfl⟩ (Pieces.presents _ rfl) rfl (by decide)).2
    (.inr (by decide))
  rwa [show knownPrims.aes = zeroKeyAes from rfl, htag] at h

/-- On a 32-bit host, the verification of 4 GiB of ciphertext does not come to its
    end. -/
theorem not_gcmVerify_returns :
    ¬ ∀ (host : Host) (P : Prims) (key iv ct tag : Bytes) (r : Pieces IoError), GcmLens key iv →
      r.rest = ct ++ tag → r.fails = none → tag.length = aesGcmTagLen → ct.length < 2 ^ 64 →
        ∃ fuel r', host.gcmVerify P key iv r ct.length fuel =
          some (.ok (ctEq (Gcm.tag (P.aes key) iv ct) tag), r') := by
  intro h
  let ct : Bytes := List.replicate (2 ^ 32) 0
  have hct : ct.length = 2 ^ 32 := List.length_replicate
  have hk : GcmLens (List.replicate 16 0) (List.replicate 12 0) := ⟨rfl, .inl rfl⟩
  obtain ⟨fuel, r', hf⟩ := h .bits32 knownPrims _ _ ct (List.replicate 16 0)
    ⟨ct ++ List.replicate 16 0, fun _ => 0, none, 0⟩ hk rfl rfl rfl (by rw [hct]; decide)
  rw [@gcmVerify_stalls _ _ .bits32 knownPrims _ _ _ ct (List.replicate 16 0) none hk
    (Pieces.presents _ rfl) (by rw [hct]; exact le_rfl)] at hf
  cases hf

end Host

end OdfCrypto
