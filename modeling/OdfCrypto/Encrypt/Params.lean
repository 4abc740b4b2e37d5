import OdfCrypto.Encrypt

/-!
# The two checks of Argon2 parameters

`Argon2Params::new` and the screen of `derive_argon2id`, in the integers of their
own types: a product that does not fit its type is no result at all.

* `Argon2Params.new32_eq`, `screenArgon2_32_eq`: no product overflows, so the checks
  are those over the integers;
* `Argon2Params.new_ok_iff`, `screenArgon2_ok_iff`: what they accept;
* `Argon2Params.new_iff_screen`: they accept the same parameters.
-/

namespace OdfCrypto

open ByteStream Text

/-- A number of a signed type of so many bits, if it is one. -/
def signed (bits : ℕ) (n : ℤ) : Option ℤ :=
  if -2 ^ (bits - 1) ≤ n ∧ n < 2 ^ (bits - 1) then some n else none

/-- A number of an unsigned type of so many bits, if it is one. -/
def unsigned (bits : ℕ) (n : ℤ) : Option ℕ := if 0 ≤ n ∧ n < 2 ^ bits then some n.toNat else none

theorem signed_eq {bits : ℕ} {n : ℤ} (h : -2 ^ (bits - 1) ≤ n) (h' : n < 2 ^ (bits - 1)) :
    signed bits n = some n := if_pos ⟨h, h'⟩

theorem unsigned_eq {bits : ℕ} {n : ℤ} (h : 0 ≤ n) (h' : n < 2 ^ bits) :
    unsigned bits n = some n.toNat := if_pos ⟨h, h'⟩

/-- `u32::try_from(x).unwrap_or(0)`. -/
def u32OrZero (x : Int32) : ℕ := (unsigned 32 x.toInt).getD 0

theorem u32OrZero_eq (x : Int32) : u32OrZero x = x.toInt.toNat := by
  have hlt := x.toInt_lt
  rcases Int.lt_or_le x.toInt 0 with h | h
  · rw [u32OrZero, unsigned, if_neg fun h' => absurd h'.1 (by omega), Option.getD_none]
    omega
  · rw [u32OrZero, unsigned_eq h (by omega), Option.getD_some]

/-- A number is in a range that starts above zero, as an unsigned one. -/
theorem u32OrZero_mem {x : Int32} {min max : ℕ} (hmin : 0 < min) :
    min ≤ u32OrZero x ∧ u32OrZero x ≤ max ↔ (min : ℤ) ≤ x.toInt ∧ x.toInt ≤ max := by
  rw [u32OrZero_eq]
  omega

/-! ### The two checks, over fixed widths -/

/-- `Argon2Params::new`, over 32-bit integers. -/
def Argon2Params.new32 (t mKib p : Int32) : Option (Except EncryptError (Int32 × Int32 × Int32)) :=
  if ¬ (argon2MinTCost ≤ u32OrZero t ∧ u32OrZero t ≤ argon2MaxTCostWrite) then
    some (.error (.params (.outOfRange .t t.toInt argon2MinTCost argon2MaxTCostWrite)))
  else if ¬ (argon2MinMCostKib ≤ u32OrZero mKib ∧ u32OrZero mKib ≤ argon2MaxMCostKibWrite) then
    some (.error (.params (.outOfRange .mKib mKib.toInt argon2MinMCostKib argon2MaxMCostKibWrite)))
  else if ¬ (argon2MinPCost ≤ u32OrZero p ∧ u32OrZero p ≤ argon2MaxPCost) then
    some (.error (.params (.cipherRejects .p p.toInt argon2MinPCost argon2MaxPCost)))
  else do
    let lanes ← signed 32 (8 * p.toInt)
    if mKib.toInt < lanes then
      return .error (.params (.cipherRejects .mKib mKib.toInt
        ((unsigned 32 lanes).getD (2 ^ 32 - 1)) argon2MaxMCostKibWrite))
    else return .ok (t, mKib, p)

/-- The screen of `derive_argon2id`, over its own types. -/
def screenArgon2_32 (t m p : Int32) (salt : Bytes) (limits : DecryptLimits) :
    Option (Except KdfError Unit) :=
  let outOfRange := fun axis (got : ℤ) (min max : ℕ) =>
    some (Except.error (.params (.outOfRange (.argon2 axis) got min max)))
  let argon2Rejects := fun field (got min max : ℤ) =>
    some (Except.error (.params (.cipherRejects field .argon2 got min max)))
  match unsigned 32 t.toInt, unsigned 32 m.toInt, unsigned 32 p.toInt with
  | none, _, _ => outOfRange .t t.toInt argon2MinTCost limits.argon2MaxT
  | _, none, _ => outOfRange .mKib m.toInt argon2MinMCostKib limits.argon2MaxMKib
  | _, _, none => outOfRange .p p.toInt argon2MinPCost limits.argon2MaxP
  | some t, some m, some p =>
    if t < argon2MinTCost ∨ limits.argon2MaxT < t then
      outOfRange .t t argon2MinTCost limits.argon2MaxT
    else if m < argon2MinMCostKib ∨ limits.argon2MaxMKib < m then
      outOfRange .mKib m argon2MinMCostKib limits.argon2MaxMKib
    else if p < argon2MinPCost ∨ min limits.argon2MaxP argon2MaxPCost < p then
      if p > argon2MaxPCost ∧ argon2MaxPCost ≤ limits.argon2MaxP then
        argon2Rejects (.argon2 .p) p argon2MinPCost argon2MaxPCost
      else outOfRange .p p argon2MinPCost limits.argon2MaxP
    else do
      let lanes ← unsigned 64 (8 * p)
      if m < lanes then
        let min ← signed 64 (8 * p)
        argon2Rejects (.argon2 .mKib) m min limits.argon2MaxMKib
      else if salt.length < argon2MinSaltLen ∨ argon2MaxSaltLen < salt.length then
        argon2Rejects .saltLen salt.length argon2MinSaltLen argon2MaxSaltLen
      else some (.ok ())

/-! ### No product overflows -/

/-- The check of new parameters is the one over the integers. -/
theorem Argon2Params.new32_eq (t mKib p : Int32) :
    new32 t mKib p = some ((new t.toInt mKib.toInt p.toInt).map fun _ => (t, mKib, p)) := by
  unfold new32 new
  have ht' := @u32OrZero_mem t argon2MinTCost argon2MaxTCostWrite (by decide)
  have hm' := @u32OrZero_mem mKib argon2MinMCostKib argon2MaxMCostKibWrite (by decide)
  have hp' := @u32OrZero_mem p argon2MinPCost argon2MaxPCost (by decide)
  by_cases ht : (argon2MinTCost : ℤ) ≤ t.toInt ∧ t.toInt ≤ argon2MaxTCostWrite
  swap
  · rw [if_pos (mt ht'.1 ht), dif_neg ht]
    rfl
  rw [if_neg (not_not.2 (ht'.2 ht)), dif_pos ht]
  by_cases hm : (argon2MinMCostKib : ℤ) ≤ mKib.toInt ∧ mKib.toInt ≤ argon2MaxMCostKibWrite
  swap
  · rw [if_pos (mt hm'.1 hm), dif_neg hm]
    rfl
  rw [if_neg (not_not.2 (hm'.2 hm)), dif_pos hm]
  by_cases hp : (argon2MinPCost : ℤ) ≤ p.toInt ∧ p.toInt ≤ argon2MaxPCost
  swap
  · rw [if_pos (mt hp'.1 hp), dif_neg hp]
    rfl
  rw [if_neg (not_not.2 (hp'.2 hp)), dif_pos hp]
  -- The bound on the lanes is what keeps their product within 32 bits.
  have hlanes : 0 ≤ 8 * p.toInt ∧ 8 * p.toInt < 2 ^ 31 := by
    rw [argon2MinPCost, argon2MaxPCost] at hp
    omega
  rw [signed_eq (by omega) hlanes.2, Option.bind_eq_bind, Option.bind_some,
    unsigned_eq hlanes.1 (by omega), Option.getD_some]
  by_cases hl : 8 * p.toInt ≤ mKib.toInt
  · rw [if_neg (by omega), dif_pos hl]
    rfl
  · rw [if_pos (by omega), dif_neg hl]
    rfl

/-- The screen of a derivation is the one over the integers. -/
theorem screenArgon2_32_eq (t m p : Int32) (salt : Bytes) (limits : DecryptLimits) :
    screenArgon2_32 t m p salt limits = some (screenArgon2 t.toInt m.toInt p.toInt salt limits) := by
  have ht := t.toInt_lt
  have hm := m.toInt_lt
  have hp := p.toInt_lt
  unfold screenArgon2_32 screenArgon2
  by_cases ht0 : t.toInt < 0
  · rw [unsigned, if_neg (by omega), if_pos ht0]
  by_cases hm0 : m.toInt < 0
  · rw [if_neg ht0, if_pos hm0, unsigned_eq (n := t.toInt) (by omega) (by omega), unsigned,
      if_neg (by omega)]
  by_cases hp0 : p.toInt < 0
  · rw [if_neg ht0, if_neg hm0, if_pos hp0, unsigned_eq (n := t.toInt) (by omega) (by omega),
      unsigned_eq (n := m.toInt) (by omega) (by omega), unsigned, if_neg (by omega)]
  rw [if_neg ht0, if_neg hm0, if_neg hp0, unsigned_eq (n := t.toInt) (by omega) (by omega),
    unsigned_eq (n := m.toInt) (by omega) (by omega),
    unsigned_eq (n := p.toInt) (by omega) (by omega)]
  obtain ⟨t', ht'⟩ := Int.eq_ofNat_of_zero_le (Int.not_lt.1 ht0)
  obtain ⟨m', hm'⟩ := Int.eq_ofNat_of_zero_le (Int.not_lt.1 hm0)
  obtain ⟨p', hp'⟩ := Int.eq_ofNat_of_zero_le (Int.not_lt.1 hp0)
  rw [ht', hm', hp']
  have hct : ((t' : ℤ) < argon2MinTCost ∨ (limits.argon2MaxT : ℤ) < t') ↔
      (t' < argon2MinTCost ∨ limits.argon2MaxT < t') := by omega
  have hcm : ((m' : ℤ) < argon2MinMCostKib ∨ (limits.argon2MaxMKib : ℤ) < m') ↔
      (m' < argon2MinMCostKib ∨ limits.argon2MaxMKib < m') := by omega
  have hcp : ((p' : ℤ) < argon2MinPCost ∨ ((min limits.argon2MaxP argon2MaxPCost : ℕ) : ℤ) < p') ↔
      (p' < argon2MinPCost ∨ min limits.argon2MaxP argon2MaxPCost < p') := by omega
  have hcr : ((p' : ℤ) > argon2MaxPCost ∧ argon2MaxPCost ≤ limits.argon2MaxP) ↔
      (p' > argon2MaxPCost ∧ argon2MaxPCost ≤ limits.argon2MaxP) := by omega
  have hcl : ((m' : ℤ) < 8 * p') ↔ (m' < (8 * (p' : ℤ)).toNat) := by omega
  -- Below 2 ^ 32, eight times as much fits either wide type.
  have hu : unsigned 64 (8 * p') = some (8 * (p' : ℤ)).toNat := unsigned_eq (by omega) (by omega)
  have hs : signed 64 (8 * p') = some (8 * (p' : ℤ)) := signed_eq (by omega) (by omega)
  simp only [Int.toNat_natCast, hu, hs, hct, hcm, hcp, hcr, hcl, Option.bind_eq_bind, Option.bind_some]
  split_ifs <;> rfl

/-! ### What is accepted -/

/-- New parameters are accepted in their ranges, with room for every lane. -/
theorem Argon2Params.new_ok_iff {t mKib p : ℤ} : (∃ params, new t mKib p = .ok params) ↔
    (argon2MinTCost ≤ t ∧ t ≤ argon2MaxTCostWrite) ∧
      (argon2MinMCostKib ≤ mKib ∧ mKib ≤ argon2MaxMCostKibWrite) ∧
        (argon2MinPCost ≤ p ∧ p ≤ argon2MaxPCost) ∧ 8 * p ≤ mKib := by
  unfold new
  split_ifs with ht hm hp hl
  · exact ⟨fun _ => ⟨ht, hm, hp, hl⟩, fun _ => ⟨_, rfl⟩⟩
  · exact ⟨nofun, fun h => absurd h.2.2.2 hl⟩
  · exact ⟨nofun, fun h => absurd h.2.2.1 hp⟩
  · exact ⟨nofun, fun h => absurd h.2.1 hm⟩
  · exact ⟨nofun, fun h => absurd h.1 ht⟩

/-- The screen accepts, with a salt that Argon2 takes, what is in the ranges of the
    limits, with room for every lane. -/
theorem screenArgon2_ok_iff {t m p : ℤ} {salt : Bytes} {limits : DecryptLimits}
    (hsalt : argon2MinSaltLen ≤ salt.length ∧ salt.length ≤ argon2MaxSaltLen) :
    screenArgon2 t m p salt limits = .ok () ↔
      (argon2MinTCost ≤ t ∧ t ≤ limits.argon2MaxT) ∧
        (argon2MinMCostKib ≤ m ∧ m ≤ limits.argon2MaxMKib) ∧
          (argon2MinPCost ≤ p ∧ p ≤ limits.argon2MaxP ∧ p ≤ argon2MaxPCost) ∧ 8 * p ≤ m := by
  unfold screenArgon2
  simp only []
  split_ifs with h1 h2 h3 h4 h5 h6 h7 h8 h9
  all_goals first
    | exact ⟨nofun, by simp only [argon2MinTCost, argon2MinMCostKib, argon2MinPCost] at *; omega⟩
    | exact ⟨fun _ => by omega, fun _ => rfl⟩

/-- The two checks accept the same parameters, and all of these pass the screen of the
    most permissive limits. -/
theorem Argon2Params.new_iff_screen {t m p : ℤ} {salt : Bytes}
    (hsalt : argon2MinSaltLen ≤ salt.length ∧ salt.length ≤ argon2MaxSaltLen) :
    ((∃ params, new t m p = .ok params) ↔ screenArgon2 t m p salt writeLimits = .ok ()) ∧
      (screenArgon2 t m p salt writeLimits = .ok () →
        screenArgon2 t m p salt .permissive = .ok ()) := by
  rw [new_ok_iff, screenArgon2_ok_iff hsalt, screenArgon2_ok_iff hsalt]
  simp only [writeLimits, DecryptLimits.permissive, argon2MaxTCostWrite, argon2MaxMCostKibWrite,
    argon2MaxPCost]
  omega

/-- The two checks accept the same parameters, no product in them overflows, and what
    they accept passes the screen of the most permissive limits. -/
theorem argon2Checks_agree (t m p : Int32) (salt : Bytes)
    (hsalt : salt.length = wholesomeProfile.saltLen) :
    (∃ result, Argon2Params.new32 t m p = some result) ∧
      (∀ limits, ∃ result, screenArgon2_32 t m p salt limits = some result) ∧
        (Argon2Params.new32 t m p = some (.ok (t, m, p)) ↔
          screenArgon2_32 t m p salt writeLimits = some (.ok ())) ∧
          (Argon2Params.new32 t m p = some (.ok (t, m, p)) →
            screenArgon2_32 t m p salt .permissive = some (.ok ())) := by
  have hsalt' : argon2MinSaltLen ≤ salt.length ∧ salt.length ≤ argon2MaxSaltLen := by
    rw [hsalt]
    decide
  have hnew : Argon2Params.new32 t m p = some (.ok (t, m, p)) ↔
      ∃ params, Argon2Params.new t.toInt m.toInt p.toInt = .ok params := by
    rw [Argon2Params.new32_eq]
    rcases Argon2Params.new t.toInt m.toInt p.toInt with e | params
    · exact ⟨nofun, nofun⟩
    · exact ⟨fun _ => ⟨params, rfl⟩, fun _ => rfl⟩
  obtain ⟨hagree, hpermissive⟩ := @Argon2Params.new_iff_screen t.toInt m.toInt p.toInt salt hsalt'
  refine ⟨⟨_, Argon2Params.new32_eq t m p⟩, fun limits => ⟨_, screenArgon2_32_eq t m p salt limits⟩,
    ?_, fun h => ?_⟩
  · rw [hnew, hagree, screenArgon2_32_eq, Option.some.injEq]
  · rw [screenArgon2_32_eq, hpermissive (hagree.1 (hnew.1 h))]

/-- LibreOffice's parameters. -/
theorem argon2Checks_sample :
    Argon2Params.new32 3 65536 4 = some (.ok (3, 65536, 4)) ∧
      screenArgon2_32 3 65536 4 (List.replicate 16 0) .permissive = some (.ok ()) := by
  have hnew : Argon2Params.new32 3 65536 4 = some (.ok (3, 65536, 4)) := rfl
  exact ⟨hnew, (argon2Checks_agree 3 65536 4 (List.replicate 16 0) rfl).2.2.2 hnew⟩

end OdfCrypto
