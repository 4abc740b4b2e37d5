import OdfCrypto.Encrypt.Params
import OdfCrypto.Lib.Checked

/-!
# Integers of the manifest

`parse_lo_int`, which reads sizes and costs of key derivations, for the ranges of both
integer types it is used with.

* `parseLoInt_eq`: it reads the number that a text writes, if it is in the range;
* `parseLoInt64_eq`: no step of it leaves 64 bits;
* `parseLoInt_written`: every number of the range is read back.
-/

namespace OdfCrypto

open Text

/-- The sign of a text, and what comes after it. -/
def loSign : Str → Bool × Str
  | '-' :: s => (true, s)
  | '+' :: s => (false, s)
  | s => (false, s)

/-- A number with a sign. -/
def withSign (negative : Bool) (n : ℕ) : ℤ := if negative then -n else n

/-- The number that a text writes, if it has a digit: after white space and one sign,
    the digits up to the first other character. -/
def loValue (s : Str) : Option ℤ :=
  let (negative, rest) := loSign (s.dropWhile loIsWhitespace)
  let digits := rest.takeWhile Char.isDigit
  if digits.isEmpty then none else some (withSign negative (Nat.ofDigitChars 10 digits 0))

/-- A number of a range; zero, if there is none or it is out of the range. -/
def inRangeOrZero (min max : ℤ) (v : Option ℤ) : ℤ :=
  (v.filter fun v => min ≤ v ∧ v ≤ max).getD 0

/-- The limits of a range of integers within 64 bits, zero included. -/
structure LoRange (min max : ℤ) : Prop where
  least : -2 ^ 63 ≤ min
  nonpos : min ≤ 0
  nonneg : 0 ≤ max
  most : max < 2 ^ 63

theorem LoRange.i32 : LoRange (-2 ^ 31) (2 ^ 31 - 1) := by constructor <;> decide

theorem LoRange.i64 : LoRange (-2 ^ 63) (2 ^ 63 - 1) := by constructor <;> decide

section

variable {min max : ℤ}

/-! ### What is read -/

/-- How large a number of a sign can be. -/
def loLimit (min max : ℤ) (negative : Bool) : ℕ := if negative then min.natAbs else max.toNat

theorem parseLoInt_sign (s : Str) (min max : ℤ) :
    parseLoInt s min max =
      withSign (loSign (s.dropWhile loIsWhitespace)).1
        ((loDigits (loLimit min max (loSign (s.dropWhile loIsWhitespace)).1) 0
          (loSign (s.dropWhile loIsWhitespace)).2).getD 0) := by
  unfold parseLoInt
  generalize s.dropWhile loIsWhitespace = s
  split
  · rfl
  · rfl
  · next hm hp =>
    rw [loSign.eq_3 s hm hp]
    rfl

/-- A number of a sign is in the range just when it is within its limit. -/
theorem LoRange.withSign_mem (h : LoRange min max) (negative : Bool) (n : ℕ) :
    min ≤ withSign negative n ∧ withSign negative n ≤ max ↔ n ≤ loLimit min max negative := by
  have hneg := h.nonpos
  have hpos := h.nonneg
  rcases negative with - | -
  · rw [show withSign false n = n from rfl, show loLimit min max false = max.toNat from rfl]
    omega
  · rw [show withSign true n = -n from rfl, show loLimit min max true = min.natAbs from rfl]
    omega

/-- What is read is the number that the text writes, if it is in the range. -/
theorem parseLoInt_eq (h : LoRange min max) (s : Str) :
    parseLoInt s min max = inRangeOrZero min max (loValue s) := by
  rw [parseLoInt_sign, loValue]
  rcases loSign (s.dropWhile loIsWhitespace) with ⟨negative, rest⟩
  have hzero : withSign negative 0 = 0 := by rcases negative with - | - <;> rfl
  dsimp only
  rw [loDigits_eq rest (Nat.zero_le _), inRangeOrZero]
  rcases rest.takeWhile Char.isDigit with - | ⟨c, digits⟩
  · rw [Nat.ofDigitChars_nil, if_pos (Nat.zero_le _), Option.getD_some, hzero]
    rfl
  · generalize Nat.ofDigitChars 10 (c :: digits) 0 = n
    have hmem := h.withSign_mem negative n
    rw [List.isEmpty_cons, if_neg Bool.false_ne_true, Option.filter_some]
    by_cases hle : n ≤ loLimit min max negative
    · rw [if_pos hle, if_pos (decide_eq_true (hmem.2 hle)), Option.getD_some, Option.getD_some]
    · rw [if_neg hle, if_neg (by rwa [decide_eq_true_iff, hmem]), Option.getD_none, Option.getD_none,
        hzero]

/-- What is read is in the range, so it fits the type it is read for. -/
theorem parseLoInt_mem (h : LoRange min max) (s : Str) :
    min ≤ parseLoInt s min max ∧ parseLoInt s min max ≤ max := by
  rw [parseLoInt_eq h, inRangeOrZero]
  rcases hv : (loValue s).filter fun v => min ≤ v ∧ v ≤ max with - | v
  · exact ⟨h.nonpos, h.nonneg⟩
  · exact decide_eq_true_iff.1 (Option.filter_eq_some_iff.1 hv).2

/-! ### What is written is read -/

theorem isDigit_decimal {n : ℕ} {c : Char} (h : c ∈ decimal n) : c.isDigit = true :=
  Nat.isDigit_of_mem_toDigits (by decide) (by decide) h

/-- A number is the value of its decimal digits, under a sign. -/
theorem loValue_decimalInt (n : ℤ) : loValue (decimalInt n) = some n := by
  have hne : ∀ n, (decimal n).isEmpty = false := fun n =>
    List.isEmpty_eq_false_iff.2 (Nat.toDigits_ne_nil)
  have hrun : ∀ n, (decimal n).takeWhile Char.isDigit = decimal n := fun n =>
    List.takeWhile_eq_self_iff.2 fun c hc => isDigit_decimal hc
  have hvalue : ∀ n, Nat.ofDigitChars 10 (decimal n) 0 = n := fun n => Nat.ofDigitChars_ten_toDigits
  -- digits are no white space, and no signs
  have hsign : ∀ n, loSign ((decimal n).dropWhile loIsWhitespace) = (false, decimal n) := by
    intro n
    have hdigit := fun c hc => @isDigit_decimal n c hc
    rcases hd : decimal n with - | ⟨c, digits⟩
    · rfl
    · have hc : c.isDigit := hdigit c (by rw [hd]; exact List.mem_cons_self)
      rw [List.dropWhile_cons_of_neg (by rw [loIsWhitespace_of_isDigit hc]; exact Bool.false_ne_true)]
      refine loSign.eq_3 _ ?_ ?_
      · rintro s ⟨⟩
        exact absurd hc (by decide)
      · rintro s ⟨⟩
        exact absurd hc (by decide)
  unfold loValue
  rcases n with n | n
  · rw [show decimalInt (.ofNat n) = decimal n from rfl, hsign]
    dsimp only
    rw [hrun, hne, hvalue, if_neg Bool.false_ne_true]
    rfl
  · have hminus : loSign ((decimalInt (.negSucc n)).dropWhile loIsWhitespace) =
        (true, decimal (n + 1)) := rfl
    rw [hminus]
    dsimp only
    rw [hrun, hne, hvalue, if_neg Bool.false_ne_true]
    rfl

/-- Every number of the range is read back, the least one included. -/
theorem parseLoInt_written (h : LoRange min max) {n : ℤ} (hmin : min ≤ n) (hmax : n ≤ max) :
    parseLoInt (decimalInt n) min max = n := by
  rw [parseLoInt_eq h, loValue_decimalInt, inRangeOrZero, Option.filter_some,
    if_pos (decide_eq_true ⟨hmin, hmax⟩), Option.getD_some]

/-! ### In 64 bits -/

/-- The loop over the digits: the number so far, and whether there was a digit; or
    nothing, past the limit. -/
def loDigits64 (limit : ℕ) : (n : ℕ) → (sawDigit : Bool) → Str → Option (Option (ℕ × Bool))
  | n, sawDigit, [] => some (some (n, sawDigit))
  | n, sawDigit, c :: s =>
    if c.isDigit then
      let d := c.toNat - '0'.toNat
      if n > limit / 10 ∨ (n = limit / 10 ∧ d > limit % 10) then some none
      else
        (Checked.nat 64 (n * 10)).bind fun n =>
          (Checked.add 64 n d).bind fun n => loDigits64 limit n true s
    else some (some (n, sawDigit))

/-- A number with a sign: the least one of the range is taken as it is. -/
def withSign64 (min : ℤ) (negative : Bool) (n : ℕ) : Option ℤ :=
  if negative then
    if n = min.natAbs then some min else (signed 64 n).bind fun n => signed 64 (-n)
  else signed 64 n

/-- `parse_lo_int`, in the integers of the source. -/
def parseLoInt64 (s : Str) (min max : ℤ) : Option ℤ :=
  let (negative, rest) := loSign (s.dropWhile loIsWhitespace)
  (loDigits64 (loLimit min max negative) 0 false rest).bind fun
    | none => some 0
    | some (_, false) => some 0
    | some (n, true) => withSign64 min negative n

/-- No sum of the loop leaves 64 bits, if the limit does not. -/
theorem loDigits64_eq {limit n : ℕ} {sawDigit : Bool} (s : Str) (h : limit < 2 ^ 64) :
    loDigits64 limit n sawDigit s = some ((loDigits limit n s).map fun m =>
      (m, sawDigit || !(s.takeWhile Char.isDigit).isEmpty)) := by
  induction s generalizing n sawDigit with
  | nil => simp [loDigits64, loDigits]
  | cons c s ih =>
    rw [loDigits64, loDigits]
    by_cases hc : c.isDigit
    · rw [if_pos hc, if_pos hc, List.takeWhile_cons_of_pos hc]
      have hd := digit_lt hc
      dsimp only
      generalize c.toNat - '0'.toNat = d at hd ⊢
      by_cases hover : n > limit / 10 ∨ (n = limit / 10 ∧ d > limit % 10)
      · rw [if_pos hover, if_pos hover]
        rfl
      · have hsum : n * 10 + d < 2 ^ 64 := by omega
        rw [if_neg hover, if_neg hover, Checked.nat_of_lt (by omega), Option.bind_some, Checked.add,
          Checked.nat_of_lt hsum, Option.bind_some, ih]
        simp
    · rw [if_neg hc, if_neg hc, List.takeWhile_cons_of_neg hc]
      simp

/-- A number within its limit fits 64 bits with its sign. -/
theorem LoRange.withSign64_eq (h : LoRange min max) {negative : Bool} {n : ℕ}
    (hn : n ≤ loLimit min max negative) :
    withSign64 min negative n = some (withSign negative n) := by
  have hleast := h.least
  have hmost := h.most
  have hneg := h.nonpos
  rcases negative with - | -
  · rw [show loLimit min max false = max.toNat from rfl] at hn
    rw [withSign64, withSign, if_neg Bool.false_ne_true, if_neg Bool.false_ne_true,
      signed_eq (by omega) (by omega)]
  · rw [show loLimit min max true = min.natAbs from rfl] at hn
    rw [withSign64, withSign, if_pos rfl, if_pos rfl]
    by_cases heq : n = min.natAbs
    · rw [if_pos heq, Option.some.injEq]
      omega
    · rw [if_neg heq, signed_eq (by omega) (by omega), Option.bind_some,
        signed_eq (by omega) (by omega)]

/-- No step of the whole function leaves 64 bits. -/
theorem parseLoInt64_eq (h : LoRange min max) (s : Str) :
    parseLoInt64 s min max = some (parseLoInt s min max) := by
  have hlimit : ∀ negative, loLimit min max negative < 2 ^ 64 := by
    have hleast := h.least
    have hmost := h.most
    have hneg := h.nonpos
    intro negative
    unfold loLimit
    split <;> omega
  rw [parseLoInt_sign, parseLoInt64]
  rcases loSign (s.dropWhile loIsWhitespace) with ⟨negative, rest⟩
  have hzero : withSign negative 0 = 0 := by rcases negative with - | - <;> rfl
  dsimp only
  rw [loDigits64_eq rest (hlimit negative), Option.bind_some, loDigits_eq rest (Nat.zero_le _)]
  rcases rest.takeWhile Char.isDigit with - | ⟨c, digits⟩
  · rw [Nat.ofDigitChars_nil, if_pos (Nat.zero_le _), Option.getD_some, hzero]
    rfl
  · generalize Nat.ofDigitChars 10 (c :: digits) 0 = n
    by_cases hle : n ≤ loLimit min max negative
    · rw [if_pos hle, Option.getD_some]
      exact h.withSign64_eq hle
    · rw [if_neg hle, Option.getD_none, hzero]
      rfl

/-- Reading is exact: it gives the number that a text writes if that is in the range,
    and zero otherwise; nothing in between leaves 64 bits; and what is written of a
    number of the range is read as that number. -/
structure ReadsExactly (min max : ℤ) : Prop where
  value : ∀ s, parseLoInt s min max = inRangeOrZero min max (loValue s)
  fits : ∀ s, parseLoInt64 s min max = some (parseLoInt s min max)
  written : ∀ n, min ≤ n → n ≤ max → parseLoInt (decimalInt n) min max = n

theorem LoRange.readsExactly (h : LoRange min max) : ReadsExactly min max :=
  ⟨parseLoInt_eq h, parseLoInt64_eq h, fun _ => parseLoInt_written h⟩

/-- Reading is exact for both integer types. -/
theorem parseLoInt_exact :
    ReadsExactly (-2 ^ 31) (2 ^ 31 - 1) ∧ ReadsExactly (-2 ^ 63) (2 ^ 63 - 1) :=
  ⟨LoRange.i32.readsExactly, LoRange.i64.readsExactly⟩

end

end OdfCrypto
