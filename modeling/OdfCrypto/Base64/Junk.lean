import OdfCrypto.Base64

/-!
# Base64 among other characters

The reader of base64 takes the characters it knows, and no others.

* `decodeB64Checked_eq`: it never indexes outside of its tables;
* `JunkIn.decode_eq`: characters that are in no alphabet change nothing, wherever
  they are put in, also within the padding.
-/

namespace OdfCrypto

open ByteStream Text

/-! ### Checked indices -/

/-- The value of a character, if it is in the alphabet, where its index is in the table. -/
def b64Lookup (c : Char) : Option (Option ℕ) :=
  if '+' ≤ c ∧ c ≤ 'z' then
    let byte := c.toNat % 2 ^ 8
    if byte < '+'.toNat then none
    else
      (b64Table[byte - '+'.toNat]?).map fun value => if value = 255 then none else some value
  else some none

/-- `decodeB64From`, where the indices are in the tables. -/
def decodeB64CheckedFrom (acc : List ℕ) (got : ℕ) : Str → Option Bytes
  | [] => some []
  | c :: s =>
    match b64Lookup c with
    | none => none
    | some none => decodeB64CheckedFrom acc got s
    | some (some byte) =>
      if 4 ≤ acc.length then none
      else
        let acc := acc ++ [byte]
        let got := if c = '=' ∧ acc.length > 2 then got - 1 else got
        if acc.length = 4 then (decodeB64CheckedFrom [] 3 s).map fun rest => b64Quad acc got ++ rest
        else decodeB64CheckedFrom acc got s

def decodeB64Checked (s : Str) : Option Bytes := decodeB64CheckedFrom [] 3 s

/-- The characters that are looked up are those between two ASCII characters. -/
theorem b64_range {c : Char} (h : '+' ≤ c ∧ c ≤ 'z') : 43 ≤ c.toNat ∧ c.toNat ≤ 122 :=
  ⟨h.1, h.2⟩

/-- The index of such a character is in the table. -/
theorem b64Lookup_eq (c : Char) : b64Lookup c = some (b64Value c) := by
  unfold b64Lookup b64Value
  by_cases hc : '+' ≤ c ∧ c ≤ 'z'
  · have hr := b64_range hc
    have hlt : c.toNat - 43 < b64Table.length := by
      rw [show b64Table.length = 80 from rfl]
      omega
    rw [if_pos hc, if_pos hc, show '+'.toNat = 43 from rfl, Nat.mod_eq_of_lt (by omega)]
    dsimp only
    rw [if_neg (by omega), List.getElem?_eq_getElem hlt, Option.map_some, Option.filter_some]
    generalize b64Table[c.toNat - 43] = value
    by_cases hv : value = 255
    · rw [if_pos hv, if_neg (by simp [hv])]
    · rw [if_neg hv, if_pos (by simp [hv])]
  · rw [if_neg hc, if_neg hc]

theorem decodeB64CheckedFrom_eq {acc : List ℕ} {got : ℕ} {s : Str} (h : acc.length < 4) :
    decodeB64CheckedFrom acc got s = some (decodeB64From acc got s) := by
  induction s generalizing acc got with
  | nil => rfl
  | cons c s ih =>
    rw [decodeB64CheckedFrom, decodeB64From, b64Lookup_eq]
    rcases b64Value c with - | byte
    · exact ih h
    · dsimp only
      rw [if_neg (Nat.not_le.2 h)]
      by_cases hfull : (acc ++ [byte]).length = 4
      · rw [if_pos hfull, if_pos hfull, ih (by decide)]
        rfl
      · rw [if_neg hfull, if_neg hfull, ih]
        rw [List.length_append, List.length_singleton] at hfull ⊢
        omega

/-- No text is read outside of the tables. -/
theorem decodeB64Checked_eq (s : Str) : decodeB64Checked s = some (decodeB64 s) :=
  decodeB64CheckedFrom_eq (by decide)

/-! ### Junk -/

/-- A character that means nothing to the reader; it takes a backtick for zero bits. -/
def isB64Junk (c : Char) : Bool := c ∉ b64Alphabet ∧ c ≠ '=' ∧ c ≠ '`'

/-- Some junk was put into a text. -/
inductive JunkIn : Str → Str → Prop
  | nil : JunkIn [] []
  | keep {s t : Str} (c : Char) (h : JunkIn s t) : JunkIn (c :: s) (c :: t)
  | junk {s t : Str} {c : Char} (hc : isB64Junk c) (h : JunkIn s t) : JunkIn s (c :: t)

/-- All characters of the table are in the alphabet, but for those two. -/
theorem b64Value_table : ∀ i < 80, isB64Junk (Char.ofNat (43 + i)) = true →
    b64Value (Char.ofNat (43 + i)) = none := by decide +kernel

theorem b64Value_junk {c : Char} (h : isB64Junk c) : b64Value c = none := by
  by_cases hc : '+' ≤ c ∧ c ≤ 'z'
  · have hr := b64_range hc
    have hi := b64Value_table (c.toNat - 43) (by omega)
    rw [Nat.add_sub_cancel' hr.1, Char.ofNat_toNat] at hi
    exact hi h
  · exact if_neg hc

/-- Junk is skipped, whatever was read before. -/
theorem JunkIn.decode_eq {s t : Str} (h : JunkIn s t) (acc : List ℕ) (got : ℕ) :
    decodeB64From acc got t = decodeB64From acc got s := by
  induction h generalizing acc got with
  | nil => rfl
  | keep c _ ih =>
    rw [decodeB64From, decodeB64From]
    rcases b64Value c with - | byte
    · exact ih acc got
    · dsimp only
      split
      · rw [ih]
      · exact ih ..
  | junk hc _ ih =>
    rw [decodeB64From, b64Value_junk hc]
    exact ih acc got

/-- What was written as base64 is read back, also with junk put in; and no text at all is
    read outside of the tables. -/
theorem decodeB64_roundTrips :
    (∀ x : Bytes, decodeB64 (encodeB64 x) = x) ∧
      (∀ x t, JunkIn (encodeB64 x) t → decodeB64 t = x) ∧
      ∀ s, decodeB64Checked s = some (decodeB64 s) := by
  refine ⟨decodeB64_encodeB64, fun x t h => ?_, decodeB64Checked_eq⟩
  rw [decodeB64, h.decode_eq]
  exact decodeB64_encodeB64 x

end OdfCrypto
