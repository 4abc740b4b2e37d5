import OdfCrypto.Lib.Read
import OdfCrypto.Lib.Text

/-!
# Numbers and bytes in manifest attributes

LibreOffice's lenient readers of integers and of base64, the crate's base64
writer, and the references and white space of attribute values (`manifest.rs`).
-/

namespace OdfCrypto

open ByteStream Text

/-! ### Integers -/

def loIsWhitespace (c : Char) : Bool :=
  let u := c.toNat
  if u ≤ 32 ∧ u ≠ 0 then true
  else if ¬ (0x2000 ≤ u ∧ u ≤ 0x2029) then false
  else u ≤ 0x200B ∨ u ≥ 0x2028

/-- Read digits on from `n`, up to `limit`; `none` past it. -/
def loDigits (limit : ℕ) : ℕ → Str → Option ℕ
  | n, [] => some n
  | n, c :: s =>
    if c.isDigit then
      let d := c.toNat - '0'.toNat
      if n > limit / 10 ∨ (n = limit / 10 ∧ d > limit % 10) then none
      else loDigits limit (n * 10 + d) s
    else some n

/-- `OUString::toInt`: one optional sign and ASCII digits, `0` on overflow and
    where there is no digit. -/
def parseLoInt (s : Str) (min max : ℤ) : ℤ :=
  match s.dropWhile loIsWhitespace with
  | '-' :: s => -(loDigits min.natAbs 0 s).getD 0
  | '+' :: s => (loDigits max.toNat 0 s).getD 0
  | s => (loDigits max.toNat 0 s).getD 0

def parseI32 (s : Str) : ℤ := parseLoInt s (-2 ^ 31) (2 ^ 31 - 1)

def parseI64 (s : Str) : ℤ := parseLoInt s (-2 ^ 63) (2 ^ 63 - 1)

theorem le_ofDigitChars (s : Str) (n : ℕ) : n ≤ Nat.ofDigitChars 10 s n := by
  induction s generalizing n with
  | nil => simp
  | cons c s ih => rw [Nat.ofDigitChars_cons]; exact le_trans (by omega) (ih _)

theorem digit_lt {c : Char} (hc : c.isDigit) : c.toNat - '0'.toNat < 10 := by
  have hr : 48 ≤ c.toNat ∧ c.toNat ≤ 57 := by
    simpa [Char.isDigit, UInt32.le_iff_toNat_le] using hc
  rw [show '0'.toNat = 48 from rfl]
  omega

/-- The digits that come first are read as the number they write, up to the limit. -/
theorem loDigits_eq {limit n : ℕ} (s : Str) (hn : n ≤ limit) :
    loDigits limit n s =
      if Nat.ofDigitChars 10 (s.takeWhile Char.isDigit) n ≤ limit then
        some (Nat.ofDigitChars 10 (s.takeWhile Char.isDigit) n)
      else none := by
  induction s generalizing n with
  | nil => simp [loDigits, hn]
  | cons c s ih =>
    rw [loDigits]
    by_cases hc : c.isDigit
    · have hle := le_ofDigitChars (s.takeWhile Char.isDigit) (10 * n + (c.toNat - '0'.toNat))
      rw [if_pos hc, List.takeWhile_cons_of_pos hc, Nat.ofDigitChars_cons]
      have hd := digit_lt hc
      dsimp only
      rw [Nat.mul_comm n]
      generalize c.toNat - '0'.toNat = d at hle hd ⊢
      -- the test on the quotient and the remainder is one on the next number
      by_cases hover : limit < 10 * n + d
      · rw [if_pos (by omega), if_neg (by omega)]
      · rw [if_neg (by omega), ih (by omega)]
    · rw [if_neg hc, List.takeWhile_cons_of_neg hc, Nat.ofDigitChars_nil, if_pos hn]

theorem loIsWhitespace_of_isDigit {c : Char} (hc : c.isDigit) : loIsWhitespace c = false := by
  have hr : 48 ≤ c.toNat ∧ c.toNat ≤ 57 := by
    simpa [Char.isDigit, UInt32.le_iff_toNat_le] using hc
  have h1 : ¬ (c.toNat ≤ 32 ∧ c.toNat ≠ 0) := by omega
  have h2 : ¬ (0x2000 ≤ c.toNat ∧ c.toNat ≤ 0x2029) := by omega
  simp [loIsWhitespace, h1, h2]

/-- Digits are neither white space nor a sign. -/
theorem parseLoInt_digits {s : Str} (min max : ℤ) (hs : ∀ c ∈ s, c.isDigit) :
    parseLoInt s min max = (loDigits max.toNat 0 s).getD 0 := by
  cases s with
  | nil => rfl
  | cons c s =>
    have hc : c.isDigit := hs c List.mem_cons_self
    have hm : c ≠ '-' := by
      rintro rfl
      exact absurd hc (by decide)
    have hp : c ≠ '+' := by
      rintro rfl
      exact absurd hc (by decide)
    rw [parseLoInt, List.dropWhile_cons_of_neg (by simp [loIsWhitespace_of_isDigit hc])]
    split <;> simp_all

/-- A number is read back from its decimal digits. -/
theorem parseLoInt_toDigits {n : ℕ} {min max : ℤ} (h : (n : ℤ) ≤ max) :
    parseLoInt (Nat.toDigits 10 n) min max = n := by
  have hd : ∀ c ∈ Nat.toDigits 10 n, c.isDigit :=
    fun c hc => Nat.isDigit_of_mem_toDigits (by decide) (by decide) hc
  have hrun : (Nat.toDigits 10 n).takeWhile Char.isDigit = Nat.toDigits 10 n :=
    List.takeWhile_eq_self_iff.2 hd
  rw [parseLoInt_digits _ _ hd, loDigits_eq _ (Nat.zero_le _), hrun, Nat.ofDigitChars_ten_toDigits,
    if_pos (by omega), Option.getD_some]

/-! ### Base64 -/

/-- The values of the characters from `+` to `z`, 255 for those that have none. -/
def b64Table : List ℕ :=
  [62, 255, 255, 255, 63, 52, 53, 54, 55, 56, 57, 58, 59, 60, 61, 255, 255, 255, 0, 255, 255,
   255, 0, 1, 2, 3, 4, 5, 6, 7, 8, 9, 10, 11, 12, 13, 14, 15, 16, 17, 18, 19, 20, 21, 22, 23,
   24, 25, 255, 255, 255, 255, 255, 0, 26, 27, 28, 29, 30, 31, 32, 33, 34, 35, 36, 37, 38, 39,
   40, 41, 42, 43, 44, 45, 46, 47, 48, 49, 50, 51]

/-- The value of a character, if it is in the alphabet. -/
def b64Value (c : Char) : Option ℕ :=
  if '+' ≤ c ∧ c ≤ 'z' then
    (b64Table[c.toNat - '+'.toNat]?).filter fun byte => byte ≠ 255
  else none

/-- The bytes of a complete quad, `got` of them. -/
def b64Quad (acc : List ℕ) (got : ℕ) : Bytes :=
  let v := acc.foldl (fun v byte => v * 64 + byte) 0
  (UInt8.ofNat (v / 2 ^ 16)) ::
    ((if got > 1 then [UInt8.ofNat (v / 2 ^ 8)] else []) ++
      (if got > 2 then [UInt8.ofNat v] else []))

/-- Decode on, with the characters `acc` of the quad under way. -/
def decodeB64From (acc : List ℕ) (got : ℕ) : Str → Bytes
  | [] => []
  | c :: s =>
    match b64Value c with
    | none => decodeB64From acc got s
    | some byte =>
      let acc := acc ++ [byte]
      let got := if c = '=' ∧ acc.length > 2 then got - 1 else got
      if acc.length = 4 then b64Quad acc got ++ decodeB64From [] 3 s
      else decodeB64From acc got s

/-- `Base64::decodeSomeChars`: skip what is not in the alphabet, emit complete quads. -/
def decodeB64 (s : Str) : Bytes := decodeB64From [] 3 s

def b64Alphabet : List Char :=
  ascii "ABCDEFGHIJKLMNOPQRSTUVWXYZabcdefghijklmnopqrstuvwxyz0123456789+/"

/-- The character of the six bits of `n` from bit `shift`. -/
def b64Char (n shift : ℕ) : Char := b64Alphabet.getD (n / 2 ^ shift % 64) '='

/-- Plain base64 with `=` padding. -/
def encodeB64 : Bytes → Str
  | [] => []
  | [b0] =>
    let n := b0.toNat * 2 ^ 16
    [b64Char n 18, b64Char n 12, '=', '=']
  | [b0, b1] =>
    let n := b0.toNat * 2 ^ 16 + b1.toNat * 2 ^ 8
    [b64Char n 18, b64Char n 12, b64Char n 6, '=']
  | b0 :: b1 :: b2 :: bytes =>
    let n := b0.toNat * 2 ^ 16 + b1.toNat * 2 ^ 8 + b2.toNat
    b64Char n 18 :: b64Char n 12 :: b64Char n 6 :: b64Char n 0 :: encodeB64 bytes

/-- The value of a character of the alphabet is its position; it is no padding. -/
theorem b64Value_alphabet : ∀ i < 64, b64Value (b64Alphabet.getD i '=') = some i ∧
    b64Alphabet.getD i '=' ≠ '=' := by decide

theorem b64Value_char (n shift : ℕ) : b64Value (b64Char n shift) = some (n / 2 ^ shift % 64) :=
  (b64Value_alphabet _ (Nat.mod_lt _ (by decide))).1

theorem b64Char_ne_pad (n shift : ℕ) : b64Char n shift ≠ '=' :=
  (b64Value_alphabet _ (Nat.mod_lt _ (by decide))).2

theorem b64Value_pad : b64Value '=' = some 0 := by decide

/-- A full quad decodes to its three bytes. -/
theorem decodeB64From_quad (n : ℕ) (s : Str) :
    decodeB64From [] 3 (b64Char n 18 :: b64Char n 12 :: b64Char n 6 :: b64Char n 0 :: s) =
      b64Quad [n / 2 ^ 18 % 64, n / 2 ^ 12 % 64, n / 2 ^ 6 % 64, n / 2 ^ 0 % 64] 3 ++
        decodeB64From [] 3 s := by
  simp [decodeB64From, b64Value_char, b64Char_ne_pad]

/-- A quad with one padding character decodes to two bytes. -/
theorem decodeB64From_pad (n : ℕ) :
    decodeB64From [] 3 [b64Char n 18, b64Char n 12, b64Char n 6, '='] =
      b64Quad [n / 2 ^ 18 % 64, n / 2 ^ 12 % 64, n / 2 ^ 6 % 64, 0] 2 := by
  simp [decodeB64From, b64Value_char, b64Char_ne_pad, b64Value_pad]

/-- A quad with two padding characters decodes to one byte. -/
theorem decodeB64From_pad_pad (n : ℕ) :
    decodeB64From [] 3 [b64Char n 18, b64Char n 12, '=', '='] =
      b64Quad [n / 2 ^ 18 % 64, n / 2 ^ 12 % 64, 0, 0] 1 := by
  simp [decodeB64From, b64Value_char, b64Char_ne_pad, b64Value_pad]

/-- The value of a quad. -/
def b64Sum (v0 v1 v2 v3 : ℕ) : ℕ := ((v0 * 64 + v1) * 64 + v2) * 64 + v3

theorem b64Quad_one (v0 v1 v2 v3 : ℕ) :
    b64Quad [v0, v1, v2, v3] 1 = [UInt8.ofNat (b64Sum v0 v1 v2 v3 / 2 ^ 16)] := by
  simp [b64Quad, b64Sum]

theorem b64Quad_two (v0 v1 v2 v3 : ℕ) : b64Quad [v0, v1, v2, v3] 2 =
    [UInt8.ofNat (b64Sum v0 v1 v2 v3 / 2 ^ 16), UInt8.ofNat (b64Sum v0 v1 v2 v3 / 2 ^ 8)] := by
  simp [b64Quad, b64Sum]

theorem b64Quad_three (v0 v1 v2 v3 : ℕ) : b64Quad [v0, v1, v2, v3] 3 =
    [UInt8.ofNat (b64Sum v0 v1 v2 v3 / 2 ^ 16), UInt8.ofNat (b64Sum v0 v1 v2 v3 / 2 ^ 8),
      UInt8.ofNat (b64Sum v0 v1 v2 v3)] := by
  simp [b64Quad, b64Sum]

/-- A byte is found again in a number that has it as its last one. -/
theorem ofNat_eq {v : ℕ} {b : UInt8} (h : v % 256 = b.toNat) : UInt8.ofNat v = b := by
  rw [← UInt8.toNat_inj, UInt8.toNat_ofNat', h]

/-- The reader of base64 undoes its writer. -/
@[simp] theorem decodeB64_encodeB64 (bytes : Bytes) : decodeB64 (encodeB64 bytes) = bytes := by
  unfold decodeB64
  fun_induction encodeB64 bytes with
  | case1 => rfl
  | case2 b0 n =>
    have h0 := b0.toNat_lt
    rw [decodeB64From_pad_pad, b64Quad_one, ofNat_eq (b := b0)]
    unfold b64Sum
    omega
  | case3 b0 b1 n =>
    have h0 := b0.toNat_lt
    have h1 := b1.toNat_lt
    rw [decodeB64From_pad, b64Quad_two, ofNat_eq (b := b0), ofNat_eq (b := b1)]
    all_goals unfold b64Sum; omega
  | case4 b0 b1 b2 bytes n ih =>
    have h0 := b0.toNat_lt
    have h1 := b1.toNat_lt
    have h2 := b2.toNat_lt
    rw [decodeB64From_quad, ih, b64Quad_three, ofNat_eq (b := b0), ofNat_eq (b := b1),
      ofNat_eq (b := b2)]
    · rfl
    all_goals unfold b64Sum; omega

/-! ### References -/

/-- The value of a digit in a radix up to 16. -/
def digitValue (radix : ℕ) (c : Char) : Option ℕ :=
  let v :=
    if c.isDigit then some (c.toNat - '0'.toNat)
    else if 'a' ≤ c ∧ c ≤ 'f' then some (c.toNat - 'a'.toNat + 10)
    else if 'A' ≤ c ∧ c ≤ 'F' then some (c.toNat - 'A'.toNat + 10)
    else none
  v.filter fun d => d < radix

/-- `u32::from_str_radix`: digits, at least one, after an optional `+`. -/
def parseU32 (radix : ℕ) (s : Str) : Option ℕ :=
  let digits := match s with
    | '+' :: s => s
    | s => s
  if digits.isEmpty then none
  else
    (digits.foldlM (fun n c => (digitValue radix c).map fun d => n * radix + d) 0).filter
      fun n => n < 2 ^ 32

/-- `char::from_u32`. -/
def charFromU32 (n : ℕ) : Option Char :=
  if h : n.isValidChar then some (Char.ofNatAux n h) else none

/-- What a reference stands for; nothing, if it is unknown. -/
def expandRef : Str → Str
  | '#' :: rest =>
    let code := match rest with
      | 'x' :: hex => parseU32 16 hex
      | 'X' :: hex => parseU32 16 hex
      | _ => parseU32 10 rest
    (code.bind charFromU32).toList
  | name =>
    if name = ascii "amp" then ['&']
    else if name = ascii "lt" then ['<']
    else if name = ascii "gt" then ['>']
    else if name = ascii "apos" then ['\'']
    else if name = ascii "quot" then ['"']
    else []

/-- Normalize on, in the reference `ent` if there is one. -/
def normalizeFrom : Option Str → Str → Str
  | none, [] => []
  | some ent, [] => expandRef ent
  | some ent, c :: s =>
    if c = ';' then expandRef ent ++ normalizeFrom none s else normalizeFrom (some (ent ++ [c])) s
  | none, '\r' :: '\n' :: s => ' ' :: normalizeFrom none s
  | none, c :: s =>
    if c = '&' then normalizeFrom (some []) s
    else if c = '\r' ∨ c = '\n' ∨ c = '\t' then ' ' :: normalizeFrom none s
    else c :: normalizeFrom none s

/-- Literal tabs and line ends become spaces; character references do not. -/
def normalizeAttrValue (raw : Str) : Str := normalizeFrom none raw

/-- The XML writer's escape of a character: the five markup characters. -/
def escapeChar (c : Char) : Str :=
  if c = '<' then ascii "&lt;"
  else if c = '>' then ascii "&gt;"
  else if c = '&' then ascii "&amp;"
  else if c = '\'' then ascii "&apos;"
  else if c = '"' then ascii "&quot;"
  else [c]

/-- The XML writer's escape of an attribute value. -/
def escape (s : Str) : Str := s.flatMap escapeChar

/-- Whether normalization leaves a character as it is. -/
def isAttrStable (c : Char) : Bool := c ≠ '\t' ∧ c ≠ '\n' ∧ c ≠ '\r'

/-- The characters of a reference up to its end are collected. -/
theorem normalizeFrom_ref {name : Str} (h : ';' ∉ name) (ent s : Str) :
    normalizeFrom (some ent) (name ++ ';' :: s) =
      expandRef (ent ++ name) ++ normalizeFrom none s := by
  induction name generalizing ent with
  | nil => simp [normalizeFrom]
  | cons c name ih =>
    have hc : c ≠ ';' := fun h' => h (h' ▸ List.mem_cons_self)
    simp only [List.cons_append, normalizeFrom, if_neg hc]
    rw [ih (fun h' => h (List.mem_cons_of_mem _ h')), List.append_assoc]
    rfl

/-- A reference is replaced by what it stands for. -/
theorem normalizeFrom_amp {name : Str} (h : ';' ∉ name) (s : Str) :
    normalizeFrom none ('&' :: (name ++ ';' :: s)) = expandRef name ++ normalizeFrom none s := by
  rw [normalizeFrom]
  · rw [if_pos rfl, normalizeFrom_ref h, List.nil_append]
  · simp

/-- The reader undoes the escape of a character. -/
theorem normalizeFrom_escapeChar {c : Char} (hc : isAttrStable c) (s : Str) :
    normalizeFrom none (escapeChar c ++ s) = c :: normalizeFrom none s := by
  have ref : ∀ (name s : Str) {c' : Char}, ';' ∉ name → expandRef name = [c'] →
      ∀ lit, lit = '&' :: (name ++ [';']) →
      normalizeFrom none (lit ++ s) = c' :: normalizeFrom none s := by
    rintro name s c' hn he _ rfl
    rw [List.cons_append, List.append_assoc, List.singleton_append, normalizeFrom_amp hn, he]
    rfl
  by_cases h₁ : c = '<'
  · subst h₁; exact ref (ascii "lt") s (by decide) (by decide) _ (by decide)
  by_cases h₂ : c = '>'
  · subst h₂; exact ref (ascii "gt") s (by decide) (by decide) _ (by decide)
  by_cases h₃ : c = '&'
  · subst h₃; exact ref (ascii "amp") s (by decide) (by decide) _ (by decide)
  by_cases h₄ : c = '\''
  · subst h₄; exact ref (ascii "apos") s (by decide) (by decide) _ (by decide)
  by_cases h₅ : c = '"'
  · subst h₅; exact ref (ascii "quot") s (by decide) (by decide) _ (by decide)
  have hs : escapeChar c = [c] := by simp [escapeChar, h₁, h₂, h₃, h₄, h₅]
  have hst : c ≠ '\t' ∧ c ≠ '\n' ∧ c ≠ '\r' := by simpa [isAttrStable] using hc
  rw [hs, List.singleton_append, normalizeFrom]
  · rw [if_neg h₃, if_neg (by tauto)]
  · exact fun _ h => absurd h hst.2.2

/-- The reader undoes the escape of a value without tabs and line ends. -/
theorem normalizeAttrValue_escape {s : Str} (h : ∀ c ∈ s, isAttrStable c) :
    normalizeAttrValue (escape s) = s := by
  unfold normalizeAttrValue
  induction s with
  | nil => rfl
  | cons c s ih =>
    rw [escape, List.flatMap_cons, normalizeFrom_escapeChar (h c List.mem_cons_self)]
    exact congrArg (c :: ·) (ih fun c hc => h c (List.mem_cons_of_mem _ hc))

end OdfCrypto
