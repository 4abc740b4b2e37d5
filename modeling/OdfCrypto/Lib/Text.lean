import Mathlib.Data.Char
import Mathlib.Data.List.Infix
import Mathlib.Data.List.Lex
import Mathlib.Data.List.DropRight

/-!
# Text

Strings as lists of characters, cut at separators, and their UTF-8 encoding:
strict (`utf8Decode`) and lossy, replacing what is malformed (`utf8Lossy`).
Both decoders undo the encoder (`utf8Decode_encode`, `utf8Lossy_encode`), and the
lossy one makes bytes longer by what it replaces (`length_utf8Encode_utf8Lossy`).
-/

namespace Text

/-- A string of characters. -/
abbrev Str := List Char

instance : LawfulBEq Str := inferInstanceAs (LawfulBEq (List Char))

/-- The bytes of a literal. -/
def bytesOf (s : String) : List UInt8 := s.toUTF8.data.toList

/-- The text of an ASCII literal. -/
def ascii (s : String) : Str := (bytesOf s).map fun b => Char.ofNat b.toNat

variable {c x : Char} {s a b : Str}

/-- The text before and after the first `c`. -/
def splitOnce (c : Char) : Str → Option (Str × Str)
  | [] => none
  | x :: s => if x = c then some ([], s) else (splitOnce c s).map fun (a, b) => (x :: a, b)

/-- The text before and after the last `c`. -/
def rsplitOnce (c : Char) : Str → Option (Str × Str)
  | [] => none
  | x :: s =>
    match rsplitOnce c s with
    | some (a, b) => some (x :: a, b)
    | none => if x = c then some ([], s) else none

theorem splitOnce_eq_none : splitOnce c s = none ↔ c ∉ s := by
  induction s with
  | nil => simp [splitOnce]
  | cons x s ih =>
    by_cases h : x = c
    · simp [splitOnce, h]
    · simp [splitOnce, h, ih, Ne.symm h]

theorem splitOnce_eq_some : splitOnce c s = some (a, b) ↔ s = a ++ c :: b ∧ c ∉ a := by
  induction s generalizing a with
  | nil => simp [splitOnce]
  | cons x s ih =>
    by_cases h : x = c
    · subst h
      cases a with
      | nil => simp [splitOnce, eq_comm]
      | cons y a => simp [splitOnce]; grind
    · cases a with
      | nil => simp [splitOnce, h]
      | cons y a => simp [splitOnce, h, ih]; grind

theorem rsplitOnce_eq_none : rsplitOnce c s = none ↔ c ∉ s := by
  induction s with
  | nil => simp [rsplitOnce]
  | cons x s ih =>
    rw [rsplitOnce]
    split
    · next h => simp [mt ih.2 (by simp [h])]
    · next h => simp [ih.1 h, eq_comm]

theorem rsplitOnce_eq_some : rsplitOnce c s = some (a, b) ↔ s = a ++ c :: b ∧ c ∉ b := by
  induction s generalizing a with
  | nil => simp [rsplitOnce]
  | cons x s ih =>
    rw [rsplitOnce]
    split
    · next a' b' h =>
      have hs := rsplitOnce_eq_none.not.1 (by rw [h]; simp)
      cases a with
      | nil => grind
      | cons y a => rw [List.cons_append, List.cons.injEq, and_assoc, ← ih, h]; grind
    · next h =>
      have hs := rsplitOnce_eq_none.1 h
      cases a with
      | nil => grind
      | cons y a => grind

theorem not_mem_of_mem_splitOn {part : Str} (h : part ∈ s.splitOn c) : c ∉ part := by
  induction s generalizing part with
  | nil => simp_all [List.splitOn]
  | cons x s ih =>
    rw [List.splitOn_cons_eq_if_modifyHead] at h
    split at h
    · obtain rfl | h := List.mem_cons.1 h
      · exact List.not_mem_nil
      · exact ih h
    · next hx =>
      cases hs : s.splitOn c with
      | nil => exact absurd hs (List.splitOn_ne_nil c s)
      | cons p ps =>
        rw [hs, List.modifyHead_cons] at h
        rw [hs] at ih
        obtain rfl | h := List.mem_cons.1 h
        · rw [List.mem_cons, not_or]
          exact ⟨fun h => hx (by rw [h]; exact beq_self_eq_true x), ih List.mem_cons_self⟩
        · exact ih (List.mem_cons_of_mem _ h)

/-- Encode a text as UTF-8. -/
def utf8Encode (s : Str) : List UInt8 := s.flatMap String.utf8EncodeChar

@[simp] theorem utf8Encode_nil : utf8Encode [] = [] := rfl

@[simp] theorem utf8Encode_append (s t : Str) : utf8Encode (s ++ t) = utf8Encode s ++ utf8Encode t :=
  List.flatMap_append

/-- The character at the head of some bytes. -/
def decodeChar (bs : List UInt8) : Option Char := (bs.take 4).toByteArray.utf8DecodeChar? 0

theorem decodeChar_encode (c : Char) (bs : List UInt8) :
    decodeChar (String.utf8EncodeChar c ++ bs) = some c := by
  have h := String.length_utf8EncodeChar c
  have h4 := Char.utf8Size_le_four c
  rw [decodeChar, List.take_append, List.take_of_length_le (by omega), List.toByteArray_append]
  exact ByteArray.utf8DecodeChar?_utf8EncodeChar_append

/-- A continuation byte. -/
def isContinuation (b : UInt8) : Bool := 0x80 ≤ b && b ≤ 0xBF

/-- Whether `b₁` can be the second byte of a character of three or four bytes
    that starts with `b₀`. -/
def isSecond (b₀ b₁ : UInt8) : Bool :=
  match b₀.toNat with
  | 0xE0 => 0xA0 ≤ b₁ && b₁ ≤ 0xBF
  | 0xED => 0x80 ≤ b₁ && b₁ ≤ 0x9F
  | 0xF0 => 0x90 ≤ b₁ && b₁ ≤ 0xBF
  | 0xF4 => 0x80 ≤ b₁ && b₁ ≤ 0x8F
  | _ => 0xE1 ≤ b₀ && b₀ ≤ 0xF3 && isContinuation b₁

/-- How many bytes, at the head of bytes that start with no character, make up
    one malformed sequence: the longest start of a character, or one byte. -/
def malformed : List UInt8 → ℕ
  | b₀ :: b₁ :: b₂ :: _ =>
    if isSecond b₀ b₁ then if 0xF0 ≤ b₀ && isContinuation b₂ then 3 else 2 else 1
  | [b₀, b₁] => if isSecond b₀ b₁ then 2 else 1
  | _ => 1

theorem malformed_pos (bs : List UInt8) : 0 < malformed bs := by
  unfold malformed
  split <;> (repeat' split) <;> decide

/-- The text of some bytes, every malformed sequence replaced, decoding
    `fuel` characters at most. -/
def lossy : ℕ → List UInt8 → Str
  | 0, _ => []
  | _, [] => []
  | fuel + 1, bs =>
    match decodeChar bs with
    | some c => c :: lossy fuel (bs.drop c.utf8Size)
    | none => '\uFFFD' :: lossy fuel (bs.drop (malformed bs))

/-- The text of some bytes, every malformed sequence replaced by U+FFFD. -/
def utf8Lossy (bs : List UInt8) : Str := lossy bs.length bs

/-- The text of some bytes, decoding `fuel` characters at most. -/
def strict : ℕ → List UInt8 → Option Str
  | _, [] => some []
  | 0, _ => none
  | fuel + 1, bs => do
    let c ← decodeChar bs
    let s ← strict fuel (bs.drop c.utf8Size)
    return c :: s

/-- The text of some bytes, if they are UTF-8. -/
def utf8Decode (bs : List UInt8) : Option Str := strict bs.length bs

theorem utf8Encode_cons (c : Char) (s : Str) :
    utf8Encode (c :: s) = String.utf8EncodeChar c ++ utf8Encode s := rfl

theorem utf8EncodeChar_ne_nil (c : Char) : String.utf8EncodeChar c ≠ [] := by
  intro h
  have := String.length_utf8EncodeChar c
  have := Char.utf8Size_pos c
  simp_all

theorem drop_utf8Size (c : Char) (bs : List UInt8) :
    (String.utf8EncodeChar c ++ bs).drop c.utf8Size = bs := by
  rw [← String.length_utf8EncodeChar, List.drop_left]

theorem lossy_encode {s : Str} {fuel : ℕ} (h : s.length ≤ fuel) :
    lossy fuel (utf8Encode s) = s := by
  induction s generalizing fuel with
  | nil => cases fuel <;> rfl
  | cons c s ih =>
    obtain ⟨fuel, rfl⟩ : ∃ n, fuel = n + 1 := ⟨fuel - 1, by simp at h; omega⟩
    rw [utf8Encode_cons, lossy.eq_3 _ _ (by simp), decodeChar_encode]
    simp only [drop_utf8Size]
    rw [ih (by simpa using h)]

theorem strict_encode {s : Str} {fuel : ℕ} (h : s.length ≤ fuel) :
    strict fuel (utf8Encode s) = some s := by
  induction s generalizing fuel with
  | nil => cases fuel <;> rfl
  | cons c s ih =>
    obtain ⟨fuel, rfl⟩ : ∃ n, fuel = n + 1 := ⟨fuel - 1, by simp at h; omega⟩
    rw [utf8Encode_cons, strict.eq_3 _ _ (by simp), decodeChar_encode]
    simp [ih (by simpa using h)]

theorem length_le_utf8Encode (s : Str) : s.length ≤ (utf8Encode s).length := by
  induction s with
  | nil => simp
  | cons c s ih =>
    have := List.length_pos_iff.2 (utf8EncodeChar_ne_nil c)
    rw [utf8Encode_cons, List.length_cons, List.length_append]
    omega

/-- Lossy decoding undoes encoding. -/
@[simp] theorem utf8Lossy_encode (s : Str) : utf8Lossy (utf8Encode s) = s :=
  lossy_encode (length_le_utf8Encode s)

/-- Strict decoding undoes encoding. -/
@[simp] theorem utf8Decode_encode (s : Str) : utf8Decode (utf8Encode s) = some s :=
  strict_encode (length_le_utf8Encode s)

/-! ### The length of a lossy decoding -/

theorem utf8Size_le_of_decodeChar {bs : List UInt8} {c : Char} (h : decodeChar bs = some c) :
    c.utf8Size ≤ bs.length := by
  have := ByteArray.le_size_of_utf8DecodeChar?_eq_some h
  simp at this
  omega

theorem malformed_le {bs : List UInt8} (h : bs ≠ []) : malformed bs ≤ min 3 bs.length := by
  unfold malformed
  split
  · split
    · split <;> simp
    · simp
  · split <;> simp
  · have := List.length_pos_iff.2 h
    omega

/-- How much longer the text of some bytes is than they are: each malformed sequence
    becomes three bytes. -/
def growth : ℕ → List UInt8 → ℕ
  | 0, _ => 0
  | _, [] => 0
  | fuel + 1, bs =>
    match decodeChar bs with
    | some c => growth fuel (bs.drop c.utf8Size)
    | none => 3 - malformed bs + growth fuel (bs.drop (malformed bs))

def lossyGrowth (bs : List UInt8) : ℕ := growth bs.length bs

theorem length_utf8Encode_lossy {fuel : ℕ} {bs : List UInt8} (h : bs.length ≤ fuel) :
    (utf8Encode (lossy fuel bs)).length = bs.length + growth fuel bs := by
  -- Each step decodes one character, or replaces a malformed piece of one to three
  -- bytes by three.
  induction fuel generalizing bs with
  | zero =>
    obtain rfl := List.length_eq_zero_iff.1 (Nat.le_zero.1 h)
    rfl
  | succ fuel ih =>
    rcases bs with - | ⟨b, bs⟩
    · rfl
    · rw [lossy.eq_3 _ _ (by simp), growth.eq_3 _ _ (by simp)]
      cases hd : decodeChar (b :: bs) with
      | some c =>
        have hle := utf8Size_le_of_decodeChar hd
        have hpos := Char.utf8Size_pos c
        dsimp only
        rw [utf8Encode_cons, List.length_append, String.length_utf8EncodeChar,
          ih (by rw [List.length_drop]; omega), List.length_drop]
        omega
      | none =>
        have hle := malformed_le (List.cons_ne_nil b bs)
        have hpos := malformed_pos (b :: bs)
        have h3 : (String.utf8EncodeChar '\uFFFD').length = 3 := by decide
        dsimp only
        rw [utf8Encode_cons, List.length_append, h3,
          ih (by rw [List.length_drop]; omega), List.length_drop]
        omega

theorem length_utf8Encode_utf8Lossy (bs : List UInt8) :
    (utf8Encode (utf8Lossy bs)).length = bs.length + lossyGrowth bs :=
  length_utf8Encode_lossy le_rfl

end Text
