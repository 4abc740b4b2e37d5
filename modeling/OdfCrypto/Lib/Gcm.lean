import OdfCrypto.Lib.Write

/-!
# Galois/Counter mode

GCM with a 96-bit IV over any block function `E : Bytes → Bytes`, as functions of
whole texts, with what lets a text be processed in pieces:

* `ctr E iv p data`: `data` with the keystream from byte `p` on (`ctr_append`,
  and `ctr_ctr`, by which it is its own inverse);
* `feed`, `feedAll`: GHASH a byte at a time, with the bytes of a block under way
  (`feedAll_append`, `feedAll_of_lt`, `feedAll_of_eq`);
* `tag E iv ct`: the tag of a ciphertext without additional data;
* `gctr`, `ghash`, `authTag`: the construction of SP 800-38D, a block at a time
  over the whole text, and that it comes to the same (`ctr_eq_gctr`,
  `tag_eq_authTag`).
-/

namespace Gcm

open ByteStream

/-- The `n` low bytes of `v`, the highest first. -/
def bigEndian (n v : ℕ) : Bytes :=
  match n with
  | 0 => []
  | n + 1 => UInt8.ofNat (v / 2 ^ (8 * n)) :: bigEndian n v

@[simp] theorem length_bigEndian (n v : ℕ) : (bigEndian n v).length = n := by
  induction n with
  | zero => rfl
  | succ n ih => rw [bigEndian, List.length_cons, ih]

/-! ### Counter mode -/

section

variable (E : Bytes → Bytes) (iv : Bytes)

/-- The `i`-th counter block. -/
def counterBlock (i : ℕ) : Bytes := iv ++ bigEndian 4 (i + 1)

/-- A byte of the keystream. -/
def keystream (p : ℕ) : UInt8 := (E (counterBlock iv (p / 16))).getD (p % 16) 0

/-- The data, with the keystream from byte `p` on. -/
def ctr (p : ℕ) : Bytes → Bytes
  | [] => []
  | b :: data => (b ^^^ keystream E iv p) :: ctr (p + 1) data

@[simp] theorem length_ctr (p : ℕ) (data : Bytes) : (ctr E iv p data).length = data.length := by
  induction data generalizing p with
  | nil => rfl
  | cons b data ih => rw [ctr, List.length_cons, List.length_cons, ih]

/-- The keystream goes on where it stopped. -/
theorem ctr_append (p : ℕ) (a b : Bytes) :
    ctr E iv p (a ++ b) = ctr E iv p a ++ ctr E iv (p + a.length) b := by
  induction a generalizing p with
  | nil => rfl
  | cons x a ih =>
    rw [List.cons_append, ctr, ih, ctr, List.cons_append, List.length_cons, Nat.add_right_comm,
      Nat.add_assoc]

/-- Counter mode undoes itself. -/
@[simp] theorem ctr_ctr (p : ℕ) (data : Bytes) : ctr E iv p (ctr E iv p data) = data := by
  induction data generalizing p with
  | nil => rfl
  | cons b data ih =>
    rw [ctr, ctr, ih, UInt8.xor_assoc, UInt8.xor_self, UInt8.xor_zero]

end

/-! ### GHASH -/

/-- A block as a polynomial, the first bit its constant term. -/
def toBits (block : Bytes) : BitVec 128 :=
  BitVec.ofNat 128 (block.foldl (fun v b => v * 256 + b.toNat) 0)

def ofBits (x : BitVec 128) : Bytes := bigEndian 16 x.toNat

/-- Add `v` times the bits of `x` from the `i`-th last on, `v` doubling. -/
def mulFrom (x : BitVec 128) : (i : ℕ) → (z v : BitVec 128) → BitVec 128
  | 0, z, _ => z
  | i + 1, z, v =>
    mulFrom x i (if x.getLsbD i then z ^^^ v else z)
      (if v.getLsbD 0 then (v >>> 1) ^^^ (0xE1 : BitVec 128) <<< 120 else v >>> 1)

/-- The product of two blocks. -/
def mul (x y : BitVec 128) : BitVec 128 := mulFrom x 128 0 y

/-- GHASH of one more block. -/
def absorbBlock (h y : BitVec 128) (block : Bytes) : BitVec 128 := mul (y ^^^ toBits block) h

/-- GHASH of one more byte: the state, and the bytes of the block under way. -/
def feed (h : BitVec 128) (s : BitVec 128 × Bytes) (b : UInt8) : BitVec 128 × Bytes :=
  if s.2.length + 1 < 16 then (s.1, s.2 ++ [b]) else (absorbBlock h s.1 (s.2 ++ [b]), [])

def feedAll (h : BitVec 128) (s : BitVec 128 × Bytes) (data : Bytes) : BitVec 128 × Bytes :=
  data.foldl (feed h) s

/-- The state once the block under way is padded with zeros, if there is one. -/
def padBlock (h : BitVec 128) (s : BitVec 128 × Bytes) : BitVec 128 :=
  if s.2.isEmpty then s.1 else absorbBlock h s.1 (s.2 ++ List.replicate (16 - s.2.length) 0)

section

variable {h y : BitVec 128} {acc a b data : Bytes} {s : BitVec 128 × Bytes}

@[simp] theorem feedAll_nil : feedAll h s [] = s := rfl

theorem feedAll_append : feedAll h s (a ++ b) = feedAll h (feedAll h s a) b :=
  List.foldl_append

/-- Bytes that complete no block are collected. -/
theorem feedAll_of_lt (hl : acc.length + data.length < 16) :
    feedAll h (y, acc) data = (y, acc ++ data) := by
  induction data generalizing acc with
  | nil => simp
  | cons b data ih =>
    have hf : feed h (y, acc) b = (y, acc ++ [b]) := if_pos (by simp at hl ⊢; omega)
    rw [feedAll, List.foldl_cons, hf, ← feedAll, ih (by simp at hl ⊢; omega), List.append_assoc]
    rfl

/-- Bytes that complete a block are absorbed with it. -/
theorem feedAll_of_eq (hl : acc.length + data.length = 16) (ha : acc.length < 16) :
    feedAll h (y, acc) data = (absorbBlock h y (acc ++ data), []) := by
  obtain ⟨init, b, rfl⟩ : ∃ init b, data = init ++ [b] :=
    ⟨data.dropLast, data.getLast (by rintro rfl; simp at hl; omega),
      (List.dropLast_append_getLast _).symm⟩
  simp only [List.length_append, List.length_singleton] at hl
  have hf : feed h (y, acc ++ init) b = (absorbBlock h y (acc ++ init ++ [b]), []) :=
    if_neg (by simp only [List.length_append]; omega)
  have hi : feedAll h (y, acc) init = (y, acc ++ init) := feedAll_of_lt (by omega)
  rw [feedAll_append, hi, ← List.append_assoc, ← hf]
  rfl

/-- There is always less than a block under way. -/
theorem feedAll_length (hs : s.2.length < 16) : (feedAll h s data).2.length < 16 := by
  induction data generalizing s with
  | nil => exact hs
  | cons b data ih =>
    refine ih ?_
    unfold feed
    split
    · simpa using ‹_›
    · simp

/-- Whole blocks leave none under way. -/
theorem feedAll_whole (hl : 16 ∣ data.length) : (feedAll h (y, []) data).2 = [] := by
  obtain ⟨n, hn⟩ := hl
  induction n generalizing data y with
  | zero => simp [List.length_eq_zero_iff.1 hn]
  | succ n ih =>
    have h16 : ([] : Bytes).length + (data.take 16).length = 16 := by simp; omega
    rw [← List.take_append_drop 16 data, feedAll_append, feedAll_of_eq h16 (by simp)]
    exact ih (by simp; omega)

end

/-! ### The tag -/

/-- The two lengths that are absorbed last. -/
def lengths (n : ℕ) : Bytes := List.replicate 8 0 ++ bigEndian 8 (n * 8 % 2 ^ 64)

section

variable (E : Bytes → Bytes) (iv : Bytes)

/-- The key of GHASH. -/
def hashKey : BitVec 128 := toBits (E (List.replicate 16 0))

/-- What the tag is masked with: the start of the keystream. -/
def mask : Bytes := ctr E iv 0 (List.replicate 16 0)

/-- The tag of the ciphertext that has been absorbed, of length `n`. -/
def tagOf (s : BitVec 128 × Bytes) (n : ℕ) : Bytes :=
  List.zipWith (· ^^^ ·)
    (ofBits (absorbBlock (hashKey E) (padBlock (hashKey E) s) (lengths n))) (mask E iv)

/-- The tag of a ciphertext. -/
def tag (ct : Bytes) : Bytes := tagOf E iv (feedAll (hashKey E) (0, []) ct) ct.length

@[simp] theorem length_tag (ct : Bytes) : (tag E iv ct).length = 16 := by
  simp [tag, tagOf, ofBits, mask]

end

/-! ### The construction, a block at a time -/

/-- The number that some bytes are, the highest first. -/
def ofBigEndian (bs : Bytes) : ℕ := bs.foldl (fun v b => v * 2 ^ 8 + b.toNat) 0

/-- The next counter block: its last four bytes, counted up. -/
def inc32 (block : Bytes) : Bytes := block.take 12 ++ bigEndian 4 (ofBigEndian (block.drop 12) + 1)

/-- The first counter block of a 96-bit IV. -/
def counter0 (iv : Bytes) : Bytes := iv ++ bigEndian 4 1

/-- The blocks of a text, each with the next counter block enciphered. -/
def gctrBlocks (E : Bytes → Bytes) (counter : Bytes) : List Bytes → Bytes
  | [] => []
  | block :: blocks =>
    List.zipWith (· ^^^ ·) block (E counter) ++ gctrBlocks E (inc32 counter) blocks

/-- GCTR: a text with the keystream from a counter block on. -/
def gctr (E : Bytes → Bytes) (counter data : Bytes) : Bytes :=
  gctrBlocks E counter (chunks 16 data)

/-- A text with zeros up to the end of its last block. -/
def pad (data : Bytes) : Bytes := data ++ List.replicate ((16 - data.length % 16) % 16) 0

/-- GHASH of whole blocks. -/
def ghash (h : BitVec 128) (data : Bytes) : BitVec 128 :=
  (chunks 16 data).foldl (absorbBlock h) 0

/-- The tag of a ciphertext without additional data. -/
def authTag (E : Bytes → Bytes) (iv ct : Bytes) : Bytes :=
  gctr E (counter0 iv) (ofBits (ghash (hashKey E) (pad ct ++ lengths ct.length)))

theorem bigEndian_mod (n v : ℕ) : bigEndian n (v % 2 ^ (8 * n)) = bigEndian n v := by
  suffices ∀ m, n ≤ m → bigEndian n (v % 2 ^ (8 * m)) = bigEndian n v from this n le_rfl
  intro m hm
  induction n with
  | zero => rfl
  | succ n ih =>
    rw [bigEndian, bigEndian, ih (by omega)]
    congr 1
    rw [show 8 * m = 8 * n + 8 * (m - n) by omega, Nat.pow_add, Nat.mod_mul_right_div_self,
      show 8 * (m - n) = 8 + 8 * (m - n - 1) by omega, Nat.pow_add]
    apply UInt8.toNat_inj.1
    rw [UInt8.toNat_ofNat', UInt8.toNat_ofNat', Nat.mod_mul_right_mod]

theorem ofBigEndian_bigEndian (n v : ℕ) : ofBigEndian (bigEndian n v) = v % 2 ^ (8 * n) := by
  suffices ∀ u, (bigEndian n v).foldl (fun v b => v * 2 ^ 8 + b.toNat) u =
      u * 2 ^ (8 * n) + v % 2 ^ (8 * n) from (this 0).trans (by omega)
  induction n with
  | zero => intro u; simp [bigEndian, Nat.mod_one]
  | succ n ih =>
    intro u
    rw [bigEndian, List.foldl_cons, ih, UInt8.toNat_ofNat', Nat.mul_succ, Nat.pow_add, Nat.mod_mul,
      Nat.add_mul, Nat.mul_assoc, Nat.mul_comm (2 ^ 8), Nat.mul_comm (_ % 2 ^ 8)]
    omega

/-- The counter blocks follow one another. -/
theorem inc32_counterBlock {iv : Bytes} (hiv : iv.length = 12) (i : ℕ) :
    inc32 (counterBlock iv i) = counterBlock iv (i + 1) := by
  rw [inc32, counterBlock, List.take_left' hiv, List.drop_left' hiv, ofBigEndian_bigEndian,
    ← bigEndian_mod, Nat.mod_add_mod, bigEndian_mod, counterBlock]

/-- Any two texts, xored byte by byte over the shorter one. -/
theorem ctr_eq_zipWith {E : Bytes → Bytes} {iv block : Bytes} {i k : ℕ}
    (hE : (E (counterBlock iv i)).length = 16) (hk : k + block.length ≤ 16) :
    ctr E iv (16 * i + k) block =
      List.zipWith (· ^^^ ·) block ((E (counterBlock iv i)).drop k) := by
  induction block generalizing k with
  | nil => rfl
  | cons b block ih =>
    rw [List.length_cons] at hk
    have hlt : k < (E (counterBlock iv i)).length := by omega
    rw [ctr, keystream, show (16 * i + k) / 16 = i by omega, show (16 * i + k) % 16 = k by omega,
      Nat.add_assoc, ih (by omega), List.drop_eq_getElem_cons hlt, List.zipWith_cons_cons,
      List.getD_eq_getElem?_getD, List.getElem?_eq_getElem hlt, Option.getD_some]

section

variable {E : Bytes → Bytes} {iv : Bytes}

/-- Counter mode by position is GCTR. -/
theorem ctr_eq_gctrBlocks (hiv : iv.length = 12) (hE : ∀ block, (E block).length = 16) (i : ℕ)
    (data : Bytes) : ctr E iv (16 * i) data = gctr E (counterBlock iv i) data := by
  induction hn : data.length using Nat.strong_induction_on generalizing i data with
  | _ n ih =>
    by_cases h : data = []
    · subst h
      rfl
    have hpos := List.length_pos_iff.2 h
    have hfirst := @ctr_eq_zipWith E iv (data.take 16) i 0 (hE _) (by rw [List.length_take]; omega)
    have hrest : ctr E iv (16 * i + (data.take 16).length) (data.drop 16) =
        gctr E (counterBlock iv (i + 1)) (data.drop 16) := by
      rw [← ih _ (by rw [List.length_drop]; omega) (i + 1) (data.drop 16) rfl]
      by_cases hle : 16 ≤ data.length
      · rw [List.length_take, Nat.min_eq_left hle, Nat.mul_succ]
      · rw [List.drop_eq_nil_of_le (by omega)]
        rfl
    rw [gctr, chunks_of_ne_nil (by decide) h, gctrBlocks, inc32_counterBlock hiv, ← gctr, ← hrest]
    conv_lhs => rw [← List.take_append_drop 16 data, ctr_append]
    rw [Nat.add_zero, List.drop_zero] at hfirst
    rw [hfirst]

theorem ctr_eq_gctr (hiv : iv.length = 12) (hE : ∀ block, (E block).length = 16) (data : Bytes) :
    ctr E iv 16 data = gctr E (inc32 (counter0 iv)) data := by
  rw [show counter0 iv = counterBlock iv 0 from rfl, inc32_counterBlock hiv]
  exact ctr_eq_gctrBlocks hiv hE 1 data

theorem pad_append {a : Bytes} (ha : 16 ∣ a.length) (b : Bytes) : pad (a ++ b) = a ++ pad b := by
  rw [pad, pad, List.append_assoc, List.length_append]
  congr 4
  omega

theorem dvd_length_pad (data : Bytes) : 16 ∣ (pad data).length := by
  rw [pad, List.length_append, List.length_replicate]
  omega

/-- GHASH a byte at a time is GHASH a block at a time. -/
theorem padBlock_feedAll (h y : BitVec 128) (data : Bytes) :
    padBlock h (feedAll h (y, []) data) = (chunks 16 (pad data)).foldl (absorbBlock h) y := by
  induction hn : data.length using Nat.strong_induction_on generalizing y data with
  | _ n ih =>
    by_cases hle : 16 ≤ data.length
    · -- a whole block, and the rest
      have h16 : (data.take 16).length = 16 := by rw [List.length_take]; omega
      have hdvd : 16 ∣ (data.take 16).length := ⟨1, by omega⟩
      conv_lhs => rw [← List.take_append_drop 16 data]
      conv_rhs => rw [← List.take_append_drop 16 data]
      have hfeed : feedAll h (y, []) (data.take 16) = (absorbBlock h y (data.take 16), []) :=
        feedAll_of_eq (by rw [h16]; rfl) (by decide)
      rw [feedAll_append, hfeed, pad_append hdvd, chunks_append (by decide) hdvd,
        chunks_of_length_eq (by decide) h16, ih _ (by rw [List.length_drop]; omega) _ _ rfl]
      rfl
    · rw [feedAll_of_lt (by simpa using hle), List.nil_append]
      by_cases h0 : data = []
      · subst h0
        rfl
      -- the last block, and zeros
      have hpos := List.length_pos_iff.2 h0
      have hmod : (16 - data.length % 16) % 16 = 16 - data.length := by omega
      have hp : pad data = data ++ List.replicate (16 - data.length) 0 := by rw [pad, hmod]
      have hlen : (pad data).length = 16 := by
        rw [hp, List.length_append, List.length_replicate]
        omega
      rw [chunks_of_length_eq (by decide) hlen, padBlock, if_neg (by simpa using h0), hp,
        List.foldl_cons, List.foldl_nil]

theorem ghash_lengths (h : BitVec 128) (ct : Bytes) (n : ℕ) :
    ghash h (pad ct ++ lengths n) = absorbBlock h (padBlock h (feedAll h (0, []) ct)) (lengths n) := by
  have hl : (lengths n).length = 16 := by simp [lengths]
  rw [ghash, chunks_append (by decide) (dvd_length_pad ct), chunks_of_length_eq (by decide) hl,
    List.foldl_append, padBlock_feedAll]
  rfl

/-- The tag is the one of the construction. -/
theorem tag_eq_authTag (hE : ∀ block, (E block).length = 16) (ct : Bytes) :
    tag E iv ct = authTag E iv ct := by
  have hmask : mask E iv = E (counterBlock iv 0) := by
    have hz := @ctr_eq_zipWith E iv (List.replicate 16 0) 0 0 (hE _) (by decide)
    rw [Nat.mul_zero, Nat.add_zero, List.drop_zero] at hz
    rw [mask, hz]
    refine List.ext_getElem (by simp [hE]) fun i _ _ => ?_
    rw [List.getElem_zipWith, List.getElem_replicate, UInt8.zero_xor]
  rw [tag, tagOf, authTag, ghash_lengths, gctr,
    chunks_of_length_eq (by decide) (by exact length_bigEndian 16 _), gctrBlocks, gctrBlocks,
    List.append_nil, hmask]
  rfl

end

end Gcm
