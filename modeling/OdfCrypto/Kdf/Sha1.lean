import OdfCrypto.Kdf

/-!
# StarOffice's SHA-1 and the real one

What `staroffice_sha1` is compared with: the reference of `sha1_star.py`, which
tests the index of the word after the terminator against a limit (`rtlSha1`), and
SHA-1 with the padding of its standard (`standardSha1`).

* `starofficeSha1_eq_rtl`: StarOffice's digest is the reference with the limit 14;
* `standardSha1_eq_rtl`: SHA-1 is the reference with the limit 15;
* `starofficeSha1_spec`: so they differ for tails of 52 to 55 bytes at most.
-/

namespace OdfCrypto

open ByteStream Text

/-- Fill up with zeros. -/
def ljust (n : ℕ) (bs : Bytes) : Bytes := bs ++ List.replicate (n - bs.length) 0

/-- The bit length of a message. -/
def bitLength (msg : Bytes) : Bytes := Gcm.bigEndian 8 (msg.length * 8 % 2 ^ 64)

/-- The zeros that the standard puts between the terminator and the bit length. -/
def zeroCount (n : ℕ) : ℕ := (119 - n % 64) % 64

/-- A message with the padding of the standard. -/
def standardPadded (msg : Bytes) : Bytes :=
  msg ++ 0x80 :: List.replicate (zeroCount msg.length) 0 ++ bitLength msg

section

variable (P : Prims)

/-- The bytes of a state. -/
def digestOf (state : List UInt32) : Bytes := state.flatMap fun word => Gcm.bigEndian 4 word.toNat

/-- SHA-1. -/
def standardSha1 (msg : Bytes) : Bytes := digestOf (sha1Blocks P sha1Init (standardPadded msg))

/-- The reference: a block of its own for the tail, where the word after the
    terminator has an index of `limit` or more. -/
def rtlSha1 (limit : ℕ) (msg : Bytes) : Bytes :=
  let full := msg.length - msg.length % 64
  let state := sha1Blocks P sha1Init (msg.take full)
  let tail := msg.drop full
  let blk := tail ++ [0x80]
  let i := tail.length / 4 + 1
  let (state, blk) := if limit ≤ i then (P.sha1Compress state (ljust 64 blk), []) else (state, blk)
  digestOf (P.sha1Compress state (ljust 56 blk ++ bitLength msg))

variable {P} {state : List UInt32} {a b msg : Bytes}

/-! ### Blocks -/

/-- Whole blocks come before what is after them. -/
theorem sha1Blocks_append (n : ℕ) (h : a.length = n * 64) :
    sha1Blocks P state (a ++ b) = sha1Blocks P (sha1Blocks P state a) b := by
  have hcount : (a ++ b).length / sha1Block = n + b.length / sha1Block := by
    rw [List.length_append, h, sha1Block]
    omega
  have hfirst : ∀ i ∈ List.range n, ((a ++ b).drop (i * sha1Block)).take sha1Block =
      (a.drop (i * sha1Block)).take sha1Block := by
    intro i hi
    rw [List.mem_range] at hi
    have hle : i * sha1Block + sha1Block ≤ a.length := by
      rw [h, sha1Block]
      omega
    rw [List.drop_append_of_le_length (by omega), List.take_append_of_le_length
      (by rw [List.length_drop]; omega)]
  have hrest : ∀ i, (a ++ b).drop ((n + i) * sha1Block) = b.drop (i * sha1Block) := by
    intro i
    have hn : (n + i) * sha1Block = a.length + i * sha1Block := by rw [h, sha1Block]; omega
    rw [hn, ← List.drop_drop, List.drop_left]
  have ha : a.length / sha1Block = n := by rw [h, sha1Block]; omega
  simp only [sha1Blocks, hcount, List.range_add, List.foldl_append, List.foldl_map, hrest, ha]
  congr 1
  exact List.foldl_ext _ _ _ fun state i hi => by rw [hfirst i hi]

/-- One block. -/
theorem sha1Blocks_one (h : a.length = 64) : sha1Blocks P state a = P.sha1Compress state a := by
  have hcount : a.length / sha1Block = 1 := by rw [h]; rfl
  simp only [sha1Blocks, hcount, List.range_one, List.foldl_cons, List.foldl_nil, Nat.zero_mul,
    List.drop_zero]
  rw [List.take_of_length_le (by rw [h]; exact le_rfl)]

theorem length_bitLength : (bitLength msg).length = 8 := Gcm.length_bigEndian _ _

theorem length_ljust {n : ℕ} (h : a.length ≤ n) : (ljust n a).length = n := by
  rw [ljust, List.length_append, List.length_replicate]
  omega

/-- A tail whose padding fits its block. -/
theorem sha1Blocks_tail_one {k : ℕ} (h : a.length + k = 55) :
    sha1Blocks P state (a ++ 0x80 :: List.replicate k 0 ++ bitLength msg) =
      P.sha1Compress state (ljust 56 (a ++ [0x80]) ++ bitLength msg) := by
  have hk : 56 - (a ++ [(0x80 : UInt8)]).length = k := by
    rw [List.length_append, List.length_singleton]
    omega
  have heq : a ++ 0x80 :: List.replicate k 0 ++ bitLength msg =
      ljust 56 (a ++ [0x80]) ++ bitLength msg := by
    rw [ljust, hk]
    simp only [List.append_assoc, List.cons_append, List.nil_append]
  rw [heq, sha1Blocks_one]
  rw [List.length_append, length_bitLength, length_ljust]
  rw [List.length_append, List.length_singleton]
  omega

/-- A tail whose padding takes a block more. -/
theorem sha1Blocks_tail_two {k : ℕ} (ha : a.length < 64) (h : a.length + k = 119) :
    sha1Blocks P state (a ++ 0x80 :: List.replicate k 0 ++ bitLength msg) =
      P.sha1Compress (P.sha1Compress state (ljust 64 (a ++ [0x80])))
        (ljust 56 [] ++ bitLength msg) := by
  have hk : k = 64 - (a ++ [(0x80 : UInt8)]).length + 56 := by
    rw [List.length_append, List.length_singleton]
    omega
  have hfirst : (ljust 64 (a ++ [0x80])).length = 64 := by
    apply length_ljust
    rw [List.length_append, List.length_singleton]
    omega
  have heq : a ++ 0x80 :: List.replicate k 0 ++ bitLength msg =
      ljust 64 (a ++ [0x80]) ++ (ljust 56 [] ++ bitLength msg) := by
    rw [hk, List.replicate_add, ljust, ljust, List.nil_append, List.length_nil]
    simp only [List.append_assoc, List.cons_append, List.nil_append, Nat.sub_zero]
  rw [heq, sha1Blocks_append 1 (by rw [hfirst]), sha1Blocks_one hfirst, sha1Blocks_one]
  rw [List.length_append, length_bitLength, length_ljust (Nat.zero_le _)]

/-- The tail of a message is what its whole blocks leave. -/
theorem length_tail : (msg.drop (msg.length - msg.length % 64)).length = msg.length % 64 := by
  rw [List.length_drop]
  omega

/-! ### The two digests -/

/-- StarOffice's digest is the reference. -/
theorem starofficeSha1_eq_rtl (msg : Bytes) : starofficeSha1 P msg = rtlSha1 P 14 msg := by
  have ht := @length_tail msg
  have hlt : msg.length % 64 < 64 := Nat.mod_lt _ (by decide)
  unfold starofficeSha1 rtlSha1
  simp only [sha1Block, ht]
  by_cases h : msg.length % 64 ≥ 52
  · -- The terminator is in word 13 at least.
    rw [if_pos h, if_pos (by omega)]
    exact congrArg digestOf (sha1Blocks_tail_two (by rw [ht]; exact hlt) (by rw [ht]; omega))
  · rw [if_neg h, if_neg (by omega)]
    exact congrArg digestOf (sha1Blocks_tail_one (by rw [ht]; omega))

/-- SHA-1 is the reference, with a limit of one word more. -/
theorem standardSha1_eq_rtl (msg : Bytes) : standardSha1 P msg = rtlSha1 P 15 msg := by
  have ht := @length_tail msg
  have hlt : msg.length % 64 < 64 := Nat.mod_lt _ (by decide)
  have hsplit : standardPadded msg = msg.take (msg.length - msg.length % 64) ++
      (msg.drop (msg.length - msg.length % 64) ++ 0x80 :: List.replicate (zeroCount msg.length) 0 ++
        bitLength msg) := by
    rw [standardPadded, List.append_assoc (msg.drop _), ← List.append_assoc (msg.take _),
      List.take_append_drop, List.append_assoc]
  have hwhole : (msg.take (msg.length - msg.length % 64)).length = msg.length / 64 * 64 := by
    rw [List.length_take]
    omega
  unfold standardSha1 rtlSha1
  rw [hsplit, sha1Blocks_append _ hwhole]
  simp only [ht]
  by_cases h : msg.length % 64 ≥ 56
  · rw [if_pos (by omega)]
    exact congrArg digestOf (sha1Blocks_tail_two (by rw [ht]; exact hlt)
      (by rw [ht, zeroCount]; omega))
  · rw [if_neg (by omega)]
    exact congrArg digestOf (sha1Blocks_tail_one (by rw [ht, zeroCount]; omega))

variable (P) in
/-- StarOffice's digest is the reference with a spurious block where the word after the
    terminator has the index 14 or more, and it is SHA-1 wherever the tail of the
    message is not one of 52 to 55 bytes. -/
theorem starofficeSha1_spec (msg : Bytes) :
    starofficeSha1 P msg = rtlSha1 P 14 msg ∧
      (¬ (52 ≤ msg.length % 64 ∧ msg.length % 64 ≤ 55) →
        starofficeSha1 P msg = standardSha1 P msg) := by
  refine ⟨starofficeSha1_eq_rtl msg, fun h => ?_⟩
  rw [starofficeSha1_eq_rtl, standardSha1_eq_rtl]
  unfold rtlSha1
  simp only [length_tail]
  -- Only there are the two limits on different sides of the word after the terminator.
  by_cases h56 : msg.length % 64 ≥ 56
  · rw [if_pos (by omega), if_pos (by omega)]
  · rw [if_neg (by omega), if_neg (by omega)]

end

end OdfCrypto
