import OdfCrypto.Lib.Read

/-!
# Little-endian numbers

Numbers as bytes, the lowest first (`le`), and back (`ofLe`): a number that has
room is itself again, another one is cut to the room there is.
-/

namespace ByteStream

/-- The `n` lowest bytes of a number, the lowest first. -/
def le : (n v : ℕ) → Bytes
  | 0, _ => []
  | n + 1, v => UInt8.ofNat v :: le n (v / 2 ^ 8)

/-- The number that some bytes are, the lowest first. -/
def ofLe : Bytes → ℕ
  | [] => 0
  | b :: bs => b.toNat + 2 ^ 8 * ofLe bs

@[simp] theorem length_le (n v : ℕ) : (le n v).length = n := by
  induction n generalizing v with
  | zero => rfl
  | succ n ih => rw [le, List.length_cons, ih]

theorem ofLe_le (n v : ℕ) : ofLe (le n v) = v % 2 ^ (8 * n) := by
  induction n generalizing v with
  | zero => rw [Nat.mul_zero, Nat.pow_zero, Nat.mod_one]; rfl
  | succ n ih =>
    rw [le, ofLe, ih, Nat.mul_succ, Nat.add_comm (8 * n) 8, Nat.pow_add, Nat.mod_mul,
      UInt8.toNat_ofNat']

theorem ofLe_lt (bs : Bytes) : ofLe bs < 2 ^ (8 * bs.length) := by
  induction bs with
  | nil => exact Nat.one_pos
  | cons b bs ih =>
    have hb := b.toNat_lt
    rw [ofLe, List.length_cons, Nat.mul_succ, Nat.pow_add]
    omega

end ByteStream
