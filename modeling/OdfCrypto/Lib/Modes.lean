import OdfCrypto.Lib.Write

/-!
# Modes of block ciphers

Decryption in two modes of a block cipher: chained blocks (`cbcDecrypt`), and
feedback of the ciphertext, a byte at a time (`cfbDecrypt`).

* `cbcDecrypt_append`, `cfbDecrypt_append`: a text can be decrypted in parts.
-/

namespace BlockModes

open ByteStream

section

variable (D : Bytes → Bytes) (size : ℕ)

/-- Blocks decrypted under the inverse `D` of the cipher, each chained to the
    one before it. -/
def cbcBlocks : (prev : Bytes) → List Bytes → Bytes
  | _, [] => []
  | prev, block :: blocks => List.zipWith (· ^^^ ·) (D block) prev ++ cbcBlocks block blocks

/-- Whole blocks of `size` bytes decrypted. -/
def cbcDecrypt (prev ct : Bytes) : Bytes := cbcBlocks D prev (chunks size ct)

/-- The block that what comes after some ciphertext is chained to. -/
def cbcChain (prev ct : Bytes) : Bytes := (chunks size ct).getLastD prev

variable {D size}

theorem cbcBlocks_append (prev : Bytes) (a b : List Bytes) :
    cbcBlocks D prev (a ++ b) = cbcBlocks D prev a ++ cbcBlocks D (a.getLastD prev) b := by
  induction a generalizing prev with
  | nil => rfl
  | cons block a ih =>
    rw [List.cons_append, cbcBlocks, ih, cbcBlocks, List.append_assoc, List.getLastD_cons]

theorem cbcDecrypt_append (hs : 0 < size) (prev : Bytes) {a : Bytes} (ha : size ∣ a.length)
    (b : Bytes) : cbcDecrypt D size prev (a ++ b) =
      cbcDecrypt D size prev a ++ cbcDecrypt D size (cbcChain size prev a) b := by
  rw [cbcDecrypt, chunks_append hs ha, cbcBlocks_append]
  rfl

theorem cbcChain_append (hs : 0 < size) (prev : Bytes) {a : Bytes} (ha : size ∣ a.length)
    (b : Bytes) : cbcChain size prev (a ++ b) = cbcChain size (cbcChain size prev a) b := by
  rw [cbcChain, chunks_append hs ha, cbcChain, cbcChain, List.getLastD_eq_getLast?,
    List.getLastD_eq_getLast?, List.getLast?_append]
  cases (chunks size b).getLast? with
  | none => rw [Option.none_or, List.getLastD_eq_getLast?]; rfl
  | some block => rfl

theorem length_cbcChain (hs : 0 < size) {prev ct : Bytes} (hp : prev.length = size)
    (hd : size ∣ ct.length) : (cbcChain size prev ct).length = size := by
  rw [cbcChain, List.getLastD_eq_getLast?]
  rcases hl : (chunks size ct).getLast? with - | block
  · exact hp
  · exact length_of_mem_chunks hs hd (List.mem_of_getLast? hl)

/-- Whole blocks are decrypted to as many bytes. -/
theorem length_cbcDecrypt (hs : 0 < size) (hD : ∀ block, (D block).length = size)
    {prev ct : Bytes} (hp : prev.length = size) (hd : size ∣ ct.length) :
    (cbcDecrypt D size prev ct).length = ct.length := by
  have hblocks : ∀ (blocks : List Bytes) (prev : Bytes), prev.length = size →
      (∀ b ∈ blocks, b.length = size) → (cbcBlocks D prev blocks).length = blocks.flatten.length := by
    intro blocks
    induction blocks with
    | nil => intro prev _ _; rfl
    | cons block blocks ih =>
      intro prev hp hall
      have hb := hall block List.mem_cons_self
      rw [cbcBlocks, List.length_append, List.length_zipWith, hD, hp, List.flatten_cons,
        List.length_append, hb, ih block hb fun b hm => hall b (List.mem_cons_of_mem _ hm),
        Nat.min_self]
  rw [cbcDecrypt, hblocks _ _ hp fun b hm => length_of_mem_chunks hs hd hm, flatten_chunks hs]

end

section

variable (E : Bytes → Bytes) (size : ℕ)

/-- The state of ciphertext feedback: the mask of the block under way, and as
    much of its ciphertext as there has been. -/
structure Cfb where
  mask : Bytes
  block : Bytes := []
  deriving DecidableEq

/-- Decrypt one byte. -/
def Cfb.byte (s : Cfb) (c : UInt8) : UInt8 × Cfb :=
  let block := s.block ++ [c]
  (c ^^^ s.mask.getD s.block.length 0,
    if block.length = size then ⟨E block, []⟩ else { s with block })

/-- Decrypt some bytes. -/
def cfbDecrypt : Cfb → Bytes → Bytes × Cfb
  | s, [] => ([], s)
  | s, c :: ct =>
    let (p, s) := s.byte E size c
    let (plain, s) := cfbDecrypt s ct
    (p :: plain, s)

variable {E size}

theorem cfbDecrypt_append (s : Cfb) (a b : Bytes) :
    cfbDecrypt E size s (a ++ b) =
      ((cfbDecrypt E size s a).1 ++ (cfbDecrypt E size (cfbDecrypt E size s a).2 b).1,
        (cfbDecrypt E size (cfbDecrypt E size s a).2 b).2) := by
  induction a generalizing s with
  | nil => rfl
  | cons c a ih => simp only [List.cons_append, cfbDecrypt, ih]

@[simp] theorem length_cfbDecrypt (s : Cfb) (ct : Bytes) :
    (cfbDecrypt E size s ct).1.length = ct.length := by
  induction ct generalizing s with
  | nil => rfl
  | cons c ct ih => simp only [cfbDecrypt, List.length_cons, ih]

end

end BlockModes
