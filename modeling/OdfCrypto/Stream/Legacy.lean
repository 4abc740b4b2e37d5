import OdfCrypto.Lib.Modes
import OdfCrypto.Stream.Gcm

/-!
# Legacy streams

What reads the members of the other two ciphers (`stream.rs`):
`CbcDecryptReader`, which holds back the last block until it knows whether it
ends in padding, `BlowfishDecryptReader`, and `ChecksumGate`, which compares the
checksum of the first window before it hands anything out.

* `CbcDecryptReader.refill_true`: all that a refill can do;
* `ChecksumGate.verify_ok`: what a verification that succeeds has compared.
-/

namespace OdfCrypto

open ByteStream Text BlockModes

/-! ### AES-CBC -/

/-- A reader of the plaintext of an AES-CBC member. -/
structure CbcDecryptReader (P : Prims) (ρ : Type) where
  src : ρ
  key : Bytes
  /-- The block that the next one is chained to. -/
  chain : Bytes
  /-- The bytes of the last refill, of which those from `start` to `stop` are
      still to be handed out. -/
  buf : Bytes := []
  start : ℕ := 0
  stop : ℕ := 0
  held : Option Bytes := none
  finished : Bool := false

namespace CbcDecryptReader

variable {P : Prims} {ρ : Type}

def new (P : Prims) (src : ρ) (key iv : Bytes) : Except Fault (CbcDecryptReader P ρ) :=
  if key.length ≠ 16 ∧ key.length ≠ 24 ∧ key.length ≠ 32 then
    .error (.internal (ascii "an AES key length the screen passed"))
  else if iv.length ≠ aesCbcIvLen then
    .error (.internal (ascii "an AES-CBC key or IV length the screen passed"))
  else .ok { src, key, chain := iv }

/-- The room that a block held back takes of the buffer. -/
def off (d : CbcDecryptReader P ρ) : ℕ := if d.held.isSome then aesBlockLen else 0

/-- How much ciphertext is read at a time. -/
def room (d : CbcDecryptReader P ρ) : ℕ := (chunk - d.off) / aesBlockLen * aesBlockLen

/-- The error of a member that is not a whole number of blocks. -/
def notBlockMultiple : IoError := (Fault.badParameters (.member .notBlockMultiple)).intoIo

/-- Strip the padding of the last block, `n` bytes in. -/
def finish (d : CbcDecryptReader P ρ) (n : ℕ) : Except IoError Bool × CbcDecryptReader P ρ :=
  let pad := (d.buf.getD (n - 1) 0).toNat
  if pad < 1 ∨ aesBlockLen < pad ∨ n < pad then (.error Fault.wrongPassword.intoIo, d)
  else (.ok true, { d with stop := n - pad, held := none, finished := true })

/-- Hold back the last block, `n` bytes in. -/
def holdBack (d : CbcDecryptReader P ρ) (n : ℕ) : CbcDecryptReader P ρ :=
  { d with stop := n - aesBlockLen, held := some ((d.buf.drop (n - aesBlockLen)).take aesBlockLen) }

variable [Read ρ IoError]

/-- Fill the buffer: whether there was something to fill it with. -/
def refill (d : CbcDecryptReader P ρ) : Except IoError Bool × CbcDecryptReader P ρ :=
  if d.finished then (.ok false, d)
  else
    match readFull d.src d.room with
    | (.error e, src) => (.error e, { d with src })
    | (.ok ct, src) =>
      if ct.length % aesBlockLen ≠ 0 then (.error notBlockMultiple, { d with src })
      else
        let n := d.off + ct.length
        let filled := { d with
          src
          chain := cbcChain aesBlockLen d.chain ct
          buf := d.held.getD [] ++ cbcDecrypt (P.aesInverse d.key) aesBlockLen d.chain ct }
        if n = 0 then (.error notBlockMultiple, filled)
        else if ct.length < d.room then { filled with start := 0 }.finish n
        else (.ok true, { filled with start := 0 }.holdBack n)

/-- Hand out what is there of the buffer. -/
def handOut (d : CbcDecryptReader P ρ) (n : ℕ) : Bytes × CbcDecryptReader P ρ :=
  let m := min (d.stop - d.start) n
  ((d.buf.drop d.start).take m, { d with start := d.start + m })

/-- One pass of a read: a refill, as long as there is nothing to hand out. -/
def readStep (n : ℕ) (d : CbcDecryptReader P ρ) :
    (Except IoError Bytes × CbcDecryptReader P ρ) ⊕ CbcDecryptReader P ρ :=
  if d.start = d.stop then
    match d.refill with
    | (.error e, d) => .inl (.error e, d)
    | (.ok false, d) => .inl (.ok [], d)
    | (.ok true, d) => .inr d
  else .inl (.ok (d.handOut n).1, (d.handOut n).2)

variable {d d' : CbcDecryptReader P ρ} {n : ℕ} {bs : Bytes} {e : IoError}

omit [Read ρ IoError] in
theorem finish_ok {b : Bool} (h : d.finish n = (.ok b, d')) :
    b = true ∧ ∃ pad, 0 < pad ∧ pad ≤ n ∧ pad ≤ aesBlockLen ∧
      pad = (d.buf.getD (n - 1) 0).toNat ∧
      d' = { d with stop := n - pad, held := none, finished := true } := by
  unfold finish at h
  by_cases hp : (d.buf.getD (n - 1) 0).toNat < 1 ∨ aesBlockLen < (d.buf.getD (n - 1) 0).toNat ∨
      n < (d.buf.getD (n - 1) 0).toNat
  · rw [if_pos hp] at h; cases h
  · rw [if_neg hp] at h
    cases h
    exact ⟨rfl, _, by omega, by omega, by omega, rfl, rfl⟩

/-- All that a refill can do when there was something: it reads whole blocks,
    and holds the last one back unless there are no more. -/
theorem refill_true (h : d.refill = (.ok true, d')) :
    d.finished = false ∧ ∃ ct src, readFull d.src d.room = (.ok ct, src) ∧
      aesBlockLen ∣ ct.length ∧ d.off + ct.length ≠ 0 ∧
      let filled := { d with
        src
        chain := cbcChain aesBlockLen d.chain ct
        buf := d.held.getD [] ++ cbcDecrypt (P.aesInverse d.key) aesBlockLen d.chain ct
        start := 0 }
      (ct.length < d.room ∧ filled.finish (d.off + ct.length) = (.ok true, d')) ∨
        (d.room ≤ ct.length ∧ d' = filled.holdBack (d.off + ct.length)) := by
  -- The checks of the source in their order: the end, the read, the block size, and an
  -- empty input.
  unfold refill at h
  by_cases hf : d.finished = true
  · rw [if_pos hf] at h; cases h
  rw [if_neg hf] at h
  refine ⟨by simpa using hf, ?_⟩
  split at h
  · cases h
  · next ct src hr =>
    by_cases hm : ct.length % aesBlockLen ≠ 0
    · rw [if_pos hm] at h; cases h
    rw [if_neg hm] at h
    by_cases h0 : d.off + ct.length = 0
    · simp only [if_pos h0] at h; cases h
    simp only [if_neg h0] at h
    refine ⟨ct, src, hr, Nat.dvd_of_mod_eq_zero (not_not.1 hm), h0, ?_⟩
    by_cases hl : ct.length < d.room
    · rw [if_pos hl] at h; exact .inl ⟨hl, h⟩
    · rw [if_neg hl] at h; cases h; exact .inr ⟨Nat.le_of_not_lt hl, rfl⟩

theorem refill_false (h : d.refill = (.ok false, d')) : d.finished = true ∧ d' = d := by
  unfold refill at h
  by_cases hf : d.finished = true
  · rw [if_pos hf] at h; cases h; exact ⟨hf, rfl⟩
  rw [if_neg hf] at h
  split at h
  · cases h
  · next ct src hr =>
    split at h
    · cases h
    · simp only at h
      split at h
      · cases h
      · split at h
        · exact absurd (finish_ok h).1 (by simp)
        · cases h

theorem refill_error (h : d.refill = (.error e, d')) : interrupted e = false := by
  unfold refill at h
  split at h
  · cases h
  · split at h
    · next hr => cases h; exact readFull_not_interrupted hr
    · split at h
      · cases h; rfl
      · simp only at h
        split at h
        · cases h; rfl
        · split at h
          · unfold finish at h
            simp only at h
            split at h <;> cases h
            rfl
          · cases h

omit [Read ρ IoError] in
theorem room_pos (d : CbcDecryptReader P ρ) : 0 < d.room ∧ d.off + d.room ≤ chunk := by
  unfold room off
  split <;> decide

/-- A bound on what is still to be handed out. -/
def leftOut (d : CbcDecryptReader P ρ) : ℕ :=
  left d.src * (chunk + 1) + (d.stop - d.start) + d.off

theorem refill_lt (h : d.refill = (.ok true, d')) (hs : d.start = d.stop) :
    d'.leftOut < d.leftOut ∧ (d'.finished = true ∨ left d'.src < left d.src) := by
  obtain ⟨-, ct, src, hr, -, h0, hd⟩ := refill_true h
  have hlen := (readFull_reads hr).2
  have hroom := d.room_pos
  have hleft : ct ≠ [] → left src < left d.src := (readFull_reads hr).1.left_lt
  have hle : left src ≤ left d.src := (readFull_reads hr).1.left_le
  have hmul : ct ≠ [] → left src * (chunk + 1) + (chunk + 1) ≤ left d.src * (chunk + 1) := by
    intro hne
    rw [← Nat.succ_mul]
    exact Nat.mul_le_mul_right _ (hleft hne)
  have hmul' := Nat.mul_le_mul_right (chunk + 1) hle
  have hempty : ct = [] → ct.length = 0 := fun h => by rw [h]; rfl
  -- A short read ends the stream; a full one took a buffer off the source, which
  -- outweighs what it left to hand out.
  obtain ⟨hl, hfin⟩ | ⟨hl, rfl⟩ := hd
  · obtain ⟨-, pad, hpad, -, -, -, rfl⟩ := finish_ok hfin
    refine ⟨?_, .inl rfl⟩
    show left src * (chunk + 1) + (d.off + ct.length - pad - 0) + 0 <
      left d.src * (chunk + 1) + (d.stop - d.start) + d.off
    by_cases hct : ct = []
    · have := hempty hct
      omega
    · have := hmul hct
      omega
  · have hne : ct ≠ [] := fun h => by have := hempty h; omega
    refine ⟨?_, .inr (hleft hne)⟩
    have := hmul hne
    have hoff : (({ d with
        src
        chain := cbcChain aesBlockLen d.chain ct
        buf := d.held.getD [] ++ cbcDecrypt (P.aesInverse d.key) aesBlockLen d.chain ct
        start := 0 } : CbcDecryptReader P ρ).holdBack (d.off + ct.length)).off = aesBlockLen := rfl
    have hblock : aesBlockLen ≤ d.room := by
      unfold room off
      split <;> decide
    rw [leftOut, hoff]
    simp only [leftOut, holdBack]
    omega

/-- The loop of a read. -/
def readLoop (n : ℕ) : Loop (CbcDecryptReader P ρ) (Except IoError Bytes × CbcDecryptReader P ρ) where
  body := readStep n
  rank d := if d.finished then 0 else left d.src + 1
  rank_lt := by
    intro d d' h
    unfold readStep at h
    by_cases hs : d.start = d.stop
    · rw [if_pos hs] at h
      split at h
      · cases h
      · cases h
      · next hr =>
        cases h
        rw [(refill_true hr).1]
        obtain ⟨-, hf | hl⟩ := refill_lt hr hs
        · rw [hf]; exact Nat.succ_pos _
        · split
          · exact Nat.succ_pos _
          · exact Nat.succ_lt_succ hl
    · rw [if_neg hs] at h; cases h

def next (d : CbcDecryptReader P ρ) (n : ℕ) : Except IoError Bytes × CbcDecryptReader P ρ :=
  (readLoop n).run d

/-- What a read does to what is left to hand out. -/
theorem next_ok (h : d.next n = (.ok bs, d')) :
    bs.length ≤ n ∧ d'.leftOut ≤ d.leftOut ∧ (bs ≠ [] → d'.leftOut < d.leftOut) := by
  -- The invariant: a refill leaves less to hand out than there was.
  refine Loop.run_induct (l := readLoop n) (s := d) (fun d₁ => d₁.leftOut ≤ d.leftOut)
    (P := fun b => ∀ bs d', b = (.ok bs, d') →
      bs.length ≤ n ∧ d'.leftOut ≤ d.leftOut ∧ (bs ≠ [] → d'.leftOut < d.leftOut))
    le_rfl ?_ ?_ bs d' h
  · intro d₁ d₂ hle hs
    simp only [readLoop, readStep] at hs
    split at hs
    · next heq =>
      split at hs
      · cases hs
      · cases hs
      · next hr => cases hs; exact (refill_lt hr heq).1.le.trans hle
    · cases hs
  · rintro d₁ b hle hs
    simp only [readLoop, readStep] at hs
    split at hs
    · split at hs
      · cases hs; rintro bs d' ⟨⟩
      · next hr =>
        cases hs
        rintro bs d' ⟨⟩
        obtain ⟨-, rfl⟩ := refill_false hr
        exact ⟨Nat.zero_le _, hle, fun h => absurd rfl h⟩
      · cases hs
    · cases hs
      rintro bs d' ⟨⟩
      have hlen : (d₁.handOut n).1.length ≤ min (d₁.stop - d₁.start) n := List.length_take_le _ _
      -- What is handed out is taken off the buffer, one byte of it for each.
      have hout : (d₁.handOut n).2.leftOut + min (d₁.stop - d₁.start) n = d₁.leftOut := by
        show left d₁.src * (chunk + 1) + (d₁.stop - (d₁.start + min (d₁.stop - d₁.start) n)) +
          d₁.off + min (d₁.stop - d₁.start) n = left d₁.src * (chunk + 1) +
          (d₁.stop - d₁.start) + d₁.off
        omega
      refine ⟨by omega, by omega, fun hne => ?_⟩
      have := List.length_pos_iff.2 hne
      omega

theorem next_error (h : d.next n = (.error e, d')) : interrupted e = false := by
  refine Loop.run_induct (l := readLoop n) (s := d) (fun _ => True)
    (P := fun b => ∀ e d', b = (.error e, d') → interrupted e = false) trivial
    (fun _ _ => trivial) ?_ e d' h
  rintro d₁ b - hs
  simp only [readLoop, readStep] at hs
  split at hs
  · split at hs
    · next hr => cases hs; rintro e d' ⟨⟩; exact refill_error hr
    · cases hs; rintro e d' ⟨⟩
    · cases hs
  · cases hs; rintro e d' ⟨⟩

instance : Read (CbcDecryptReader P ρ) IoError where
  read := next
  left := leftOut
  length_le h := (next_ok h).1
  left_le h := (next_ok h).2.1
  left_lt h hne := (next_ok h).2.2 hne
  left_retry h hi := by rw [next_error h] at hi; cases hi

end CbcDecryptReader

/-! ### Blowfish -/

/-- A reader of the plaintext of a Blowfish member. -/
structure BlowfishDecryptReader (P : Prims) (ρ : Type) where
  src : ρ
  key : Bytes
  dec : Cfb

namespace BlowfishDecryptReader

variable {P : Prims} {ρ : Type}

def new (P : Prims) (src : ρ) (key iv : Bytes) : Except Fault (BlowfishDecryptReader P ρ) :=
  if key.length < 4 ∨ 56 < key.length ∨ iv.length ≠ blowfishIvLen then
    .error (.internal (ascii "a Blowfish key or IV length the screen passed"))
  else .ok { src, key, dec := { mask := P.blowfish key iv } }

variable [Read ρ IoError]

def next (d : BlowfishDecryptReader P ρ) (n : ℕ) :
    Except IoError Bytes × BlowfishDecryptReader P ρ :=
  match read d.src n with
  | (.ok ct, src) =>
    let (plain, dec) := cfbDecrypt (P.blowfish d.key) blowfishIvLen d.dec ct
    (.ok plain, { d with src, dec })
  | (.error e, src) => (.error e, { d with src })

variable {d d' : BlowfishDecryptReader P ρ} {n : ℕ} {bs : Bytes} {e : IoError}

theorem next_ok (h : d.next n = (.ok bs, d')) :
    ∃ ct, read d.src n = (.ok ct, d'.src) ∧
      bs = (cfbDecrypt (P.blowfish d.key) blowfishIvLen d.dec ct).1 ∧
      d' = { d with
        src := d'.src
        dec := (cfbDecrypt (P.blowfish d.key) blowfishIvLen d.dec ct).2 } := by
  unfold next at h
  split at h
  · next ct src hr => cases h; exact ⟨ct, hr, rfl, rfl⟩
  · cases h

theorem next_error (h : d.next n = (.error e, d')) :
    read d.src n = (.error e, d'.src) ∧ d' = { d with src := d'.src } := by
  unfold next at h
  split at h
  · cases h
  · next hr => cases h; exact ⟨hr, rfl⟩

instance : Read (BlowfishDecryptReader P ρ) IoError where
  read := next
  left d := left d.src
  length_le h := by
    obtain ⟨ct, hr, rfl, -⟩ := next_ok h
    rw [length_cfbDecrypt]
    exact Read.length_le hr
  left_le h := by
    obtain ⟨ct, hr, -, -⟩ := next_ok h
    exact Read.left_le hr
  left_lt h hne := by
    obtain ⟨ct, hr, rfl, -⟩ := next_ok h
    exact Read.left_lt hr (by rintro rfl; exact hne rfl)
  left_retry h hi := Read.left_retry (next_error h).1 hi

end BlowfishDecryptReader

/-! ### The checksum -/

/-- A reader of the plaintext of either cipher. -/
inductive LegacyReader (P : Prims) (ρ : Type)
  | cbc (d : CbcDecryptReader P ρ)
  | blowfish (d : BlowfishDecryptReader P ρ)

namespace LegacyReader

variable {P : Prims} {ρ : Type} [Read ρ IoError]

def next (n : ℕ) : LegacyReader P ρ → Except IoError Bytes × LegacyReader P ρ
  | .cbc d => ((read d n).1, .cbc (read d n).2)
  | .blowfish d => ((read d n).1, .blowfish (read d n).2)

/-- A read is one of the reader of its cipher. -/
theorem next_eq {d d' : LegacyReader P ρ} {n : ℕ} {result : Except IoError Bytes}
    (h : d.next n = (result, d')) :
    (∃ c c' : CbcDecryptReader P ρ, d = .cbc c ∧ d' = .cbc c' ∧ read c n = (result, c')) ∨
      ∃ c c' : BlowfishDecryptReader P ρ, d = .blowfish c ∧ d' = .blowfish c' ∧
        read c n = (result, c') := by
  cases d <;> cases h
  · exact .inl ⟨_, _, rfl, rfl, rfl⟩
  · exact .inr ⟨_, _, rfl, rfl, rfl⟩

instance : Read (LegacyReader P ρ) IoError where
  read d n := d.next n
  left
    | .cbc d => left d
    | .blowfish d => left d
  length_le h := by
    obtain ⟨c, c', rfl, rfl, hr⟩ | ⟨c, c', rfl, rfl, hr⟩ := next_eq h <;> exact Read.length_le hr
  left_le h := by
    obtain ⟨c, c', rfl, rfl, hr⟩ | ⟨c, c', rfl, rfl, hr⟩ := next_eq h <;> exact Read.left_le hr
  left_lt h hne := by
    obtain ⟨c, c', rfl, rfl, hr⟩ | ⟨c, c', rfl, rfl, hr⟩ := next_eq h <;> exact Read.left_lt hr hne
  left_retry h hi := by
    obtain ⟨c, c', rfl, rfl, hr⟩ | ⟨c, c', rfl, rfl, hr⟩ := next_eq h <;> exact Read.left_retry hr hi

end LegacyReader

/-- A reader that hands out nothing before the checksum of its first window. -/
structure ChecksumGate (P : Prims) (ρ : Type) where
  src : ρ
  checksum : Checksum
  window : Bytes := []
  pos : ℕ := 0
  verified : Bool := false

namespace ChecksumGate

variable {P : Prims} {ρ : Type}

/-- Whether a window has the checksum. -/
def matches_ (P : Prims) (window : Bytes) : Checksum → Bool
  | .sha1_1K want => ctEq (P.sha1 window) want
  | .sha256_1K want => ctEq (P.sha256 window) want
  | .none => true

variable [Read ρ IoError]

/-- Read the window, and compare its checksum, unless that was done before. -/
def verify (g : ChecksumGate P ρ) : Except IoError Unit × ChecksumGate P ρ :=
  if g.verified then (.ok (), g)
  else
    match readFull g.src checksumWindow with
    | (.error e, src) => (.error e, { g with src })
    | (.ok window, src) =>
      if matches_ P window g.checksum then (.ok (), { g with src, window, verified := true })
      else (.error Fault.wrongPassword.intoIo, { g with src, window })

/-- Hand out some of the window, or read on past it. -/
def readOn (g : ChecksumGate P ρ) (n : ℕ) : Except IoError Bytes × ChecksumGate P ρ :=
  if g.pos < g.window.length then
    let m := min (g.window.length - g.pos) n
    (.ok ((g.window.drop g.pos).take m), { g with pos := g.pos + m })
  else ((read g.src n).1, { g with src := (read g.src n).2 })

def next (g : ChecksumGate P ρ) (n : ℕ) : Except IoError Bytes × ChecksumGate P ρ :=
  match g.verify with
  | (.ok (), g) => g.readOn n
  | (.error e, g) => (.error e, g)

variable {g g' : ChecksumGate P ρ} {n : ℕ} {bs : Bytes} {e : IoError}

theorem verify_ok (h : g.verify = (.ok (), g')) :
    (g.verified = true ∧ g' = g) ∨
      ∃ window src, readFull g.src checksumWindow = (.ok window, src) ∧
        matches_ P window g.checksum = true ∧ g' = { g with src, window, verified := true } := by
  unfold verify at h
  by_cases hv : g.verified = true
  · rw [if_pos hv] at h; cases h; exact .inl ⟨hv, rfl⟩
  · rw [if_neg hv] at h
    split at h
    · cases h
    · next window src hr =>
      by_cases hm : matches_ P window g.checksum = true
      · rw [if_pos hm] at h; cases h; exact .inr ⟨window, src, hr, hm, rfl⟩
      · rw [if_neg hm] at h; cases h

theorem verify_error (h : g.verify = (.error e, g')) : interrupted e = false := by
  unfold verify at h
  split at h
  · cases h
  · split at h
    · next hr => cases h; exact readFull_not_interrupted hr
    · split at h <;> cases h
      rfl

/-- A bound on what is still to be handed out. -/
def leftOut (g : ChecksumGate P ρ) : ℕ :=
  left g.src * (checksumWindow + 1) + (g.window.length - g.pos)

theorem verify_leftOut (h : g.verify = (.ok (), g')) : g'.leftOut ≤ g.leftOut := by
  obtain ⟨-, rfl⟩ | ⟨window, src, hr, -, rfl⟩ := verify_ok h
  · exact le_rfl
  · have hlen := (readFull_reads hr).2
    have hle := Nat.mul_le_mul_right (checksumWindow + 1) (readFull_reads hr).1.left_le
    show left src * (checksumWindow + 1) + (window.length - g.pos) ≤ g.leftOut
    unfold leftOut
    by_cases hw : window = []
    · subst hw
      simp only [List.length_nil]
      omega
    · have := Nat.mul_le_mul_right (checksumWindow + 1)
        (Nat.succ_le_of_lt ((readFull_reads hr).1.left_lt hw))
      rw [Nat.succ_mul] at this
      omega

theorem readOn_ok (h : g.readOn n = (.ok bs, g')) :
    bs.length ≤ n ∧ g'.leftOut ≤ g.leftOut ∧ (bs ≠ [] → g'.leftOut < g.leftOut) := by
  unfold readOn at h
  by_cases hp : g.pos < g.window.length
  · rw [if_pos hp] at h
    cases h
    have hlen := List.length_take_le (min (g.window.length - g.pos) n) (g.window.drop g.pos)
    refine ⟨by omega, ?_, fun hne => ?_⟩
    · simp only [leftOut]
      omega
    · have := List.length_pos_iff.2 hne
      simp only [leftOut]
      omega
  · rw [if_neg hp] at h
    rcases hr : read g.src n with ⟨_ | bs', src⟩
    · rw [hr] at h; cases h
    · rw [hr] at h
      cases h
      have hle := Nat.mul_le_mul_right (checksumWindow + 1) (Read.left_le hr)
      refine ⟨Read.length_le hr, ?_, fun hne => ?_⟩
      · simp only [leftOut]
        omega
      · have := Nat.mul_lt_mul_of_pos_right (Read.left_lt hr hne) (show 0 < checksumWindow + 1 by decide)
        simp only [leftOut]
        omega

theorem readOn_error (h : g.readOn n = (.error e, g')) :
    ¬ g.pos < g.window.length ∧ read g.src n = (.error e, g'.src) ∧ g' = { g with src := g'.src } := by
  unfold readOn at h
  by_cases hp : g.pos < g.window.length
  · rw [if_pos hp] at h; cases h
  · rw [if_neg hp] at h
    rcases hr : read g.src n with ⟨_ | bs', src⟩
    · rw [hr] at h; cases h; exact ⟨hp, rfl, rfl⟩
    · rw [hr] at h; cases h

/-- A read verifies first. -/
theorem next_eq {result : Except IoError Bytes} (h : g.next n = (result, g')) :
    (∃ e, g.verify = (.error e, g') ∧ result = .error e) ∨
      ∃ g₁, g.verify = (.ok (), g₁) ∧ g₁.readOn n = (result, g') := by
  unfold next at h
  split at h
  · next hv => exact .inr ⟨_, hv, h⟩
  · next hv => cases h; exact .inl ⟨_, hv, rfl⟩

instance : Read (ChecksumGate P ρ) IoError where
  read := next
  left := leftOut
  length_le h := by
    obtain ⟨e, -, ⟨⟩⟩ | ⟨g₁, -, h⟩ := next_eq h
    exact (readOn_ok h).1
  left_le h := by
    obtain ⟨e, -, ⟨⟩⟩ | ⟨g₁, hv, h⟩ := next_eq h
    exact (readOn_ok h).2.1.trans (verify_leftOut hv)
  left_lt h hne := by
    obtain ⟨e, -, ⟨⟩⟩ | ⟨g₁, hv, h⟩ := next_eq h
    exact ((readOn_ok h).2.2 hne).trans_le (verify_leftOut hv)
  left_retry h hi := by
    obtain ⟨e, hv, ⟨⟩⟩ | ⟨g₁, hv, h⟩ := next_eq h
    · rw [verify_error hv] at hi; cases hi
    · obtain ⟨-, hr, hg⟩ := readOn_error h
      refine lt_of_lt_of_le ?_ (verify_leftOut hv)
      rw [hg]
      have := Nat.mul_lt_mul_of_pos_right (Read.left_retry hr hi) (show 0 < checksumWindow + 1 by decide)
      simp only [leftOut]
      omega

end ChecksumGate

end OdfCrypto
