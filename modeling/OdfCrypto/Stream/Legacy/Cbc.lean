import OdfCrypto.Lib.Readers
import OdfCrypto.Stream.Legacy

/-!
# AES-CBC streams, whole and in pieces

What a `CbcDecryptReader` presents, over a source that presents some ciphertext:
the whole of it decrypted at once, without its padding, or the beginning of that
and an error.

* `CbcDecryptReader.outcome`: what comes of a ciphertext;
* `CbcDecryptReader.refill_more`, `CbcDecryptReader.refill_last`: what a refill
  does, as long as there is a buffer of ciphertext and at its end;
* `CbcDecryptReader.Between.next`: what a read does, whatever came before it;
* `CbcDecryptReader.presents_whole`: the whole, and that the last block waits for
  its padding.
-/

namespace OdfCrypto

open ByteStream BlockModes

namespace CbcDecryptReader

variable {P : Prims} {ρ : Type}

/-- A ciphertext decrypted at once. -/
def decrypted (P : Prims) (key iv ct : Bytes) : Bytes :=
  cbcDecrypt (P.aesInverse key) aesBlockLen iv ct

/-- How much of a ciphertext of some length is read in full buffers: the first one
    has no block held back in front of it, the others do. -/
def inBuffers (len : ℕ) : ℕ :=
  if len < chunk then 0
  else chunk + (len - chunk) / (chunk - aesBlockLen) * (chunk - aesBlockLen)

/-- The padding that some plaintext ends with. -/
def padOf (plain : Bytes) : ℕ := (plain.getD (plain.length - 1) 0).toNat

/-- What comes of a ciphertext: what is handed out, and the error after it. -/
def outcome (P : Prims) (key iv ct : Bytes) : Bytes × Option IoError :=
  let plain := decrypted P key iv ct
  let early := plain.take (inBuffers ct.length - aesBlockLen)
  if ct.length = 0 ∨ ct.length % aesBlockLen ≠ 0 then (early, some notBlockMultiple)
  else if padOf plain < 1 ∨ aesBlockLen < padOf plain then
    (early, some Fault.wrongPassword.intoIo)
  else (plain.take (ct.length - padOf plain), none)

/-- What is in the buffer to be handed out. -/
def pending (d : CbcDecryptReader P ρ) : Bytes := (d.buf.drop d.start).take (d.stop - d.start)

/-- A hand-out is the beginning of what is pending. -/
theorem handOut_pending (d : CbcDecryptReader P ρ) (n : ℕ) :
    d.pending = (d.handOut n).1 ++ (d.handOut n).2.pending := by
  have h1 : (d.handOut n).1 = d.pending.take (min (d.stop - d.start) n) := by
    rw [pending, List.take_take, Nat.min_eq_left (Nat.min_le_left _ _)]
    rfl
  have h2 : (d.handOut n).2.pending = d.pending.drop (min (d.stop - d.start) n) := by
    rw [pending, pending, List.drop_take, List.drop_drop, Nat.sub_sub]
    rfl
  rw [h1, h2, List.take_append_drop]

/-- The buffer is what it should be between two reads: its pending bytes are in it. -/
def InBuffer (d : CbcDecryptReader P ρ) : Prop := d.start ≤ d.stop ∧ d.stop ≤ d.buf.length

theorem pending_eq_nil {d : CbcDecryptReader P ρ} (h : d.InBuffer) :
    d.pending = [] ↔ d.start = d.stop := by
  obtain ⟨h1, h2⟩ := h
  rw [← List.length_eq_zero_iff, pending, List.length_take, List.length_drop]
  omega

theorem handOut_ne_nil {d : CbcDecryptReader P ρ} {n : ℕ} (h : d.InBuffer) (hn : 0 < n)
    (hp : d.start ≠ d.stop) : (d.handOut n).1 ≠ [] := by
  obtain ⟨h1, h2⟩ := h
  rw [← List.length_pos_iff]
  simp only [handOut, List.length_take, List.length_drop]
  omega

/-- The reader, with its buffer filled from some ciphertext. -/
def filled (d : CbcDecryptReader P ρ) (src : ρ) (ct : Bytes) : CbcDecryptReader P ρ :=
  { d with
    src
    chain := cbcChain aesBlockLen d.chain ct
    buf := d.held.getD [] ++ cbcDecrypt (P.aesInverse d.key) aesBlockLen d.chain ct
    start := 0 }

variable [Read ρ IoError] {key iv ct : Bytes}

/-- A refill from whole blocks strips the padding at the end of the ciphertext, and
    holds the last block back before. -/
theorem refill_eq {d : CbcDecryptReader P ρ} {src : ρ} (hf : d.finished = false)
    (hr : readFull d.src d.room = (.ok ct, src)) (hm : ct.length % aesBlockLen = 0)
    (h0 : d.off + ct.length ≠ 0) :
    d.refill = if ct.length < d.room then (d.filled src ct).finish (d.off + ct.length)
      else (.ok true, (d.filled src ct).holdBack (d.off + ct.length)) := by
  have hfin : ¬ d.finished = true := by rw [hf]; exact Bool.false_ne_true
  unfold refill
  rw [if_neg hfin, hr]
  simp only [if_neg (not_not.2 hm), if_neg h0]
  rfl

/-- A refill from none, or from a partial block, fails. -/
theorem refill_notBlockMultiple {d : CbcDecryptReader P ρ} {src : ρ} (hf : d.finished = false)
    (hr : readFull d.src d.room = (.ok ct, src))
    (h : d.off + ct.length = 0 ∨ ct.length % aesBlockLen ≠ 0) :
    ∃ d', d.refill = (.error notBlockMultiple, d') := by
  have hfin : ¬ d.finished = true := by rw [hf]; exact Bool.false_ne_true
  unfold refill
  rw [if_neg hfin, hr]
  by_cases hm : ct.length % aesBlockLen ≠ 0
  · exact ⟨_, if_pos hm⟩
  · simp only [if_neg hm, if_pos (h.resolve_right hm)]
    exact ⟨_, rfl⟩

/-- In the middle of a ciphertext, `read` of it is through, in full buffers; what
    comes of it, but for the last block, was handed out, as `out`, or is pending. -/
structure Reading (P : Prims) (key iv : Bytes) (d : CbcDecryptReader P ρ)
    (read todo out : Bytes) : Prop where
  sameKey : d.key = key
  chain : d.chain = cbcChain aesBlockLen iv read
  finished : d.finished = false
  buffers : read.length = 0 ∨ ∃ k, read.length = chunk + k * (chunk - aesBlockLen)
  someHeld : d.held.isSome = decide (read.length ≠ 0)
  held : d.held.getD [] = (decrypted P key iv read).drop (read.length - aesBlockLen)
  inBuffer : d.InBuffer
  src : Presents d.src todo none
  out : out ++ d.pending = (decrypted P key iv read).take (read.length - aesBlockLen)

variable {d d' : CbcDecryptReader P ρ} {read todo out : Bytes}

/-- Buffers are whole blocks. -/
theorem Reading.dvd (h : Reading P key iv d read todo out) : aesBlockLen ∣ read.length := by
  rcases h.buffers with h0 | ⟨k, hk⟩
  · rw [h0]
    exact Nat.dvd_zero _
  · rw [hk]
    exact Nat.dvd_add (by decide) (Nat.dvd_mul_left_of_dvd (by decide) k)

/-- The block held back, if there is one, and the room in front of which it is. -/
theorem Reading.room (h : Reading P key iv d read todo out) :
    d.off = min aesBlockLen read.length ∧ d.room = chunk - min aesBlockLen read.length := by
  have hs := h.someHeld
  rcases h.buffers with h0 | ⟨k, hk⟩
  · have hnone : d.held.isSome = false := by rw [hs, h0]; rfl
    simp only [CbcDecryptReader.room, off, hnone, h0]
    decide
  · have hpos : read.length ≠ 0 := by rw [hk]; simp only [chunk]; omega
    have hmin : min aesBlockLen read.length = aesBlockLen := by
      rw [hk]
      simp only [chunk, aesBlockLen]
      omega
    have hsome : d.held.isSome = true := by rw [hs]; exact decide_eq_true hpos
    simp only [CbcDecryptReader.room, off, hsome, hmin]
    decide

/-- What was read is no more than what there is in full buffers, and all of it when
    what is left does not fill another one. -/
theorem Reading.inBuffers (h : Reading P key iv d read todo out) :
    read.length ≤ inBuffers (read.length + todo.length) ∧
      (todo.length < d.room → inBuffers (read.length + todo.length) = read.length) := by
  rw [h.room.2]
  rcases h.buffers with h0 | ⟨k, hk⟩
  · rw [h0]
    refine ⟨Nat.zero_le _, fun hl => if_pos ?_⟩
    simp only [chunk, aesBlockLen] at hl ⊢
    omega
  · have hlen : ¬ read.length + todo.length < chunk := by rw [hk]; omega
    have hquot : (read.length + todo.length - chunk) / (chunk - aesBlockLen) =
        k + todo.length / (chunk - aesBlockLen) := by
      rw [hk, Nat.add_assoc, Nat.add_sub_cancel_left, Nat.add_comm (k * _),
        Nat.add_mul_div_right _ _ (by decide), Nat.add_comm]
    rw [CbcDecryptReader.inBuffers, if_neg hlen, hquot]
    refine ⟨?_, fun hl => ?_⟩
    · rw [hk]
      exact Nat.add_le_add_left (Nat.mul_le_mul_right _ (Nat.le_add_right _ _)) _
    · have hmin : min aesBlockLen read.length = aesBlockLen := by
        rw [hk]
        simp only [chunk, aesBlockLen]
        omega
      rw [hmin] at hl
      rw [Nat.div_eq_of_lt hl, Nat.add_zero, hk]

/-- A new reader is at the beginning. -/
theorem Reading.init {src : ρ} (hs : Presents src ct none) :
    Reading P key iv ({ src, key, chain := iv } : CbcDecryptReader P ρ) [] ct [] where
  sameKey := rfl
  chain := rfl
  finished := rfl
  buffers := .inl rfl
  someHeld := rfl
  held := rfl
  inBuffer := ⟨le_rfl, le_rfl⟩
  src := hs
  out := rfl

/-- Handing out goes on in the middle of the ciphertext. -/
theorem Reading.handOut (h : Reading P key iv d read todo out) (n : ℕ) :
    Reading P key iv (d.handOut n).2 read todo (out ++ (d.handOut n).1) where
  sameKey := h.sameKey
  chain := h.chain
  finished := h.finished
  buffers := h.buffers
  someHeld := h.someHeld
  held := h.held
  inBuffer := by
    obtain ⟨h1, h2⟩ := h.inBuffer
    exact ⟨by simp only [CbcDecryptReader.handOut]; omega, h2⟩
  src := h.src
  out := by rw [List.append_assoc, ← handOut_pending, h.out]

/-! ### A refill -/

section

variable (hD : ∀ block, (P.aesInverse key block).length = aesBlockLen)
  (hiv : iv.length = aesBlockLen)

include hD hiv

theorem Reading.length_decrypted (h : Reading P key iv d read todo out) :
    (decrypted P key iv read).length = read.length :=
  length_cbcDecrypt (by decide) hD hiv h.dvd

omit hD hiv in
/-- What is known of the plaintext is its beginning. -/
theorem Reading.decrypted_append (h : Reading P key iv d read todo out) (more : Bytes) :
    decrypted P key iv (read ++ more) =
      decrypted P key iv read ++ cbcDecrypt (P.aesInverse d.key) aesBlockLen d.chain more := by
  rw [decrypted, cbcDecrypt_append (by decide) iv h.dvd, h.sameKey, h.chain]
  rfl

/-- The next ciphertext is decrypted behind the block held back. -/
theorem Reading.filled (h : Reading P key iv d read todo out) (src : ρ) (more : Bytes) :
    (d.filled src more).buf =
      (decrypted P key iv (read ++ more)).drop (read.length - aesBlockLen) := by
  have hle : read.length - aesBlockLen ≤ (decrypted P key iv read).length := by
    rw [h.length_decrypted hD hiv]
    exact Nat.sub_le _ _
  rw [CbcDecryptReader.filled, h.held, h.decrypted_append, List.drop_append_of_le_length hle]

/-- All but the last block of what was read was handed out, or is pending. -/
theorem Reading.known (h : Reading P key iv d read todo out) (more : Bytes) :
    out ++ d.pending =
      (decrypted P key iv (read ++ more)).take (read.length - aesBlockLen) := by
  have hle : read.length - aesBlockLen ≤ (decrypted P key iv read).length := by
    rw [h.length_decrypted hD hiv]
    exact Nat.sub_le _ _
  rw [h.out, h.decrypted_append, List.take_append_of_le_length hle]

/-- When nothing is pending, all but the last block was handed out. -/
theorem Reading.handedOut (h : Reading P key iv d read todo out) (hs : d.start = d.stop)
    (more : Bytes) :
    out = (decrypted P key iv (read ++ more)).take (read.length - aesBlockLen) := by
  rw [← h.known hD hiv more, (pending_eq_nil h.inBuffer).2 hs, List.append_nil]

/-- What was handed out or is pending comes of the ciphertext. -/
theorem Reading.isPrefix (h : Reading P key iv d read todo out) :
    out ++ d.pending <+: (outcome P key iv (read ++ todo)).1 := by
  have hearly : read.length - aesBlockLen ≤
      CbcDecryptReader.inBuffers (read ++ todo).length - aesBlockLen := by
    rw [List.length_append]
    exact Nat.sub_le_sub_right h.inBuffers.1 _
  rw [h.known hD hiv todo, outcome]
  split
  · exact List.take_prefix_take_left hearly
  · split
    · exact List.take_prefix_take_left hearly
    · next hp =>
      refine List.take_prefix_take_left ?_
      rw [List.length_append]
      omega

/-- As long as there is a buffer of ciphertext, a refill goes on in the middle. -/
theorem Reading.refill_more (h : Reading P key iv d read todo out) (hs : d.start = d.stop)
    (hl : d.room ≤ todo.length) :
    ∃ d', d.refill = (.ok true, d') ∧ d'.start ≠ d'.stop ∧
      Reading P key iv d' (read ++ todo.take d.room) (todo.drop d.room) out := by
  obtain ⟨src, hr, hp⟩ := h.src.readFull_le hl
  obtain ⟨hoff, hroom⟩ := h.room
  have hlen : (todo.take d.room).length = d.room := List.length_take_of_le hl
  have hmod : d.room % aesBlockLen = 0 := Nat.mul_mod_left _ _
  have hn : d.off + d.room = chunk := by
    rw [hoff, hroom]
    simp only [chunk, aesBlockLen]
    omega
  have hdvd : aesBlockLen ∣ (read ++ todo.take d.room).length := by
    rw [List.length_append, hlen]
    exact Nat.dvd_add h.dvd (Nat.dvd_of_mod_eq_zero hmod)
  have hplain : (decrypted P key iv (read ++ todo.take d.room)).length =
      read.length + d.room := by
    rw [decrypted, length_cbcDecrypt (by decide) hD hiv hdvd, List.length_append, hlen]
  have hbuf := h.filled hD hiv src (todo.take d.room)
  have hout := h.handedOut hD hiv hs (todo.take d.room)
  have hsplit : read.length - aesBlockLen + (chunk - aesBlockLen) =
      read.length + d.room - aesBlockLen := by
    rw [hroom]
    rcases h.buffers with h0 | ⟨k, hk⟩
    · rw [h0]; rfl
    · rw [hk]
      simp only [chunk, aesBlockLen]
      omega
  -- A whole buffer was read: all of it but the last block is handed out, and that
  -- block is held back, as it may be the padding.
  refine ⟨(d.filled src (todo.take d.room)).holdBack chunk, ?_, ?_, ?_⟩
  · rw [refill_eq h.finished hr (hlen.symm ▸ hmod) (by rw [hlen, hn]; decide), hlen, hn,
      if_neg (lt_irrefl _)]
  · show 0 ≠ chunk - aesBlockLen
    decide
  · refine ⟨h.sameKey, ?_, h.finished, ?_, ?_, ?_, ⟨Nat.zero_le _, ?_⟩, hp, ?_⟩
    · rw [cbcChain_append (by decide) iv h.dvd, ← h.chain]
      rfl
    · rw [List.length_append, hlen, hroom]
      rcases h.buffers with h0 | ⟨k, hk⟩
      · exact .inr ⟨0, by rw [h0]; rfl⟩
      · refine .inr ⟨k + 1, ?_⟩
        rw [hk]
        simp only [chunk, aesBlockLen]
        omega
    · rw [List.length_append, hlen]
      refine (decide_eq_true ?_).symm
      have := d.room_pos.1
      omega
    · show ((d.filled src _).buf.drop (chunk - aesBlockLen)).take aesBlockLen = _
      rw [hbuf, List.drop_drop, hsplit, List.length_append, hlen]
      refine List.take_of_length_le ?_
      rw [List.length_drop, hplain]
      omega
    · show chunk - aesBlockLen ≤ (d.filled src _).buf.length
      rw [hbuf, List.length_drop, hplain, ← hn, hoff]
      omega
    · show out ++ ((d.filled src _).buf.drop 0).take (chunk - aesBlockLen - 0) = _
      rw [hbuf, List.drop_zero, Nat.sub_zero, hout, ← List.take_add, hsplit, List.length_append,
        hlen]

/-- At the end of the ciphertext, a refill fails, or strips the padding. -/
theorem Reading.refill_last (h : Reading P key iv d read todo out) (hs : d.start = d.stop)
    (hl : todo.length < d.room) :
    (∃ e d', d.refill = (.error e, d') ∧ outcome P key iv (read ++ todo) = (out, some e)) ∨
      ∃ d', d.refill = (.ok true, d') ∧ d'.finished = true ∧ d'.InBuffer ∧
        outcome P key iv (read ++ todo) = (out ++ d'.pending, none) := by
  obtain ⟨src, hr, -⟩ := h.src.readFull_gt hl
  obtain ⟨hoff, -⟩ := h.room
  have hdvd := h.dvd
  have hmod : (read ++ todo).length % aesBlockLen = todo.length % aesBlockLen := by
    rw [List.length_append, Nat.add_mod, Nat.mod_eq_zero_of_dvd hdvd, Nat.zero_add, Nat.mod_mod]
  have hnil : (read ++ todo).length = 0 ↔ d.off + todo.length = 0 := by
    rw [hoff, List.length_append]
    simp only [aesBlockLen]
    omega
  have hout := h.handedOut hD hiv hs todo
  -- What was handed out before the last buffer is what the whole-buffer meaning hands
  -- out.
  have hearly : (decrypted P key iv (read ++ todo)).take
      (CbcDecryptReader.inBuffers (read ++ todo).length - aesBlockLen) = out := by
    rw [List.length_append, h.inBuffers.2 hl, ← hout]
  -- A length that is no multiple of the block is refused before the padding is looked
  -- at.
  by_cases hbad : (read ++ todo).length = 0 ∨ (read ++ todo).length % aesBlockLen ≠ 0
  · have hbad' : d.off + todo.length = 0 ∨ todo.length % aesBlockLen ≠ 0 := by
      rw [← hnil, ← hmod]
      exact hbad
    obtain ⟨d', hd'⟩ := refill_notBlockMultiple h.finished hr hbad'
    exact .inl ⟨_, d', hd', by rw [outcome, if_pos hbad, hearly]⟩
  obtain ⟨h0, hm⟩ := not_or.1 hbad
  have hm := not_not.1 hm
  have hplain : (decrypted P key iv (read ++ todo)).length = read.length + todo.length := by
    rw [decrypted, length_cbcDecrypt (by decide) hD hiv (Nat.dvd_of_mod_eq_zero hm),
      List.length_append]
  have hbuf := h.filled hD hiv src todo
  have hn : read.length - aesBlockLen + (d.off + todo.length) = read.length + todo.length := by
    rw [hoff]
    omega
  have hblock : aesBlockLen ≤ d.off + todo.length := by
    rw [hoff]
    rw [List.length_append] at h0 hm
    simp only [aesBlockLen] at hm hdvd ⊢
    omega
  -- The last byte of the buffer is the last of the whole plaintext, so the padding is
  -- that of the whole.
  have hpad : ((d.filled src todo).buf.getD (d.off + todo.length - 1) 0).toNat =
      padOf (decrypted P key iv (read ++ todo)) := by
    rw [hbuf, padOf, List.getD_eq_getElem?_getD, List.getElem?_drop, ← List.getD_eq_getElem?_getD,
      hplain, ← hn, Nat.add_sub_assoc ((by decide : 1 ≤ aesBlockLen).trans hblock)]
  have hrefill := refill_eq h.finished hr (hmod ▸ hm) (fun h => h0 (hnil.2 h))
  rw [if_pos hl] at hrefill
  by_cases hp : padOf (decrypted P key iv (read ++ todo)) < 1 ∨
      aesBlockLen < padOf (decrypted P key iv (read ++ todo))
  · refine .inl ⟨Fault.wrongPassword.intoIo, d.filled src todo, ?_, ?_⟩
    · rw [hrefill, finish, hpad]
      exact if_pos (hp.imp_right .inl)
    · rw [outcome, if_neg hbad, if_pos hp, hearly]
  · obtain ⟨hp0, hp16⟩ := not_or.1 hp
    refine .inr ⟨{ d.filled src todo with
      stop := d.off + todo.length - padOf (decrypted P key iv (read ++ todo))
      held := none
      finished := true }, ?_, rfl, ⟨Nat.zero_le _, ?_⟩, ?_⟩
    · rw [hrefill, finish, hpad]
      exact if_neg (by omega)
    · show d.off + todo.length - _ ≤ (d.filled src todo).buf.length
      rw [hbuf, List.length_drop, hplain]
      omega
    · rw [outcome, if_neg hbad, if_neg hp]
      show (_, _) = (out ++ ((d.filled src todo).buf.drop 0).take
        (d.off + todo.length - padOf (decrypted P key iv (read ++ todo)) - 0), none)
      rw [hbuf, List.drop_zero, Nat.sub_zero, hout, ← List.take_add, List.length_append, ← hn,
        Nat.add_sub_assoc ((Nat.le_of_not_lt hp16).trans hblock)]

/-! ### Whole runs -/

/-- Between two reads, `out` was handed out of what comes of the ciphertext. -/
inductive Between (P : Prims) (key iv ct : Bytes) (d : CbcDecryptReader P ρ) (out : Bytes) : Prop
  | reading (read todo : Bytes) (h : Reading P key iv d read todo out) (eq : ct = read ++ todo)
  | finished (hf : d.finished = true) (hb : d.InBuffer)
      (h : outcome P key iv ct = (out ++ d.pending, none))

omit hD hiv in
theorem Between.inBuffer (h : Between P key iv ct d out) : d.InBuffer := by
  rcases h with ⟨_, _, h, -⟩ | ⟨-, hb, -⟩
  · exact h.inBuffer
  · exact hb

theorem Between.isPrefix (h : Between P key iv ct d out) :
    out <+: (outcome P key iv ct).1 := by
  rcases h with ⟨read, todo, h, rfl⟩ | ⟨-, -, h⟩
  · exact (List.prefix_append _ _).trans (h.isPrefix hD hiv)
  · rw [h]
    exact List.prefix_append _ _

omit hD hiv in
theorem Between.handOut (h : Between P key iv ct d out) (n : ℕ) :
    Between P key iv ct (d.handOut n).2 (out ++ (d.handOut n).1) := by
  rcases h with ⟨read, todo, h, rfl⟩ | ⟨hf, ⟨h1, h2⟩, h⟩
  · exact .reading read todo (h.handOut n) rfl
  · refine .finished hf ⟨?_, h2⟩ ?_
    · simp only [CbcDecryptReader.handOut]
      omega
    · rw [List.append_assoc, ← handOut_pending, h]

/-- What a read does: it hands out some more, and nothing only at the end, or it
    fails after all that comes of the ciphertext. -/
theorem Between.next (h : Between P key iv ct d out) (n : ℕ) :
    (∃ bs d', d.next n = (.ok bs, d') ∧ Between P key iv ct d' (out ++ bs) ∧
      (bs = [] → 0 < n → outcome P key iv ct = (out, none))) ∨
      ∃ e d', d.next n = (.error e, d') ∧ outcome P key iv ct = (out, some e) := by
  -- By the rank of the loop: a refill leaves something pending, or finishes.
  induction hr : (readLoop n).rank d using Nat.strong_induction_on generalizing d with
  | _ r ih =>
    by_cases hs : d.start = d.stop
    · have hinr {d' : CbcDecryptReader P ρ} (hd' : d.refill = (.ok true, d')) :
          (readLoop n).body d = .inr d' := by
        show readStep n d = _
        rw [readStep, if_pos hs, hd']
      rcases h with ⟨read, todo, h, rfl⟩ | ⟨hf, hb, h⟩
      · by_cases hl : d.room ≤ todo.length
        · obtain ⟨d', hd', -, h'⟩ := h.refill_more hD hiv hs hl
          rw [CbcDecryptReader.next, Loop.run_inr (hinr hd')]
          refine ih _ (hr ▸ (readLoop n).rank_lt (hinr hd')) (.reading _ _ h' ?_) rfl
          rw [List.append_assoc, List.take_append_drop]
        · rcases h.refill_last hD hiv hs (Nat.lt_of_not_le hl) with
            ⟨e, d', hd', ho⟩ | ⟨d', hd', hf', hb', ho⟩
          · refine .inr ⟨e, d', Loop.run_inl ?_, ho⟩
            show readStep n d = _
            rw [readStep, if_pos hs, hd']
          · rw [CbcDecryptReader.next, Loop.run_inr (hinr hd')]
            exact ih _ (hr ▸ (readLoop n).rank_lt (hinr hd')) (.finished hf' hb' ho) rfl
      · rw [(pending_eq_nil hb).2 hs, List.append_nil] at h
        refine .inl ⟨[], d, Loop.run_inl ?_, ?_, fun _ _ => h⟩
        · show readStep n d = _
          rw [readStep, if_pos hs, refill, if_pos hf]
        · refine .finished hf hb ?_
          rw [(pending_eq_nil hb).2 hs, List.append_nil, List.append_nil, h]
    · have hbody : (readLoop n).body d = .inl (.ok (d.handOut n).1, (d.handOut n).2) := if_neg hs
      exact .inl ⟨_, _, Loop.run_inl hbody, h.handOut n,
        fun hnil hn => absurd hnil (handOut_ne_nil h.inBuffer hn hs)⟩

/-- Reads hand out what comes of the ciphertext, one piece after another. -/
theorem Between.reads {p : Bytes} (hr : Reads d p d') (h : Between P key iv ct d out) :
    Between P key iv ct d' (out ++ p) := by
  induction hr generalizing out with
  | refl d => rwa [List.append_nil]
  | @ok d d₁ d' n bs cs hr _ ih =>
    rcases h.next hD hiv n with ⟨bs', d₁', hn, h', -⟩ | ⟨e, d₁', hn, -⟩
    · obtain ⟨⟨⟩, rfl⟩ := Prod.mk.inj (hn.symm.trans hr)
      rw [← List.append_assoc]
      exact ih h'
    · cases hn.symm.trans hr
  | retry hr hi _ _ => rw [next_error hr] at hi; cases hi

/-- The next read of a reader that has handed out a part. -/
theorem Between.hands {rest : Bytes} {n : ℕ} (h : Between P key iv ct d out) (hn : 0 < n)
    (heq : (outcome P key iv ct).1 = out ++ rest) :
    Hands d n (outcome P key iv ct).2 rest := by
  rcases h.next hD hiv n with ⟨bs, d', hr, h', hnil⟩ | ⟨e, d', hr, ho⟩
  · rcases bs with - | ⟨b, bs⟩
    · have ho := hnil rfl hn
      rw [ho] at heq ⊢
      obtain rfl : rest = [] := List.append_right_eq_self.1 heq.symm
      exact ⟨d', hr⟩
    · obtain ⟨rest', hrest⟩ := h'.isPrefix hD hiv
      rw [heq, List.append_assoc] at hrest
      obtain rfl := List.append_cancel_left hrest
      exact ⟨b :: bs, d', hr, List.cons_ne_nil _ _, List.prefix_append _ _⟩
  · rw [ho] at heq ⊢
    obtain rfl : rest = [] := List.append_right_eq_self.1 heq.symm
    exact ⟨next_error hr, d', hr⟩

end

omit [Read ρ IoError] in
/-- What can be built is at the beginning of the ciphertext. -/
theorem new_ok {src : ρ} (h : CbcDecryptReader.new P src key iv = .ok d) :
    d = { src, key, chain := iv } ∧ iv.length = aesBlockLen := by
  unfold CbcDecryptReader.new at h
  split at h
  · cases h
  · split at h
    · cases h
    · next hiv => cases h; exact ⟨rfl, not_not.1 hiv⟩

/-- However it is read, and however its source hands over the ciphertext, a reader
    presents what comes of it at once, and no byte of the last block while it is not
    known that there is padding to strip. -/
theorem presents_whole {src : ρ} (hnew : CbcDecryptReader.new P src key iv = .ok d)
    (hD : ∀ block, (P.aesInverse key block).length = aesBlockLen)
    (hs : Presents src ct none) :
    Presents d (outcome P key iv ct).1 (outcome P key iv ct).2 ∧
      ∀ p d', Reads d p d' → ct.length - aesBlockLen < p.length →
        d'.finished = true ∧ (outcome P key iv ct).2 = none := by
  obtain ⟨rfl, hiv⟩ := new_ok hnew
  have h₀ : Between P key iv ct ({ src, key, chain := iv } : CbcDecryptReader P ρ) [] :=
    .reading [] ct (.init hs) rfl
  refine ⟨fun p d' hr => ?_, fun p d' hr hlen => ?_⟩
  · have h := h₀.reads hD hiv hr
    obtain ⟨rest, hrest⟩ := h.isPrefix hD hiv
    exact ⟨rest, hrest.symm, fun n hn => h.hands hD hiv hn hrest.symm⟩
  · rcases h₀.reads hD hiv hr with ⟨read, todo, h, rfl⟩ | ⟨hf, -, h⟩
    · have hout := congrArg List.length h.out
      rw [List.length_append, List.length_take] at hout
      rw [List.length_append] at hlen
      simp only [List.nil_append] at hout
      omega
    · exact ⟨hf, by rw [h]⟩

/-- A block of zeros under the key of zeros, a byte at a time. -/
def zeroBlock : Pieces IoError :=
  ⟨zeroKeyAes (List.replicate 16 0) (List.replicate 16 0), fun _ => 1, none, 0⟩

/-- After an IV that ends with five, its padding is five bytes. -/
theorem presents_whole_sample :
    ∃ d, CbcDecryptReader.new knownPrims zeroBlock (List.replicate 16 0)
        (List.replicate 15 0 ++ [5]) = .ok d ∧
      Presents d (List.replicate 11 0) none := by
  have hnew : CbcDecryptReader.new knownPrims zeroBlock (List.replicate 16 0)
      (List.replicate 15 0 ++ [5]) = .ok ⟨zeroBlock, List.replicate 16 0,
        List.replicate 15 0 ++ [5], [], 0, 0, none, false⟩ := rfl
  exact ⟨_, hnew, (presents_whole hnew (fun _ => rfl) (Pieces.presents zeroBlock rfl)).1⟩

end CbcDecryptReader

end OdfCrypto
