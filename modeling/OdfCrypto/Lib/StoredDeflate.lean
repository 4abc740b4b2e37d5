import OdfCrypto.Lib.Deflate
import OdfCrypto.Lib.Write

/-!
# Stored DEFLATE

The part of DEFLATE that needs no codes: whole blocks are stored blocks, and a
stream ends with an empty last block.

* `Stored.format`: what these encode;
* `Stored.compressor`, which stores what it is given once it is flushed, with
  `Stored.finished` and `Stored.makes`: it makes what the format says;
* `Stored.inflater`: it knows the end of a stream, and nothing else.
-/

namespace Deflate.Stored

open ByteStream Text

/-- Some stored blocks. -/
def Segment (code data : Bytes) : Prop :=
  ∃ blocks : List Bytes, (∀ b ∈ blocks, b.length < 2 ^ 16) ∧ code = blocks.flatMap storedBlock ∧
    data = blocks.flatten

/-- An empty last block, with fixed codes. -/
def lastBlock : Bytes := [3, 0]

/-- Stored blocks, then the last one. -/
def Complete (code data : Bytes) : Prop := ∃ seg, Segment seg data ∧ code = seg ++ lastBlock

theorem segment_nil : Segment [] [] := ⟨[], by simp⟩

theorem segment_append {a b x y : Bytes} (h : Segment a x) (h' : Segment b y) :
    Segment (a ++ b) (x ++ y) := by
  obtain ⟨blocks, hb, rfl, rfl⟩ := h
  obtain ⟨blocks', hb', rfl, rfl⟩ := h'
  refine ⟨blocks ++ blocks', fun b hm => ?_, by simp, by simp⟩
  exact (List.mem_append.1 hm).elim (hb b) (hb' b)

theorem segment_block {block : Bytes} (h : block.length < 2 ^ 16) :
    Segment (storedBlock block) block :=
  ⟨[block], by simpa using h, by simp, by simp⟩

/-- What stored blocks encode. -/
def format : Format where
  Segment := Segment
  Complete := Complete
  segment_nil := segment_nil
  segment_append := segment_append
  append_complete := by
    rintro a b x y h ⟨seg, hs, rfl⟩
    exact ⟨a ++ seg, segment_append h hs, by rw [List.append_assoc]⟩
  stored := segment_block

/-- Some data in stored blocks, as large as they can be. -/
def blocks (data : Bytes) : Bytes := (chunks (2 ^ 16 - 1) data).flatMap storedBlock

@[simp] theorem blocks_nil : blocks [] = [] := by
  rw [blocks, chunks_nil (by decide), List.flatMap_nil]

theorem segment_blocks (data : Bytes) : Segment (blocks data) data :=
  ⟨chunks (2 ^ 16 - 1) data, fun _ h => Nat.lt_succ_of_le (length_le_of_mem_chunks h), rfl,
    (flatten_chunks (by decide) data).symm⟩

theorem length_storedBlock (block : Bytes) : (storedBlock block).length = 5 + block.length := by
  simp [storedBlock, le16]
  omega

/-- Each block has a header of five bytes. -/
theorem length_blocks (data : Bytes) :
    (blocks data).length = data.length + 5 * ((data.length + (2 ^ 16 - 1) - 1) / (2 ^ 16 - 1)) := by
  have hall : ∀ pieces : List Bytes,
      (pieces.flatMap storedBlock).length = pieces.flatten.length + 5 * pieces.length := by
    intro pieces
    induction pieces with
    | nil => rfl
    | cons piece pieces ih =>
      rw [List.flatMap_cons, List.length_append, ih, length_storedBlock, List.flatten_cons,
        List.length_append, List.length_cons]
      omega
  rw [blocks, hall, flatten_chunks (by decide), chunks, List.length_map, List.length_range]

/-! ### The compressor -/

/-- What is held back, what is still to be made, and whether the last block is in it. -/
structure State where
  held : Bytes := []
  queue : Bytes := []
  ended : Bool := false

/-- What a flush makes. -/
def queued (c : State) (input : Bytes) : Bytes := c.queue ++ blocks (c.held ++ input)

@[simp] theorem queued_queue (queue : Bytes) (ended : Bool) :
    queued ⟨[], queue, ended⟩ [] = queue := by
  simp [queued]

@[simp] theorem queued_held (held : Bytes) (ended : Bool) :
    queued ⟨held, [], ended⟩ [] = blocks held :=
  (List.nil_append _).trans (congrArg blocks (List.append_nil held))

/-- What is made once the stream is to end. -/
def finalQueue (c : State) (input : Bytes) : Bytes :=
  if c.ended then queued c input else queued c input ++ lastBlock

/-- Make some of what is queued. -/
def emit (queue : Bytes) (ended : Bool) (room used : ℕ) : CompressStatus × ℕ × Bytes × State :=
  (.okay, used, queue.take room, ⟨[], queue.drop room, ended⟩)

/-- Hold the input back until there is a flush, or the end. -/
def compress (c : State) (input : Bytes) (room : ℕ) :
    Flush → CompressStatus × ℕ × Bytes × State
  | .none => (.okay, input.length, [], { c with held := c.held ++ input })
  | .full => emit (queued c input) c.ended room input.length
  | .finish =>
    if (finalQueue c input).length ≤ room then
      (.done, input.length, finalQueue c input, ⟨[], [], true⟩)
    else emit (finalQueue c input) true room input.length

/-- How much there is to make. -/
def rank (c : State) (input : Bytes) : ℕ := (queued c input).length + if c.ended then 0 else 3

variable {c c' : State} {input made : Bytes} {room used : ℕ} {status : CompressStatus}
  {flush : Flush}

/-- All that a call to end can do. -/
theorem compress_finish (h : compress c input room .finish = (status, used, made, c')) :
    used = input.length ∧ made = (finalQueue c input).take room ∧
      (status = .done ∧ (finalQueue c input).length ≤ room ∨
        status = .okay ∧ room < (finalQueue c input).length ∧
          c' = ⟨[], (finalQueue c input).drop room, true⟩) := by
  unfold compress at h
  by_cases hl : (finalQueue c input).length ≤ room
  · rw [if_pos hl] at h
    cases h
    exact ⟨rfl, (List.take_of_length_le hl).symm, .inl ⟨rfl, hl⟩⟩
  · rw [if_neg hl] at h
    cases h
    exact ⟨rfl, rfl, .inr ⟨rfl, Nat.lt_of_not_le hl, rfl⟩⟩

/-- Every call takes all of its input. -/
theorem compress_used (h : compress c input room flush = (status, used, made, c')) :
    used = input.length := by
  rcases flush with - | - | -
  · cases h; rfl
  · cases h; rfl
  · exact (compress_finish h).1

theorem compress_made_le (h : compress c input room flush = (status, used, made, c')) :
    made.length ≤ room := by
  rcases flush with - | - | -
  · cases h; exact Nat.zero_le _
  · cases h; exact List.length_take_le _ _
  · obtain ⟨-, rfl, -⟩ := compress_finish h
    exact List.length_take_le _ _

theorem rank_lt (hroom : 0 < room) (h : compress c input room flush = (.okay, used, made, c'))
    (hmore : flush = .finish ∨ input.drop used ≠ [] ∨ room ≤ made.length) :
    rank c' (input.drop used) < rank c input := by
  have hdrop : input.drop used = [] := by rw [compress_used h, List.drop_length]
  rw [hdrop] at hmore ⊢
  unfold rank
  -- A call that goes on either filled its room from the queue, or is still finishing.
  rcases flush with - | - | -
  · cases h
    have hmade : room ≤ 0 := (hmore.resolve_left (by simp)).resolve_left (by simp)
    omega
  · cases h
    have hmade := (hmore.resolve_left (by simp)).resolve_left (by simp)
    rw [List.length_take] at hmade
    rw [queued_queue, List.length_drop]
    dsimp only
    omega
  · obtain ⟨-, -, ⟨h, -⟩ | ⟨-, hlt, rfl⟩⟩ := compress_finish h
    · cases h
    rw [queued_queue, List.length_drop]
    unfold finalQueue at hlt ⊢
    rcases hc : c.ended with - | -
    · simp only [hc, Bool.false_eq_true, if_false, if_true, List.length_append, lastBlock,
        List.length_cons, List.length_nil] at hlt ⊢
      omega
    · simp only [hc, if_true] at hlt ⊢
      omega

/-- A compressor that stores. -/
abbrev compressor : Compressor where
  State := State
  init := {}
  compress := compress
  used_le h := (compress_used h).le
  made_le h := compress_made_le h
  rank := rank
  rank_lt hroom h _ hmore := rank_lt hroom h hmore

section

variable {c c₁ c' : compressor.State} {x out flushed code : Bytes}

theorem call_finish (h : compressor.compress c input room .finish = (status, used, made, c')) :
    used = input.length ∧ made = (finalQueue c input).take room ∧
      (status = .done ∧ (finalQueue c input).length ≤ room ∨
        status = .okay ∧ room < (finalQueue c input).length ∧
          c' = ⟨[], (finalQueue c input).drop room, true⟩) :=
  @compress_finish c c' input made room used status h

/-- A full flush makes what was queued. -/
theorem flushing_full (h : compressor.Flushing .full c c₁ flushed) :
    c₁.ended = c.ended ∧ flushed ++ queued c₁ [] = queued c [] := by
  induction h with
  | start => exact ⟨rfl, List.nil_append _⟩
  | step h hc _ ih =>
    obtain ⟨ihe, ihq⟩ := ih
    cases hc
    refine ⟨ihe, ?_⟩
    rw [queued_queue, List.append_assoc, List.take_append_drop, ihq]

/-- The end makes what was queued, and the last block. -/
theorem flushing_finish (h : compressor.Flushing .finish c c₁ flushed) :
    flushed ++ finalQueue c₁ [] = finalQueue c [] := by
  induction h with
  | start => exact List.nil_append _
  | step h hc _ ih =>
    obtain ⟨-, rfl, ⟨h, -⟩ | ⟨-, -, rfl⟩⟩ := call_finish hc
    · cases h
    · have hqueue : ∀ queue : Bytes, finalQueue ⟨[], queue, true⟩ [] = queue := fun queue =>
        queued_queue queue true
      rw [hqueue, List.append_assoc, List.take_append_drop, ih]

/-- Since the last flush all that was used is held, and nothing was made. -/
theorem fed (h : compressor.Fed c x out) : c = ⟨x, [], false⟩ ∧ out = [] := by
  induction h with
  | init => exact ⟨rfl, rfl⟩
  | @step c c' x out input made room used h hc ih =>
    obtain ⟨rfl, rfl⟩ := ih
    cases hc
    rw [List.take_length]
    exact ⟨rfl, rfl⟩
  | @reset c c₁ c' x out flushed made room used h hf hc hr ih =>
    obtain ⟨rfl, rfl⟩ := ih
    obtain ⟨he, -⟩ := flushing_full hf
    cases hc
    rw [List.length_take] at hr
    rw [he, List.drop_eq_nil_of_le (by omega)]
    exact ⟨rfl, rfl⟩

/-- In the end all that was used is in stored blocks. -/
theorem finished (h : compressor.Finished x code) : code = blocks x ++ lastBlock := by
  obtain ⟨c, c₁, c', out, flushed, made, room, used, h, hf, hc, rfl⟩ := h
  obtain ⟨rfl, rfl⟩ := fed h
  have hq := flushing_finish hf
  obtain ⟨-, rfl, ⟨-, hle⟩ | ⟨h, -⟩⟩ := call_finish hc
  · rw [List.nil_append, List.take_of_length_le hle, hq]
    exact congrArg (· ++ lastBlock) (queued_held x false)
  · cases h

end

/-- The compressor makes what the format says. -/
theorem makes : compressor.Makes format where
  full {c c₁ c' x out flushed made room used} h hf hc hr := by
    obtain ⟨rfl, rfl⟩ := fed h
    obtain ⟨-, hq⟩ := flushing_full hf
    cases hc
    rw [List.length_take] at hr
    rw [List.nil_append, List.take_of_length_le (by omega), hq, queued_held]
    exact segment_blocks x
  finish h := ⟨_, segment_blocks _, finished h⟩
  okay _ _ hc := by cases hc; rfl
  okay_flush {c c₁ c' x out flushed made room used status flush} _ _ _ hc := by
    rcases flush with - | - | -
    · cases hc; exact .inl rfl
    · cases hc; exact .inl rfl
    · obtain ⟨-, -, ⟨h, -⟩ | ⟨h, -⟩⟩ := call_finish hc
      · exact .inr ⟨h, rfl⟩
      · exact .inl h
  progress _ _ hc hne := by
    cases hc
    exact .inl (List.length_pos_iff.2 hne).ne'

/-! ### The inflater -/

/-- An inflater that knows the end of a stream. -/
def inflater : Inflater where
  State := Unit
  init := ()
  decompress _ input _ _ _ :=
    if lastBlock <+: input then (.done, 2, [], ()) else (.failed (ascii "Failed"), 0, [], ())
  consumed_le {st input window outPos more status n made st'} h := by
    by_cases hp : lastBlock <+: input
    · rw [if_pos hp] at h
      cases h
      exact hp.length_le
    · rw [if_neg hp] at h
      cases h
      exact Nat.zero_le _
  made_le {st input window outPos more status n made st'} hle h := by
    by_cases hp : lastBlock <+: input
    · rw [if_pos hp] at h
      cases h
      exact hle
    · rw [if_neg hp] at h
      cases h
      exact hle
  progress {st input window outPos more status n made st'} _ h hs := by
    by_cases hp : lastBlock <+: input
    · rw [if_pos hp] at h
      cases h
      exact .inl (by simp)
    · rw [if_neg hp] at h
      cases h
      obtain hs | ⟨hs, -⟩ := hs <;> cases hs

end Deflate.Stored
