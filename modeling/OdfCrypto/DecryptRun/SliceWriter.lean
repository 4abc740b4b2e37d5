import OdfCrypto.DecryptRun
import OdfCrypto.Lib.Cursor

/-!
# The fixed buffer of `decrypt`

The buffer of `decrypt` has the length it was given, but its end, to those who write
and seek in it, is as far as was written.

* `SliceWriter.Simulates.step`: within its length it does what a file that grows does;
* `SliceWriter.step_leaves`: what would leave its length fails, and changes nothing.
-/

namespace OdfCrypto

open ByteStream Text

namespace SliceWriter

def seek (w : SliceWriter) (whence : SeekFrom) : Except IoError ℕ × SliceWriter :=
  match (whence.target w.len w.pos).filter fun n => n ≤ w.buf.length with
  | some n => (.ok n, { w with pos := n })
  | none => (.error (.simple .invalidInput (ascii "seek outside the output")), w)

/-- One operation: how much was written, or the new position. -/
def step (w : SliceWriter) : FileOp → Except IoError ℕ × SliceWriter
  | .write data => w.next data
  | .seek whence => w.seek whence

/-- The operation would leave the buffer. -/
def Leaves (w : SliceWriter) : FileOp → Prop
  | .write data => w.buf.length < w.pos + data.length
  | .seek whence => ∀ n ∈ whence.target w.len w.pos, w.buf.length < n

/-- What would leave the buffer is refused, and changes nothing. -/
theorem step_leaves {w : SliceWriter} {op : FileOp} (h : w.Leaves op) :
    ∃ e, w.step op = (.error e, w) := by
  rcases op with data | whence
  · exact ⟨_, if_neg (Nat.not_le.2 h)⟩
  · have hnone : (whence.target w.len w.pos).filter (fun n => n ≤ w.buf.length) = none := by
      rw [Option.filter_eq_none_iff]
      intro n hn
      simpa using h n hn
    refine ⟨.simple .invalidInput (ascii "seek outside the output"), ?_⟩
    change w.seek whence = _
    rw [seek, hnone]

/-- The buffer stands for a file that grows: it has been written so far as the file is
    long, and has zeros beyond. -/
structure Simulates (capacity : ℕ) (w : SliceWriter) (c : Cursor) : Prop where
  capacity : w.buf.length = capacity
  written : w.written = c.bytes
  pos : w.pos = c.pos
  len_le : w.len ≤ w.buf.length
  zeros : w.buf.drop w.len = List.replicate (w.buf.length - w.len) 0

theorem Simulates.zeroed (n : ℕ) : Simulates n (.zeroed n) {} where
  capacity := List.length_replicate
  written := rfl
  pos := rfl
  len_le := Nat.zero_le _
  zeros := by simp [SliceWriter.zeroed]

variable {capacity : ℕ} {w : SliceWriter} {c : Cursor}

theorem Simulates.length_bytes (h : Simulates capacity w c) : c.bytes.length = w.len := by
  rw [← h.written, SliceWriter.written, List.length_take, Nat.min_eq_left h.len_le]

/-- The gap up to the position is zeros in the buffer. -/
theorem Simulates.padded (h : Simulates capacity w c) (hpos : w.pos ≤ w.buf.length) :
    c.padded = w.buf.take (max w.len w.pos) := by
  have hgap : (w.buf.drop w.len).take (w.pos - w.len) = List.replicate (w.pos - w.len) 0 := by
    rw [h.zeros, List.take_replicate, Nat.min_eq_left (by omega)]
  rw [Cursor.padded, h.length_bytes, ← h.pos, ← hgap, ← h.written, SliceWriter.written,
    ← List.take_add]
  congr 1
  omega

theorem Simulates.write (h : Simulates capacity w c) {data : Bytes}
    (hle : w.pos + data.length ≤ w.buf.length) :
    ∃ w', w.next data = (.ok data.length, w') ∧ Simulates capacity w' (c.write data).2 := by
  have hlen := h.len_le
  have hfront : (w.buf.take w.pos ++ data).length = w.pos + data.length := by
    rw [List.length_append, List.length_take, Nat.min_eq_left (by omega)]
  refine ⟨_, if_pos hle, ?_, ?_, ?_, ?_, ?_⟩
  · rw [← h.capacity, List.length_append, hfront, List.length_drop]
    omega
  · -- what follows the data, up to the end of the file
    rw [SliceWriter.written, Cursor.write, h.padded (by omega), ← h.pos, List.take_take,
      Nat.min_eq_left (Nat.le_max_right _ _), List.drop_take]
    dsimp only
    rw [List.take_append, hfront, List.take_of_length_le (by rw [hfront]; exact Nat.le_max_right _ _)]
    congr 2
    omega
  · exact congrArg (· + data.length) h.pos
  · dsimp only
    rw [List.length_append, hfront, List.length_drop]
    omega
  · -- what follows them in the buffer is as it was
    dsimp only
    rw [List.drop_append, hfront, List.drop_of_length_le (by rw [hfront]; exact Nat.le_max_right _ _),
      List.nil_append, List.drop_drop, List.length_append, hfront, List.length_drop]
    have hbeyond := congrArg (List.drop (max w.len (w.pos + data.length) - w.len)) h.zeros
    rw [List.drop_drop, List.drop_replicate] at hbeyond
    convert hbeyond using 2 <;> omega

theorem Simulates.seek (h : Simulates capacity w c) {whence : SeekFrom}
    (hpos : (c.seek whence).2.pos ≤ capacity) :
    (w.seek whence).1.toOption = (c.seek whence).1 ∧
      Simulates capacity (w.seek whence).2 (c.seek whence).2 := by
  unfold Cursor.seek at hpos ⊢
  unfold SliceWriter.seek
  rw [h.length_bytes, ← h.pos] at hpos ⊢
  generalize whence.target w.len w.pos = target at hpos ⊢
  rcases target with - | n
  · exact ⟨rfl, h⟩
  · have hn : n ≤ w.buf.length := by
      rw [h.capacity]
      exact hpos
    rw [Option.filter_some, if_pos (decide_eq_true hn)]
    exact ⟨rfl, { h with pos := rfl }⟩

/-- One operation that does not leave the buffer does the same to both. -/
theorem Simulates.step (h : Simulates capacity w c) {op : FileOp}
    (hpos : (c.step op).2.pos ≤ capacity) :
    (w.step op).1.toOption = (c.step op).1 ∧ Simulates capacity (w.step op).2 (c.step op).2 := by
  rcases op with data | whence
  · have hle : w.pos + data.length ≤ w.buf.length := by
      rw [h.capacity, h.pos]
      exact hpos
    obtain ⟨w', hw, hs⟩ := h.write hle
    change (w.next data).1.toOption = _ ∧ Simulates capacity (w.next data).2 _
    rw [hw]
    exact ⟨rfl, hs⟩
  · exact h.seek hpos

/-- Within its length, the buffer does what a file does that was empty at first: with the
    same results, the same content and the same position. What would leave its length
    fails, and changes nothing. -/
theorem simulates_file (capacity : ℕ) :
    (∀ ops, Cursor.Within capacity {} ops →
      let (results, w) := FileOp.run SliceWriter.step (.zeroed capacity) ops
      let (results', c) := FileOp.run Cursor.step {} ops
      results.map Except.toOption = results' ∧ w.written = c.bytes ∧ w.pos = c.pos) ∧
    ∀ (w : SliceWriter) (op : FileOp), w.Leaves op → ∃ e, w.step op = (.error e, w) := by
  refine ⟨fun ops hw => ?_, fun w op h => step_leaves h⟩
  obtain ⟨hresults, hs⟩ := FileOp.run_simulates (Simulates capacity) (fun h hpos => h.step hpos)
    (.zeroed capacity) hw
  exact ⟨hresults, hs.written, hs.pos⟩

/-- Writes and seeks that stay within eight bytes: a part is written over, and a gap left. -/
def withinEight : List FileOp := [
  .write [1, 2, 3], .seek (.start 1), .write [9], .seek (.current (-5)), .seek (.end_ 2), .write [4]]

/-- Within eight bytes they come to the same file; what leaves them is refused. -/
theorem simulates_file_sample :
    (∃ results w, FileOp.run SliceWriter.step (.zeroed 8) withinEight = (results, w) ∧
      results.map Except.toOption = [some 3, some 1, some 1, none, some 5, some 1] ∧
        w.written = [1, 9, 3, 0, 0, 4] ∧ w.pos = 6) ∧
      ∃ e, (SliceWriter.zeroed 8).step (.seek (.start 9)) = (.error e, .zeroed 8) := by
  obtain ⟨hruns, hleaves⟩ := simulates_file 8
  have hfile : FileOp.run Cursor.step {} withinEight =
      ([some 3, some 1, some 1, none, some 5, some 1], ⟨[1, 9, 3, 0, 0, 4], 6⟩) := by decide +kernel
  have hwithin : Cursor.Within 8 {} withinEight := by decide +kernel
  have hsame := hruns withinEight hwithin
  rcases hrun : FileOp.run SliceWriter.step (.zeroed 8) withinEight with ⟨results, w⟩
  rw [hrun, hfile] at hsame
  exact ⟨⟨results, w, rfl, hsame⟩, hleaves _ _ fun n hn => by cases hn; decide⟩

end SliceWriter

end OdfCrypto
