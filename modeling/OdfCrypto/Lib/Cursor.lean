import Mathlib.Algebra.Ring.Int.Defs
import Mathlib.Data.List.Basic
import OdfCrypto.Lib.Read

/-!
# Files in memory

A file that grows as it is written, with a position in it that can be anywhere: what
lies between its end and a later write is zeros. Positions have 64 bits.

* `Cursor.step`: one operation, a write or a seek;
* `Cursor.Within`: no operation leaves the position beyond some capacity;
* `FileOp.run_simulates`: states that simulate each other keep doing so in a run.
-/

namespace ByteStream

/-- Where to seek: from the start, from the end, or from the position. -/
inductive SeekFrom
  | start (n : ℕ)
  | end_ (d : ℤ)
  | current (d : ℤ)

/-- A number and a signed one, if the sum has 64 bits. -/
def checkedAddSigned (n : ℕ) (d : ℤ) : Option ℕ :=
  if 0 ≤ n + d ∧ n + d < 2 ^ 64 then some (n + d).toNat else none

/-- The position sought in a file of some length, from a position in it. -/
def SeekFrom.target (len pos : ℕ) : SeekFrom → Option ℕ
  | .start n => some n
  | .end_ d => checkedAddSigned len d
  | .current d => checkedAddSigned pos d

inductive FileOp
  | write (data : Bytes)
  | seek (whence : SeekFrom)

/-- A file that grows, and the position in it. -/
structure Cursor where
  bytes : Bytes := []
  pos : ℕ := 0
  deriving DecidableEq

namespace Cursor

/-- The file, with zeros up to the position. -/
def padded (c : Cursor) : Bytes := c.bytes ++ List.replicate (c.pos - c.bytes.length) 0

def write (c : Cursor) (data : Bytes) : Option ℕ × Cursor :=
  (some data.length, {
    bytes := c.padded.take c.pos ++ data ++ c.padded.drop (c.pos + data.length)
    pos := c.pos + data.length })

/-- At the end of a file, what is written comes after what is there. -/
theorem write_end (bytes data : Bytes) : ({ bytes, pos := bytes.length } : Cursor).write data =
    (some data.length, { bytes := bytes ++ data, pos := (bytes ++ data).length }) := by
  rw [write, padded, Nat.sub_self, List.replicate_zero, List.append_nil, List.take_length,
    List.drop_of_length_le (Nat.le_add_right _ _), List.append_nil, List.length_append]

def seek (c : Cursor) (whence : SeekFrom) : Option ℕ × Cursor :=
  match whence.target c.bytes.length c.pos with
  | some n => (some n, { c with pos := n })
  | none => (none, c)

/-- One operation: how much was written, or the new position. -/
def step (c : Cursor) : FileOp → Option ℕ × Cursor
  | .write data => c.write data
  | .seek whence => c.seek whence

end Cursor

/-- Operations one after the other, with their results. -/
def FileOp.run {σ β : Type*} (step : σ → FileOp → β × σ) : σ → List FileOp → List β × σ
  | s, [] => ([], s)
  | s, op :: ops =>
    let (b, s) := step s op
    let (bs, s) := run step s ops
    (b :: bs, s)

/-- No operation leaves the position beyond a capacity. -/
def Cursor.Within (capacity : ℕ) : Cursor → List FileOp → Prop
  | _, [] => True
  | c, op :: ops => (c.step op).2.pos ≤ capacity ∧ Cursor.Within capacity (c.step op).2 ops

instance Cursor.decidableWithin (capacity : ℕ) :
    (c : Cursor) → (ops : List FileOp) → Decidable (c.Within capacity ops)
  | _, [] => .isTrue trivial
  | c, op :: ops =>
    have := Cursor.decidableWithin capacity (c.step op).2 ops
    inferInstanceAs (Decidable (_ ∧ _))

/-- What simulates a cursor step by step within a capacity does so in every run within it. -/
theorem FileOp.run_simulates {σ β : Type*} {step : σ → FileOp → β × σ} {result : β → Option ℕ}
    {capacity : ℕ} (R : σ → Cursor → Prop)
    (hstep : ∀ {s c op}, R s c → (c.step op).2.pos ≤ capacity →
      result (step s op).1 = (c.step op).1 ∧ R (step s op).2 (c.step op).2)
    {s : σ} {c : Cursor} {ops : List FileOp} (h : R s c) (hw : c.Within capacity ops) :
    (run step s ops).1.map result = (run Cursor.step c ops).1 ∧
      R (run step s ops).2 (run Cursor.step c ops).2 := by
  induction ops generalizing s c with
  | nil => exact ⟨rfl, h⟩
  | cons op ops ih =>
    obtain ⟨hresult, hR⟩ := hstep h hw.1
    obtain ⟨hresults, hrun⟩ := ih hR hw.2
    exact ⟨congrArg₂ List.cons hresult hresults, hrun⟩

end ByteStream
