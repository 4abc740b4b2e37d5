import OdfCrypto.Error
import OdfCrypto.Lib.Cursor

/-!
# The latch

What keeps the caller's own failure apart from what the layers over its reader
make of it (`io_latch.rs`): the reader is wrapped, and the wrapper keeps the first
error that the reader returned, and hands on a stand-in of the same kind.

* `Layers`: anything that reads and seeks, and goes on as it pleases;
* `Layers.run_kept`: after it, the latch has the first error of the reader.
-/

namespace OdfCrypto

open ByteStream Text

/-! ### Wrapping a reader -/

/-- A reader that can seek, as a caller has it: it may fail whenever it is called. -/
class ReadSeek (κ : Type) where
  read : κ → ℕ → Except IoError Bytes × κ
  seek : κ → SeekFrom → Except IoError ℕ × κ

/-- The slot that a wrapped reader reports into. -/
structure Latch where
  kept : Option IoError := none
  deriving DecidableEq

namespace Latch

/-- The caller's first error, if there was one. -/
def take (latch : Latch) : Option IoError := latch.kept

/-- Keep an error, unless one is kept already; what is handed on is a stand-in. -/
def record (latch : Latch) (err : IoError) : IoError × Latch :=
  let standIn := .simple err.kind (ascii "the reader failed")
  let first := latch.kept
  (standIn, ⟨some (first.getD err)⟩)

end Latch

/-- A reader whose errors are recorded. -/
structure Latched (κ : Type) where
  inner : κ
  latch : Latch := {}

namespace Latched

variable {κ α : Type}

def new (inner : κ) : Latched κ := { inner }

/-- The result of a call on the wrapped reader, its error recorded. -/
def recorded (l : Latched κ) : Except IoError α × κ → Except IoError α × Latched κ
  | (.ok a, inner) => (.ok a, { l with inner })
  | (.error e, inner) => (.error (l.latch.record e).1, ⟨inner, (l.latch.record e).2⟩)

variable [ReadSeek κ]

def read (l : Latched κ) (n : ℕ) : Except IoError Bytes × Latched κ :=
  l.recorded (ReadSeek.read l.inner n)

def seek (l : Latched κ) (pos : SeekFrom) : Except IoError ℕ × Latched κ :=
  l.recorded (ReadSeek.seek l.inner pos)

end Latched

/-! ### The layers over it -/

/-- What runs over a wrapped reader: it reads and seeks, and what it does next, and
    what it comes to, may depend on what it is told in any way. -/
inductive Layers (α : Type)
  | done (a : α)
  | read (n : ℕ) (next : Except IoError Bytes → Layers α)
  | seek (pos : SeekFrom) (next : Except IoError ℕ → Layers α)

/-- The error that a call returned, if it did. -/
def errorOf {α κ : Type} : Except IoError α × κ → List IoError
  | (.ok _, _) => []
  | (.error e, _) => [e]

namespace Layers

variable {κ α : Type} [ReadSeek κ]

/-- What the layers come to, and how the reader is left. -/
def run : Layers α → Latched κ → α × Latched κ
  | done a, l => (a, l)
  | read n next, l => (next (l.read n).1).run (l.read n).2
  | seek pos next, l => (next (l.seek pos).1).run (l.seek pos).2

/-- The errors that the caller's reader returns meanwhile, in order. -/
def errors : Layers α → Latched κ → List IoError
  | done _, _ => []
  | read n next, l => errorOf (ReadSeek.read l.inner n) ++ (next (l.read n).1).errors (l.read n).2
  | seek pos next, l =>
    errorOf (ReadSeek.seek l.inner pos) ++ (next (l.seek pos).1).errors (l.seek pos).2

omit [ReadSeek κ] in
/-- After one call the latch has what it had, or else the error of the call. -/
theorem recorded_kept {β : Type} (l : Latched κ) (result : Except IoError β × κ) :
    (l.recorded result).2.latch.kept = l.latch.kept.or (errorOf result).head? := by
  rcases result with ⟨e | b, inner⟩
  · change some (l.latch.kept.getD e) = l.latch.kept.or (some e)
    rcases l.latch.kept with _ | first <;> rfl
  · exact Option.or_none.symm

/-- Whatever the layers do, in the end the latch has the first error of the reader. -/
theorem run_kept (layers : Layers α) (l : Latched κ) :
    (layers.run l).2.latch.kept = l.latch.kept.or (layers.errors l).head? := by
  induction layers generalizing l with
  | done a => exact Option.or_none.symm
  | read n next ih =>
    rw [run, errors, ih, Latched.read, recorded_kept, Option.or_assoc, List.head?_append]
  | seek pos next ih =>
    rw [run, errors, ih, Latched.seek, recorded_kept, Option.or_assoc, List.head?_append]

end Layers

end OdfCrypto
