import Mathlib.Logic.Function.Basic
import OdfCrypto.Lib.Read

/-!
# A disk

Files have numbers, and names lead to files. A file stays what it is when its
name is taken away or given to another: who has it open goes on with its number.
Opening a name for writing cuts the file there to nothing, and makes a new file,
of a number no file had before, where there is none.

No two names lead to the same file, and numbers are given out in order: a `Disk`
carries both.
-/

open ByteStream

/-- What a file holds, and its permissions. -/
structure File where
  bytes : Bytes
  mode : ℕ
  deriving DecidableEq

/-- A disk with names `ν`. -/
structure Disk (ν : Type) where
  /-- The number of the file that a name leads to. -/
  names : ν → Option ℕ
  /-- The files by their numbers. -/
  files : ℕ → File
  /-- The number of the next new file. -/
  next : ℕ
  /-- The permissions of a new file. -/
  newMode : ℕ
  lt_next : ∀ n i, names n = some i → i < next
  names_inj : ∀ m n i, names m = some i → names n = some i → m = n

namespace Disk

variable {ν : Type}

/-- The file that a name leads to. -/
def file (d : Disk ν) (n : ν) : Option File := (d.names n).map d.files

/-- What a file holds. -/
def bytes (d : Disk ν) (i : ℕ) : Bytes := (d.files i).bytes

/-- Change a file. -/
def modify (d : Disk ν) (i : ℕ) (f : File → File) : Disk ν :=
  { d with files := Function.update d.files i (f (d.files i)) }

/-- `bs` written over `old` from the offset `pos` on; a gap before it is filled
    with zeros. -/
def overwrite (old : Bytes) (pos : ℕ) (bs : Bytes) : Bytes :=
  if bs.isEmpty then old
  else old.take pos ++ List.replicate (pos - old.length) 0 ++ bs ++ old.drop (pos + bs.length)

/-- Write into a file. -/
def write (d : Disk ν) (i pos : ℕ) (bs : Bytes) : Disk ν :=
  d.modify i fun f => { f with bytes := overwrite f.bytes pos bs }

/-- Make a new file, which no name leads to. -/
def alloc (d : Disk ν) : Disk ν :=
  { d with
    files := Function.update d.files d.next { bytes := [], mode := d.newMode }
    next := d.next + 1
    lt_next := fun n i h => Nat.lt_succ_of_lt (d.lt_next n i h) }

/-- Set the permissions of the file that a name leads to. -/
def chmod (d : Disk ν) (n : ν) (mode : ℕ) : Option (Disk ν) :=
  (d.names n).map fun i => d.modify i fun f => { f with mode }

variable {d d' : Disk ν} {m n : ν} {i j : ℕ}

@[simp] theorem names_modify (f : File → File) : (d.modify i f).names = d.names := rfl

@[simp] theorem next_modify (f : File → File) : (d.modify i f).next = d.next := rfl

@[simp] theorem files_modify_self (f : File → File) : (d.modify i f).files i = f (d.files i) :=
  Function.update_self ..

theorem files_modify_of_ne (f : File → File) (h : j ≠ i) : (d.modify i f).files j = d.files j :=
  Function.update_of_ne h ..

@[simp] theorem bytes_write_self {pos : ℕ} {bs : Bytes} :
    (d.write i pos bs).bytes i = overwrite (d.bytes i) pos bs :=
  congrArg File.bytes (files_modify_self _)

/-- Setting permissions leaves what files hold. -/
theorem bytes_chmod {mode : ℕ} (h : d.chmod n mode = some d') : d'.bytes = d.bytes := by
  obtain ⟨i, _, rfl⟩ := Option.map_eq_some_iff.1 h
  funext j
  by_cases hj : j = i
  · rw [hj, bytes, files_modify_self, bytes]
  · rw [bytes, files_modify_of_ne _ hj, bytes]

/-- What setting permissions does. -/
theorem chmod_eq_some {mode : ℕ} (h : d.chmod n mode = some d') :
    ∃ i, d.names n = some i ∧ d' = d.modify i fun f => { f with mode } := by
  obtain ⟨i, hi, rfl⟩ := Option.map_eq_some_iff.1 h
  exact ⟨i, hi, rfl⟩

variable [DecidableEq ν]

/-- Take a name away. -/
def remove (d : Disk ν) (n : ν) : Disk ν :=
  { d with
    names := Function.update d.names n none
    lt_next := fun m i hm => by
      by_cases hmn : m = n
      · rw [hmn, Function.update_self] at hm
        cases hm
      · exact d.lt_next m i (by rwa [Function.update_of_ne hmn] at hm)
    names_inj := fun m k i hm hk => by
      by_cases hmn : m = n
      · rw [hmn, Function.update_self] at hm
        cases hm
      by_cases hkn : k = n
      · rw [hkn, Function.update_self] at hk
        cases hk
      rw [Function.update_of_ne hmn] at hm
      rw [Function.update_of_ne hkn] at hk
      exact d.names_inj m k i hm hk }

/-- Have a name lead to a file that no name leads to. -/
def link (d : Disk ν) (n : ν) (i : ℕ) (hi : i < d.next) (hn : ∀ m, d.names m ≠ some i) : Disk ν :=
  { d with
    names := Function.update d.names n (some i)
    lt_next := fun m j hm => by
      by_cases hmn : m = n
      · rw [hmn, Function.update_self] at hm
        exact Option.some.inj hm ▸ hi
      · exact d.lt_next m j (by rwa [Function.update_of_ne hmn] at hm)
    names_inj := fun m k j hm hk => by
      by_cases hmn : m = n <;> by_cases hkn : k = n
      · exact hmn.trans hkn.symm
      · rw [hmn, Function.update_self] at hm
        rw [Function.update_of_ne hkn, ← hm] at hk
        exact absurd hk (hn k)
      · rw [hkn, Function.update_self] at hk
        rw [Function.update_of_ne hmn, ← hk] at hm
        exact absurd hm (hn m)
      · rw [Function.update_of_ne hmn] at hm
        rw [Function.update_of_ne hkn] at hk
        exact d.names_inj m k j hm hk }

/-- Open a name for writing: the number of its file, which holds nothing. -/
def create (d : Disk ν) (n : ν) : ℕ × Disk ν :=
  match d.names n with
  | some i => (i, d.modify i fun f => { f with bytes := [] })
  | none =>
    (d.next, d.alloc.link n d.next (Nat.lt_succ_self _) fun m h => Nat.lt_irrefl _ (d.lt_next m _ h))

@[simp] theorem names_remove_self : (d.remove n).names n = none :=
  Function.update_self ..

theorem names_remove_of_ne (h : m ≠ n) :
    (d.remove n).names m = d.names m :=
  Function.update_of_ne h ..

/-- No name leads to a file whose name was taken away. -/
theorem remove_unnamed (h : d.names n = some i) (m : ν) :
    (d.remove n).names m ≠ some i := by
  intro hm
  by_cases hmn : m = n
  · rw [hmn, names_remove_self] at hm
    cases hm
  · rw [names_remove_of_ne hmn] at hm
    exact hmn (d.names_inj m n i hm h)

/-- Rename `a` to `b`, over what `b` led to: nothing, if there is no `a`. -/
def rename (d : Disk ν) (a b : ν) : Option (Disk ν) :=
  match h : d.names a with
  | some i => some ((d.remove a).link b i (d.lt_next a i h) (remove_unnamed h))
  | none => none

/-! ### What the operations leave -/

@[simp] theorem files_remove : (d.remove n).files = d.files := rfl

@[simp] theorem next_remove : (d.remove n).next = d.next := rfl

/-- Opening the name `n` for writing, which gave the file `i`. -/
structure Creates (d : Disk ν) (n : ν) (i : ℕ) (d' : Disk ν) : Prop where
  named : d'.names n = some i
  names_of_ne : ∀ m, m ≠ n → d'.names m = d.names m
  empty : (d'.files i).bytes = []
  files_of_ne : ∀ j, j < d.next → j ≠ i → d'.files j = d.files j
  next_le : d.next ≤ d'.next
  /-- The file is the one the name led to, or a new one. -/
  fresh : d.names n = some i ∨ i = d.next

theorem creates_create (d : Disk ν) (n : ν) : d.Creates n (d.create n).1 (d.create n).2 := by
  unfold create
  split
  · next i hi =>
    exact {
      named := hi
      names_of_ne := fun _ _ => rfl
      empty := by rw [files_modify_self]
      files_of_ne := fun j _ hj => Function.update_of_ne hj ..
      next_le := le_refl _
      fresh := .inl hi }
  · have hnew : d.alloc.files d.next = { bytes := [], mode := d.newMode } :=
      Function.update_self ..
    exact {
      named := Function.update_self ..
      names_of_ne := fun m hm => Function.update_of_ne hm ..
      empty := congrArg File.bytes hnew
      files_of_ne := fun j _ hj => Function.update_of_ne hj ..
      next_le := Nat.le_succ _
      fresh := .inr rfl }

/-- What renaming does. -/
theorem rename_eq_some {a b : ν} (h : d.rename a b = some d') :
    ∃ i, d.names a = some i ∧ d'.names b = some i ∧ (a ≠ b → d'.names a = none) ∧
      (∀ m, m ≠ a → m ≠ b → d'.names m = d.names m) ∧ d'.files = d.files ∧ d'.next = d.next := by
  unfold rename at h
  split at h
  · next i hi =>
    obtain rfl := Option.some.inj h
    refine ⟨i, hi, Function.update_self .., fun hab => ?_, fun m hma hmb => ?_, rfl, rfl⟩
    · exact (Function.update_of_ne hab ..).trans names_remove_self
    · exact (Function.update_of_ne hmb ..).trans (names_remove_of_ne hma)
  · cases h

/-- What is there can be renamed. -/
theorem rename_isSome {a b : ν} : (d.rename a b).isSome = (d.names a).isSome := by
  unfold rename
  split <;> simp_all

end Disk
