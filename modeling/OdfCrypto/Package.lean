import OdfCrypto.Archive

/-!
# Packages

A stable package: one directory, and for each member what a reader of it
presents, whenever the member is opened and however it is read
(`Archive.Holds`). `Faithful` is what is relied on of the zip crate over a
caller's reader that presents its bytes, by reads of any length: the package it
finds is a matter of the bytes alone, and its members' readers present their
contents by reads of lengths of their own.
-/

namespace OdfCrypto

open ByteStream

/-- What a reader of a member presents, with the error it then comes to. -/
abbrev Content := Bytes × Option IoError

/-- A package whose members read the same every time they are opened. -/
structure Package where
  directory : List FileData
  /-- The inflated content of a member. -/
  content : (index : ℕ) → Except ZipError Content
  /-- The content of a member as it is stored. -/
  raw : (index : ℕ) → Except ZipError Content

/-- A caller's reader: the bytes it presents, and the most that its `n`-th read
    hands over of what is asked for, less one. -/
structure Reader where
  bytes : Bytes
  cuts : (n : ℕ) → ℕ

/-- A reader over a slice, which hands over all that is asked for. -/
def Reader.cursor (bytes : Bytes) : Reader := ⟨bytes, fun _ => bytes.length⟩

variable {ρ : Type} [Read ρ IoError]

/-- An opened member presents its content. -/
def Gives (opened : Except ZipError ρ) : Except ZipError Content → Prop
  | .error e => opened = .error e
  | .ok (bs, e) => ∃ file, opened = .ok file ∧ Presents file bs e

/-- An archive is that of a stable package. -/
structure Archive.Holds (a : Archive ρ) (p : Package) : Prop where
  directory : a.directory = p.directory
  content : ∀ k i, Gives (a.byIndex k i) (p.content i)
  raw : ∀ k i, Gives (a.byIndexRaw k i) (p.raw i)

/-- What the zip crate finds is a stable package, or an error. -/
def Finds (opened : Except ZipError (Archive ρ)) : Except ZipError Package → Prop
  | .error e => opened = .error e
  | .ok p => ∃ a, opened = .ok a ∧ a.Holds p

/-- The zip crate over readers that present their bytes: it finds the `stored`
    package of the bytes, each time, and no read fails. -/
structure Faithful (zip : Reader → Source ρ) (stored : Bytes → Except ZipError Package) :
    Prop where
  finds : ∀ r n, Finds ((zip r).openArchive n) (stored r.bytes)
  latched : ∀ r, (zip r).latch.take = none

/-! ### Packages in memory -/

/-- A member at hand: its entry, its content, and the content as it is stored. -/
structure StoredMember where
  file : FileData
  content : Bytes
  raw : Bytes

/-- The content of a member in memory. -/
def contentOf (bytes : Option Bytes) : Except ZipError Content :=
  match bytes with
  | some bytes => .ok (bytes, none)
  | none => .error .fileNotFound

/-- The package of some members in memory. -/
def Package.ofMembers (members : List StoredMember) : Package where
  directory := members.map StoredMember.file
  content index := contentOf (members[index]?.map StoredMember.content)
  raw index := contentOf (members[index]?.map StoredMember.raw)

/-- A reader of bytes in memory, cut as `cuts` has it. -/
def openPieces (cuts : ℕ → ℕ) (bytes : Option Bytes) : Except ZipError (Pieces IoError) :=
  match bytes with
  | some bytes => .ok { rest := bytes, cuts }
  | none => .error .fileNotFound

/-- An archive of some members in memory, whose readers are cut as `cuts` has it. -/
def memoryArchive (cuts : ℕ → ℕ) (members : List StoredMember) : Archive (Pieces IoError) where
  directory := members.map StoredMember.file
  byIndex _ index := openPieces cuts (members[index]?.map StoredMember.content)
  byIndexRaw _ index := openPieces cuts (members[index]?.map StoredMember.raw)

/-- A zip crate that knows the members of packages, and hands on the short
    reads of the caller's reader. -/
def memoryZip (members : Bytes → Except ZipError (List StoredMember)) (r : Reader) :
    Source (Pieces IoError) where
  openArchive _ := (members r.bytes).map (memoryArchive r.cuts)

theorem openPieces_gives (cuts : ℕ → ℕ) (bytes : Option Bytes) :
    Gives (openPieces cuts bytes) (contentOf bytes) := by
  cases bytes with
  | none => rfl
  | some bytes => exact ⟨_, rfl, Pieces.presents _ rfl⟩

theorem memoryArchive_holds (cuts : ℕ → ℕ) (members : List StoredMember) :
    (memoryArchive cuts members).Holds (.ofMembers members) where
  directory := rfl
  content _ _ := openPieces_gives _ _
  raw _ _ := openPieces_gives _ _

theorem memoryZip_faithful (members : Bytes → Except ZipError (List StoredMember)) :
    Faithful (memoryZip members) fun bytes => (members bytes).map Package.ofMembers where
  finds r n := by
    simp only [memoryZip]
    cases members r.bytes with
    | error e => rfl
    | ok ms => exact ⟨_, rfl, memoryArchive_holds _ _⟩
  latched _ := rfl

end OdfCrypto
