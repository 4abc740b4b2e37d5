import OdfCrypto.Lib.LittleEndian

/-!
# Reading zip archives

How an archive is read from its end record: the central directory that it points
to, with the Zip64 records where they are announced, and then each member at the
offset that the directory has for it. A member is read only if its local header,
its data descriptor and its central header agree; a descriptor has sizes of eight
bytes just where the local header has a Zip64 field.

* `Parser`, with `number_bind`, `bytes_bind`, `magic_bind` and `check_bind`, which
  read off what was written;
* `central`, `localMember`, `readEnd`, `readArchive`: the records, and the whole.
-/

namespace Zip

open ByteStream

/-- What the central directory says of a member. -/
structure Entry where
  name : Bytes
  method : ℕ
  flags : ℕ
  crc : ℕ
  compressed : ℕ
  uncompressed : ℕ
  offset : ℕ
  deriving DecidableEq

/-- A member, with its data as it is stored. -/
structure Member where
  name : Bytes
  method : ℕ
  crc : ℕ
  uncompressed : ℕ
  data : Bytes
  deriving DecidableEq

/-! ### Parsers -/

/-- Read from the front. -/
abbrev Parser (α : Type) := StateT Bytes Option α

/-- The next `n` bytes. -/
def bytes (n : ℕ) : Parser Bytes := fun bs =>
  if n ≤ bs.length then some (bs.take n, bs.drop n) else none

/-- The number that the next `n` bytes are. -/
def number (n : ℕ) : Parser ℕ := fun bs =>
  if n ≤ bs.length then some (ofLe (bs.take n), bs.drop n) else none

/-- Go on only if something holds. -/
def check (c : Prop) [Decidable c] : Parser Unit := fun bs => if c then some ((), bs) else none

/-- A signature. -/
def magic (v : ℕ) : Parser Unit := do
  let got ← number 4
  check (got = v)

section

variable {α : Type} {n v : ℕ} {bs rest : Bytes}

theorem bind_apply (p : Parser α) {β : Type} (f : α → Parser β) (bs : Bytes) :
    (p >>= f) bs = (p bs).bind fun r => f r.1 r.2 := rfl

theorem bytes_bind (h : bs.length = n) (f : Bytes → Parser α) :
    (bytes n >>= f) (bs ++ rest) = f bs rest := by
  rw [bind_apply, bytes, if_pos (by rw [List.length_append, h]; exact Nat.le_add_right _ _), ← h,
    List.take_left, List.drop_left]
  rfl

/-- A number that has no room is cut. -/
theorem number_bind_mod (v : ℕ) (f : ℕ → Parser α) :
    (number n >>= f) (le n v ++ rest) = f (v % 2 ^ (8 * n)) rest := by
  have hl : (le n v).length = n := length_le n v
  rw [bind_apply, number, if_pos (by rw [List.length_append, hl]; exact Nat.le_add_right _ _),
    List.take_left' hl, List.drop_left' hl, ofLe_le]
  rfl

theorem number_bind (h : v < 2 ^ (8 * n)) (f : ℕ → Parser α) :
    (number n >>= f) (le n v ++ rest) = f v rest := by
  rw [number_bind_mod, Nat.mod_eq_of_lt h]

theorem check_bind {c : Prop} [Decidable c] (h : c) (f : Unit → Parser α) :
    (check c >>= f) bs = f () bs := by
  rw [bind_apply, check, if_pos h]
  rfl

theorem magic_bind (h : v < 2 ^ 32) (f : Unit → Parser α) :
    (magic v >>= f) (le 4 v ++ rest) = f () rest := by
  rw [magic, bind_assoc, number_bind h, check_bind rfl]

theorem bytes_zero_bind (f : Bytes → Parser α) : (bytes 0 >>= f) bs = f [] bs := by
  rw [bind_apply, bytes, if_pos (Nat.zero_le _)]
  rfl

theorem lift_bind {β : Type} {x : Option β} {b : β} (h : x = some b) (f : β → Parser α) :
    (StateT.lift x >>= f) bs = f b bs := by
  rw [h]
  rfl

end

/-! ### Records -/

/-- The fields of an extra field. -/
def fields : (fuel : ℕ) → Bytes → Option (List (ℕ × Bytes))
  | _, [] => some []
  | 0, _ :: _ => none
  | fuel + 1, bs => do
    let (field, rest) ← (do
      let tag ← number 2
      let n ← number 2
      let data ← bytes n
      return (tag, data) : Parser (ℕ × Bytes)) bs
    return field :: (← fields fuel rest)

/-- The Zip64 field of an extra field, if there is one. -/
def zip64Field (extra : Bytes) : Option (Option Bytes) :=
  (fields extra.length extra).map fun l => l.lookup 0x0001

/-- The mark of a number of 32 bits that the Zip64 field has. -/
def mark32 : ℕ := 0xFFFFFFFF

def mark16 : ℕ := 0xFFFF

/-- A number of 32 bits, or the next one of the Zip64 field. -/
def wide (v : ℕ) : Parser ℕ := if v = mark32 then number 8 else pure v

/-- A central header. -/
def central : Parser Entry := do
  magic 0x02014b50
  let _madeBy ← number 2
  let _needed ← number 2
  let flags ← number 2
  let method ← number 2
  let _time ← number 2
  let _date ← number 2
  let crc ← number 4
  let compressed ← number 4
  let uncompressed ← number 4
  let nameLen ← number 2
  let extraLen ← number 2
  let commentLen ← number 2
  let disk ← number 2
  let _internal ← number 2
  let _external ← number 4
  let offset ← number 4
  let name ← bytes nameLen
  let extra ← bytes extraLen
  let _comment ← bytes commentLen
  check (disk = 0)
  let field ← StateT.lift (zip64Field extra)
  let sizes : Parser Entry := do
    let uncompressed ← wide uncompressed
    let compressed ← wide compressed
    let offset ← wide offset
    return { name, method, flags, crc, compressed, uncompressed, offset }
  let (entry, _) ← StateT.lift (sizes (field.getD []))
  return entry

/-- Whether there is a data descriptor. -/
def hasDescriptor (flags : ℕ) : Bool := flags / 2 ^ 3 % 2 = 1

/-- A member at its local header, which agrees with its central header. -/
def localMember (e : Entry) : Parser Member := do
  magic 0x04034b50
  let _needed ← number 2
  let flags ← number 2
  let method ← number 2
  let _time ← number 2
  let _date ← number 2
  let crc ← number 4
  let compressed ← number 4
  let uncompressed ← number 4
  let nameLen ← number 2
  let extraLen ← number 2
  let name ← bytes nameLen
  let extra ← bytes extraLen
  check (name = e.name ∧ flags = e.flags ∧ method = e.method)
  let field ← StateT.lift (zip64Field extra)
  let data ← bytes e.compressed
  if hasDescriptor flags then
    magic 0x08074b50
    let crc ← number 4
    let compressed ← number (if field.isSome then 8 else 4)
    let uncompressed ← number (if field.isSome then 8 else 4)
    check (crc = e.crc ∧ compressed = e.compressed ∧ uncompressed = e.uncompressed)
  else
    let sizes : Parser (ℕ × ℕ) := do
      let uncompressed ← wide uncompressed
      let compressed ← wide compressed
      return (uncompressed, compressed)
    let ((uncompressed, compressed), _) ← StateT.lift (sizes (field.getD []))
    check (crc = e.crc ∧ compressed = e.compressed ∧ uncompressed = e.uncompressed)
  return { name, method, crc := e.crc, uncompressed := e.uncompressed, data }

/-- What the end of an archive says: how many members there are, and the length
    and the offset of the central directory. -/
structure End where
  count : ℕ
  size : ℕ
  start : ℕ
  deriving DecidableEq

/-- The end record, with a comment of some length after it. -/
def endRecord (commentLen : ℕ) : Parser End := do
  magic 0x06054b50
  let disk ← number 2
  let startDisk ← number 2
  let countHere ← number 2
  let count ← number 2
  let size ← number 4
  let start ← number 4
  let len ← number 2
  check (disk = 0 ∧ startDisk = 0 ∧ countHere = count ∧ len = commentLen)
  return { count, size, start }

/-- The offset of the Zip64 end record. -/
def locator : Parser ℕ := do
  magic 0x07064b50
  let disk ← number 4
  let offset ← number 8
  let disks ← number 4
  check (disk = 0 ∧ disks = 1)
  return offset

/-- The Zip64 end record. -/
def endRecord64 : Parser End := do
  magic 0x06064b50
  let _size ← number 8
  let _madeBy ← number 2
  let _needed ← number 2
  let disk ← number 4
  let startDisk ← number 4
  let countHere ← number 8
  let count ← number 8
  let size ← number 8
  let start ← number 8
  check (disk = 0 ∧ startDisk = 0 ∧ countHere = count)
  return { count, size, start }

/-! ### Archives -/

/-- Read at an offset. -/
def readAt {α : Type} (archive : Bytes) (offset : ℕ) (p : Parser α) : Option α :=
  if offset ≤ archive.length then (p (archive.drop offset)).map Prod.fst else none

/-- Look for the end record, from the end, and say where it is. -/
def findEnd (archive : Bytes) : Option (End × ℕ) :=
  (List.range (2 ^ 16)).findSome? fun commentLen =>
    if 22 + commentLen ≤ archive.length then
      let at_ := archive.length - (22 + commentLen)
      (readAt archive at_ (endRecord commentLen)).map fun e => (e, at_)
    else none

/-- Read the end of an archive: where a number is marked, that of the Zip64 record
    stands for it. -/
def readEnd (archive : Bytes) : Option End := do
  let (e, at_) ← findEnd archive
  if e.count = mark16 ∨ e.size = mark32 ∨ e.start = mark32 then
    if at_ < 20 then failure
    let offset ← readAt archive (at_ - 20) locator
    let e64 ← readAt archive offset endRecord64
    return {
      count := if e.count = mark16 then e64.count else e.count
      size := if e.size = mark32 then e64.size else e.size
      start := if e.start = mark32 then e64.start else e.start }
  else return e

/-- So many central headers. -/
def centrals : (count : ℕ) → Parser (List Entry)
  | 0 => pure []
  | count + 1 => do
    let e ← central
    let es ← centrals count
    return e :: es

/-- Read an archive. The directory is as long as the end says. -/
def readArchive (archive : Bytes) : Option (List Member) := do
  let e ← readEnd archive
  let (entries, rest) ← centrals e.count ((archive.drop e.start).take e.size)
  if rest ≠ [] then failure
  entries.mapM fun entry => readAt archive entry.offset (localMember entry)

/-! ### Names -/

/-- The name in a local header. -/
def localName : Parser Bytes := do
  magic 0x04034b50
  let _needed ← number 2
  let _flags ← number 2
  let _method ← number 2
  let _time ← number 2
  let _date ← number 2
  let _crc ← number 4
  let _compressed ← number 4
  let _uncompressed ← number 4
  let nameLen ← number 2
  let _extraLen ← number 2
  bytes nameLen

/-- The name of a member, where its local header has the same one. -/
def nameOf (archive : Bytes) (entry : Entry) : Option Bytes := do
  let name ← readAt archive entry.offset localName
  if name = entry.name then some name else none

/-- The names of the members of an archive. -/
def readNames (archive : Bytes) : Option (List Bytes) := do
  let e ← readEnd archive
  let (entries, rest) ← centrals e.count ((archive.drop e.start).take e.size)
  if rest = [] then entries.mapM (nameOf archive) else none

/-- All that a parser yields has a property. -/
def Parser.Yields {α : Type} (p : Parser α) (Q : α → Prop) : Prop :=
  ∀ bs a rest, p bs = some (a, rest) → Q a

section

variable {α β : Type} {p : Parser α} {f : α → Parser β} {Q : β → Prop}

theorem Parser.Yields.bind {R : α → Prop} (hp : p.Yields R) (hf : ∀ a, R a → (f a).Yields Q) :
    (p >>= f).Yields Q := by
  intro bs b rest h
  rw [bind_apply, Option.bind_eq_some_iff] at h
  obtain ⟨⟨a, rest'⟩, ha, hb⟩ := h
  exact hf a (hp _ _ _ ha) _ _ _ hb

theorem Parser.Yields.then (hf : ∀ a, (f a).Yields Q) : (p >>= f).Yields Q :=
  .bind (R := fun _ => True) (fun _ _ _ _ => trivial) fun a _ => hf a

theorem number_yields (n : ℕ) : (number n).Yields (· < 2 ^ (8 * n)) := by
  intro bs a rest h
  unfold number at h
  split at h
  · next hn =>
    cases h
    have := ofLe_lt (bs.take n)
    rwa [List.length_take_of_le hn] at this
  · cases h

theorem bytes_yields (n : ℕ) : (bytes n).Yields (·.length = n) := by
  intro bs a rest h
  unfold bytes at h
  split at h
  · next hn => cases h; exact List.length_take_of_le hn
  · cases h

/-- A name has as many bytes as two bytes can say. -/
theorem localName_yields : localName.Yields (·.length < 2 ^ 16) := by
  unfold localName
  refine .then fun _ => .then fun _ => .then fun _ => .then fun _ => .then fun _ => .then fun _ =>
    .then fun _ => .then fun _ => .then fun _ => (number_yields 2).bind fun n hn => .then fun _ => ?_
  intro bs name rest h
  rw [bytes_yields n bs name rest h]
  exact hn

theorem readAt_yields {R : α → Prop} (hp : p.Yields R) {archive : Bytes} {offset : ℕ} {a : α}
    (h : readAt archive offset p = some a) : R a := by
  unfold readAt at h
  split at h
  · obtain ⟨⟨a, rest⟩, hr, rfl⟩ := Option.map_eq_some_iff.1 h
    exact hp _ _ _ hr
  · cases h

end

/-- What is read of every element, from all of them. -/
theorem mapM_eq_some {α β : Type} {f : α → Option β} {l : List α} {l' : List β}
    (h : l.mapM f = some l') : ∀ b ∈ l', ∃ a ∈ l, f a = some b := by
  induction l generalizing l' with
  | nil =>
    rw [List.mapM_nil] at h
    cases h
    nofun
  | cons a l ih =>
    rw [List.mapM_cons] at h
    obtain ⟨b, hb, h⟩ := Option.bind_eq_some_iff.1 h
    obtain ⟨bs, hbs, h⟩ := Option.bind_eq_some_iff.1 h
    cases h
    intro c hc
    rcases List.mem_cons.1 hc with rfl | hc
    · exact ⟨a, List.mem_cons_self, hb⟩
    · obtain ⟨a', ha', h⟩ := ih hbs c hc
      exact ⟨a', List.mem_cons_of_mem _ ha', h⟩

theorem mapM_of_forall {α β : Type} {f : α → Option β} {g : α → β} {l : List α}
    (h : ∀ a ∈ l, f a = some (g a)) : l.mapM f = some (l.map g) := by
  induction l with
  | nil => rfl
  | cons a l ih =>
    rw [List.mapM_cons, h a List.mem_cons_self, ih fun b hb => h b (List.mem_cons_of_mem _ hb)]
    rfl

/-- A name that was read has no more bytes than two bytes can say. -/
theorem length_of_mem_readNames {archive : Bytes} {names : List Bytes}
    (h : readNames archive = some names) {name : Bytes} (hn : name ∈ names) :
    name.length < 2 ^ 16 := by
  unfold readNames at h
  obtain ⟨e, -, h⟩ := Option.bind_eq_some_iff.1 h
  obtain ⟨⟨entries, rest⟩, -, h⟩ := Option.bind_eq_some_iff.1 h
  dsimp only at h
  split at h
  · obtain ⟨entry, -, h⟩ := mapM_eq_some h name hn
    unfold nameOf at h
    obtain ⟨name', hread, h⟩ := Option.bind_eq_some_iff.1 h
    split at h
    · cases h
      exact readAt_yields localName_yields hread
    · cases h
  · cases h

end Zip
