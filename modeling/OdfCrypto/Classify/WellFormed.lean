import OdfCrypto.Classify

/-!
# What a classification is

The second stage of classification is a fold over the rows of the manifest. What
each row comes to is described apart from the fold: the stream it resolves to
(`streamOfRow`), in the tree as the rows before it have left it, and the entry it
is accepted as (`entryOfRow`).

* `StageB.Folded`: what the fold has come to after some rows;
* `stageB_wellFormed`: what the parts of a classification say of each other and
  of the rows.
-/

namespace OdfCrypto

open ByteStream Text

section

variable (bags : List PropertyBag) (tree : FolderTree)

/-- The state that the rows before the `i`-th one leave. -/
def stateBefore (i : ℕ) : Option StageB := ((bags.take i).foldlM StageB.row { tree }).toOption

/-- The `i`-th row, and the stream that it resolves to. -/
def streamOfRow (i : ℕ) : Option (PropertyBag × Str) := do
  let bag ← bags[i]?
  let st ← stateBefore bags tree i
  if bag.fullPath.isEmpty then failure
  let resolved ← (st.tree.resolve bag.fullPath).1.toOption.join
  if resolved.kind = .stream then return (bag, resolved.treePath) else failure

/-- Whether there have been PGP keys, up to the `i`-th row. -/
def keyInfoUpTo (i : ℕ) : Bool := (bags.take (i + 1)).any fun bag => bag.keyInfo.isSome

/-- The entry that the `i`-th row is accepted as. -/
def entryOfRow (i : ℕ) : Option EntryEncryption := do
  let (bag, path) ← streamOfRow bags tree i
  acceptRow bag (keyInfoUpTo bags i) path

/-- Whether the `i`-th row resolves to a stream and is not accepted. -/
def refusedRow (i : ℕ) : Bool :=
  (streamOfRow bags tree i).isSome && (entryOfRow bags tree i).isNone

end

/-- The last component of a path. -/
def lastComponent (path : Str) : Str := (path.splitOn '/').getLastD []

/-- Whether the last component says that a package is encrypted. -/
def isCommon (entry : EntryEncryption) : Bool :=
  lastComponent entry.path = ascii "content.xml" ∨
    lastComponent entry.path = ascii "encrypted-package"

/-! ### Rows that come before -/

section

variable {bags : List PropertyBag} {tree : FolderTree} {bag : PropertyBag} {i : ℕ}

theorem streamOfRow_append (h : i < bags.length) :
    streamOfRow (bags ++ [bag]) tree i = streamOfRow bags tree i := by
  rw [streamOfRow, streamOfRow, stateBefore, stateBefore, List.getElem?_append_left h,
    List.take_append_of_le_length h.le]

theorem keyInfoUpTo_append (h : i < bags.length) :
    keyInfoUpTo (bags ++ [bag]) i = keyInfoUpTo bags i := by
  rw [keyInfoUpTo, keyInfoUpTo, List.take_append_of_le_length (Nat.succ_le_of_lt h)]

theorem entryOfRow_append (h : i < bags.length) :
    entryOfRow (bags ++ [bag]) tree i = entryOfRow bags tree i := by
  rw [entryOfRow, entryOfRow, streamOfRow_append h, keyInfoUpTo_append h]

theorem entries_append :
    (List.range (bags ++ [bag]).length).filterMap (entryOfRow (bags ++ [bag]) tree) =
      (List.range bags.length).filterMap (entryOfRow bags tree) ++
        (entryOfRow (bags ++ [bag]) tree bags.length).toList := by
  rw [List.length_append, List.length_singleton, List.range_succ, List.filterMap_append]
  congr 1
  · exact List.filterMap_congr fun i hi => entryOfRow_append (List.mem_range.1 hi)

theorem refused_append :
    (List.range (bags ++ [bag]).length).any (refusedRow (bags ++ [bag]) tree) =
      ((List.range bags.length).any (refusedRow bags tree) ||
        refusedRow (bags ++ [bag]) tree bags.length) := by
  rw [List.length_append, List.length_singleton, List.range_succ, List.any_append]
  congr 1
  · rw [Bool.eq_iff_iff, List.any_eq_true, List.any_eq_true]
    refine exists_congr fun i => and_congr_right fun hi => ?_
    have hi := List.mem_range.1 hi
    rw [refusedRow, refusedRow, streamOfRow_append hi, entryOfRow_append hi]
  · rw [List.any_cons, List.any_nil, Bool.or_false]

end

/-! ### Accepted rows -/

section

variable {bag : PropertyBag} {path : Str} {entry : EntryEncryption} {keyInfo : Bool}

theorem checksumOf_ne_none {cipher : Cipher} (h : checksumPresentOrUnneeded bag cipher = true)
    (hc : cipher ≠ .aesGcmW3c) : checksumOf bag ≠ .none := by
  simp only [checksumPresentOrUnneeded, hc, false_or, decide_eq_true_eq] at h
  obtain ⟨d, hd⟩ := Option.isSome_iff_exists.1 h.1
  obtain ⟨alg, ha⟩ := Option.isSome_iff_exists.1 h.2
  unfold checksumOf
  rw [hd, ha]
  cases alg <;> exact Checksum.noConfusion

/-- What every accepted row is: an entry at the path it resolved to, with a
    checksum if its cipher needs one. -/
def Accepted (path : Str) (entry : EntryEncryption) : Prop :=
  entry.path = path ∧ (entry.cipher ≠ .aesGcmW3c → entry.checksum ≠ .none)

theorem pgpEntry_accepted (h : pgpEntry bag path = some entry) :
    Accepted path entry ∧ entry.kdf = .pgpRsaOaepMgf1p := by
  simp only [pgpEntry, Option.bind_eq_bind] at h
  split at h
  · cases h
  · simp only [Option.bind_eq_some_iff] at h
    obtain ⟨cipher, -, size, -, iv, -, h⟩ := h
    split at h
    · cases h
    · next hsum =>
      cases h
      exact ⟨⟨rfl, checksumOf_ne_none (not_not.1 hsum)⟩, rfl⟩

theorem passwordKdf_ne_pgp {salt : Bytes} {kdf : Kdf} (h : passwordKdf bag salt = some kdf) :
    kdf ≠ .pgpRsaOaepMgf1p := by
  unfold passwordKdf at h
  split at h
  · cases h; exact Kdf.noConfusion
  · obtain ⟨⟨t, m, p⟩, -, rfl⟩ := Option.map_eq_some_iff.1 h
    exact Kdf.noConfusion
  · cases h

theorem passwordEntry_accepted (h : passwordEntry bag path = some entry) :
    Accepted path entry ∧ entry.kdf ≠ .pgpRsaOaepMgf1p := by
  simp only [passwordEntry, Option.bind_eq_bind, Option.bind_eq_some_iff] at h
  obtain ⟨cipher, -, size, -, iv, -, salt, -, kdf, hkdf, h⟩ := h
  split at h
  · cases h
  · next hsum =>
    cases h
    exact ⟨⟨rfl, checksumOf_ne_none (not_not.1 hsum)⟩, passwordKdf_ne_pgp hkdf⟩

/-- A row is accepted with PGP only once there have been keys. -/
theorem acceptRow_accepted (h : acceptRow bag keyInfo path = some entry) :
    Accepted path entry ∧ (entry.kdf = .pgpRsaOaepMgf1p → keyInfo = true) := by
  unfold acceptRow at h
  split at h
  · next hk =>
    refine ⟨?_, fun _ => hk⟩
    obtain h | ⟨-, h⟩ := Option.or_eq_some_iff.1 h
    · exact (pgpEntry_accepted h).1
    · exact (passwordEntry_accepted h).1
  · exact ⟨(passwordEntry_accepted h).1, fun hp => absurd hp (passwordEntry_accepted h).2⟩

end

/-! ### The fold -/

namespace StageB

/-- What the fold over some rows has come to. -/
structure Folded (bags : List PropertyBag) (tree : FolderTree) (st : StageB) : Prop where
  keyInfo : st.keyInfo = bags.any fun bag => bag.keyInfo.isSome
  encryptedEntries :
    st.encryptedEntries = (List.range bags.length).filterMap (entryOfRow bags tree)
  hasNonEncryptedEntries :
    st.hasNonEncryptedEntries = (List.range bags.length).any (refusedRow bags tree)
  common : st.common = st.encryptedEntries.find? isCommon
  packageEncrypted : st.packageEncrypted = st.common.isSome
  encryptedPackageComplete : st.encryptedPackageComplete =
    st.encryptedEntries.any fun entry => entry.path = ascii "encrypted-package"

variable {st st' : StageB} {bag : PropertyBag} {bags : List PropertyBag} {tree : FolderTree}

theorem header_keyInfo : (st.header bag).keyInfo = (st.keyInfo || bag.keyInfo.isSome) := by
  unfold header
  cases hk : bag.keyInfo <;> split <;> simp

/-- The header of a row touches nothing else of what the fold has come to. -/
theorem header_frame (st : StageB) (bag : PropertyBag) :
    (st.header bag).tree = st.tree ∧
      (st.header bag).encryptedEntries = st.encryptedEntries ∧
      (st.header bag).hasNonEncryptedEntries = st.hasNonEncryptedEntries ∧
      (st.header bag).common = st.common ∧
      (st.header bag).packageEncrypted = st.packageEncrypted ∧
      (st.header bag).encryptedPackageComplete = st.encryptedPackageComplete := by
  unfold header
  cases hk : bag.keyInfo <;> split <;> exact ⟨rfl, rfl, rfl, rfl, rfl, rfl⟩

/-- The short name of a path is one of these when its last component is. -/
theorem isCommon_iff (entry : EntryEncryption) :
    isCommon entry = true ↔ shortName entry.path = ascii "content.xml" ∨
      shortName entry.path = ascii "encrypted-package" := by
  unfold isCommon lastComponent shortName
  rw [decide_eq_true_iff]
  cases h : rsplitOnce '/' entry.path with
  | none =>
    rw [List.splitOn_eq_singleton (rsplitOnce_eq_none.1 h)]
    exact Iff.rfl
  | some p =>
    obtain ⟨dir, last⟩ := p
    obtain ⟨hp, hl⟩ := rsplitOnce_eq_some.1 h
    have hlast : (entry.path.splitOn '/').getLastD [] = last := by
      rw [hp, List.splitOn_append_cons_self, List.splitOn_eq_singleton hl]
      simp
    rw [hlast]
    cases last with
    | nil =>
      have hslash : '/' ∈ entry.path := by rw [hp]; simp
      refine iff_of_false (by decide) ?_
      rintro (h | h)
      · exact absurd ((show entry.path = ascii "content.xml" from h) ▸ hslash) (by decide)
      · exact absurd ((show entry.path = ascii "encrypted-package" from h) ▸ hslash) (by decide)
    | cons c last => exact Iff.rfl

theorem Folded.init : Folded [] tree { tree } where
  keyInfo := rfl
  encryptedEntries := rfl
  hasNonEncryptedEntries := rfl
  common := rfl
  packageEncrypted := rfl
  encryptedPackageComplete := rfl

/-- A row that does not resolve to a stream adds nothing but its keys. -/
theorem Folded.skip (h : Folded bags tree st)
    (hrow : streamOfRow (bags ++ [bag]) tree bags.length = none)
    (t : FolderTree) : Folded (bags ++ [bag]) tree { st.header bag with tree := t } := by
  obtain ⟨-, he, hn, hc, hp, hd⟩ := header_frame st bag
  have hentry : entryOfRow (bags ++ [bag]) tree bags.length = none := by
    rw [entryOfRow, hrow]; rfl
  constructor
  · simp only [header_keyInfo, h.keyInfo, List.any_append, List.any_cons, List.any_nil,
      Bool.or_false]
  · rw [entries_append, hentry, ← h.encryptedEntries, Option.toList_none, List.append_nil]
    exact he
  · rw [refused_append, ← h.hasNonEncryptedEntries, refusedRow, hrow, Option.isSome_none,
      Bool.false_and, Bool.or_false]
    exact hn
  · simp only [hc, he, h.common]
  · simp only [hp, hc, h.packageEncrypted]
  · simp only [hd, he, h.encryptedPackageComplete]

/-- A row that resolves to a stream is accepted, or counts as not encrypted. -/
theorem Folded.onStream (h : Folded bags tree st) {path : Str}
    (hrow : streamOfRow (bags ++ [bag]) tree bags.length = some (bag, path)) (t : FolderTree) :
    Folded (bags ++ [bag]) tree ({ st.header bag with tree := t }.onStream bag path) := by
  obtain ⟨-, he, hn, hc, hp, hd⟩ := header_frame st bag
  have hkeys : keyInfoUpTo (bags ++ [bag]) bags.length = (st.header bag).keyInfo := by
    rw [keyInfoUpTo, List.take_of_length_le (by simp), header_keyInfo, h.keyInfo, List.any_append,
      List.any_cons, List.any_nil, Bool.or_false]
  have hentry : entryOfRow (bags ++ [bag]) tree bags.length =
      acceptRow bag (st.header bag).keyInfo path := by
    rw [entryOfRow, hrow, ← hkeys]
    rfl
  have hkey : (st.header bag).keyInfo = (bags ++ [bag]).any fun bag => bag.keyInfo.isSome := by
    simp only [header_keyInfo, h.keyInfo, List.any_append, List.any_cons, List.any_nil,
      Bool.or_false]
  unfold StageB.onStream
  cases hacc : acceptRow bag (st.header bag).keyInfo path with
  | none =>
    simp only [hacc]
    constructor
    · exact hkey
    · rw [entries_append, hentry, hacc, ← h.encryptedEntries, Option.toList_none, List.append_nil]
      exact he
    · rw [refused_append, refusedRow, hrow, hentry, hacc]
      simp
    · simp only [hc, he, h.common]
    · simp only [hp, hc, h.packageEncrypted]
    · simp only [hd, he, h.encryptedPackageComplete]
  | some entry =>
    simp only [hacc]
    constructor
    · exact hkey
    · rw [entries_append, hentry, hacc, ← h.encryptedEntries]
      simp only [he]
      rfl
    · rw [refused_append, refusedRow, hrow, hentry, hacc, ← h.hasNonEncryptedEntries]
      simp [hn]
    · rw [he, List.find?_append, ← h.common, hp, h.packageEncrypted, hc]
      simp only [← isCommon_iff]
      -- only the first entry that says so is kept
      cases hcm : st.common with
      | some first => simp
      | none => cases hi : isCommon entry <;> simp [hi]
    · rw [hp, h.packageEncrypted, hc]
      simp only [← isCommon_iff]
      cases hcm : st.common with
      | some first => simp
      | none => cases hi : isCommon entry <;> simp
    · rw [he, hd, h.encryptedPackageComplete, List.any_append, List.any_cons, List.any_nil,
        Bool.or_false, (acceptRow_accepted hacc).1.1]

/-- One row more. -/
theorem Folded.row (h : Folded bags tree st)
    (hst : bags.foldlM StageB.row { tree } = .ok st) (hrow : st.row bag = .ok st') :
    Folded (bags ++ [bag]) tree st' := by
  have hbefore : stateBefore (bags ++ [bag]) tree bags.length = some st := by
    rw [stateBefore, List.take_left, hst]
    rfl
  have hbag : (bags ++ [bag])[bags.length]? = some bag := by simp
  have htree : (st.header bag).tree = st.tree := (header_frame _ _).1
  -- What the row is, by the tree as the bags before it left it.
  have hnone : streamOfRow (bags ++ [bag]) tree bags.length =
      if bag.fullPath.isEmpty then none
      else
        (st.tree.resolve bag.fullPath).1.toOption.join.bind fun resolved =>
          if resolved.kind = .stream then some (bag, resolved.treePath) else none := by
    rw [streamOfRow, hbag, hbefore]
    rfl
  unfold StageB.row at hrow
  simp only at hrow
  -- The branches of the source: no path, a failed or missing lookup, a folder, a
  -- stream.
  by_cases hempty : bag.fullPath.isEmpty
  · rw [if_pos hempty] at hrow hnone
    cases hrow
    exact h.skip hnone (st.header bag).tree
  · rw [if_neg hempty] at hrow hnone
    rw [htree] at hrow
    rcases hres : st.tree.resolve bag.fullPath with ⟨_ | _ | resolved, t⟩
    · rw [hres] at hrow; cases hrow
    · rw [hres] at hrow hnone
      cases hrow
      exact h.skip hnone t
    · rw [hres] at hrow hnone
      simp only at hrow
      cases hk : resolved.kind with
      | folder =>
        rw [hk] at hrow
        cases hrow
        refine h.skip (hnone.trans ?_) _
        simp [Except.toOption, hk]
      | stream =>
        rw [hk] at hrow
        cases hrow
        refine h.onStream (hnone.trans ?_) t
        simp [Except.toOption, hk]

/-- Every run of the fold. -/
theorem Folded.rows (h : bags.foldlM StageB.row { tree } = .ok st) : Folded bags tree st := by
  induction bags using List.reverseRecOn generalizing st with
  | nil => cases h; exact .init
  | append_singleton bags bag ih =>
    rw [List.foldlM_append] at h
    rcases hb : bags.foldlM StageB.row { tree } with _ | st₁
    · rw [hb] at h; cases h
    · rw [hb] at h
      have h : (st₁.row bag >>= pure) = .ok st := h
      rw [bind_pure] at h
      exact (ih hb).row hb h

end StageB

/-! ### Classifications -/

section

variable {bags : List PropertyBag} {tree : FolderTree} {zipHasEncryptedPackage : Bool}
  {mimetype : Option Str} {cls : Classification}

/-- What the `mimetype` member adds is only in the tree. -/
theorem StageB.withMimetype_frame {st st' : StageB}
    (h : st.withMimetype zipHasEncryptedPackage mimetype = .ok st') :
    ∃ t, st' = { st with tree := t } := by
  unfold StageB.withMimetype at h
  split at h
  · cases h; exact ⟨_, rfl⟩
  · split at h
    · split at h
      · cases h; exact ⟨_, rfl⟩
      · cases h; exact ⟨_, rfl⟩
    · split at h
      · cases h
      · cases h; exact ⟨_, rfl⟩

/-- A classification is that of what the fold over all rows has come to. -/
theorem stageB_eq_ok (h : stageB bags tree zipHasEncryptedPackage mimetype = .ok cls) :
    ∃ st t, StageB.Folded bags tree st ∧
      cls = ({ st with tree := t } : StageB).classification zipHasEncryptedPackage := by
  unfold stageB at h
  rcases hb : bags.foldlM StageB.row { tree } with _ | st
  · rw [hb] at h; cases h
  · rw [hb] at h
    rcases hm : st.withMimetype zipHasEncryptedPackage mimetype with _ | st'
    · simp only [bind, Except.bind, hm] at h; cases h
    · simp only [bind, Except.bind, hm] at h
      cases h
      obtain ⟨t, rfl⟩ := StageB.withMimetype_frame hm
      exact ⟨st, t, .rows hb, rfl⟩

/-- The entries of a classification are those of the rows, in order. -/
theorem encryptedEntries_eq (h : stageB bags tree zipHasEncryptedPackage mimetype = .ok cls) :
    cls.encryptedEntries = (List.range bags.length).filterMap (entryOfRow bags tree) := by
  obtain ⟨st, t, hf, rfl⟩ := stageB_eq_ok h
  exact hf.encryptedEntries

theorem entryOfRow_accepted {i : ℕ} {entry : EntryEncryption}
    (h : entryOfRow bags tree i = some entry) :
    (∃ bag, streamOfRow bags tree i = some (bag, entry.path)) ∧
      (entry.cipher ≠ .aesGcmW3c → entry.checksum ≠ .none) ∧
      (entry.kdf = .pgpRsaOaepMgf1p → keyInfoUpTo bags i = true) := by
  obtain ⟨⟨bag, path⟩, hs, ha⟩ := Option.bind_eq_some_iff.1 h
  obtain ⟨⟨rfl, hsum⟩, hpgp⟩ := acceptRow_accepted ha
  exact ⟨⟨bag, hs⟩, hsum, hpgp⟩

theorem StageB.Folded.mode_plain_iff {st : StageB} (h : st.Folded bags tree) :
    st.mode zipHasEncryptedPackage = .plain ↔ st.encryptedEntries = [] := by
  unfold StageB.mode
  rw [h.encryptedPackageComplete]
  cases he : st.encryptedEntries with
  | nil => simp
  | cons entry entries => split <;> simp

/-- A wholesome classification has the row that is acted on. -/
theorem StageB.Folded.wholesomeRow {st : StageB} (h : st.Folded bags tree)
    (hm : st.mode zipHasEncryptedPackage = .wholesome) :
    zipHasEncryptedPackage = true ∧
      (st.encryptedEntries.find? fun entry => entry.path = ascii "encrypted-package").isSome := by
  unfold StageB.mode at hm
  split at hm
  · next hc =>
    refine ⟨hc.1, ?_⟩
    rw [List.find?_isSome]
    rw [h.encryptedPackageComplete, List.any_eq_true] at hc
    exact hc.2
  · split at hm <;> cases hm

/-- What the parts of a classification say of each other, and of the rows. -/
theorem stageB_wellFormed (h : stageB bags tree zipHasEncryptedPackage mimetype = .ok cls) :
    (cls.mode = .plain ↔ cls.encryptedEntries = []) ∧
      (cls.mode = .wholesome →
        cls.zipHasEncryptedPackage = true ∧ cls.wholesomeRow.isSome = true) ∧
      (cls.packageEncrypted = true ↔ cls.common.isSome = true) ∧
      cls.common = cls.encryptedEntries.find? isCommon ∧
      (∀ entry ∈ cls.encryptedEntries,
        entry.cipher ≠ .aesGcmW3c → entry.checksum ≠ .none) ∧
      (cls.encryptedEntries = (List.range bags.length).filterMap (entryOfRow bags tree) ∧
        ∀ i entry, entryOfRow bags tree i = some entry → entry.kdf = .pgpRsaOaepMgf1p →
          ∃ j ≤ i, ∃ bag, bags[j]? = some bag ∧ bag.keyInfo.isSome = true) ∧
      (cls.hasNonEncryptedEntries = true ↔ ∃ i bag path,
        streamOfRow bags tree i = some (bag, path) ∧ entryOfRow bags tree i = none) ∧
      (cls.odf12Fatal = true → cls.hasUnexpectedStreams = true) := by
  -- All of it is read off the fold over the bags: `Folded` says what the state is
  -- after any number of them.
  obtain ⟨st, t, hf, rfl⟩ := stageB_eq_ok h
  have hentries := encryptedEntries_eq h
  refine ⟨hf.mode_plain_iff, fun hm => ?_, ?_, hf.common, ?_, ⟨hentries, ?_⟩, ?_, ?_⟩
  · obtain ⟨hzip, hrow⟩ := hf.wholesomeRow hm
    refine ⟨hzip, ?_⟩
    rw [Classification.wholesomeRow, if_neg (not_not.2 hm)]
    exact hrow
  · exact Eq.congr_left hf.packageEncrypted
  · intro entry he
    rw [hentries] at he
    obtain ⟨i, -, hi⟩ := List.mem_filterMap.1 he
    exact (entryOfRow_accepted hi).2.1
  · intro i entry hi hpgp
    obtain ⟨bag, hbag, hk⟩ := List.any_eq_true.1 ((entryOfRow_accepted hi).2.2 hpgp)
    -- The key information stands in a bag up to this one, as `keyInfo` is only ever set.
    obtain ⟨j, hj⟩ := List.mem_iff_getElem?.1 hbag
    have hlt : j < i + 1 := (List.getElem?_eq_some_iff.1 hj).1.trans_le (List.length_take_le _ _)
    rw [List.getElem?_take_of_lt hlt] at hj
    exact ⟨j, Nat.le_of_lt_succ hlt, bag, hj, hk⟩
  · have hn : st.hasNonEncryptedEntries = true ↔ ∃ i ∈ List.range bags.length,
        refusedRow bags tree i = true := by rw [hf.hasNonEncryptedEntries, List.any_eq_true]
    refine hn.trans ⟨?_, ?_⟩
    · rintro ⟨i, -, hi⟩
      obtain ⟨hs, hnone⟩ := Bool.and_eq_true_iff.1 hi
      obtain ⟨⟨bag, path⟩, hs⟩ := Option.isSome_iff_exists.1 hs
      exact ⟨i, bag, path, hs, Option.isNone_iff_eq_none.1 hnone⟩
    · rintro ⟨i, bag, path, hs, hnone⟩
      have hi : i < bags.length := by
        obtain ⟨b, hb, -⟩ := Option.bind_eq_some_iff.1 hs
        exact (List.getElem?_eq_some_iff.1 hb).1
      exact ⟨i, List.mem_range.2 hi, by rw [refusedRow, hs, hnone]; rfl⟩
  · exact fun hfatal => (Bool.and_eq_true_iff.1 hfatal).1

/-- The row of PGP keys, a row that needs them, one that a password opens, and one without
    the digest that its cipher needs. -/
def mixedRows : List PropertyBag := [
  { fullPath := ascii "/", mediaType := some (ascii "a/b"), version := some (ascii "1.3")
    keyInfo := some ⟨[]⟩ },
  { fullPath := ascii "content.xml", size := some 9, iv := some (bytesOf "twelve bytes")
    encAlg := some .aesGcmW3c, kdf := some .pgpRsaOaepMgf1p },
  { fullPath := ascii "Pictures/a.png", size := some 7, iv := some (bytesOf "8 bytes.")
    salt := some (bytesOf "sixteen bytes of"), encAlg := some .blowfishCfb8, kdf := some .pbkdf2
    iterationCount := some 1024, digestAlg := some .sha1_1K, digest := some (bytesOf "digest") },
  { fullPath := ascii "styles.xml", size := some 7, iv := some (bytesOf "8 bytes.")
    salt := some (bytesOf "sixteen bytes of"), encAlg := some .blowfishCfb8, kdf := some .pbkdf2
    iterationCount := some 1024 }]

/-- The tree of the members that they are on. -/
def mixedTree : FolderTree where
  children := [
    (ascii "content.xml", .stream false none),
    (ascii "styles.xml", .stream false none),
    (ascii "Pictures", .folder {} [(ascii "a.png", .stream false none)])]

/-- The first two rows on a stream are entries, by the keys and by a password; the third one
    is left as it is. -/
theorem stageB_wellFormed_sample :
    ∃ cls, stageB mixedRows mixedTree false none = .ok cls ∧ cls.mode = .perEntry ∧
      cls.encryptedEntries.map (fun entry => (entry.path, entry.kdf)) =
        [(ascii "content.xml", .pgpRsaOaepMgf1p),
          (ascii "Pictures/a.png", .pbkdf2 1024 (bytesOf "sixteen bytes of"))] ∧
      cls.hasNonEncryptedEntries = true ∧
      cls.common = cls.encryptedEntries.find? isCommon ∧
      cls.encryptedEntries = (List.range 4).filterMap (entryOfRow mixedRows mixedTree) ∧
      ∃ i bag path, streamOfRow mixedRows mixedTree i = some (bag, path) ∧
        entryOfRow mixedRows mixedTree i = none := by
  obtain ⟨cls, hcls⟩ : ∃ cls, stageB mixedRows mixedTree false none = .ok cls := ⟨_, rfl⟩
  have hmode : (stageB mixedRows mixedTree false none).toOption.map (fun cls =>
      (cls.mode, cls.hasNonEncryptedEntries, cls.encryptedEntries.map fun entry =>
        (entry.path, entry.kdf))) =
      some (.perEntry, true, [(ascii "content.xml", .pgpRsaOaepMgf1p),
        (ascii "Pictures/a.png", .pbkdf2 1024 (bytesOf "sixteen bytes of"))]) := by decide
  rw [hcls] at hmode
  obtain ⟨hmode, hrest⟩ := Prod.mk.inj (Option.some.inj hmode)
  obtain ⟨hrefused, hentries⟩ := Prod.mk.inj hrest
  obtain ⟨-, -, -, hcommon, -, ⟨hrows, -⟩, hnone, -⟩ := stageB_wellFormed hcls
  exact ⟨cls, hcls, hmode, hentries, hrefused, hcommon, hrows, hnone.1 hrefused⟩

end

end OdfCrypto
