import OdfCrypto.Classify.WellFormed
import OdfCrypto.DecryptEntries
import OdfCrypto.Encrypt
import OdfCrypto.Package
import OdfCrypto.ZipTree.Runs

/-!
# Rows and their members

A row is resolved in the folder tree, and its member is found by name: the tree
stops at the first empty part of a member's name, but for what follows the last
slash, and `memberMatchesPath` ignores empty parts.

* `collectMembers_eq_ok`: what classification collects of a directory;
* `memberMatchesPath_iff`: which names match the path of a stream;
* `everyRowNamed_iff`: every encrypted row names a member, unless all members
  that the tree has at its path are torn.
-/

namespace OdfCrypto

open ByteStream Text FolderTree

/-! ### Collected members -/

/-- The member that an entry at an index is collected as. -/
def ZipMember.ofEntry (entry : FileData × ℕ) : ZipMember where
  name := zipEntryName entry.1.nameRaw
  index := entry.2
  stored := entry.1.compression = .stored
  dataDescriptor := entry.1.usingDataDescriptor

/-- The entries that classification does not skip. -/
def retained (directory : List FileData) : List (FileData × ℕ) :=
  directory.zipIdx.filter fun entry => ¬ entry.1.isDosFolder

section

variable {ρ : Type} {archive : Archive ρ} {members members' : List ZipMember}
  {entry : FileData × ℕ}

theorem collectMember_eq_ok (h : collectMember archive members entry = .ok members') :
    (entry.1.isDosFolder = true ∧ members' = members) ∨
      (entry.1.isDosFolder = false ∧ members' = members ++ [.ofEntry entry] ∧
        isValidZipEntryFileName (zipEntryName entry.1.nameRaw) = true ∧
        zipEntryName entry.1.nameRaw ∉ members.map ZipMember.name) := by
  obtain ⟨file, index⟩ := entry
  obtain ⟨_, -, h⟩ := Except.bind_eq_ok.1 h
  dsimp only at h
  by_cases hd : file.isDosFolder = true
  · rw [if_pos hd] at h
    cases h
    exact .inl ⟨hd, rfl⟩
  rw [if_neg hd] at h
  by_cases hv : isValidZipEntryFileName (zipEntryName file.nameRaw) = true
  · by_cases hn : zipEntryName file.nameRaw ∈ members.map ZipMember.name
    · simp only [hv, hn, not_true_eq_false, if_true, if_false] at h
      cases h
    · by_cases hl : toAsciiLowercase (zipEntryName file.nameRaw) ∈
          members.map (toAsciiLowercase ∘ ZipMember.name)
      · simp only [hv, hn, hl, not_true_eq_false, if_true, if_false] at h
        cases h
      · simp only [hv, hn, hl, not_true_eq_false, if_false] at h
        cases h
        exact .inr ⟨Bool.eq_false_iff.2 hd, rfl, hv, hn⟩
  · rw [if_pos hv] at h
    cases h

/-- The collected members are the entries that are not skipped, in order, under
    names that are valid and that differ. -/
theorem collectMembers_eq_ok (h : collectMembers archive = .ok members) :
    members = (retained archive.directory).map .ofEntry ∧
      (∀ m ∈ members, isValidZipEntryFileName m.name = true) ∧
      (members.map ZipMember.name).Nodup := by
  unfold collectMembers retained at *
  generalize archive.directory.zipIdx = entries at h ⊢
  -- The members are collected in order, so the induction adds the last entry.
  induction entries using List.reverseRecOn generalizing members with
  | nil => cases h; exact ⟨rfl, nofun, .nil⟩
  | append_singleton entries entry ih =>
    rw [List.foldlM_append] at h
    obtain ⟨members₁, h₁, h⟩ := Except.bind_eq_ok.1 h
    have h : collectMember archive members₁ entry >>= pure = .ok members := h
    rw [bind_pure] at h
    obtain ⟨hm, hv, hn⟩ := ih h₁
    obtain ⟨hd, rfl⟩ | ⟨hd, rfl, hv', hn'⟩ := collectMember_eq_ok h
    · refine ⟨?_, hv, hn⟩
      rw [List.filter_append, hm]
      simp [hd]
    · refine ⟨?_, ?_, ?_⟩
      · rw [List.filter_append, hm]
        simp [hd]
      · intro m hmem
        obtain hmem | hmem := List.mem_append.1 hmem
        · exact hv m hmem
        · rw [List.mem_singleton.1 hmem]
          exact hv'
      · rw [List.map_append, List.map_singleton, List.nodup_append]
        refine ⟨hn, by simp, ?_⟩
        rintro a ha b hb rfl
        rw [List.mem_singleton.1 hb] at ha
        exact hn' ha

end

/-- A valid name does not start with a slash. -/
theorem head?_ne_slash {name : Str} (h : isValidZipEntryFileName name = true) :
    name.head? ≠ some '/' := by
  cases name with
  | nil => exact nofun
  | cons c s =>
    rw [List.head?_cons]
    rintro ⟨⟩
    exact absurd h (by simp [isValidZipEntryFileName, isValidFrom])

/-! ### Collapsed slashes -/

/-- Collapsing slashes keeps the first and the last part of a text, and of the
    others those that are not empty; after a slash, the first one counts as another. -/
theorem splitOn_collapseFrom (s : Str) :
    (∃ first rest rest', s.splitOn '/' = first :: rest ∧
        (collapseFrom false s).splitOn '/' = first :: rest' ∧
        (rest'.filter fun part => ¬ part.isEmpty) = (rest.filter fun part => ¬ part.isEmpty) ∧
        rest'.getLast? = rest.getLast?) ∧
      treeParts (collapseFrom true s) = treeParts s ∧
      ((collapseFrom true s).splitOn '/').getLast? = (s.splitOn '/').getLast? := by
  -- A slash after a slash is dropped, and with it one empty part; any other character
  -- stays.
  induction s with
  | nil => exact ⟨⟨[], [], [], rfl, rfl, rfl, rfl⟩, rfl, rfl⟩
  | cons c s ih =>
    obtain ⟨⟨first, rest, rest', hs, hc, hf, hl⟩, ht, hl'⟩ := ih
    by_cases hslash : c = '/'
    · subst hslash
      have hsplit : ∀ t : Str, ('/' :: t).splitOn '/' = [] :: t.splitOn '/' := fun t => by
        rw [List.splitOn_cons_eq_if_modifyHead, if_pos (by simp)]
      have htrue : collapseFrom true ('/' :: s) = collapseFrom true s := by
        rw [collapseFrom, if_pos rfl, if_pos rfl]
      have hfalse : collapseFrom false ('/' :: s) = '/' :: collapseFrom true s := by
        rw [collapseFrom, if_pos rfl, if_neg (by simp)]
      refine ⟨⟨[], s.splitOn '/', (collapseFrom true s).splitOn '/', hsplit _, ?_, ht, hl'⟩, ?_, ?_⟩
      · rw [hfalse, hsplit]
      · rw [htrue, ht, treeParts, treeParts, hsplit]
        rfl
      · rw [htrue, hl', hsplit, List.getLast?_cons, hs, List.getLast?_cons]
        rfl
    · have hsplit : ∀ {t : Str} {l : List Str}, t.splitOn '/' = first :: l →
          (c :: t).splitOn '/' = (c :: first) :: l := fun {t l} ht => by
        rw [List.splitOn_cons_eq_if_modifyHead, if_neg (by simpa using hslash), ht]
        rfl
      have hcollapse : ∀ b, collapseFrom b (c :: s) = c :: collapseFrom false s := fun b => by
        rw [collapseFrom, if_neg hslash]
      refine ⟨⟨c :: first, rest, rest', hsplit hs, ?_, hf, hl⟩, ?_, ?_⟩
      · rw [hcollapse, hsplit hc]
      · rw [hcollapse, treeParts, treeParts, hsplit hc, hsplit hs, List.filter_cons, hf,
          List.filter_cons]
      · rw [hcollapse, hsplit hc, hsplit hs, List.getLast?_cons, hl, List.getLast?_cons]

theorem treeParts_collapseSlashes (name : Str) :
    treeParts (collapseSlashes name) = treeParts name := by
  obtain ⟨⟨first, rest, rest', hs, hc, hf, -⟩, -⟩ := splitOn_collapseFrom name
  rw [collapseSlashes, treeParts, treeParts, hc, hs, List.filter_cons, hf, List.filter_cons]

theorem getLast?_collapseSlashes (name : Str) :
    ((collapseSlashes name).splitOn '/').getLast? = (name.splitOn '/').getLast? := by
  obtain ⟨⟨first, rest, rest', hs, hc, -, hl⟩, -⟩ := splitOn_collapseFrom name
  rw [collapseSlashes, hc, hs, List.getLast?_cons, hl, List.getLast?_cons]

/-- Unless a slash ends the text, no part of it is empty once its slashes are
    collapsed, except the first. -/
theorem collapseFrom_parts {s : Str} (h : s.getLast? ≠ some '/') :
    (∀ part ∈ ((collapseFrom false s).splitOn '/').tail, part ≠ []) ∧
      (s ≠ [] → ∀ part ∈ (collapseFrom true s).splitOn '/', part ≠ []) := by
  -- With no slash at the end, an empty part can only be the first one.
  induction s with
  | nil => exact ⟨by simp [collapseFrom], fun h => absurd rfl h⟩
  | cons c s ih =>
    have hlast : s.getLast? ≠ some '/' := by
      intro hs
      rw [List.getLast?_cons, hs] at h
      exact h rfl
    obtain ⟨hfalse, htrue⟩ := ih hlast
    by_cases hslash : c = '/'
    · subst hslash
      have hs : s ≠ [] := by rintro rfl; exact h rfl
      refine ⟨?_, fun _ => ?_⟩
      · rw [collapseFrom, if_pos rfl, if_neg (by simp), List.splitOn_cons_eq_if_modifyHead,
          if_pos (by simp), List.tail_cons]
        exact htrue hs
      · rw [collapseFrom, if_pos rfl, if_pos rfl]
        exact htrue hs
    · have hsplit : ∀ b, (collapseFrom b (c :: s)).splitOn '/' =
          ((collapseFrom false s).splitOn '/').modifyHead (c :: ·) := fun b => by
        rw [collapseFrom, if_neg hslash, List.splitOn_cons_eq_if_modifyHead,
          if_neg (by simpa using hslash)]
      rw [hsplit, hsplit]
      cases hp : (collapseFrom false s).splitOn '/' with
      | nil => exact absurd hp (List.splitOn_ne_nil _ _)
      | cons first rest =>
        rw [hp, List.tail_cons] at hfalse
        refine ⟨hfalse, fun _ part hpart => ?_⟩
        obtain rfl | hpart := List.mem_cons.1 hpart
        · exact List.cons_ne_nil _ _
        · exact hfalse part hpart

/-- A text that no slash begins or ends, with its slashes collapsed. -/
theorem collapseSlashes_eq {name : Str} (hfirst : name.head? ≠ some '/')
    (hlast : name.getLast? ≠ some '/') (h : name ≠ []) :
    collapseSlashes name = ['/'].intercalate (treeParts name) := by
  have hparts : ∀ part ∈ (collapseSlashes name).splitOn '/', part ≠ [] := by
    cases name with
    | nil => exact absurd rfl h
    | cons c s =>
      have hc : c ≠ '/' := by rintro rfl; exact hfirst rfl
      have heq : collapseSlashes (c :: s) = collapseFrom true (c :: s) := by
        rw [collapseSlashes, collapseFrom, collapseFrom, if_neg hc, if_neg hc]
      rw [heq]
      exact (collapseFrom_parts hlast).2 (List.cons_ne_nil _ _)
  rw [← treeParts_collapseSlashes, treeParts, List.filter_eq_self.2 fun part hp => by
    simpa using hparts part hp]
  exact (List.intercalate_splitOn '/').symm

/-! ### Names and streams -/

/-- Whether a name has an empty folder part before one that is not: the tree stops
    at the first, and never sees the second. -/
def torn (name : Str) : Bool :=
  ((name.splitOn '/').dropLast.dropWhile fun part => ¬ part.isEmpty).any fun part => ¬ part.isEmpty

section

variable {name : Str} {q : List Str}

/-- A name is inserted as a stream through the parts before its last one. -/
theorem memberParts_eq_some : memberParts name = some q ↔
    ∃ folders last, name.splitOn '/' = folders ++ [last] ∧ last ≠ [] ∧
      q = folderParts folders ++ [last] := by
  -- The last part is the stream and the parts before it are the folders, whichever way
  -- the name is split.
  have key : ∀ {folders : List Str} {last : Str}, name.splitOn '/' = folders ++ [last] →
      (memberParts name = some q ↔ last ≠ [] ∧ q = folderParts folders ++ [last]) := by
    intro folders last hs
    unfold memberParts namePath
    cases hr : rsplitOnce '/' name with
    | none =>
      rw [List.splitOn_eq_singleton (rsplitOnce_eq_none.1 hr)] at hs
      have hs : [] ++ [name] = folders ++ [last] := hs
      obtain ⟨rfl, hl⟩ := List.append_inj' hs rfl
      obtain rfl := (List.cons.inj hl).1
      cases name with
      | nil => simp [streamParts]
      | cons c s =>
        change some ([] ++ [c :: s]) = some q ↔ _
        rw [Option.some.injEq, eq_comm]
        exact (and_iff_right (List.cons_ne_nil c s)).symm
    | some p =>
      obtain ⟨dir, stream⟩ := p
      obtain ⟨rfl, hn⟩ := rsplitOnce_eq_some.1 hr
      rw [List.splitOn_append_cons_self, List.splitOn_eq_singleton hn] at hs
      obtain ⟨rfl, hl⟩ := List.append_inj' hs rfl
      obtain rfl := (List.cons.inj hl).1
      cases stream with
      | nil => simp [streamParts]
      | cons c s => simp [streamParts, eq_comm]
  constructor
  · intro h
    have hne : name.splitOn '/' ≠ [] := List.splitOn_ne_nil _ _
    have hs := (List.dropLast_append_getLast hne).symm
    exact ⟨_, _, hs, (key hs).1 h⟩
  · rintro ⟨folders, last, hs, h⟩
    exact (key hs).2 h

/-- The tree sees every part of a name that is not torn. -/
theorem folderParts_of_not_torn {folders : List Str} {last : Str} (h : torn name = false)
    (hs : name.splitOn '/' = folders ++ [last]) :
    folderParts folders = folders.filter fun part => ¬ part.isEmpty := by
  rw [torn, hs, List.dropLast_concat] at h
  have hrest : (folders.dropWhile fun part => ¬ part.isEmpty).filter (fun part => ¬ part.isEmpty) =
      [] := by
    rw [List.filter_eq_nil_iff]
    exact List.any_eq_false.1 h
  conv_rhs => rw [← List.takeWhile_append_dropWhile (p := fun part : Str => ¬ part.isEmpty)
    (l := folders)]
  rw [List.filter_append, hrest, List.append_nil, folderParts, eq_comm,
    List.filter_eq_self]
  intro part hp
  have hpart := List.mem_takeWhile_imp hp
  exact hpart

/-- A valid name that is not torn matches the path of the stream that it is
    inserted as. -/
theorem memberMatchesPath_of_memberParts (hv : isValidZipEntryFileName name = true)
    (ht : torn name = false) (h : memberParts name = some q) :
    memberMatchesPath name (['/'].intercalate q) = true := by
  obtain ⟨folders, last, hs, hl, rfl⟩ := memberParts_eq_some.1 h
  have hparts : treeParts name = folderParts folders ++ [last] := by
    rw [treeParts, hs, List.filter_append, folderParts_of_not_torn ht hs]
    simp [hl]
  have hlast : name.getLast? ≠ some '/' := by
    intro hg
    obtain ⟨s, rfl⟩ := List.getLast?_eq_some_iff.1 hg
    rw [List.splitOn_append_cons_self, List.splitOn_nil] at hs
    exact hl (List.cons.inj (List.append_inj' hs rfl).2).1.symm
  have hne : name ≠ [] := by
    rintro rfl
    have hs : [] ++ [[]] = folders ++ [last] := hs
    exact hl (List.cons.inj (List.append_inj' hs rfl).2).1.symm
  rw [memberMatchesPath, decide_eq_true_iff, collapseSlashes_eq (head?_ne_slash hv) hlast hne, hparts]
  exact .inr rfl

/-- A name that is not torn is inserted as the stream whose path it matches. -/
theorem memberParts_of_memberMatchesPath (hq : ∀ part ∈ q, IsPart part) (h0 : q ≠ [])
    (ht : torn name = false) (h : memberMatchesPath name (['/'].intercalate q) = true) :
    memberParts name = some q := by
  have hsplit : (['/'].intercalate q).splitOn '/' = q :=
    List.splitOn_intercalate '/' (fun part hp => (hq part hp).2) h0
  have hparts : treeParts name = q ∧ (name.splitOn '/').getLast? = q.getLast? := by
    rw [memberMatchesPath, decide_eq_true_iff] at h
    obtain rfl | h := h
    · exact ⟨treeParts_intercalate hq, by rw [hsplit]⟩
    · rw [← treeParts_collapseSlashes, ← getLast?_collapseSlashes, h]
      exact ⟨treeParts_intercalate hq, by rw [hsplit]⟩
  obtain ⟨folders, last, hs⟩ : ∃ folders last, name.splitOn '/' = folders ++ [last] :=
    ⟨_, _, (List.dropLast_append_getLast (List.splitOn_ne_nil '/' name)).symm⟩
  have hl : last ≠ [] := by
    have hmem : last ∈ q := by
      apply List.mem_of_getLast?
      rw [← hparts.2, hs, List.getLast?_concat]
    exact (hq last hmem).1
  rw [memberParts_eq_some]
  refine ⟨folders, last, hs, hl, ?_⟩
  rw [← hparts.1, treeParts, hs, List.filter_append, folderParts_of_not_torn ht hs]
  simp [hl]

end

/-! ### Rows and streams -/

/-- A row makes some calls on the tree, and no more. -/
theorem StageB.row_tree {st st' : StageB} {bag : PropertyBag} (h : st.row bag = .ok st') :
    ∃ calls : List TreeCall, st'.tree = calls.foldl TreeCall.run st.tree := by
  have htree : (st.header bag).tree = st.tree := (StageB.header_frame _ _).1
  unfold StageB.row at h
  dsimp only at h
  split at h
  · cases h; exact ⟨[], htree⟩
  · rw [htree] at h
    split at h
    · cases h
    · next hr => cases h; exact ⟨[.resolve bag.fullPath], by simp [TreeCall.run, hr]⟩
    · next resolved tree hr =>
      split at h
      · cases h
        exact ⟨[.resolve bag.fullPath, .setFolderMeta resolved.treePath bag.mediaType bag.version],
          by simp [TreeCall.run, hr]⟩
      · cases h
        refine ⟨[.resolve bag.fullPath, .markFromManifest resolved.treePath bag.mediaType], ?_⟩
        unfold StageB.onStream
        dsimp only
        split <;> simp [TreeCall.run, hr]

theorem StageB.rows_tree {bags : List PropertyBag} {st st' : StageB}
    (h : bags.foldlM StageB.row st = .ok st') :
    ∃ calls : List TreeCall, st'.tree = calls.foldl TreeCall.run st.tree := by
  induction bags generalizing st with
  | nil => cases h; exact ⟨[], rfl⟩
  | cons bag bags ih =>
    obtain ⟨st₁, h₁, h⟩ := Except.bind_eq_ok.1 h
    obtain ⟨calls₁, hc₁⟩ := StageB.row_tree h₁
    obtain ⟨calls, hc⟩ := ih h
    exact ⟨calls₁ ++ calls, by rw [hc, hc₁, List.foldl_append]⟩

section

variable {bags : List PropertyBag} {tree : FolderTree} {names : List Str}

/-- The path of an encrypted row is that of a stream of the tree, made of its
    parts, and the stream is one that a member was inserted as. -/
theorem entryOfRow_stream (ht : fromZipNames names = .ok tree) {i : ℕ} {entry : EntryEncryption}
    (h : entryOfRow bags tree i = some entry) :
    ∃ q, treeParts entry.path = q ∧ entry.path = ['/'].intercalate q ∧ q ≠ [] ∧
      (∀ part ∈ q, IsPart part) ∧ ∃ name ∈ names, memberParts name = some q := by
  obtain ⟨⟨bag, hs⟩, -⟩ := entryOfRow_accepted h
  obtain ⟨hsound, hmem⟩ := fromZipNames_sound ht
  unfold streamOfRow at hs
  obtain ⟨b, -, hs⟩ := Option.bind_eq_some_iff.1 hs
  obtain ⟨st, hst, hs⟩ := Option.bind_eq_some_iff.1 hs
  split at hs
  · cases hs
  obtain ⟨r, hr, hs⟩ := Option.bind_eq_some_iff.1 hs
  split at hs
  · next hk =>
    have htreePath : r.treePath = entry.path := (Prod.mk.inj (Option.some.inj hs)).2
    -- The tree the row was resolved in is the one of the members, after the calls of the
    -- rows before it.
    have hfold : (bags.take i).foldlM StageB.row { tree } = .ok st := by
      unfold stateBefore at hst
      cases hf : (bags.take i).foldlM StageB.row { tree } with
      | error e => rw [hf] at hst; cases hst
      | ok st₁ => rw [hf] at hst; cases hst; rfl
    obtain ⟨calls, hcalls⟩ := StageB.rows_tree hfold
    obtain ⟨hs', hkinds⟩ := hsound.runs calls
    rw [← hcalls] at hs' hkinds
    have hres : (st.tree.resolve b.fullPath).1 = .ok (some r) := by
      cases hf : (st.tree.resolve b.fullPath).1 with
      | error e => rw [hf] at hr; cases hr
      | ok o => rw [hf] at hr; exact congrArg Except.ok hr
    obtain ⟨q, hkind, hq, hpath⟩ := (hs'.resolve b.fullPath).names r hres
    rw [hk] at hkind hpath
    rw [hkinds] at hkind
    rw [htreePath] at hq hpath
    refine ⟨q, hq, hpath, ?_, hsound.names (by rw [hkind]; simp), hmem q hkind⟩
    rintro rfl
    cases hkind
  · cases hs

end

/-! ### Every row names a member -/

/-- Every encrypted row names a collected member: it cannot be that a row names
    none, when the archive is opened again. -/
def EveryRowNamed (directory : List FileData) (cls : Classification) (members : List ZipMember) :
    Prop :=
  (∀ row ∈ cls.encryptedEntries, ∃ m ∈ members, memberMatchesPath m.name row.path = true) ∧
    ∀ (ρ ω : Type) (again : Archive ρ), again.directory = directory →
      ∀ i row (s : Run ω), cls.encryptedEntries[i]? = some row →
        (memberForArchive again row.path (noMember i) s).1 ≠ .error (noMember i)

/-- All members that were inserted at a path are torn, and none of them matches it. -/
def Lost (members : List ZipMember) (path : Str) : Prop :=
  (∃ m ∈ members, memberParts m.name = some (treeParts path)) ∧
    (∀ m ∈ members, memberParts m.name = some (treeParts path) → torn m.name = true) ∧
    ∀ m ∈ members, torn m.name = true → memberMatchesPath m.name path = false

section

variable {ρ ω : Type}

/-- A path that the name of an entry matches has a member, or an entry before it
    cannot be opened. -/
theorem firstMember_ne_missing {archive : Archive ρ} {path : Str} {missing : DecryptError}
    {entries : List (FileData × ℕ)} (hz : ∀ s, missing ≠ .zip s)
    (h : ∃ entry ∈ entries, memberMatchesPath (zipEntryName entry.1.nameRaw) path = true)
    (s : Run ω) : (firstMember archive path missing entries s).1 ≠ .error missing := by
  -- The lookup reports a missing member only when it got past every entry.
  induction entries generalizing s with
  | nil => obtain ⟨_, hmem, -⟩ := h; cases hmem
  | cons entry entries ih =>
    obtain ⟨file, index⟩ := entry
    intro he
    rcases hf : firstMember archive path missing ((file, index) :: entries) s with ⟨result, s'⟩
    rw [hf] at he
    obtain rfl : result = .error missing := he
    rw [firstMember] at hf
    obtain hf | ⟨file', s₁, -, hf⟩ := Prog.bind_eq_error.1 hf
    · -- The entry could not be opened.
      unfold openMember at hf
      cases ho : archive.byIndex s.opened index with
      | error e => rw [ho] at hf; cases hf; exact hz _ rfl
      | ok r => rw [ho] at hf; cases hf
    · split at hf
      · cases hf
      · next hm =>
        refine ih ?_ s₁ (by rw [hf])
        obtain ⟨entry, hmem, hmatch⟩ := h
        obtain rfl | hmem := List.mem_cons.1 hmem
        · exact absurd hmatch hm
        · exact ⟨entry, hmem, hmatch⟩

end

section

variable {ρ : Type} [Read ρ IoError] {xmlReader : XmlReader} {archive : Archive ρ}
  {members : List ZipMember} {tree : FolderTree} {bags : List PropertyBag} {cls : Classification}

theorem readPackage_eq_ok (h : readPackage xmlReader archive = .ok (members, tree, bags)) :
    collectMembers archive = .ok members ∧
      fromZipNames (members.map ZipMember.name) = .ok tree := by
  obtain ⟨members', hm, h⟩ := Except.bind_eq_ok.1 h
  obtain ⟨tree', ht, h⟩ := Except.bind_eq_ok.1 h
  obtain ⟨manifest, -, h⟩ := Except.bind_eq_ok.1 h
  split at h
  · cases h
  · cases h
    exact ⟨hm, Except.mapError_eq_ok.1 ht⟩

/-- A package is classified by its second stage. -/
theorem classifyArchive_eq_ok (h : classifyArchive xmlReader archive = .ok cls) :
    ∃ members tree bags mimetype, readPackage xmlReader archive = .ok (members, tree, bags) ∧
      stageB bags tree (tree.rootHasEntry (ascii "encrypted-package")) mimetype = .ok cls := by
  obtain ⟨⟨members, tree, bags⟩, hp, h⟩ := Except.bind_eq_ok.1 h
  obtain ⟨mimetype, -, h⟩ := Except.bind_eq_ok.1 h
  obtain ⟨cls', hs, h⟩ := Except.bind_eq_ok.1 h
  obtain ⟨-, -, h⟩ := Except.bind_eq_ok.1 h
  cases h
  exact ⟨members, tree, bags, mimetype, hp, hs⟩

/-- Every encrypted row names a member, just when no accepted row resolves to a
    stream that was inserted only by names that are torn. -/
theorem everyRowNamed_iff (h : classifyArchive xmlReader archive = .ok cls)
    (hp : readPackage xmlReader archive = .ok (members, tree, bags)) :
    EveryRowNamed archive.directory cls members ↔
      ∀ i entry, entryOfRow bags tree i = some entry → ¬ Lost members entry.path := by
  obtain ⟨members', tree', bags', mimetype, hp', hs⟩ := classifyArchive_eq_ok h
  rw [hp] at hp'
  cases hp'
  obtain ⟨hm, ht⟩ := readPackage_eq_ok hp
  obtain ⟨hmembers, hvalid, -⟩ := collectMembers_eq_ok hm
  have hentries := encryptedEntries_eq hs
  constructor
  · rintro ⟨hnamed, -⟩ i entry hi ⟨-, hall, htorn⟩
    have hmem : entry ∈ cls.encryptedEntries := by
      rw [hentries]
      refine List.mem_filterMap.2 ⟨i, List.mem_range.2 ?_, hi⟩
      obtain ⟨⟨bag, hs⟩, -⟩ := entryOfRow_accepted hi
      obtain ⟨b, hb, -⟩ := Option.bind_eq_some_iff.1 hs
      exact (List.getElem?_eq_some_iff.1 hb).1
    -- The member that matches is torn or not: a torn one is excluded, and an untorn one
    -- has the parts of the path.
    obtain ⟨m, hm, hmatch⟩ := hnamed entry hmem
    obtain ⟨q, hq, hpath, h0, hparts, -⟩ := entryOfRow_stream ht hi
    cases htm : torn m.name with
    | true => rw [htorn m hm htm] at hmatch; cases hmatch
    | false =>
      rw [hpath] at hmatch
      have := hall m hm (by rw [hq]; exact memberParts_of_memberMatchesPath hparts h0 htm hmatch)
      rw [htm] at this
      cases this
  · intro hlost
    have hnamed : ∀ row ∈ cls.encryptedEntries,
        ∃ m ∈ members, memberMatchesPath m.name row.path = true := by
      intro row hrow
      rw [hentries] at hrow
      obtain ⟨i, -, hi⟩ := List.mem_filterMap.1 hrow
      obtain ⟨q, hq, hpath, -, -, name, hname, hn⟩ := entryOfRow_stream ht hi
      obtain ⟨m₀, hm₀, rfl⟩ := List.mem_map.1 hname
      -- If no member matched, the row would be lost: its stream is there, under torn names
      -- only.
      by_contra hnone
      push Not at hnone
      refine hlost i row hi ⟨⟨m₀, hm₀, hq ▸ hn⟩, fun m hm hparts => ?_, fun m hm _ => ?_⟩
      · by_contra htm
        rw [hq] at hparts
        refine hnone m hm ?_
        rw [hpath]
        exact memberMatchesPath_of_memberParts (hvalid m hm) (Bool.eq_false_iff.2 htm) hparts
      · exact Bool.eq_false_iff.2 (hnone m hm)
    refine ⟨hnamed, fun ρ' ω again hdir i row s hrow => ?_⟩
    obtain ⟨m, hm, hmatch⟩ := hnamed row (List.mem_of_getElem? hrow)
    rw [hmembers] at hm
    obtain ⟨entry, hentry, rfl⟩ := List.mem_map.1 hm
    exact firstMember_ne_missing (fun s => by simp [noMember])
      ⟨entry, by rw [hdir]; exact (List.mem_filter.1 hentry).1, hmatch⟩ s

end

/-! ### A row whose member is torn -/

/-- The events of a manifest with one encrypted row. -/
def rowTokens (path : Str) : List Token :=
  [ .start (tag Uris.elementManifest [attr (ascii "xmlns:manifest") Uris.manifestNsOasis]),
    .start (tag Uris.elementFileEntry [
      attr Uris.attrFullPath path,
      attr Uris.attrSize (ascii "2")]),
    .start (tag Uris.elementEncryptionData []),
    .empty (tag Uris.elementAlgorithm [
      attr Uris.attrAlgorithmName Uris.aesgcm256Url,
      attr Uris.attrIv (ascii "AAAAAAAAAAAAAAAA")]),
    .empty (tag Uris.elementStartKeyGeneration [attr Uris.attrStartKeyName Uris.sha256Url]),
    .empty (tag Uris.elementKeyDerivation [
      attr Uris.attrKeyDerivationName Uris.pbkdf2Name,
      attr Uris.attrIterationCount (ascii "1"),
      attr Uris.attrSalt (ascii "AAAAAAAAAAA="),
      attr Uris.attrKeySize (ascii "32")]),
    .close (utf8Encode Uris.elementEncryptionData),
    .close (utf8Encode Uris.elementFileEntry),
    .close (utf8Encode Uris.elementManifest)]

def rowManifest (path : Str) : Bytes := (rowTokens path).flatMap writeEvent

/-- What the XML reader finds in `rowManifest`. -/
def rowXml (path : Str) (xml : Bytes) : List Token × Option Str :=
  if xml = rowManifest path then (rowTokens path, none)
  else ([], some (ascii "unknown document"))

/-- A stored member. -/
def storedMember (name : Str) (content : Bytes) : StoredMember where
  file := {
    nameRaw := utf8Encode name
    size := content.length
    compressedSize := content.length }
  content := content
  raw := content

/-- A package of a manifest with one encrypted row and a member of 30 bytes. -/
def rowArchive (path name : Str) : Archive (Pieces IoError) :=
  memoryArchive (fun _ => 1024) [
    storedMember manifestPath (rowManifest path),
    storedMember name (List.replicate 30 0)]

/-- The paths of its encrypted rows, and the names of its members. -/
def namedIn (path name : Str) : Option (List Str × List Str) := do
  let cls ← (classifyArchive (rowXml path) (rowArchive path name)).toOption
  let members ← (collectMembers (rowArchive path name)).toOption
  return (cls.encryptedEntries.map EntryEncryption.path, members.map ZipMember.name)

theorem namedIn_eq_some {path name : Str} {paths names : List Str}
    (h : namedIn path name = some (paths, names)) :
    ∃ cls members, classifyArchive (rowXml path) (rowArchive path name) = .ok cls ∧
      collectMembers (rowArchive path name) = .ok members ∧
      cls.encryptedEntries.map EntryEncryption.path = paths ∧
      members.map ZipMember.name = names := by
  obtain ⟨cls, hc, h⟩ := Option.bind_eq_some_iff.1 h
  obtain ⟨members, hm, h⟩ := Option.bind_eq_some_iff.1 h
  cases h
  exact ⟨cls, members, Except.toOption_eq_some.1 hc, Except.toOption_eq_some.1 hm, rfl, rfl⟩

theorem namedIn_torn : namedIn (ascii "a/c") (ascii "a//b/c") =
    some ([ascii "a/c"], [manifestPath, ascii "a//b/c"]) := by decide +kernel

theorem namedIn_whole : namedIn (ascii "a/c") (ascii "a//c") =
    some ([ascii "a/c"], [manifestPath, ascii "a//c"]) := by decide +kernel

/-- The row `a/c` resolves to what the member `a//b/c` was inserted as, which does
    not match it. -/
theorem not_everyRowNamed :
    ∃ cls members, classifyArchive (rowXml (ascii "a/c")) (rowArchive (ascii "a/c") (ascii "a//b/c")) =
        .ok cls ∧
      collectMembers (rowArchive (ascii "a/c") (ascii "a//b/c")) = .ok members ∧
      ¬ EveryRowNamed (rowArchive (ascii "a/c") (ascii "a//b/c")).directory cls members := by
  obtain ⟨cls, members, hc, hm, hpaths, hnames⟩ := namedIn_eq_some namedIn_torn
  refine ⟨cls, members, hc, hm, fun ⟨hnamed, _⟩ => ?_⟩
  obtain ⟨row, hrow, hpath⟩ := List.mem_map.1 (hpaths ▸ List.mem_singleton_self (ascii "a/c"))
  obtain ⟨m, hmem, hmatch⟩ := hnamed row hrow
  have hname : m.name ∈ [manifestPath, ascii "a//b/c"] := hnames ▸ List.mem_map_of_mem hmem
  have hnone : ∀ n ∈ [manifestPath, ascii "a//b/c"], memberMatchesPath n (ascii "a/c") = false := by
    decide
  rw [hpath, hnone _ hname] at hmatch
  cases hmatch

/-- The row `a/c` names the member `a//c`. -/
theorem everyRowNamed_sample :
    ∃ cls members, classifyArchive (rowXml (ascii "a/c")) (rowArchive (ascii "a/c") (ascii "a//c")) =
        .ok cls ∧
      EveryRowNamed (rowArchive (ascii "a/c") (ascii "a//c")).directory cls members := by
  obtain ⟨cls, members, hc, hm, -, hnames⟩ := namedIn_eq_some namedIn_whole
  obtain ⟨members', tree, bags, -, hp, -⟩ := classifyArchive_eq_ok hc
  rw [(readPackage_eq_ok hp).1] at hm
  cases hm
  refine ⟨cls, members, hc, (everyRowNamed_iff hc hp).2 ?_⟩
  rintro i entry - ⟨⟨m, hmem, hparts⟩, hall, -⟩
  have hname : m.name ∈ [manifestPath, ascii "a//c"] := hnames ▸ List.mem_map_of_mem hmem
  have hwhole : ∀ n ∈ [manifestPath, ascii "a//c"], torn n = false := by decide
  have htorn := hall m hmem hparts
  rw [hwhole _ hname] at htorn
  cases htorn

end OdfCrypto
