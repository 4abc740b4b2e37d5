import Mathlib.Data.List.Nodup
import Mathlib.Data.Nat.Find
import OdfCrypto.Classify.Members
import OdfCrypto.DecryptLog

/-!
# Members looked up again

Classification looks for a member among those it has collected; decryption opens
the archive again and looks among all entries, those skipped as DOS folders
included, and rebuilds each entry by its name.

* `found_iff`: which entry a lookup comes to;
* `sameMembers_iff`: both come to the same entries, unless a skipped one is in
  the way.
-/

namespace OdfCrypto

open ByteStream Text

/-- The name of the entry at an index. -/
def nameAt (directory : List FileData) (index : ℕ) : Option Str :=
  directory[index]?.map fun file => zipEntryName file.nameRaw

/-- Whether classification skips the entry at an index. -/
def skippedAt (directory : List FileData) (index : ℕ) : Bool :=
  directory[index]?.any FileData.isDosFolder

/-- The name of the entry at an index matches a path. -/
def MatchesAt (directory : List FileData) (path : Str) (index : ℕ) : Prop :=
  ∃ name, nameAt directory index = some name ∧ memberMatchesPath name path = true

/-- The entry at an index is the first whose name matches a path. -/
def FirstAt (directory : List FileData) (path : Str) (index : ℕ) (name : Str) : Prop :=
  nameAt directory index = some name ∧ memberMatchesPath name path = true ∧
    ∀ i < index, ¬ MatchesAt directory path i

/-! ### Where a lookup comes to -/

section

variable {ρ ω : Type} {archive : Archive ρ} {path name : Str} {index : ℕ}

/-- The first element that passes, with its index. -/
theorem find?_zipIdx_eq_some {α : Type} {l : List α} {p : α × ℕ → Bool} {a : α} {i : ℕ} :
    l.zipIdx.find? p = some (a, i) ↔
      l[i]? = some a ∧ p (a, i) = true ∧ ∀ j < i, ∀ b, l[j]? = some b → p (b, j) = false := by
  rw [List.find?_eq_some_iff_getElem]
  constructor
  · rintro ⟨hp, j, hj, hget, hbefore⟩
    rw [List.getElem_zipIdx, Nat.zero_add] at hget
    obtain ⟨rfl, rfl⟩ := Prod.mk.inj hget
    rw [List.length_zipIdx] at hj
    refine ⟨List.getElem?_eq_getElem hj, hp, fun k hk b hb => ?_⟩
    obtain ⟨hlt, rfl⟩ := List.getElem?_eq_some_iff.1 hb
    have h := hbefore k hk
    rw [List.getElem_zipIdx, Nat.zero_add] at h
    simpa using h
  · rintro ⟨hget, hp, hbefore⟩
    obtain ⟨hlt, rfl⟩ := List.getElem?_eq_some_iff.1 hget
    refine ⟨hp, i, by rwa [List.length_zipIdx], by rw [List.getElem_zipIdx, Nat.zero_add],
      fun k hk => ?_⟩
    rw [List.getElem_zipIdx, Nat.zero_add, hbefore k hk _ (List.getElem?_eq_getElem (hk.trans hlt))]
    rfl

theorem nameAt_eq_some {directory : List FileData} {name : Str} {index : ℕ} :
    nameAt directory index = some name ↔
      ∃ file, directory[index]? = some file ∧ zipEntryName file.nameRaw = name := by
  rw [nameAt, Option.map_eq_some_iff]

/-- A lookup comes to the first entry whose name matches. -/
theorem found_iff : Found archive path index name ↔
    FirstAt archive.directory path index name := by
  have hnot {i : ℕ} : ¬ MatchesAt archive.directory path i ↔ ∀ file,
      archive.directory[i]? = some file →
        memberMatchesPath (zipEntryName file.nameRaw) path = false := by
    simp [MatchesAt, nameAt]
  simp only [Found, FirstAt, find?_zipIdx_eq_some, nameAt_eq_some, hnot]
  constructor
  · rintro ⟨file, ⟨hget, hm, hbefore⟩, rfl⟩
    exact ⟨⟨file, hget, rfl⟩, hm, hbefore⟩
  · rintro ⟨⟨file, hget, rfl⟩, hm, hbefore⟩
    exact ⟨file, ⟨hget, hm, hbefore⟩, rfl⟩

/-- Where every member opens, a lookup comes to the first match. -/
theorem firstMember_of_find? (hopen : ∀ k i, (archive.byIndex k i).isOk = true)
    (missing : DecryptError) {entries : List (FileData × ℕ)} {file : FileData}
    (h : (entries.find? fun entry => memberMatchesPath (zipEntryName entry.1.nameRaw) path) =
      some (file, index)) (s : Run ω) :
    ∃ s', firstMember archive path missing entries s =
      (.ok (index, zipEntryName file.nameRaw), s') := by
  -- Every entry opens, so the lookup gets past those that do not match.
  induction entries generalizing s with
  | nil => cases h
  | cons entry entries ih =>
    obtain ⟨file', i⟩ := entry
    have hopened := hopen s.opened i
    cases hb : archive.byIndex s.opened i with
    | error e =>
      rw [hb] at hopened
      cases hopened
    | ok r =>
      have hfirst : openMember archive i s = (.ok r, { s with opened := s.opened + 1 }) := by
        rw [openMember, hb]
        rfl
      rw [firstMember, Prog.bind_of_ok hfirst]
      rw [List.find?_cons] at h
      split at h
      · next hm =>
        cases h
        rw [if_pos hm]
        exact ⟨_, rfl⟩
      · next hm =>
        rw [if_neg (by rw [hm]; exact Bool.false_ne_true)]
        exact ih h _

end

/-! ### Where classification comes to -/

section

variable {ρ : Type} {archive : Archive ρ} {members : List ZipMember} {path : Str} {index : ℕ}

/-- Classification comes to the first entry that matches and is not skipped. -/
theorem find?_members (h : collectMembers archive = .ok members) :
    (members.find? fun m => memberMatchesPath m.name path).map ZipMember.index = some index ↔
      skippedAt archive.directory index = false ∧ MatchesAt archive.directory path index ∧
        ∀ i < index, MatchesAt archive.directory path i → skippedAt archive.directory i = true := by
  have hindex : ∀ o : Option (FileData × ℕ),
      (o.map ZipMember.ofEntry).map ZipMember.index = some index ↔ ∃ file, o = some (file, index) := by
    intro o
    simp [ZipMember.ofEntry, Option.map_eq_some_iff]
  rw [(collectMembers_eq_ok h).1, List.find?_map, hindex, retained]
  simp only [List.find?_filter, find?_zipIdx_eq_some, Function.comp_apply, ZipMember.ofEntry,
    MatchesAt, nameAt_eq_some, skippedAt, decide_eq_true_eq, decide_eq_false_iff_not, not_and]
  constructor
  · rintro ⟨file, hget, ⟨hd, hm⟩, hbefore⟩
    refine ⟨?_, ⟨_, ⟨file, hget, rfl⟩, hm⟩, ?_⟩
    · rw [hget]
      simpa using hd
    · rintro i hi ⟨_, ⟨file', hget', rfl⟩, hm'⟩
      rw [hget', Option.any_some]
      by_contra hd'
      exact hbefore i hi file' hget' hd' hm'
  · rintro ⟨hs, ⟨_, ⟨file, hget, rfl⟩, hm⟩, hbefore⟩
    rw [hget, Option.any_some] at hs
    refine ⟨file, hget, ⟨by rw [hs]; exact Bool.false_ne_true, hm⟩, fun i hi file' hget' hd' hm' => ?_⟩
    have h := hbefore i hi ⟨_, ⟨file', hget', rfl⟩, hm'⟩
    rw [hget', Option.any_some] at h
    exact hd' h

/-- Two entries that are not skipped have different names. -/
theorem nameAt_injective (h : collectMembers archive = .ok members) {i j : ℕ} {name : Str}
    (hi : nameAt archive.directory i = some name) (hj : nameAt archive.directory j = some name)
    (hsi : skippedAt archive.directory i = false) (hsj : skippedAt archive.directory j = false) :
    i = j := by
  have hmem {k : ℕ} (hk : nameAt archive.directory k = some name)
      (hs : skippedAt archive.directory k = false) : ∃ m ∈ members, m.index = k ∧ m.name = name := by
    obtain ⟨file, hget, rfl⟩ := nameAt_eq_some.1 hk
    rw [skippedAt, hget, Option.any_some] at hs
    refine ⟨.ofEntry (file, k), ?_, rfl, rfl⟩
    rw [(collectMembers_eq_ok h).1]
    refine List.mem_map_of_mem (List.mem_filter.2 ⟨List.mk_mem_zipIdx_iff_getElem?.2 hget, ?_⟩)
    simpa using hs
  obtain ⟨m, hm, rfl, hn⟩ := hmem hi hsi
  obtain ⟨m', hm', rfl, hn'⟩ := hmem hj hsj
  rw [List.inj_on_of_nodup_map (collectMembers_eq_ok h).2.2 hm hm' (hn.trans hn'.symm)]

end

/-! ### The paths of rows -/

/-- A part of a path keeps its letters when slashes are collapsed. -/
theorem collapseFrom_part {part : Str} (h : '/' ∉ part) (rest : Str) :
    collapseFrom false (part ++ rest) = part ++ collapseFrom false rest := by
  induction part with
  | nil => rfl
  | cons c part ih =>
    obtain ⟨hc, hpart⟩ := not_or.1 (mt List.mem_cons.2 h)
    rw [List.cons_append, collapseFrom, if_neg (Ne.symm hc), ih hpart, List.cons_append]

/-- There are no slashes to collapse in a text that is made of its parts. -/
theorem collapseSlashes_intercalate {q : List Str} (h : ∀ part ∈ q, IsPart part) :
    collapseSlashes (['/'].intercalate q) = ['/'].intercalate q := by
  suffices ∀ b, collapseFrom b (['/'].intercalate q) = ['/'].intercalate q from this false
  induction q with
  | nil => exact fun _ => rfl
  | cons part q ih =>
    obtain ⟨hne, hslash⟩ := h part List.mem_cons_self
    have hq := ih fun part hp => h part (List.mem_cons_of_mem _ hp)
    -- The first letter is no slash, so that it does not matter what came before.
    have hstart (b : Bool) (rest : Str) :
        collapseFrom b (part ++ rest) = part ++ collapseFrom false rest := by
      rw [← collapseFrom_part hslash]
      cases part with
      | nil => exact absurd rfl hne
      | cons c part =>
        have hc : c ≠ '/' := fun hc => hslash (hc ▸ List.mem_cons_self)
        rw [List.cons_append, collapseFrom, collapseFrom, if_neg hc, if_neg hc]
    intro b
    cases q with
    | nil =>
      have h := hstart b []
      rw [List.append_nil, collapseFrom, List.append_nil] at h
      rwa [List.intercalate_singleton]
    | cons part' q =>
      rw [List.intercalate_cons_cons, List.append_assoc, hstart, List.singleton_append, collapseFrom,
        if_pos rfl, if_neg Bool.false_ne_true, hq]

/-- A name matches one such text at most. -/
theorem memberMatchesPath_unique {name p q : Str} (hp : collapseSlashes p = p)
    (hq : collapseSlashes q = q) (h : memberMatchesPath name p = true)
    (h' : memberMatchesPath name q = true) : p = q := by
  have key {r : Str} (hr : collapseSlashes r = r) (h : memberMatchesPath name r = true) :
      collapseSlashes name = r := by
    rw [memberMatchesPath, decide_eq_true_iff] at h
    rcases h with rfl | h
    · exact hr
    · exact h
  rw [← key hp h, key hq h']

/-- There are no slashes to collapse in the path of an encrypted row. -/
theorem collapseSlashes_path {ρ : Type} [Read ρ IoError] {xmlReader : XmlReader}
    {archive : Archive ρ} {cls : Classification} (h : classifyArchive xmlReader archive = .ok cls)
    {row : EntryEncryption} (hr : row ∈ cls.encryptedEntries) :
    collapseSlashes row.path = row.path := by
  obtain ⟨members, tree, bags, mimetype, hp, hs⟩ := classifyArchive_eq_ok h
  rw [encryptedEntries_eq hs] at hr
  obtain ⟨i, -, hi⟩ := List.mem_filterMap.1 hr
  obtain ⟨q, -, hpath, -, hparts, -⟩ := entryOfRow_stream (readPackage_eq_ok hp).2 hi
  rw [hpath]
  exact collapseSlashes_intercalate hparts

/-! ### The same members -/

/-- A path that decryption looks up. -/
def LookedUp (cls : Classification) (path : Str) : Prop :=
  path = manifestPath ∨ ∃ row ∈ cls.encryptedEntries, row.path = path

/-- Decryption of an archive with that directory reads the members that
    classification has read: the lookup of the manifest and of the rows comes to
    the same entries, and the plan of a row is for the entry it was screened on,
    and for no other. -/
structure SameMembers (directory : List FileData) (cls : Classification)
    (members : List ZipMember) : Prop where
  selected : ∀ {ρ ω : Type} (again : Archive ρ), again.directory = directory →
    ∀ {path : Str} {missing : DecryptError} {s s' : Run ω} {index : ℕ} {name : Str},
      LookedUp cls path → memberForArchive again path missing s = (.ok (index, name), s') →
        skippedAt directory index = false ∧
          (members.find? fun m => memberMatchesPath m.name path).map ZipMember.index = some index
  applied : ∀ {ρ ω : Type} [Read ρ IoError] (again : Archive ρ), again.directory = directory →
    ∀ {sizes : Sizes} {s s' : Run ω} {plans : List (Str × Plan)} {superseded : List (ℕ × Plan)},
      planRows again cls sizes s = (.ok (plans, superseded), s') →
        (∀ {name plan}, plans.lookup name = some plan →
          ∃ index, Found again plan.row.path index name ∧
            ∀ {i n}, nameAt directory i = some n → (treatment plans n = .decrypt plan ↔ i = index)) ∧
        ∀ p ∈ superseded, ∃ name, Found again p.2.row.path p.1 name

/-- The rows can pass every check that needs no key. -/
def Passable (directory : List FileData) (cls : Classification) : Prop :=
  ∃ (ρ ω : Type) (_ : Read ρ IoError) (again : Archive ρ) (sizes : Sizes) (s s' : Run ω)
    (plans : List (Str × Plan) × List (ℕ × Plan)),
    again.directory = directory ∧ planRows again cls sizes s = (.ok plans, s')

/-- No skipped entry is in the way of a lookup or of a rebuild, nor is the manifest
    in the way of a row. -/
structure OutOfTheWay (directory : List FileData) (cls : Classification) : Prop where
  before : ∀ {path i}, LookedUp cls path → MatchesAt directory path i →
    skippedAt directory i = true → ∃ j < i, MatchesAt directory path j ∧ skippedAt directory j = false
  twin : Passable directory cls → ∀ row ∈ cls.encryptedEntries, ∀ {i j name},
    FirstAt directory row.path i name → nameAt directory j = some name →
      skippedAt directory j = false
  manifest : Passable directory cls → ∀ row ∈ cls.encryptedEntries, ∀ {i name},
    FirstAt directory row.path i name → memberMatchesPath name manifestPath = false

section

variable {ρ : Type} [Read ρ IoError] {xmlReader : XmlReader} {archive : Archive ρ}
  {members : List ZipMember} {cls : Classification}

omit [Read ρ IoError] in
/-- Unless a skipped entry is in the way, a lookup comes to where classification
    did. -/
theorem OutOfTheWay.selected (h : OutOfTheWay archive.directory cls)
    (hm : collectMembers archive = .ok members) {path name : Str} {index : ℕ}
    (hl : LookedUp cls path) (hf : FirstAt archive.directory path index name) :
    skippedAt archive.directory index = false ∧
      (members.find? fun m => memberMatchesPath m.name path).map ZipMember.index = some index := by
  obtain ⟨hname, hmatch, hfirst⟩ := hf
  have hkept : skippedAt archive.directory index = false := by
    by_contra hs
    obtain ⟨j, hj, hjm, -⟩ := h.before hl ⟨name, hname, hmatch⟩ (Bool.of_not_eq_false hs)
    exact hfirst j hj hjm
  exact ⟨hkept, (find?_members hm).2
    ⟨hkept, ⟨name, hname, hmatch⟩, fun i hi hi' => absurd hi' (hfirst i hi)⟩⟩

theorem MatchesAt.first {directory : List FileData} {path : Str} {i : ℕ}
    (h : MatchesAt directory path i) : ∃ j ≤ i, ∃ name, FirstAt directory path j name := by
  classical
  have hex : ∃ i, MatchesAt directory path i := ⟨i, h⟩
  obtain ⟨name, hn, hm⟩ := Nat.find_spec hex
  exact ⟨Nat.find hex, Nat.find_min' hex h, name, hn, hm, fun _ hj => Nat.find_min hex hj⟩

/-- The entry that a lookup comes to is not skipped. -/
theorem SameMembers.kept {directory : List FileData} (h : SameMembers directory cls members)
    {path name : Str} {index : ℕ} (hl : LookedUp cls path)
    (hf : FirstAt directory path index name) : skippedAt directory index = false := by
  -- An archive with that directory, all of whose members open.
  let again : Archive Unit := ⟨directory, fun _ _ => .ok (), fun _ _ => .ok ()⟩
  have hfound : Found again path index name := found_iff.2 hf
  obtain ⟨file, hfile, rfl⟩ := hfound
  have hopen : ∀ k i, (again.byIndex k i).isOk = true := fun _ _ => rfl
  obtain ⟨s', hs⟩ := firstMember_of_find? hopen .notEncrypted hfile ({ out := () } : Run Unit)
  exact (h.selected again rfl hl hs).1

/-- A row that is looked up is under a plan, which treats its entry and no other. -/
theorem SameMembers.plan (h : SameMembers archive.directory cls members)
    (hc : classifyArchive xmlReader archive = .ok cls) (hpass : Passable archive.directory cls)
    {row : EntryEncryption} (hr : row ∈ cls.encryptedEntries) {index : ℕ} {name : Str}
    (hf : FirstAt archive.directory row.path index name) :
    ∃ plans plan, treatment plans name = .decrypt plan ∧
      ∀ {i}, nameAt archive.directory i = some name → i = index := by
  obtain ⟨ρ', ω, _, again, sizes, s, s', ⟨plans, superseded⟩, hdir, hrun⟩ := hpass
  have hplanned := planRows_eq_ok hrun
  rw [← hdir, ← found_iff] at hf
  obtain ⟨index', name', hf', hsome⟩ := hplanned.every row hr
  obtain ⟨rfl, rfl⟩ := hf.unique hf'
  obtain ⟨plan, hl⟩ := Option.isSome_iff_exists.1 hsome
  obtain ⟨index'', hf'', htreat⟩ := (h.applied again hdir hrun).1 hl
  have hpath : row.path = plan.row.path :=
    memberMatchesPath_unique (collapseSlashes_path hc hr)
      (collapseSlashes_path hc (hplanned.planned hl).1) (found_iff.1 hf).2.1 (found_iff.1 hf'').2.1
  rw [← hpath] at hf''
  obtain ⟨rfl, -⟩ := hf.unique hf''
  have hname : nameAt archive.directory index'' = some name' := hdir ▸ (found_iff.1 hf).1
  have ht := (htreat hname).2 rfl
  exact ⟨plans, plan, ht, fun hi => (htreat hi).1 ht⟩

/-- Classification and decryption read the same members, just when no skipped
    entry is in the way. -/
theorem sameMembers_iff (h : classifyArchive xmlReader archive = .ok cls)
    (hm : collectMembers archive = .ok members) :
    SameMembers archive.directory cls members ↔ OutOfTheWay archive.directory cls := by
  constructor
  · -- If the passes agree, no skipped entry stands before the one that is looked up, no
    -- other entry has its name, and the manifest is on no row.
    intro hsame
    constructor
    · intro path i hl hmatch hskip
      obtain ⟨j, hj, name, hf⟩ := hmatch.first
      have hkept := hsame.kept hl hf
      refine ⟨j, Nat.lt_of_le_of_ne hj ?_, ⟨name, hf.1, hf.2.1⟩, hkept⟩
      rintro rfl
      rw [hskip] at hkept
      cases hkept
    · intro hpass row hr i j name hf hj
      obtain ⟨plans, plan, -, honly⟩ := hsame.plan h hpass hr hf
      rw [honly hj]
      exact hsame.kept (.inr ⟨row, hr, rfl⟩) hf
    · intro hpass row hr i name hf
      obtain ⟨plans, plan, ht, -⟩ := hsame.plan h hpass hr hf
      by_contra hmanifest
      rw [treatment, if_pos (Bool.of_not_eq_false hmanifest)] at ht
      cases ht
  · -- Conversely, the first match of a lookup is the member that classification kept.
    intro hout
    constructor
    · intro ρ' ω again hdir path missing s s' index name hl hlookup
      have hf := found_iff.1 (firstMember_eq_ok hlookup)
      rw [hdir] at hf
      exact hout.selected hm hl hf
    · intro ρ' ω _ again hdir sizes s s' plans superseded hrun
      have hplanned := planRows_eq_ok hrun
      have hpass : Passable archive.directory cls :=
        ⟨ρ', ω, _, again, sizes, s, s', _, hdir, hrun⟩
      refine ⟨fun {name plan} hl => ?_, fun p hp => ?_⟩
      · obtain ⟨hrow, hplan⟩ := hplanned.planned hl
        obtain ⟨index, hfound, -⟩ := hplan.member
        have hf : FirstAt archive.directory plan.row.path index name := hdir ▸ found_iff.1 hfound
        refine ⟨index, hfound, fun {i n} hn => ⟨fun ht => ?_, fun hi => ?_⟩⟩
        · -- Another entry of that name would be a skipped one.
          obtain rfl : n = name := by
            rw [treatment] at ht
            split at ht
            · cases ht
            · split at ht
              · next hl' =>
                cases ht
                obtain ⟨index', hfound', -⟩ := (hplanned.planned hl').2.member
                exact (hfound.unique hfound').2
              · cases ht
          exact nameAt_injective hm hn hf.1 (hout.twin hpass _ hrow hf hn)
            (hout.selected hm (.inr ⟨_, hrow, rfl⟩) hf).1
        · subst hi
          obtain rfl := Option.some.inj (hn.symm.trans hf.1)
          rw [treatment, if_neg (by rw [hout.manifest hpass _ hrow hf]; exact Bool.false_ne_true), hl]
      · obtain ⟨hr, name, hplan, row, hrow, hf⟩ := hplanned.superseded p hp
        obtain ⟨index, hfound, -⟩ := hplan.member
        have hpath : p.2.row.path = row.path :=
          memberMatchesPath_unique (collapseSlashes_path h hr) (collapseSlashes_path h hrow)
            (found_iff.1 hfound).2.1 (found_iff.1 hf).2.1
        exact ⟨name, hpath ▸ hf⟩

end

/-! ### A skipped entry in the way of the manifest -/

/-- A folder entry as DOS makes it. -/
def dosFolder (name : Str) : StoredMember where
  file := { nameRaw := utf8Encode name, system := 0, externalAttributes := 0x10 }
  content := []
  raw := []

/-- A package of a manifest with one encrypted row and its member, after a folder
    whose name matches the manifest's. -/
def folderArchive : Archive (Pieces IoError) :=
  memoryArchive (fun _ => 1024) [
    dosFolder (ascii "META-INF//manifest.xml"),
    storedMember manifestPath (rowManifest (ascii "a/c")),
    storedMember (ascii "a/c") (List.replicate 30 0)]

theorem folderArchive_classified :
    (classifyArchive (rowXml (ascii "a/c")) folderArchive).isOk = true := by decide +kernel

/-- The lookup of the manifest comes to the folder that classification skipped. -/
theorem not_sameMembers :
    ∃ cls members, classifyArchive (rowXml (ascii "a/c")) folderArchive = .ok cls ∧
      collectMembers folderArchive = .ok members ∧
      ¬ SameMembers folderArchive.directory cls members := by
  cases h : classifyArchive (rowXml (ascii "a/c")) folderArchive with
  | error e =>
    have hok := folderArchive_classified
    rw [h] at hok
    cases hok
  | ok cls =>
    obtain ⟨members, tree, bags, -, hp, -⟩ := classifyArchive_eq_ok h
    refine ⟨cls, members, rfl, (readPackage_eq_ok hp).1, fun hsame => ?_⟩
    have hfirst : FirstAt folderArchive.directory manifestPath 0 (ascii "META-INF//manifest.xml") :=
      ⟨rfl, by decide, fun _ h => absurd h (Nat.not_lt_zero _)⟩
    have hkept := hsame.kept (.inl rfl) hfirst
    cases hkept

/-- The same members, with the folder after the manifest. -/
def folderAfter : Archive (Pieces IoError) :=
  memoryArchive (fun _ => 1024) [
    storedMember manifestPath (rowManifest (ascii "a/c")),
    storedMember (ascii "a/c") (List.replicate 30 0),
    dosFolder (ascii "META-INF//manifest.xml")]

theorem folderAfter_classified : (classifyArchive (rowXml (ascii "a/c")) folderAfter).toOption.map
    (fun cls => cls.encryptedEntries.map EntryEncryption.path) = some [ascii "a/c"] := by
  decide +kernel

/-- Behind the manifest the folder is skipped, and matches the path of the manifest still;
    classification and decryption read the same members. -/
theorem sameMembers_sample :
    skippedAt folderAfter.directory 2 = true ∧ MatchesAt folderAfter.directory manifestPath 2 ∧
      ∃ cls members, classifyArchive (rowXml (ascii "a/c")) folderAfter = .ok cls ∧
        SameMembers folderAfter.directory cls members := by
  refine ⟨rfl, ⟨_, rfl, by decide⟩, ?_⟩
  obtain ⟨cls, hc, hpaths⟩ := Option.map_eq_some_iff.1 folderAfter_classified
  replace hc := Except.toOption_eq_some.1 hc
  obtain ⟨members, tree, bags, -, hp, -⟩ := classifyArchive_eq_ok hc
  have hpath : ∀ {row}, row ∈ cls.encryptedEntries → row.path = ascii "a/c" := fun hr =>
    List.mem_singleton.1 (hpaths ▸ List.mem_map_of_mem hr)
  have hall : ∀ file ∈ folderAfter.directory,
      memberMatchesPath (zipEntryName file.nameRaw) (ascii "a/c") = true →
        file.isDosFolder = false ∧
          memberMatchesPath (zipEntryName file.nameRaw) manifestPath = false := by decide +kernel
  have hfirst : ∀ {row i name}, row ∈ cls.encryptedEntries →
      FirstAt folderAfter.directory row.path i name → memberMatchesPath name (ascii "a/c") = true :=
    fun hr hf => hpath hr ▸ hf.2.1
  refine ⟨cls, members, hc, (sameMembers_iff hc (readPackage_eq_ok hp).1).2 ⟨?_, ?_, ?_⟩⟩
  · intro path i hl hmatch hskip
    rcases hl with rfl | ⟨row, hr, rfl⟩
    · -- the manifest comes before all that is skipped
      have hkept : skippedAt folderAfter.directory 0 = false := by decide +kernel
      refine ⟨0, Nat.pos_of_ne_zero ?_, ⟨_, rfl, by decide⟩, hkept⟩
      rintro rfl
      rw [hkept] at hskip
      cases hskip
    · obtain ⟨file, hget, hdos⟩ := (Option.any_eq_true _ _).1 hskip
      obtain ⟨name, hname, hmatch⟩ := hmatch
      obtain ⟨file', hget', rfl⟩ := nameAt_eq_some.1 hname
      obtain rfl := Option.some.inj (hget.symm.trans hget')
      rw [hpath hr] at hmatch
      rw [(hall file (List.mem_of_getElem? hget) hmatch).1] at hdos
      cases hdos
  · intro _ row hr i j name hf hj
    obtain ⟨file, hget, rfl⟩ := nameAt_eq_some.1 hj
    rw [skippedAt, hget]
    exact (hall file (List.mem_of_getElem? hget) (hfirst hr hf)).1
  · intro _ row hr i name hf
    obtain ⟨file, hget, rfl⟩ := nameAt_eq_some.1 hf.1
    exact (hall file (List.mem_of_getElem? hget) (hfirst hr hf)).2

end OdfCrypto
