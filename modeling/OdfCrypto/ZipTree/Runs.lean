import OdfCrypto.Lib.Prog
import OdfCrypto.ZipTree

/-!
# Runs of the folder tree

A tree is looked at one node at a time (`TreeNode.descend`), each node without
what is below it (`TreeNode.view`). Looked at this way, an insertion adds the
folders and the stream of its name and nothing else (`kindIn_insertParts`), and
what the manifest says of a node changes that node and no other
(`viewAt_setInfoAt`, `viewAt_markAt`).

* `FolderTree.Sound`: proper names, and a cache of folders that are there;
* `FolderTree.Sound.resolve`: a path resolves to a node that is there, by its
  tree path;
* `FolderTree.runs_sound`: every run of calls on the tree of a package.
-/

namespace OdfCrypto

open Text

/-- A node without what is below it. -/
inductive NodeView
  | folder (info : FolderMeta)
  | stream (fromManifest : Bool) (mediaType : Option Str)
  deriving DecidableEq

def TreeNode.view : TreeNode → NodeView
  | .folder info _ => .folder info
  | .stream fromManifest mediaType => .stream fromManifest mediaType

def NodeView.kind : NodeView → ResolvedKind
  | .folder _ => .folder
  | .stream _ _ => .stream

/-- The node at some parts below another one. -/
def TreeNode.descend : TreeNode → List Str → Option TreeNode
  | node, [] => some node
  | .folder _ children, part :: parts =>
    (children.lookup part).bind fun child => child.descend parts
  | .stream _ _, _ :: _ => none
termination_by structural _ parts => parts

/-- What is at some parts below a folder. -/
def viewAt (info : FolderMeta) (children : Children) (parts : List Str) : Option NodeView :=
  ((TreeNode.folder info children).descend parts).map TreeNode.view

/-- What is at some parts of the tree. -/
def FolderTree.view (t : FolderTree) (parts : List Str) : Option NodeView :=
  viewAt t.info t.children parts

/-- The kind of what is at some parts of the tree. -/
def FolderTree.kindAt (t : FolderTree) (parts : List Str) : Option ResolvedKind :=
  (t.view parts).map NodeView.kind

/-! ### Looking at nodes -/

section

variable {info info' : FolderMeta} {children children' : Children} {part : Str} {parts q : List Str}
  {node : TreeNode}

@[simp] theorem TreeNode.kind_view (node : TreeNode) : node.view.kind = node.kind := by
  cases node <;> rfl

@[simp] theorem viewAt_nil : viewAt info children [] = some (.folder info) := rfl

theorem viewAt_cons : viewAt info children (part :: parts) =
    (children.lookup part).bind fun child => (child.descend parts).map TreeNode.view := by
  rw [viewAt, TreeNode.descend]
  cases children.lookup part <;> rfl

/-- What is below a folder does not depend on what is known of it. -/
theorem viewAt_congr (h : parts ≠ []) : viewAt info children parts = viewAt info' children parts := by
  cases parts with
  | nil => exact absurd rfl h
  | cons part parts => rw [viewAt_cons, viewAt_cons]

theorem viewAt_cons_folder {sub : Children} (h : children.lookup part = some (.folder info' sub)) :
    viewAt info children (part :: parts) = viewAt info' sub parts := by
  rw [viewAt_cons, h]
  rfl

theorem viewAt_cons_none (h : children.lookup part = none) :
    viewAt info children (part :: parts) = none := by
  rw [viewAt_cons, h]
  rfl

theorem viewAt_cons_stream {m : Bool} {mt : Option Str}
    (h : children.lookup part = some (.stream m mt)) :
    viewAt info children (part :: parts) = if parts = [] then some (.stream m mt) else none := by
  rw [viewAt_cons, h]
  cases parts <;> rfl

/-- What an assignment of one child changes. -/
theorem viewAt_assign {p : Str} : viewAt info (Assoc.assign part node children) (p :: parts) =
    if p = part then (node.descend parts).map TreeNode.view
    else viewAt info children (p :: parts) := by
  rw [viewAt_cons, Assoc.lookup_assign, viewAt_cons]
  split <;> rfl

/-- The children of a folder that is there. -/
theorem childrenAt_eq_some {children' : Children} :
    childrenAt children parts = some children' ↔
      ∃ info', (TreeNode.folder info children).descend parts = some (.folder info' children') := by
  induction parts generalizing children info with
  | nil => simp [childrenAt, TreeNode.descend]
  | cons part parts ih =>
    rw [childrenAt, TreeNode.descend]
    cases h : children.lookup part with
    | none => simp
    | some child =>
      cases child with
      | folder i sub => exact ih
      | stream m mt => cases parts <;> simp [TreeNode.descend]

/-- The node at the parts of a folder and one more. -/
theorem descend_concat (info : FolderMeta) :
    (TreeNode.folder info children).descend (parts ++ [part]) =
      (childrenAt children parts).bind fun sub => sub.lookup part := by
  induction parts generalizing children info with
  | nil =>
    rw [List.nil_append, TreeNode.descend, childrenAt, Option.bind_some]
    cases h : children.lookup part <;> simp [TreeNode.descend]
  | cons p parts ih =>
    rw [List.cons_append, TreeNode.descend, childrenAt]
    cases h : children.lookup p with
    | none => rfl
    | some child =>
      cases child with
      | folder i sub => exact ih i
      | stream m mt => cases parts <;> rfl

theorem childKind_eq (info : FolderMeta) : childKind children parts part =
    (viewAt info children (parts ++ [part])).map NodeView.kind := by
  rw [viewAt, descend_concat info, childKind]
  cases childrenAt children parts with
  | none => rfl
  | some sub => cases h : sub.lookup part <;> simp [h]

end

/-! ### Insertion -/

section

variable {info : FolderMeta} {children children' : Children} {stream : Option Str}
  {parts q : List Str}

/-- The kind of what is at some parts below a folder. -/
def kindIn (children : Children) (q : List Str) : Option ResolvedKind :=
  (viewAt {} children q).map NodeView.kind

@[simp] theorem kindIn_nil : kindIn children [] = some .folder := rfl

theorem kind_viewAt : (viewAt info children q).map NodeView.kind = kindIn children q := by
  cases q with
  | nil => rfl
  | cons p q => rw [kindIn, viewAt_congr (List.cons_ne_nil p q)]

theorem kindIn_cons {p : Str} : kindIn children (p :: q) =
    match children.lookup p with
    | some (.folder _ sub) => kindIn sub q
    | some (.stream _ _) => if q = [] then some .stream else none
    | none => none := by
  rw [kindIn]
  cases h : children.lookup p with
  | none => rw [viewAt_cons_none h]; rfl
  | some child =>
    cases child with
    | folder i sub => rw [viewAt_cons_folder h, kind_viewAt]
    | stream m mt => rw [viewAt_cons_stream h]; split <;> rfl

/-- The kinds below a folder after an insertion into one of its folders. -/
theorem kindIn_assign_folder {part p : Str} {sub : Children} :
    kindIn (Assoc.assign part (.folder info sub) children) (p :: q) =
      if p = part then kindIn sub q else kindIn children (p :: q) := by
  rw [kindIn, viewAt_assign]
  split
  · exact kind_viewAt
  · rfl

theorem kindIn_assign_stream {part p : Str} {m : Bool} {mt : Option Str} :
    kindIn (Assoc.assign part (.stream m mt) children) (p :: q) =
      if p = part then if q = [] then some .stream else none else kindIn children (p :: q) := by
  rw [kindIn, viewAt_assign]
  split
  · cases q <;> rfl
  · rfl

theorem kindIn_empty (h : q ≠ []) : kindIn [] q = none := by
  cases q with
  | nil => exact absurd rfl h
  | cons p q => rfl

/-- The parts of an inserted stream, unless its name is empty. -/
def streamParts (folders : List Str) : Option Str → Option (List Str)
  | none => none
  | some [] => none
  | some stream => some (folders ++ [stream])

theorem streamParts_cons {part : Str} {folders : List Str} :
    streamParts (part :: folders) stream = (streamParts folders stream).map (part :: ·) := by
  unfold streamParts
  split <;> rfl

/-- What the insertion of a stream adds. -/
theorem kindIn_insertStream (h : insertStream children stream = .ok children') :
    kindIn children' q =
      if streamParts [] stream = some q then some .stream else kindIn children q := by
  unfold insertStream at h
  split at h
  · cases h; rfl
  · cases h; rfl
  · next s hs =>
    -- A name that is not empty is the one part to insert; it is there already, or it is
    -- added.
    have hparts : streamParts [] (some s) = some [s] := by
      unfold streamParts
      split
      · next h => cases h
      · next h => cases h; exact absurd rfl hs
      · next h => cases h; rfl
    rw [hparts]
    simp only [Option.some.injEq]
    split at h
    · cases h
    · next hl =>
      cases h
      split
      · next hq => rw [← hq, kindIn_cons, hl]; rfl
      · rfl
    · next hl =>
      cases h
      cases q with
      | nil => rfl
      | cons p q =>
        rw [kindIn_assign_stream]
        simp only [List.cons.injEq]
        by_cases hp : p = s
        · rw [if_pos hp]
          by_cases hq : q = []
          · rw [if_pos hq, if_pos ⟨hp.symm, hq.symm⟩]
          · rw [if_neg hq, if_neg fun h => hq h.2.symm, hp, kindIn_cons, hl]
        · rw [if_neg hp, if_neg fun h => hp h.1.symm]

/-- The folders that an insertion goes through: its parts, up to the first empty
    one. -/
def folderParts (parts : List Str) : List Str := parts.takeWhile fun part => ¬ part.isEmpty

theorem folderParts_cons {part : Str} (h : part ≠ []) :
    folderParts (part :: parts) = part :: folderParts parts := by
  simp [folderParts, h]

/-- The kinds below a folder after an insertion that goes through `folders`. -/
def inserted (children : Children) (folders : List Str) (stream : Option Str) (q : List Str) :
    Option ResolvedKind :=
  if streamParts folders stream = some q then some .stream
  else if q <+: folders then some .folder
  else kindIn children q

theorem inserted_nil : inserted children [] stream q =
    if streamParts [] stream = some q then some .stream else kindIn children q := by
  unfold inserted
  split
  · rfl
  · split
    · next hq => rw [List.prefix_nil.1 hq, kindIn_nil]
    · rfl

/-- An insertion below a folder is one through the folder, if all that was in the
    folder is what was there before. -/
theorem kindIn_assign_inserted {part : Str} {folders : List Str} {sub sub' : Children}
    (hins : ∀ q, kindIn sub' q = inserted sub folders stream q)
    (hsub : ∀ q, q ≠ [] → kindIn children (part :: q) = kindIn sub q) :
    kindIn (Assoc.assign part (.folder info sub') children) q =
      inserted children (part :: folders) stream q := by
  cases q with
  | nil =>
    rw [inserted, if_neg, if_pos List.nil_prefix, kindIn_nil]
    rw [streamParts_cons]
    cases streamParts folders stream <;> simp
  | cons p q =>
    rw [kindIn_assign_folder, inserted, streamParts_cons]
    by_cases hp : p = part
    · subst hp
      have hinj : (streamParts folders stream).map (p :: ·) = some (p :: q) ↔
          streamParts folders stream = some q := by
        cases streamParts folders stream <;> simp
      rw [if_pos rfl, hins, inserted]
      simp only [hinj, List.cons_prefix_cons, true_and]
      split
      · rfl
      · split
        · rfl
        · next hq => rw [hsub q fun h0 => hq (h0 ▸ List.nil_prefix)]
    · rw [if_neg hp, if_neg, if_neg]
      · rw [List.cons_prefix_cons]
        exact fun h => hp h.1
      · cases streamParts folders stream with
        | none => simp
        | some l => simpa using fun h => absurd h.symm hp

/-- What an insertion adds: the folders it goes through, and the stream in the
    last of them. -/
theorem kindIn_insertParts (h : insertParts stream parts children = .ok children') :
    kindIn children' q = inserted children (folderParts parts) stream q := by
  induction parts generalizing children children' q with
  | nil => exact (kindIn_insertStream h).trans inserted_nil.symm
  | cons part parts ih =>
    unfold insertParts at h
    by_cases hpart : part = []
    · subst hpart
      exact (kindIn_insertStream h).trans inserted_nil.symm
    rw [if_neg (by simpa using hpart)] at h
    rw [folderParts_cons hpart]
    split at h
    · cases h
    · next info sub hl =>
      obtain ⟨sub', hsub', rfl⟩ := Except.map_eq_ok.1 h
      exact kindIn_assign_inserted (fun q => ih hsub') fun q _ => by rw [kindIn_cons, hl]
    · next hl =>
      obtain ⟨sub', hsub', rfl⟩ := Except.map_eq_ok.1 h
      exact kindIn_assign_inserted (fun q => ih hsub') fun q hq => by
        rw [kindIn_cons, hl, kindIn_empty hq]

theorem kindIn_insertStream_of_some {k : ResolvedKind}
    (h : insertStream children stream = .ok children') (hq : kindIn children q = some k) :
    kindIn children' q = some k := by
  unfold insertStream at h
  split at h
  · cases h; exact hq
  · cases h; exact hq
  · split at h
    · cases h
    · cases h; exact hq
    · next hl =>
      cases h
      cases q with
      | nil => exact hq
      | cons p q =>
        rw [kindIn_assign_stream, if_neg]
        · exact hq
        · rintro rfl
          rw [kindIn_cons, hl] at hq
          cases hq

/-- An insertion leaves what is there as it is. -/
theorem kindIn_insertParts_of_some {k : ResolvedKind}
    (h : insertParts stream parts children = .ok children') (hq : kindIn children q = some k) :
    kindIn children' q = some k := by
  induction parts generalizing children children' q with
  | nil => exact kindIn_insertStream_of_some h hq
  | cons part parts ih =>
    -- Writing over one folder keeps every path that does not go through it.
    have hfolder : ∀ {info : FolderMeta} {sub' : Children},
        (∀ q', q = part :: q' → kindIn sub' q' = some k) →
        kindIn (Assoc.assign part (.folder info sub') children) q = some k := by
      intro info sub' hsub
      cases q with
      | nil => exact hq
      | cons p q =>
        rw [kindIn_assign_folder]
        split
        · next hp => exact hsub q (by rw [hp])
        · exact hq
    unfold insertParts at h
    split at h
    · exact kindIn_insertStream_of_some h hq
    · split at h
      · cases h
      · next info sub hl =>
        obtain ⟨sub', hsub', rfl⟩ := Except.map_eq_ok.1 h
        refine hfolder ?_
        rintro q' rfl
        rw [kindIn_cons, hl] at hq
        exact ih hsub' hq
      · next hl =>
        obtain ⟨sub', hsub', rfl⟩ := Except.map_eq_ok.1 h
        refine hfolder ?_
        rintro q' rfl
        rw [kindIn_cons, hl] at hq
        cases hq

/-- The parts of the stream that a member is inserted as. -/
def memberParts (name : Str) : Option (List Str) :=
  streamParts (folderParts ((namePath name).1.splitOn '/')) (namePath name).2

/-- A part of a path: not empty, and without a slash. -/
def IsPart (part : Str) : Prop := part ≠ [] ∧ '/' ∉ part

theorem isPart_of_mem_folderParts {s part : Str} (h : part ∈ folderParts (s.splitOn '/')) :
    IsPart part := by
  refine ⟨?_, not_mem_of_mem_splitOn ((List.takeWhile_sublist _).subset h)⟩
  have := List.mem_takeWhile_imp h
  simpa using this

theorem isPart_of_memberParts {name part : Str} (h : memberParts name = some q) (hp : part ∈ q) :
    IsPart part := by
  unfold memberParts streamParts at h
  split at h
  · cases h
  · cases h
  · next stream hne hs =>
    cases h
    obtain hp | hp := List.mem_append.1 hp
    · exact isPart_of_mem_folderParts hp
    · obtain rfl := List.mem_singleton.1 hp
      refine ⟨hne, ?_⟩
      unfold namePath at hs
      split at hs
      · next hr => cases hs; exact rsplitOnce_eq_none.1 hr
      · next dir last hr =>
        split at hs
        · cases hs
        · cases hs; exact (rsplitOnce_eq_some.1 hr).2

theorem kindIn_insertPath {root root' : Children} {name : Str} (h : insertPath root name = .ok root') :
    kindIn root' q =
      if memberParts name = some q then some .stream
      else if q <+: folderParts ((namePath name).1.splitOn '/') then some .folder
      else kindIn root q :=
  kindIn_insertParts h

/-- Past an empty part, an insertion sees nothing. -/
theorem folderParts_append_nil (a b : List Str) : folderParts (a ++ [] :: b) = folderParts a := by
  induction a with
  | nil => rfl
  | cons p a ih =>
    by_cases hp : p = []
    · subst hp; rfl
    · rw [List.cons_append, folderParts_cons hp, folderParts_cons hp, ih]

/-- Trailing slashes of a folder add nothing. -/
theorem folderParts_rdropWhile (s : Str) :
    folderParts ((s.rdropWhile (· = '/')).splitOn '/') = folderParts (s.splitOn '/') := by
  induction s using List.reverseRecOn with
  | nil => rfl
  | append_singleton s c ih =>
    by_cases hc : c = '/'
    · subst hc
      rw [List.rdropWhile_concat_pos _ _ _ (by simp), ih, List.splitOn_append_cons_self]
      exact (folderParts_append_nil _ _).symm
    · rw [List.rdropWhile_concat_neg _ _ _ (by simpa using hc)]

/-- The containing folder of a member is one that its insertion goes through. -/
theorem walkContainingFolder_eq {name dir last : Str} (h : rsplitOnce '/' name = some (dir, last)) :
    walkContainingFolder name = folderParts ((namePath name).1.splitOn '/') := by
  have hw : walkContainingFolder name = folderParts (dir.splitOn '/') := by
    rw [walkContainingFolder, h]
    rfl
  rw [hw, namePath, h]
  simp only
  split
  · next hl =>
    obtain rfl := List.isEmpty_iff.1 hl
    rw [(rsplitOnce_eq_some.1 h).1, folderParts_rdropWhile, List.splitOn_append_cons_self]
    exact (folderParts_append_nil _ _).symm
  · rfl

end

/-! ### The tree of a package -/

namespace FolderTree

theorem kindAt_eq (t : FolderTree) (q : List Str) : t.kindAt q = kindIn t.children q := kind_viewAt

/-- A tree whose nodes have proper names, and whose cache denotes folders that
    are there. -/
structure Sound (t : FolderTree) : Prop where
  names : ∀ {q : List Str}, t.kindAt q ≠ none → ∀ part ∈ q, IsPart part
  recent : ∀ p ∈ t.recent, t.kindAt p.2 = some .folder

variable {t t' : FolderTree} {name : Str} {q : List Str}

/-- What an insertion does to the tree, and to the cache. -/
theorem insert_ok (h : t.insert name = .ok t') :
    insertPath t.children name = .ok t'.children ∧
      ∀ p ∈ t'.recent,
        p ∈ t.recent ∨ p.2 = folderParts ((namePath name).1.splitOn '/') := by
  obtain ⟨children, hc, h⟩ := Except.bind_eq_ok.1 h
  simp only at h
  split at h
  · next dir last hr =>
    split at h
    · cases h; exact ⟨hc, fun p hp => .inl hp⟩
    · cases h
      refine ⟨hc, fun p hp => ?_⟩
      obtain rfl | hp := Assoc.mem_assign hp
      · exact .inr (walkContainingFolder_eq hr)
      · exact .inl hp
  · cases h; exact ⟨hc, fun p hp => .inl hp⟩

theorem kindAt_insert (h : t.insert name = .ok t') :
    t'.kindAt q =
      if memberParts name = some q then some .stream
      else if q <+: folderParts ((namePath name).1.splitOn '/') then some .folder
      else t.kindAt q := by
  rw [kindAt_eq, kindAt_eq]
  exact kindIn_insertPath (insert_ok h).1

theorem memberParts_ne_folderParts :
    memberParts name ≠ some (folderParts ((namePath name).1.splitOn '/')) := by
  unfold memberParts streamParts
  split <;> simp

theorem Sound.insert (ht : t.Sound) (h : t.insert name = .ok t') : t'.Sound where
  names {q} hq part hp := by
    rw [kindAt_insert h] at hq
    split at hq
    · next hm => exact isPart_of_memberParts hm hp
    · split at hq
      · next hf => exact isPart_of_mem_folderParts (hf.subset hp)
      · exact ht.names hq part hp
  recent p hp := by
    obtain hp | hp := (insert_ok h).2 p hp
    · rw [kindAt_eq]
      exact kindIn_insertParts_of_some (insert_ok h).1 ((kindAt_eq _ _).symm.trans (ht.recent p hp))
    · rw [kindAt_insert h, if_neg (hp ▸ memberParts_ne_folderParts), if_pos (hp ▸ List.prefix_rfl)]

theorem Sound.empty : Sound {} where
  names {q} hq part hp := by
    cases q with
    | nil => cases hp
    | cons p q => exact absurd (kindIn_empty (List.cons_ne_nil p q)) (by rwa [kindAt_eq] at hq)
  recent _ hp := by cases hp

/-- What the tree of a package is: sound, with no streams but its members. -/
theorem fromZipNames_sound {names : List Str} (h : fromZipNames names = .ok t) :
    t.Sound ∧ ∀ q, t.kindAt q = some .stream → ∃ name ∈ names, memberParts name = some q := by
  unfold fromZipNames at h
  induction names using List.reverseRecOn generalizing t with
  | nil =>
    cases h
    refine ⟨.empty, fun q hq => ?_⟩
    cases q with
    | nil => cases hq
    | cons p q => cases hq
  | append_singleton names name ih =>
    rw [List.foldlM_append] at h
    obtain ⟨t₁, h₁, h⟩ := Except.bind_eq_ok.1 h
    have h : t₁.insert name >>= pure = .ok t := h
    rw [bind_pure] at h
    obtain ⟨hs, hm⟩ := ih h₁
    refine ⟨hs.insert h, fun q hq => ?_⟩
    rw [kindAt_insert h] at hq
    split at hq
    · next hn => exact ⟨name, by simp, hn⟩
    · split at hq
      · cases hq
      · obtain ⟨n, hn, hp⟩ := hm q hq
        exact ⟨n, List.mem_append_left _ hn, hp⟩

/-! ### Resolving -/

theorem folderTreePath_eq (parts : List Str) (h : parts ≠ []) :
    folderTreePath parts = ['/'].intercalate parts ++ ['/'] := by
  rw [folderTreePath, if_neg (by simpa using h)]

theorem streamTreePath_eq (folder : List Str) (name : Str) :
    streamTreePath folder name = ['/'].intercalate (folder ++ [name]) := by
  have happend : ∀ (p : Str) (ps : List Str),
      ['/'].intercalate (p :: ps ++ [name]) = ['/'].intercalate (p :: ps) ++ '/' :: name := by
    intro p ps
    induction ps generalizing p with
    | nil => simp
    | cons p' ps ih =>
      rw [List.cons_append, List.cons_append, List.intercalate_cons_cons, ← List.cons_append, ih,
        List.intercalate_cons_cons]
      simp only [List.append_assoc]
  unfold streamTreePath
  cases folder with
  | nil => simp
  | cons p ps => exact (happend p ps).symm

/-- The parts of a tree path are those it was made of. -/
theorem treeParts_intercalate {parts : List Str} (h : ∀ part ∈ parts, IsPart part) :
    treeParts (['/'].intercalate parts) = parts := by
  unfold treeParts
  by_cases h0 : parts = []
  · subst h0; rfl
  · rw [List.splitOn_intercalate '/' (fun l hl => (h l hl).2) h0, List.filter_eq_self]
    intro part hp
    simpa using (h part hp).1

theorem treeParts_folderTreePath {parts : List Str} (h : ∀ part ∈ parts, IsPart part) :
    treeParts (folderTreePath parts) = parts := by
  by_cases h0 : parts = []
  · subst h0; decide
  · rw [folderTreePath_eq parts h0, treeParts, List.splitOn_append_cons_self, List.filter_append]
    exact (congrArg (· ++ _) (treeParts_intercalate h)).trans (by simp)

/-- A resolved node that is there, under the tree path made of its parts. -/
def Names (t : FolderTree) (r : Resolved) (parts : List Str) : Prop :=
  t.kindAt parts = some r.kind ∧ treeParts r.treePath = parts ∧
    r.treePath = match r.kind with
      | .folder => folderTreePath parts
      | .stream => ['/'].intercalate parts

theorem Sound.names_folder (ht : t.Sound) {parts : List Str} (h : t.kindAt parts = some .folder) :
    t.Names ⟨.folder, folderTreePath parts⟩ parts :=
  ⟨h, treeParts_folderTreePath (ht.names (by rw [h]; simp)), rfl⟩

theorem Sound.names_child (ht : t.Sound) {current : List Str} {sTemp : Str} {kind : ResolvedKind}
    (h : childKind t.children current sTemp = some kind) :
    t.Names (resolvedChild kind current sTemp) (current ++ [sTemp]) := by
  rw [childKind_eq {}] at h
  have hk : t.kindAt (current ++ [sTemp]) = some kind := (kindAt_eq _ _).trans h
  cases kind with
  | folder => exact ht.names_folder hk
  | stream =>
    refine ⟨hk, ?_, streamTreePath_eq _ _⟩
    rw [resolvedChild, streamTreePath_eq]
    exact treeParts_intercalate (ht.names (by rw [hk]; simp))

/-- A walk ends in a folder that is there, entered from one that is there. -/
theorem walk_sound {root : Children} {fuel : ℕ} {rest rest' : Str} {current current' : List Str}
    {previous previous' : Option (List Str)} (hc : kindIn root current = some .folder)
    (hp : ∀ folder, previous = some folder → kindIn root folder = some .folder)
    (h : walk root fuel rest current previous = .ok (some (rest', current', previous'))) :
    kindIn root current' = some .folder ∧
      ∀ folder, previous' = some folder → kindIn root folder = some .folder := by
  induction fuel generalizing rest current previous with
  | zero => cases h; exact ⟨hc, hp⟩
  | succ fuel ih =>
    unfold walk at h
    split at h
    · cases h; exact ⟨hc, hp⟩
    · cases h; exact ⟨hc, hp⟩
    · split at h
      · next hk =>
        rw [childKind_eq {}] at hk
        exact ih hk (by rintro _ ⟨⟩; exact hc) h
      · cases h
      · cases h

/-- A tree that differs from a sound one in its cache, by folders that are there. -/
theorem Sound.of_recent (ht : t.Sound) {recent : List (Str × List Str)}
    (h : ∀ p ∈ recent, p ∈ t.recent ∨ t.kindAt p.2 = some .folder) :
    Sound { t with recent } where
  names := ht.names
  recent p hp := (h p hp).elim (ht.recent p) id

/-- What a call of `resolve` can do: to the cache only, with folders that are
    there, and what it results in is there. -/
structure Resolves (t : FolderTree) (result : Except StreamAsFolder (Option Resolved))
    (t' : FolderTree) : Prop where
  info : t'.info = t.info
  children : t'.children = t.children
  sound : t'.Sound
  names : ∀ r, result = .ok (some r) → ∃ parts, t.Names r parts

theorem Sound.resolves_none (ht : t.Sound) {result : Except StreamAsFolder (Option Resolved)}
    (h : ∀ r, result ≠ .ok (some r)) : t.Resolves result t :=
  ⟨rfl, rfl, ht, fun r hr => absurd hr (h r)⟩

theorem Sound.resolves_some (ht : t.Sound) {r : Resolved} {parts : List Str}
    (h : t.Names r parts) : t.Resolves (.ok (some r)) t :=
  ⟨rfl, rfl, ht, by rintro _ ⟨⟩; exact ⟨parts, h⟩⟩

theorem Sound.remember (ht : t.Sound) {sDirName : Option Str} {folder : Option (List Str)}
    (h : ∀ f, folder = some f → t.kindAt f = some .folder) :
    (t.remember sDirName folder).Sound := by
  unfold FolderTree.remember
  split
  · next f =>
    refine ht.of_recent fun p hp => ?_
    obtain rfl | hp := Assoc.mem_assign hp
    · exact .inr (h _ rfl)
    · exact .inl hp
  · exact ht

theorem remember_frame (t : FolderTree) (sDirName : Option Str) (folder : Option (List Str)) :
    (t.remember sDirName folder).info = t.info ∧
      (t.remember sDirName folder).children = t.children := by
  unfold FolderTree.remember
  split <;> exact ⟨rfl, rfl⟩

theorem Sound.walkResolve (ht : t.Sound) (path : Str) (bFolder : Bool) (sDirName : Option Str) :
    t.Resolves (t.walkResolve path bFolder sDirName).1 (t.walkResolve path bFolder sDirName).2 := by
  unfold FolderTree.walkResolve
  split
  · exact ht.resolves_none nofun
  · exact ht.resolves_none nofun
  · next sTemp current previous hw =>
    obtain ⟨hc, hp⟩ := walk_sound rfl (fun _ h => by cases h) hw
    have hc : t.kindAt current = some .folder := (kindAt_eq _ _).trans hc
    split
    · obtain ⟨hi, hch⟩ := remember_frame t sDirName previous
      refine ⟨hi, hch, ht.remember fun f hf => (kindAt_eq _ _).trans (hp f hf), ?_⟩
      rintro _ ⟨⟩
      exact ⟨current, ht.names_folder hc⟩
    · split
      · next kind hk =>
        obtain ⟨hi, hch⟩ := remember_frame t sDirName current
        refine ⟨hi, hch, ht.remember (by rintro _ ⟨⟩; exact hc), ?_⟩
        rintro _ ⟨⟩
        exact ⟨_, ht.names_child hk⟩
      · exact ht.resolves_none nofun

/-- The tree once the cache has forgotten a folder. -/
def forgotten (t : FolderTree) (sDirName : Str) : FolderTree :=
  { t with recent := Assoc.forget sDirName t.recent }

/-- Forgetting a folder first makes no difference to what a walk is. -/
theorem Sound.walkResolve_forget (ht : t.Sound) (path : Str) (bFolder : Bool) (sDirName : Str) :
    t.Resolves ((t.forgotten sDirName).walkResolve path bFolder sDirName).1
      ((t.forgotten sDirName).walkResolve path bFolder sDirName).2 := by
  have hs : (t.forgotten sDirName).Sound :=
    ht.of_recent fun p hp => .inl (Assoc.mem_of_mem_forget hp)
  have h := hs.walkResolve path bFolder sDirName
  exact ⟨h.info, h.children, h.sound, h.names⟩

/-- A folder that the cache holds is used where its name is the one asked for. -/
theorem Sound.resolve_cached (ht : t.Sound) {cached : List Str} (hc : t.kindAt cached = some .folder)
    (path sDirName sTemp : Str) :
    let w := if sTemp = getName cached then (.ok (some ⟨.folder, folderTreePath cached⟩), t)
      else (t.forgotten sDirName).walkResolve path true sDirName
    t.Resolves w.1 w.2 := by
  split
  · exact ht.resolves_some (ht.names_folder hc)
  · exact ht.walkResolve_forget _ _ _

/-- A path resolves to a node that is there. -/
theorem Sound.resolve (ht : t.Sound) (path : Str) :
    t.Resolves (t.resolve path).1 (t.resolve path).2 := by
  -- One branch of the source each: the root, a name with no slash, and a path with
  -- folders, which may be cached.
  unfold FolderTree.resolve
  split
  · exact ht.resolves_some (ht.names_folder (show t.kindAt [] = some .folder from rfl))
  · split
    · exact ht.resolves_none nofun
    · split
      · next hr =>
        cases hl : t.children.lookup path with
        | none => exact ht.resolves_none nofun
        | some node =>
          have hk : childKind t.children [] path = some node.kind := by
            simp [childKind, childrenAt, hl]
          exact ht.resolves_some (ht.names_child hk)
      · next sDirName last hr =>
        split
        · exact ht.walkResolve _ _ _
        · next cached hcached =>
          have hfolder := ht.recent _ (Assoc.mem_of_lookup hcached)
          by_cases hlast : last.isEmpty = true
          · rw [if_pos hlast]
            exact ht.resolve_cached hfolder _ _ _
          · rw [if_neg hlast]
            split
            · next kind hk => exact ht.resolves_some (ht.names_child hk)
            · exact ht.walkResolve_forget _ _ _

/-! ### What the manifest says -/

section

variable {info about : FolderMeta} {mediaType version : Option Str} {parts : List Str}
  {root : Children} {treePath : Str}

/-- Setting what is known of a folder changes that folder, if it is there. -/
theorem viewAt_setInfoAt (h : parts ≠ []) :
    viewAt info (setInfoAt about parts root) q =
      if q = parts ∧ kindIn root parts = some .folder then some (.folder about)
      else viewAt info root q := by
  -- As for the mark: the information follows the parts down, and only the folder at
  -- their end changes.
  induction parts generalizing info root q with
  | nil => exact absurd rfl h
  | cons part parts ih =>
    rw [setInfoAt, kindIn_cons]
    cases hl : root.lookup part with
    | none => simp
    | some child =>
      cases child with
      | stream m mt =>
        rw [if_neg]
        rintro ⟨-, hk⟩
        simp only at hk
        split at hk <;> cases hk
      | folder old children =>
        cases q with
        | nil => rw [if_neg (by simp), viewAt_nil, viewAt_nil]
        | cons p q =>
          simp only
          rw [viewAt_assign]
          by_cases hp : p = part
          · subst hp
            rw [if_pos rfl, viewAt_cons_folder hl]
            simp only [List.cons.injEq, true_and]
            cases parts with
            | nil =>
              change viewAt about children q = _
              by_cases hq : q = []
              · subst hq; simp
              · rw [if_neg (fun h => hq h.1), viewAt_congr hq]
            | cons part' parts => exact ih (List.cons_ne_nil _ _)
          · rw [if_neg hp, if_neg fun h => hp (List.cons.inj h.1).1]

/-- Marking a stream changes that stream, if it is there. -/
theorem viewAt_markAt :
    viewAt info (markAt mediaType parts root) q =
      if q = parts ∧ kindIn root parts = some .stream then some (.stream true mediaType)
      else viewAt info root q := by
  -- The mark follows the parts down the tree, and only the stream at their end
  -- changes.
  induction parts generalizing info root q with
  | nil => simp [markAt]
  | cons part parts ih =>
    rw [markAt, kindIn_cons]
    cases hl : root.lookup part with
    | none => simp
    | some child =>
      cases child with
      | stream m mt =>
        cases parts with
        | cons part' parts => simp
        | nil =>
          cases q with
          | nil => simp
          | cons p q =>
            simp only [List.isEmpty_nil, if_true]
            rw [viewAt_assign]
            by_cases hp : p = part
            · subst hp
              rw [if_pos rfl, viewAt_cons_stream hl]
              cases q <;> simp [TreeNode.descend, TreeNode.view]
            · rw [if_neg hp, if_neg fun h => hp (List.cons.inj h.1).1]
      | folder old children =>
        cases parts with
        | nil => simp
        | cons part' parts =>
          cases q with
          | nil => simp
          | cons p q =>
            simp only [List.isEmpty_cons]
            rw [if_neg (by simp), viewAt_assign]
            by_cases hp : p = part
            · subst hp
              rw [if_pos rfl, viewAt_cons_folder hl]
              simp only [List.cons.injEq, true_and]
              exact ih
            · rw [if_neg hp, if_neg fun h => hp (List.cons.inj h.1).1]

theorem view_setFolderMeta (t : FolderTree) :
    (t.setFolderMeta treePath mediaType version).view q =
      if q = treeParts treePath ∧ t.kindAt (treeParts treePath) = some .folder then
        some (.folder ⟨mediaType, version⟩)
      else t.view q := by
  unfold setFolderMeta
  by_cases h : treeParts treePath = []
  · rw [if_pos (.inr (.inr h)), h]
    by_cases hq : q = []
    · subst hq; rw [if_pos ⟨rfl, rfl⟩]; rfl
    · rw [if_neg fun h => hq h.1]
      exact viewAt_congr hq
  · rw [if_neg]
    · rw [kindAt_eq]
      exact viewAt_setInfoAt h
    · rintro (rfl | h0 | h')
      · exact h (by decide)
      · rw [List.isEmpty_iff.1 h0] at h
        exact h (by decide)
      · exact h h'

theorem view_markFromManifest (t : FolderTree) :
    (t.markFromManifest treePath mediaType).view q =
      if q = treeParts treePath ∧ t.kindAt (treeParts treePath) = some .stream then
        some (.stream true mediaType)
      else t.view q := by
  rw [kindAt_eq]
  exact viewAt_markAt

/-- A change of one node, by one of its kind, changes no kind. -/
theorem kindAt_of_view {v : NodeView}
    (h : ∀ q, t'.view q =
      if q = parts ∧ t.kindAt parts = some v.kind then some v else t.view q) :
    t'.kindAt q = t.kindAt q := by
  rw [kindAt, h]
  split
  · next hq => rw [hq.1, hq.2]; rfl
  · rfl

theorem kindAt_setFolderMeta (t : FolderTree) :
    (t.setFolderMeta treePath mediaType version).kindAt q = t.kindAt q :=
  kindAt_of_view (v := .folder _) fun _ => view_setFolderMeta t

theorem kindAt_markFromManifest (t : FolderTree) :
    (t.markFromManifest treePath mediaType).kindAt q = t.kindAt q :=
  kindAt_of_view (v := .stream _ _) fun _ => view_markFromManifest t

theorem recent_setFolderMeta (t : FolderTree) :
    (t.setFolderMeta treePath mediaType version).recent = t.recent := by
  unfold setFolderMeta
  split <;> rfl

/-- A tree with the kinds and the cache of a sound one. -/
theorem Sound.congr (ht : t.Sound) (hk : ∀ q, t'.kindAt q = t.kindAt q)
    (hr : t'.recent = t.recent) : t'.Sound where
  names hq := ht.names (by rwa [hk] at hq)
  recent p hp := by rw [hk]; exact ht.recent p (hr ▸ hp)

end

/-! ### Runs -/

end FolderTree

/-- A call on a tree. -/
inductive TreeCall
  | resolve (path : Str)
  | setFolderMeta (treePath : Str) (mediaType version : Option Str)
  | markFromManifest (treePath : Str) (mediaType : Option Str)

/-- The tree after a call. -/
def TreeCall.run (t : FolderTree) : TreeCall → FolderTree
  | .resolve path => (t.resolve path).2
  | .setFolderMeta treePath mediaType version => t.setFolderMeta treePath mediaType version
  | .markFromManifest treePath mediaType => t.markFromManifest treePath mediaType

namespace FolderTree

variable {t t' : FolderTree}

theorem Sound.run (ht : t.Sound) (call : TreeCall) :
    (call.run t).Sound ∧ ∀ q, (call.run t).kindAt q = t.kindAt q := by
  cases call with
  | resolve path =>
    obtain ⟨-, hc, hs, -⟩ := ht.resolve path
    refine ⟨hs, fun q => ?_⟩
    rw [kindAt_eq, kindAt_eq]
    exact congrArg (kindIn · q) hc
  | setFolderMeta treePath mediaType version =>
    exact ⟨ht.congr (fun _ => kindAt_setFolderMeta t) (recent_setFolderMeta t),
      fun _ => kindAt_setFolderMeta t⟩
  | markFromManifest treePath mediaType =>
    exact ⟨ht.congr (fun _ => kindAt_markFromManifest t) rfl, fun _ => kindAt_markFromManifest t⟩

theorem Sound.runs (ht : t.Sound) (calls : List TreeCall) :
    (calls.foldl TreeCall.run t).Sound ∧
      ∀ q, (calls.foldl TreeCall.run t).kindAt q = t.kindAt q := by
  induction calls generalizing t with
  | nil => exact ⟨ht, fun _ => rfl⟩
  | cons call calls ih =>
    obtain ⟨hs, hk⟩ := ht.run call
    obtain ⟨hs', hk'⟩ := ih hs
    exact ⟨hs', fun q => (hk' q).trans (hk q)⟩

/-- A resolved path names a node of its kind, and what the manifest then says of
    it is said of that node alone. -/
structure ResolvesTo (t : FolderTree) (r : Resolved) : Prop where
  kind : t.kindAt (treeParts r.treePath) = some r.kind
  setFolderMeta : r.kind = .folder → ∀ mediaType version q,
    (t.setFolderMeta r.treePath mediaType version).view q =
      if q = treeParts r.treePath then some (.folder ⟨mediaType, version⟩) else t.view q
  markFromManifest : r.kind = .stream → ∀ mediaType q,
    (t.markFromManifest r.treePath mediaType).view q =
      if q = treeParts r.treePath then some (.stream true mediaType) else t.view q

theorem Sound.resolvesTo (ht : t.Sound) {path : Str} {r : Resolved}
    (h : (t.resolve path).1 = .ok (some r)) : (t.resolve path).2.ResolvesTo r := by
  obtain ⟨-, hc, -, hn⟩ := ht.resolve path
  obtain ⟨parts, hk, hp, -⟩ := hn r h
  have hkind : (t.resolve path).2.kindAt (treeParts r.treePath) = some r.kind := by
    rw [hp, kindAt_eq, hc, ← kindAt_eq]
    exact hk
  refine ⟨hkind, fun hf mediaType version q => ?_, fun hs mediaType q => ?_⟩
  · rw [view_setFolderMeta, hkind, hf]
    simp
  · rw [view_markFromManifest, hkind, hs]
    simp

/-- After every run of calls on the tree of a package, the cache holds folders
    that are there, the nodes are those it was built with, and a path resolves to
    one of them. -/
theorem runs_sound {names : List Str} (h : fromZipNames names = .ok t) (calls : List TreeCall) :
    (∀ p ∈ (calls.foldl TreeCall.run t).recent,
        (calls.foldl TreeCall.run t).kindAt p.2 = some .folder) ∧
      (∀ q, (calls.foldl TreeCall.run t).kindAt q = t.kindAt q) ∧
      ∀ path r, ((calls.foldl TreeCall.run t).resolve path).1 = .ok (some r) →
        ((calls.foldl TreeCall.run t).resolve path).2.ResolvesTo r := by
  obtain ⟨hs, hk⟩ := (fromZipNames_sound h).1.runs calls
  exact ⟨hs.recent, hk, fun path r hr => hs.resolvesTo hr⟩

/-- The folder `Pictures/` is resolved, and described. -/
def describePictures : List TreeCall :=
  [.resolve (ascii "Pictures/"), .setFolderMeta (ascii "Pictures/") (some (ascii "image")) none]

/-- After that a picture is resolved, and what the manifest says of it is said of it alone:
    the folder is as it was described. -/
theorem runs_sound_sample :
    ∃ t, fromZipNames [ascii "mimetype", ascii "content.xml", ascii "Pictures/a.png"] = .ok t ∧
      ((describePictures.foldl TreeCall.run t).resolve (ascii "Pictures/a.png")).1 =
        .ok (some ⟨.stream, ascii "Pictures/a.png"⟩) ∧
      let t' := ((describePictures.foldl TreeCall.run t).resolve (ascii "Pictures/a.png")).2
      let marked := t'.markFromManifest (ascii "Pictures/a.png") (some (ascii "image/png"))
      marked.view [ascii "Pictures", ascii "a.png"] = some (.stream true (some (ascii "image/png"))) ∧
        marked.view [ascii "Pictures"] = some (.folder ⟨some (ascii "image"), none⟩) := by
  have hrun : (fromZipNames [ascii "mimetype", ascii "content.xml", ascii "Pictures/a.png"]).toOption.map
      (fun t =>
        let w := (describePictures.foldl TreeCall.run t).resolve (ascii "Pictures/a.png")
        (w.1.toOption, w.2.view [ascii "Pictures"])) =
      some (some (some ⟨.stream, ascii "Pictures/a.png"⟩),
        some (.folder ⟨some (ascii "image"), none⟩)) := rfl
  obtain ⟨t, ht, hrun⟩ := Option.map_eq_some_iff.1 hrun
  obtain ⟨hresolved, hfolder⟩ := Prod.mk.inj hrun
  replace ht := Except.toOption_eq_some.1 ht
  replace hresolved := Except.toOption_eq_some.1 hresolved
  have hpicture := (runs_sound ht describePictures).2.2 _ _ hresolved
  refine ⟨t, ht, hresolved, ?_, ?_⟩
  · rw [hpicture.markFromManifest rfl]
    rfl
  · rw [hpicture.markFromManifest rfl]
    exact hfolder

end FolderTree

end OdfCrypto
