import OdfCrypto.ZipTree.Runs

/-!
# The cache of the folder tree

Where no row of the manifest is a folder, `m_aRecent` only saves walking: every entry
that such rows can find is the folder that its key spells out (`FolderTree.Fresh`), so
that a hit and a walk have the same result.

* `walked`: what a walk of the tree finds, without a cache;
* `FolderTree.Fresh.resolve`: so does a call of `resolve`, and it leaves the cache so;
* `FolderTree.resolveAll_eq`: so does every one of any calls, in any order.
-/

namespace OdfCrypto

open Text

/-- A path that no part of is empty: it is not empty, and no folder. -/
def IsRow (path : Str) : Prop := ∀ part ∈ path.splitOn '/', part ≠ []

/-- What a walk down the tree finds at some parts. -/
def walked : Children → List Str → Except StreamAsFolder (Option ResolvedKind)
  | _, [] => .ok (some .folder)
  | children, [part] => .ok ((children.lookup part).map TreeNode.kind)
  | children, part :: parts =>
    match children.lookup part with
    | some (.folder _ sub) => walked sub parts
    | some (.stream _ _) => .error .streamAsFolder
    | none => .ok none

/-- What is resolved, of a kind, at a path. -/
def resolvedAt (path : Str) : ResolvedKind → Resolved
  | .folder => ⟨.folder, folderTreePath (path.splitOn '/')⟩
  | .stream => ⟨.stream, path⟩

namespace FolderTree

/-- The result of a walk of the tree, without a cache. -/
def walkedPath (t : FolderTree) (path : Str) : Except StreamAsFolder (Option Resolved) :=
  (walked t.children (path.splitOn '/')).map (Option.map (resolvedAt path))

/-- Resolve some paths, one after the other. -/
def resolveAll (t : FolderTree) : List Str → List (Except StreamAsFolder (Option Resolved))
  | [] => []
  | path :: paths => (t.resolve path).1 :: (t.resolve path).2.resolveAll paths

/-- A tree whose cache holds, for the paths of rows, the folders that they spell out. -/
structure Fresh (t : FolderTree) : Prop extends t.Sound where
  spells : ∀ p ∈ t.recent, IsRow p.1 → p.2 = p.1.splitOn '/'

end FolderTree

/-! ### Paths -/

section

variable {path dir last part : Str} {parts : List Str}

/-- The parts of a path are those before its last slash, and one more. -/
theorem splitOn_rsplitOnce (h : rsplitOnce '/' path = some (dir, last)) :
    path.splitOn '/' = dir.splitOn '/' ++ [last] := by
  obtain ⟨rfl, hlast⟩ := rsplitOnce_eq_some.1 h
  rw [List.splitOn_append_cons_self, List.splitOn_eq_singleton hlast]

theorem splitOn_of_rsplitOnce_none (h : rsplitOnce '/' path = none) : path.splitOn '/' = [path] :=
  List.splitOn_eq_singleton (rsplitOnce_eq_none.1 h)

end

/-! ### Walks -/

namespace FolderTree

section

variable {root sub : Children} {current : List Str} {path rest : Str}

theorem childKind_of_childrenAt {part : Str} (h : childrenAt root current = some sub) :
    childKind root current part = (sub.lookup part).map TreeNode.kind := by
  rw [childKind, h]
  rcases hl : sub.lookup part with - | child
  · simp [hl]
  · simp [hl]

/-- The folder in a folder that is there. -/
theorem childrenAt_concat {part : Str} {info : FolderMeta} {sub' : Children}
    (h : childrenAt root current = some sub) (hl : sub.lookup part = some (.folder info sub')) :
    childrenAt root (current ++ [part]) = some sub' := by
  refine (@childrenAt_eq_some {} _ _ _).2 ⟨info, ?_⟩
  rw [descend_concat, h, Option.bind_some, hl]

/-- What is found in a folder that is there. -/
theorem walked_concat {part : Str} {parts : List Str} (h : childrenAt root parts = some sub) :
    walked root (parts ++ [part]) = .ok ((sub.lookup part).map TreeNode.kind) := by
  induction parts generalizing root with
  | nil =>
    obtain rfl := Option.some.inj h
    rfl
  | cons p parts ih =>
    rw [childrenAt] at h
    split at h
    · next info children hl =>
      rcases hp : parts ++ [part] with - | ⟨q, qs⟩
      · exact absurd hp (by simp)
      · rw [List.cons_append, hp, walked, hl, ← hp]
        · exact ih h
        · exact List.cons_ne_nil q qs
    · cases h

/-- The kind of what a walk ended at. -/
def endKind (root : Children) (ended : Option (Str × List Str × Option (List Str))) :
    Option ResolvedKind :=
  ended.bind fun (sTemp, current, _) => childKind root current sTemp

/-- A walk for a row finds what is there, and ends at its last part. -/
theorem walk_row {fuel : ℕ} {previous : Option (List Str)} (hsub : childrenAt root current = some sub)
    (hrow : IsRow rest) (hfuel : rest.length ≤ fuel) :
    (walk root fuel rest current previous).map (endKind root) = walked sub (rest.splitOn '/') ∧
      ∀ sTemp current' previous',
        walk root fuel rest current previous = .ok (some (sTemp, current', previous')) →
          current' ++ [sTemp] = current ++ rest.splitOn '/' := by
  -- Each step of the walk takes one part off the row, so its length is fuel enough.
  induction fuel generalizing rest current previous sub with
  | zero =>
    obtain rfl := List.length_eq_zero_iff.1 (Nat.le_zero.1 hfuel)
    exact absurd rfl (hrow [] (by simp))
  | succ fuel ih =>
    unfold walk
    split
    · next hs =>
      have hone := List.splitOn_eq_singleton (splitOnce_eq_none.1 hs)
      rw [hone]
      refine ⟨congrArg Except.ok (childKind_of_childrenAt hsub), ?_⟩
      rintro _ _ _ ⟨⟩
      rfl
    · next rest' hs =>
      obtain ⟨rfl, -⟩ := splitOnce_eq_some.1 hs
      exact absurd rfl (hrow [] (by rw [List.nil_append, List.splitOn_cons_eq_if_modifyHead]; simp))
    · next sTemp rest' hne hs =>
      obtain ⟨rfl, hn⟩ := splitOnce_eq_some.1 hs
      have hsplit := List.splitOn_append_cons_self_of_not_mem hn rest'
      have hrow' : IsRow rest' := fun part hp => hrow part (hsplit ▸ List.mem_cons_of_mem _ hp)
      have hlen : rest'.length ≤ fuel := by
        rw [List.length_append, List.length_cons] at hfuel
        omega
      have hparts : rest'.splitOn '/' ≠ [] := List.splitOn_ne_nil _ _
      rw [hsplit, childKind_of_childrenAt hsub]
      rcases hps : rest'.splitOn '/' with - | ⟨q, qs⟩
      · exact absurd hps hparts
      rcases hl : sub.lookup sTemp with - | ⟨info, sub'⟩ | ⟨m, mt⟩
      · refine ⟨?_, nofun⟩
        rw [walked, hl]
        · rfl
        · exact List.cons_ne_nil q qs
      · obtain ⟨hwalk, hends⟩ :=
          @ih sub' (current ++ [sTemp]) rest' (some current) (childrenAt_concat hsub hl) hrow' hlen
        refine ⟨?_, fun sTemp' current' previous' hw => ?_⟩
        · rw [walked, hl, ← hps]
          · exact hwalk
          · exact List.cons_ne_nil q qs
        · rw [hends sTemp' current' previous' hw, hps, List.append_assoc, List.singleton_append]
      · refine ⟨?_, nofun⟩
        rw [walked, hl]
        · rfl
        · exact List.cons_ne_nil q qs

/-- What is resolved in the folder before the last slash is resolved at the path. -/
theorem resolvedChild_eq {kind : ResolvedKind} {sTemp : Str}
    (h : current ++ [sTemp] = path.splitOn '/') :
    resolvedChild kind current sTemp = resolvedAt path kind := by
  rcases kind
  · rw [resolvedChild, resolvedAt, h]
  · rw [resolvedChild, resolvedAt, streamTreePath_eq, h, List.intercalate_splitOn]

variable {t : FolderTree}

/-- A walk for a row caches the folder that is spelled out before its last slash. -/
theorem walkResolve_row {sDirName last : Str} (hrow : IsRow path)
    (hr : rsplitOnce '/' path = some (sDirName, last)) :
    (t.walkResolve path false sDirName).1 = t.walkedPath path ∧
      ((t.walkResolve path false sDirName).2 = t ∨
        (t.walkResolve path false sDirName).2 =
          t.remember sDirName (some (sDirName.splitOn '/'))) := by
  obtain ⟨hwalk, hends⟩ :=
    @walk_row t.children t.children [] path path.length none rfl hrow le_rfl
  unfold FolderTree.walkResolve walkedPath
  rw [← hwalk]
  rcases hw : walk t.children path.length path [] none with e | ended
  · exact ⟨rfl, .inl rfl⟩
  rcases ended with - | ⟨sTemp, current, previous⟩
  · exact ⟨rfl, .inl rfl⟩
  have hpath : current ++ [sTemp] = path.splitOn '/' := hends sTemp current previous hw
  have hdir : current = sDirName.splitOn '/' := by
    rw [splitOn_rsplitOnce hr] at hpath
    exact (List.append_inj' hpath rfl).1
  simp only [Except.map, endKind, Option.bind_some]
  rw [if_neg Bool.false_ne_true]
  rcases childKind t.children current sTemp with - | kind
  · exact ⟨rfl, .inl rfl⟩
  · exact ⟨congrArg (fun r => Except.ok (some r)) (resolvedChild_eq hpath), .inr (by rw [hdir])⟩

/-- The children of a folder that is there. -/
theorem childrenAt_of_kindAt {parts : List Str} (h : t.kindAt parts = some .folder) :
    ∃ sub, childrenAt t.children parts = some sub := by
  rw [kindAt, view, viewAt, Option.map_map, Option.map_eq_some_iff] at h
  obtain ⟨node, hnode, hkind⟩ := h
  rcases node with ⟨info, sub⟩ | ⟨m, mt⟩
  · exact ⟨sub, childrenAt_eq_some.2 ⟨info, hnode⟩⟩
  · cases hkind

namespace Fresh

variable {t' : FolderTree}

/-- A cache with entries of a fresh one, and others that spell out their keys. -/
theorem of_recent (ht : t.Fresh) (hs : t'.Sound)
    (h : ∀ p ∈ t'.recent, p ∈ t.recent ∨ (IsRow p.1 → p.2 = p.1.splitOn '/')) : t'.Fresh where
  toSound := hs
  spells p hp := (h p hp).elim (ht.spells p) id

theorem remember (ht : t.Fresh) {sDirName : Str}
    (hs : (t.remember sDirName (some (sDirName.splitOn '/'))).Sound) :
    (t.remember sDirName (some (sDirName.splitOn '/'))).Fresh := by
  refine ht.of_recent hs fun p hp => ?_
  rcases Assoc.mem_assign hp with rfl | hp
  · exact .inr fun _ => rfl
  · exact .inl hp

theorem forgotten (ht : t.Fresh) (sDirName : Str) : (t.forgotten sDirName).Fresh :=
  ht.of_recent (ht.toSound.of_recent fun _ hp => .inl (Assoc.mem_of_mem_forget hp))
    fun _ hp => .inl (Assoc.mem_of_mem_forget hp)

/-- A walk for a row leaves the cache fresh. -/
theorem walkResolve (ht : t.Fresh) {sDirName last : Str} (hrow : IsRow path)
    (hr : rsplitOnce '/' path = some (sDirName, last)) :
    (t.walkResolve path false sDirName).2.Fresh := by
  have hs := (ht.toSound.walkResolve path false sDirName).sound
  rcases (@walkResolve_row path t sDirName last hrow hr).2 with h | h
  · rw [h]
    exact ht
  · rw [h] at hs ⊢
    exact ht.remember hs

/-- Resolving a row finds what a walk finds, and leaves the cache fresh. -/
theorem resolve (ht : t.Fresh) (hrow : IsRow path) :
    (t.resolve path).1 = t.walkedPath path ∧ (t.resolve path).2.Fresh := by
  have hslash : path ≠ ascii "/" := fun h => hrow [] (by rw [h]; decide) rfl
  have hempty : path.isEmpty = false := by
    rcases path with - | ⟨c, cs⟩
    · exact absurd rfl (hrow [] (by simp))
    · rfl
  unfold FolderTree.resolve
  rw [if_neg hslash, hempty, if_neg Bool.false_ne_true]
  rcases hr : rsplitOnce '/' path with - | ⟨sDirName, last⟩
  · have hone := splitOn_of_rsplitOnce_none hr
    refine ⟨?_, ht⟩
    simp only [walkedPath, hone, walked, Except.map, Option.map_map]
    congr 2
    funext node
    exact resolvedChild_eq (by rw [hone]; rfl)
  have hsplit := splitOn_rsplitOnce hr
  have hlast : last.isEmpty = false := by
    rcases last with - | ⟨c, cs⟩
    · exact absurd rfl (hrow [] (by rw [hsplit]; simp))
    · rfl
  have hwalk := (@walkResolve_row path t sDirName last hrow hr).1
  rcases hc : t.recent.lookup sDirName with - | cached
  · simp only [hc, hlast]
    exact ⟨hwalk, ht.walkResolve hrow hr⟩
  have hmem := Assoc.mem_of_lookup hc
  have hdir : IsRow sDirName := fun part hp => hrow part (hsplit ▸ List.mem_append_left _ hp)
  have hcached : cached = sDirName.splitOn '/' := ht.spells _ hmem hdir
  simp only [hc, hlast, Bool.false_eq_true, if_false]
  -- A hit is what the walk would have found; a miss walks, with the entry forgotten.
  obtain ⟨sub, hsub⟩ := childrenAt_of_kindAt (ht.recent _ hmem)
  rcases hk : childKind t.children cached last with - | kind
  · exact ⟨(@walkResolve_row path (t.forgotten sDirName) sDirName last hrow hr).1,
      (ht.forgotten sDirName).walkResolve hrow hr⟩
  · refine ⟨?_, ht⟩
    have hpath : cached ++ [last] = path.splitOn '/' := by rw [hcached, hsplit]
    rw [walkedPath, ← hpath, walked_concat hsub, ← childKind_of_childrenAt hsub, hk]
    exact congrArg (fun r => Except.ok (some r)) (resolvedChild_eq hpath)

/-- The containing folder of a member is spelled out before its last slash. -/
theorem walkContainingFolder_row {name sDirName last : Str}
    (hr : rsplitOnce '/' name = some (sDirName, last)) (hdir : IsRow sDirName) :
    walkContainingFolder name = sDirName.splitOn '/' := by
  rw [walkContainingFolder, hr]
  refine List.takeWhile_eq_self_iff.2 fun part hp => ?_
  rw [decide_eq_true_eq, List.isEmpty_iff]
  exact hdir part hp

/-- An insertion seeds the cache with what the name spells out. -/
theorem insert (ht : t.Fresh) {name : Str} (h : t.insert name = .ok t') : t'.Fresh := by
  refine ht.of_recent (ht.toSound.insert h) fun p hp => ?_
  obtain ⟨children, -, h⟩ := Except.bind_eq_ok.1 h
  simp only at h
  split at h
  · next sDirName last hr =>
    split at h
    · rcases h with ⟨⟩
      exact .inl hp
    · rcases h with ⟨⟩
      rcases Assoc.mem_assign hp with rfl | hp
      · exact .inr (walkContainingFolder_row hr)
      · exact .inl hp
  · rcases h with ⟨⟩
    exact .inl hp

end Fresh

theorem fromZipNames_fresh {names : List Str} (h : fromZipNames names = .ok t) : t.Fresh := by
  unfold fromZipNames at h
  induction names using List.reverseRecOn generalizing t with
  | nil =>
    rcases h with ⟨⟩
    exact { toSound := .empty, spells := fun _ hp => absurd hp List.not_mem_nil }
  | append_singleton names name ih =>
    rw [List.foldlM_append] at h
    obtain ⟨t₁, h₁, h⟩ := Except.bind_eq_ok.1 h
    have hins : t₁.insert name >>= pure = .ok t := h
    rw [bind_pure] at hins
    exact (ih h₁).insert hins

/-- A call of `resolve` does not change the tree that is walked. -/
theorem Fresh.walkedPath_resolve (ht : t.Fresh) (path path' : Str) :
    (t.resolve path).2.walkedPath path' = t.walkedPath path' := by
  rw [walkedPath, (ht.toSound.resolve path).children, walkedPath]

/-- Resolving rows on a fresh tree finds what walks find. -/
theorem Fresh.resolveAll (ht : t.Fresh) {paths : List Str} (hrows : ∀ path ∈ paths, IsRow path) :
    t.resolveAll paths = paths.map t.walkedPath := by
  induction paths generalizing t with
  | nil => rfl
  | cons path paths ih =>
    obtain ⟨hresult, hfresh⟩ := ht.resolve (hrows path List.mem_cons_self)
    rw [FolderTree.resolveAll, hresult, ih hfresh fun p hp => hrows p (List.mem_cons_of_mem _ hp),
      List.map_cons]
    congr 1
    exact List.map_congr_left fun p _ => ht.walkedPath_resolve path p

end

variable {t : FolderTree}

/-- On the tree of a package, calls for rows that are no folders find, in any order, what
    walks of the tree find. -/
theorem resolveAll_eq {names paths : List Str} (h : fromZipNames names = .ok t)
    (hrows : ∀ path ∈ paths, ∀ part ∈ path.splitOn '/', part ≠ []) :
    t.resolveAll paths = paths.map t.walkedPath :=
  (fromZipNames_fresh h).resolveAll hrows

/-- A row that a walk finds, and then a hit; and one that goes through a stream. -/
theorem resolveAll_sample :
    ∃ t, fromZipNames [ascii "a/b/c", ascii "a/d"] = .ok t ∧
      t.resolveAll [ascii "a/d", ascii "a/b/c", ascii "a/b", ascii "a/d/e", ascii "a/x"] =
        [.ok (some ⟨.stream, ascii "a/d"⟩), .ok (some ⟨.stream, ascii "a/b/c"⟩),
          .ok (some ⟨.folder, ascii "a/b/"⟩), .error .streamAsFolder, .ok none] := by
  refine ⟨_, rfl, ?_⟩
  exact @resolveAll_eq _ [ascii "a/b/c", ascii "a/d"] _ rfl (by decide)

end FolderTree

end OdfCrypto
