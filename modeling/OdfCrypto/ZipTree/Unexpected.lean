import OdfCrypto.ZipTree

/-!
# What a package should not have

`look_unexpected` says whether some node of a tree, at any depth, breaks a rule: the
rule of the root's `META-INF`, or the one of everywhere else.

* `Inside`: a node of a tree, with the folders it is in and its own name;
* `BreaksRule`: the rules;
* `FolderTree.hasUnexpectedOdf12Streams_iff`: some node inside the tree breaks its rule.
-/

namespace OdfCrypto

open Text

/-- A node below some children, in the folders `parents`, under the name `short`. -/
inductive Inside : Children → (parents : List Str) → (short : Str) → TreeNode → Prop
  | child {children : Children} {short : Str} {node : TreeNode} (h : (short, node) ∈ children) :
      Inside children [] short node
  | deeper {children sub : Children} {part short : Str} {info : FolderMeta} {parents : List Str}
      {node : TreeNode} (h : (part, TreeNode.folder info sub) ∈ children)
      (hsub : Inside sub parents short node) : Inside children (part :: parents) short node

/-- Whether a node, in the folders `parents`, should not be there. -/
def BreaksRule (isWholesome : Bool) (parents : List Str) (short : Str) : TreeNode → Prop
  | .folder _ _ =>
    if parents = [ascii "META-INF"] then True
    else isWholesome = true ∧ short ≠ ascii "META-INF"
  | .stream fromManifest _ =>
    if parents = [ascii "META-INF"] then
      short ≠ ascii "manifest.xml" ∧ ¬ ascii "signatures" <:+: short
    else
      isWholesome = true ∧ short ≠ ascii "mimetype" ∧ short ≠ ascii "encrypted-package" ∨
        fromManifest = false ∧ ¬ (parents = [] ∧ short = ascii "mimetype")

/-- The path of a folder, as `look_unexpected` builds it. -/
def folderPath (parents : List Str) : Str := parents.flatMap fun part => part ++ ['/']

theorem folderPath_concat {parents : List Str} {part : Str} :
    folderPath (parents ++ [part]) = folderPath parents ++ part ++ ['/'] := by
  rw [folderPath, List.flatMap_append, List.flatMap_singleton, ← List.append_assoc, folderPath]

/-- Each folder on the way has a slash in the path. -/
theorem count_folderPath (parents : List Str) :
    parents.length ≤ (folderPath parents).count '/' := by
  induction parents with
  | nil => exact Nat.zero_le _
  | cons part parents ih =>
    rw [folderPath, List.flatMap_cons, List.count_append, List.count_append, ← folderPath,
      List.length_cons, List.count_singleton_self]
    omega

/-- Only the root's `META-INF` has its path. -/
theorem folderPath_eq_metaInf {parents : List Str} :
    folderPath parents = ascii "META-INF/" ↔ parents = [ascii "META-INF"] := by
  constructor
  · intro h
    have hcount := count_folderPath parents
    rw [h] at hcount
    rcases parents with _ | ⟨part, _ | ⟨part', parents⟩⟩
    · exact absurd h (by decide)
    · have hpart : part ++ ['/'] = ascii "META-INF" ++ ['/'] := by
        rw [folderPath, List.flatMap_singleton] at h
        exact h
      rw [List.append_cancel_right hpart]
    · have : (ascii "META-INF/").count '/' = 1 := by decide
      rw [this, List.length_cons, List.length_cons] at hcount
      omega
  · rintro rfl
    rfl

theorem folderPath_eq_nil {parents : List Str} : folderPath parents = [] ↔ parents = [] := by
  constructor
  · intro h
    have hcount := count_folderPath parents
    rw [h, List.count_nil] at hcount
    exact List.length_eq_zero_iff.1 (Nat.le_zero.1 hcount)
  · rintro rfl
    rfl

/-! ### Nodes at any depth -/

/-- The induction over a tree: a folder after its children. -/
theorem TreeNode.induct {motive : TreeNode → Prop}
    (folder : ∀ info children, (∀ child ∈ children, motive child.2) → motive (.folder info children))
    (stream : ∀ fromManifest mediaType, motive (.stream fromManifest mediaType)) :
    ∀ node, motive node
  | .folder info children => folder info children fun child _ =>
    TreeNode.induct folder stream child.2
  | .stream fromManifest mediaType => stream fromManifest mediaType
termination_by node => sizeOf node
decreasing_by
  have hlt := List.sizeOf_lt_of_mem ‹child ∈ children›
  rcases child with ⟨part, node⟩
  simp only [Prod.mk.sizeOf_spec, TreeNode.folder.sizeOf_spec] at hlt ⊢
  omega

/-- Some node inside has a property: a child has it, or some node below a child. -/
theorem exists_inside_iff {children : Children} {p : List Str → Str → TreeNode → Prop} :
    (∃ parents short node, Inside children parents short node ∧ p parents short node) ↔
      ∃ child ∈ children, p [] child.1 child.2 ∨ ∃ info sub, child.2 = .folder info sub ∧
        ∃ parents short node, Inside sub parents short node ∧ p (child.1 :: parents) short node := by
  constructor
  · rintro ⟨parents, short, node, hin, hp⟩
    rcases hin with hmem | ⟨hmem, hsub⟩
    · exact ⟨(short, node), hmem, .inl hp⟩
    · exact ⟨_, hmem, .inr ⟨_, _, rfl, _, short, node, hsub, hp⟩⟩
  · rintro ⟨⟨part, node⟩, hmem, hp | ⟨info, sub, rfl, parents, short, node, hsub, hp⟩⟩
    · exact ⟨[], part, node, .child hmem, hp⟩
    · exact ⟨part :: parents, short, node, .deeper hmem hsub, hp⟩

section

variable {isWholesome : Bool}

theorem lookUnexpected_iff_child {path : Str} {children : Children} :
    lookUnexpected path isWholesome children = true ↔
      ∃ child ∈ children, nodeUnexpected path isWholesome child.1 child.2 = true := by
  induction children with
  | nil => exact ⟨nofun, fun ⟨_, hmem, _⟩ => absurd hmem List.not_mem_nil⟩
  | cons child rest ih =>
    rcases child with ⟨part, node⟩
    rw [lookUnexpected, Bool.or_eq_true, ih, List.exists_mem_cons_iff, childUnexpected]

/-- A stream is unexpected if it breaks its rule. -/
theorem streamUnexpected_iff {parents : List Str} {short : Str} {fromManifest : Bool}
    {mediaType : Option Str} :
    nodeUnexpected (folderPath parents) isWholesome short (.stream fromManifest mediaType) = true ↔
      BreaksRule isWholesome parents short (.stream fromManifest mediaType) := by
  unfold nodeUnexpected BreaksRule
  by_cases h : parents = [ascii "META-INF"]
  · rw [if_pos (folderPath_eq_metaInf.2 h)]
    simp only [if_pos h, Bool.and_eq_true, bne_iff_ne, Bool.not_eq_true', decide_eq_false_iff_not]
  · rw [if_neg (mt folderPath_eq_metaInf.1 h)]
    simp only [if_neg h, Bool.or_eq_true, Bool.and_eq_true, bne_iff_ne, Bool.not_eq_true', and_assoc,
      List.isEmpty_eq_false_iff, ne_eq, folderPath_eq_nil, not_and_or]

/-- A node is unexpected if it breaks its rule, or some node below it does. -/
theorem nodeUnexpected_iff (node : TreeNode) (parents : List Str) (short : Str) :
    nodeUnexpected (folderPath parents) isWholesome short node = true ↔
      BreaksRule isWholesome parents short node ∨ ∃ info sub, node = .folder info sub ∧
        ∃ rel short' node', Inside sub rel short' node' ∧
          BreaksRule isWholesome (parents ++ short :: rel) short' node' := by
  induction node using TreeNode.induct generalizing parents short with
  | stream fromManifest mediaType =>
    rw [streamUnexpected_iff]
    exact ⟨.inl, fun h => h.elim id nofun⟩
  | folder info sub ih =>
    -- What is unexpected below a folder is unexpected in one of its children.
    have hbelow : lookUnexpected (folderPath parents ++ short ++ ['/']) isWholesome sub = true ↔
        ∃ rel short' node', Inside sub rel short' node' ∧
          BreaksRule isWholesome (parents ++ short :: rel) short' node' := by
      rw [← folderPath_concat, lookUnexpected_iff_child, exists_inside_iff]
      refine exists_congr fun child => and_congr_right fun hmem => ?_
      rw [ih child hmem]
      simp only [List.append_assoc, List.cons_append, List.nil_append]
    -- The folder itself breaks the rule by its own name or by that of its parents.
    have hself : (folderPath parents == ascii "META-INF/" ||
        (isWholesome && short != ascii "META-INF")) = true ↔
          BreaksRule isWholesome parents short (.folder info sub) := by
      rw [Bool.or_eq_true, beq_iff_eq, folderPath_eq_metaInf, Bool.and_eq_true, bne_iff_ne]
      unfold BreaksRule
      split_ifs with h
      · exact ⟨fun _ => trivial, fun _ => .inl h⟩
      · exact or_iff_right h
    rw [nodeUnexpected, Bool.or_eq_true, hself, hbelow]
    refine or_congr_right ⟨fun h => ⟨info, sub, rfl, h⟩, ?_⟩
    rintro ⟨info', sub', heq, h⟩
    obtain ⟨rfl, rfl⟩ := TreeNode.folder.inj heq
    exact h

/-- The look for streams and folders that a package should not have is exact. -/
theorem FolderTree.hasUnexpectedOdf12Streams_iff (t : FolderTree) (isWholesome : Bool) :
    t.hasUnexpectedOdf12Streams isWholesome = true ↔
      ∃ parents short node, Inside t.children parents short node ∧
        BreaksRule isWholesome parents short node := by
  have hroot : folderPath [] = [] := rfl
  rw [FolderTree.hasUnexpectedOdf12Streams, ← hroot, lookUnexpected_iff_child, exists_inside_iff]
  refine exists_congr fun child => and_congr_right fun _ => ?_
  rw [nodeUnexpected_iff]
  rfl

end

end OdfCrypto
