import OdfCrypto.Lib.Assoc
import OdfCrypto.Types

/-!
# The folder tree

The tree of `ZipPackage::getZipFileContents` (`zip_tree.rs`): folders are
synthesized from member paths, and `/` always resolves. `recent` is LibreOffice's
`m_aRecent`, a cache from everything before the last `/` of a path to a folder;
inserting a member seeds it with the containing folder, and a folder that is
missed on the way stores the one *above* it.
-/

namespace OdfCrypto

open Text

/-- What the manifest says of a folder. -/
structure FolderMeta where
  mediaType : Option Str := none
  version : Option Str := none
  deriving DecidableEq

/-- A node of the tree. -/
inductive TreeNode
  | folder (info : FolderMeta) (children : List (Str × TreeNode))
  | stream (fromManifest : Bool) (mediaType : Option Str)

/-- The children of a folder. -/
abbrev Children := List (Str × TreeNode)

inductive ResolvedKind
  | folder
  | stream
  deriving DecidableEq

/-- The kind of a node. -/
def TreeNode.kind : TreeNode → ResolvedKind
  | .folder _ _ => .folder
  | .stream _ _ => .stream

/-- The node that a path resolves to. -/
structure Resolved where
  kind : ResolvedKind
  treePath : Str
  deriving DecidableEq

/-- The failure of a lookup or an insertion that goes through a stream. -/
inductive StreamAsFolder
  | streamAsFolder
  deriving DecidableEq

/-- The tree of a package: its root folder, and the cache. -/
structure FolderTree where
  info : FolderMeta := {}
  children : Children := []
  recent : List (Str × List Str) := []

/-- The last part of a folder, empty for the root. -/
def getName (folder : List Str) : Str := folder.getLast?.getD []

def folderTreePath (parts : List Str) : Str :=
  if parts.isEmpty then ascii "/" else ['/'].intercalate parts ++ ['/']

def streamTreePath (folder : List Str) (name : Str) : Str :=
  if folder.isEmpty then name else ['/'].intercalate folder ++ '/' :: name

/-- The children of the folder at some parts. -/
def childrenAt : Children → List Str → Option Children
  | root, [] => some root
  | root, part :: parts =>
    match root.lookup part with
    | some (.folder _ children) => childrenAt children parts
    | _ => none

def childKind (root : Children) (folder : List Str) (name : Str) : Option ResolvedKind := do
  let node ← childrenAt root folder
  let child ← node.lookup name
  return child.kind

/-- Insert a stream, unless its name is empty. -/
def insertStream (children : Children) : Option Str → Except StreamAsFolder Children
  | none => .ok children
  | some [] => .ok children
  | some stream =>
    match children.lookup stream with
    | some (.folder _ _) => .error .streamAsFolder
    | some (.stream _ _) => .ok children
    | none => .ok (Assoc.assign stream (.stream false none) children)

/-- Insert the folders `parts`, up to the first empty one, and the stream there. -/
def insertParts (stream : Option Str) : List Str → Children → Except StreamAsFolder Children
  | [], children => insertStream children stream
  | part :: parts, children =>
    if part.isEmpty then insertStream children stream
    else
      match children.lookup part with
      | some (.stream _ _) => .error .streamAsFolder
      | some (.folder info sub) =>
        (insertParts stream parts sub).map fun sub => Assoc.assign part (.folder info sub) children
      | none =>
        (insertParts stream parts []).map fun sub => Assoc.assign part (.folder {} sub) children

/-- The folder part of a member name and the stream in it: a name that ends in
    `/` names a folder only. -/
def namePath (name : Str) : Str × Option Str :=
  match rsplitOnce '/' name with
  | none => ([], some name)
  | some (dir, stream) =>
    if stream.isEmpty then (name.rdropWhile (· = '/'), none) else (dir, some stream)

/-- Insert a member. -/
def insertPath (root : Children) (name : Str) : Except StreamAsFolder Children :=
  insertParts (namePath name).2 ((namePath name).1.splitOn '/') root

/-- The parts before the last `/`, up to the first empty one. -/
def walkContainingFolder (name : Str) : List Str :=
  match rsplitOnce '/' name with
  | none => []
  | some (dir, _) => (dir.splitOn '/').takeWhile fun part => ¬ part.isEmpty

namespace FolderTree

/-- Insert a member, and seed the cache with its containing folder. -/
def insert (t : FolderTree) (name : Str) : Except StreamAsFolder FolderTree := do
  let children ← insertPath t.children name
  let t := { t with children }
  match rsplitOnce '/' name with
  | some (sDirName, _) =>
    if sDirName.isEmpty ∨ (t.recent.lookup sDirName).isSome then return t
    else return { t with recent := Assoc.assign sDirName (walkContainingFolder name) t.recent }
  | none => return t

def fromZipNames (names : List Str) : Except StreamAsFolder FolderTree :=
  names.foldlM insert {}

def rootHasEntry (t : FolderTree) (name : Str) : Bool := (t.children.lookup name).isSome

def rootHasStream (t : FolderTree) (name : Str) : Bool :=
  match t.children.lookup name with
  | some (.stream _ _) => true
  | _ => false

def rootEntryMediaType (t : FolderTree) (name : Str) : Option Str :=
  match t.children.lookup name with
  | some (.stream _ mediaType) => mediaType
  | some (.folder info _) => info.mediaType
  | none => none

/-- Walk down `rest`, up to its last part or an empty one, from the folder
    `current`, entered from `previous`: where the walk ends, with what of the
    path is left. -/
def walk (root : Children) : ℕ → Str → List Str → Option (List Str) →
    Except StreamAsFolder (Option (Str × List Str × Option (List Str)))
  | 0, rest, current, previous => .ok (some (rest, current, previous))
  | fuel + 1, rest, current, previous =>
    match splitOnce '/' rest with
    | none => .ok (some (rest, current, previous))
    | some ([], _) => .ok (some (rest, current, previous))
    | some (sTemp, rest') =>
      match childKind root current sTemp with
      | some .folder => walk root fuel rest' (current ++ [sTemp]) (some current)
      | some .stream => .error .streamAsFolder
      | none => .ok none

/-- Cache `folder` for `sDirName`, if there is one. -/
def remember (t : FolderTree) (sDirName : Option Str) (folder : Option (List Str)) : FolderTree :=
  match sDirName, folder with
  | some sDirName, some folder => { t with recent := Assoc.assign sDirName folder t.recent }
  | _, _ => t

/-- The result for a child of the folder at `current`. -/
def resolvedChild (kind : ResolvedKind) (current : List Str) (sTemp : Str) : Resolved :=
  match kind with
  | .stream => ⟨.stream, streamTreePath current sTemp⟩
  | .folder => ⟨.folder, folderTreePath (current ++ [sTemp])⟩

/-- Resolve a path from the root. A folder that was walked to caches the folder
    above it. -/
def walkResolve (t : FolderTree) (path : Str) (bFolder : Bool) (sDirName : Option Str) :
    Except StreamAsFolder (Option Resolved) × FolderTree :=
  match walk t.children path.length path [] none with
  | .error e => (.error e, t)
  | .ok none => (.ok none, t)
  | .ok (some (sTemp, current, previous)) =>
    if bFolder then
      (.ok (some ⟨.folder, folderTreePath current⟩), t.remember sDirName previous)
    else
      match childKind t.children current sTemp with
      | some kind => (.ok (some (resolvedChild kind current sTemp)), t.remember sDirName current)
      | none => (.ok none, t)

/-- Resolve a path: by the cache, else by walking from the root. -/
def resolve (t : FolderTree) (path : Str) : Except StreamAsFolder (Option Resolved) × FolderTree :=
  if path = ascii "/" then (.ok (some ⟨.folder, ascii "/"⟩), t)
  else if path.isEmpty then (.ok none, t)
  else
    match rsplitOnce '/' path with
    | none =>
      (.ok ((t.children.lookup path).map fun node => resolvedChild node.kind [] path), t)
    | some (sDirName, last) =>
      match t.recent.lookup sDirName with
      | none => t.walkResolve path last.isEmpty sDirName
      | some cached =>
        if last.isEmpty then
          let sTemp := match rsplitOnce '/' sDirName with
            | none => sDirName
            | some (_, sTemp) => sTemp
          if sTemp = getName cached then (.ok (some ⟨.folder, folderTreePath cached⟩), t)
          else { t with recent := Assoc.forget sDirName t.recent }.walkResolve path true sDirName
        else
          match childKind t.children cached last with
          | some kind => (.ok (some (resolvedChild kind cached last)), t)
          | none =>
            { t with recent := Assoc.forget sDirName t.recent }.walkResolve path false sDirName

/-- The parts of a tree path. -/
def treeParts (treePath : Str) : List Str := (treePath.splitOn '/').filter fun part => ¬ part.isEmpty

/-- Set what is known of the folder at some parts. -/
def setInfoAt (info : FolderMeta) : List Str → Children → Children
  | [], root => root
  | part :: parts, root =>
    match root.lookup part with
    | some (.folder old children) =>
      Assoc.assign part
        (if parts.isEmpty then .folder info children
          else .folder old (setInfoAt info parts children)) root
    | _ => root

/-- Apply what the manifest says of a folder, at a *resolved* tree path. -/
def setFolderMeta (t : FolderTree) (treePath : Str) (mediaType version : Option Str) : FolderTree :=
  if treePath = ascii "/" ∨ treePath.isEmpty ∨ treeParts treePath = [] then
    { t with info := ⟨mediaType, version⟩ }
  else { t with children := setInfoAt ⟨mediaType, version⟩ (treeParts treePath) t.children }

/-- Mark the stream at some parts as one the manifest names. -/
def markAt (mediaType : Option Str) : List Str → Children → Children
  | [], root => root
  | part :: parts, root =>
    match root.lookup part with
    | some (.folder info children) =>
      if parts.isEmpty then root
      else Assoc.assign part (.folder info (markAt mediaType parts children)) root
    | some (.stream _ _) =>
      if parts.isEmpty then Assoc.assign part (.stream true mediaType) root else root
    | none => root

/-- Mark the stream at a *resolved* tree path as one the manifest names. -/
def markFromManifest (t : FolderTree) (treePath : Str) (mediaType : Option Str) : FolderTree :=
  { t with children := markAt mediaType (treeParts treePath) t.children }

end FolderTree

mutual

/-- Whether a folder at `path` holds, at any depth, a stream or a folder that
    the package should not have. -/
def lookUnexpected (path : Str) (isWholesome : Bool) : Children → Bool
  | [] => false
  | child :: rest => childUnexpected path isWholesome child || lookUnexpected path isWholesome rest
termination_by structural children => children

/-- `lookUnexpected` of one child. -/
def childUnexpected (path : Str) (isWholesome : Bool) : Str × TreeNode → Bool
  | (short, node) => nodeUnexpected path isWholesome short node
termination_by structural child => child

/-- `lookUnexpected` of the child `short`. -/
def nodeUnexpected (path : Str) (isWholesome : Bool) (short : Str) : TreeNode → Bool
  | .folder _ children =>
    path == ascii "META-INF/" || (isWholesome && short != ascii "META-INF") ||
      lookUnexpected (path ++ short ++ ['/']) isWholesome children
  | .stream fromManifest _ =>
    if path = ascii "META-INF/" then
      short != ascii "manifest.xml" && !decide (ascii "signatures" <:+: short)
    else
      (isWholesome && short != ascii "mimetype" && short != ascii "encrypted-package") ||
        (!fromManifest && (!path.isEmpty || short != ascii "mimetype"))
termination_by structural node => node

end

/-- `LookForUnexpectedODF12Streams`. -/
def FolderTree.hasUnexpectedOdf12Streams (t : FolderTree) (isWholesome : Bool) : Bool :=
  lookUnexpected [] isWholesome t.children

end OdfCrypto
