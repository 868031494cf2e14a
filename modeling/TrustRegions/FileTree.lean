import TrustRegions.Path

/-!
Files and folders. A path is followed from the root or from the working folder, component by
component, each of which but the last must be a folder. Paths are followed up to a zero byte.
-/

namespace TrustRegions

abbrev Location := List Bytes

namespace Location

/-- Stands for a name that is not known. It is that of no component, for it has a slash. -/
def unknownName : Bytes := [byte '/']

def working : Location := [unknownName, unknownName]

def start (path : Bytes) : Location := if Path.isRooted path then [] else working

def enter (l : Location) (component : Bytes) : Location := Path.enter true l component

end Location

structure FileTree where
  files : List (Location × Bytes) := []
  folders : List Location := []

/-- What a path stands for in a tree: a place if the path begins at the root or with something that
exists, and no more than its normal form if not. -/
inductive FileKey where
  | located (place : Location) (asFolder : Bool)
  | spelled (path : Bytes)
deriving DecidableEq, Repr

namespace FileTree

inductive Miss where
  | absent
  | tooLong
deriving DecidableEq, Repr

def isFolder (t : FileTree) (l : Location) : Bool :=
  l.isSuffixOf Location.working || t.folders.contains l

def content? (t : FileTree) (l : Location) : Option Bytes :=
  (t.files.find? fun f => f.1 == l).map (·.2)

def contains (t : FileTree) (l : Location) : Bool := t.isFolder l || (t.content? l).isSome

def isEmptyFolder (t : FileTree) (l : Location) : Bool :=
  t.isFolder l && (t.files.map (·.1) ++ t.folders).all fun m => m.tail != l

def enter (t : FileTree) (l : Location) (component : Bytes) : Except Miss Location :=
  if !t.isFolder l then .error .absent
  else if Path.maxName < component.length then .error .tooLong
  else if t.contains (l.enter component) then .ok (l.enter component)
  else .error .absent

def locate (t : FileTree) (path : Bytes) : Except Miss Location :=
  let path := path.beforeZero
  if path.isEmpty then .error .absent
  else if Path.maxLength < path.length then .error .tooLong
  else
    match (Path.components path).foldlM t.enter (.start path) with
    | .error e => .error e
    | .ok l => if Path.namesFolder path && !t.isFolder l then .error .absent else .ok l

def locate? (t : FileTree) (path : Bytes) : Option Location := (t.locate path).toOption

def read? (t : FileTree) (path : Bytes) : Option Bytes :=
  (t.locate? path).map fun l => (t.content? l).getD []

def follow (t : FileTree) (l : Location) : List Bytes → Location × List Bytes
  | [] => (l, [])
  | c :: rest =>
    match t.enter l c with
    | .ok l => t.follow l rest
    | .error _ => (l, c :: rest)

def makeWay (t : FileTree) (l : Location) : List Bytes → FileTree
  | [] => t
  | c :: rest =>
    match t.enter l c with
    | .ok l => makeWay t l rest
    | .error .tooLong => t
    | .error .absent =>
      if t.isFolder l then makeWay { t with folders := l.enter c :: t.folders } (l.enter c) rest
      else t

def maxMade : Nat := 1000

def makeFolder (t : FileTree) (path : Bytes) : FileTree :=
  let path := path.beforeZero
  let (l, missing) := t.follow (.start path) (Path.components path)
  if Path.maxLength < path.length || maxMade < missing.countP Path.isName then t
  else t.makeWay l missing

def putFile (t : FileTree) (folder : Location) (name content : Bytes) : FileTree :=
  let l := folder.enter name
  if !t.isFolder folder || Path.maxName < name.length || t.isFolder l then t
  else { t with files := (l, content) :: t.files.filter fun f => f.1 != l }

def write (t : FileTree) (path content : Bytes) : FileTree :=
  let t := t.makeFolder (Path.folder path)
  let path := path.beforeZero
  let components := Path.components path
  if Path.maxLength < path.length || Path.namesFolder path then t
  else
    match components.dropLast.foldlM t.enter (.start path), components.getLast? with
    | .ok folder, some name => t.putFile folder name content
    | _, _ => t

def remove? (t : FileTree) (path : Bytes) : Option FileTree :=
  (t.locate? path).bind fun l =>
    if (t.content? l).isSome then some { t with files := t.files.filter fun f => f.1 != l }
    else if (Path.components path.beforeZero).getLast?.any Path.isName && t.isEmptyFolder l then
      some { t with folders := t.folders.filter (· != l) }
    else none

def settle (t : FileTree) (l : Location) (components : List Bytes) : Location :=
  let (l, missing) := t.follow l components
  missing.foldl Location.enter l

def startsInTree (t : FileTree) (path : Bytes) : Bool :=
  Path.isRooted path ||
    (Path.components path).head?.any fun c => (t.enter (.start path) c).toOption.isSome

/-- The key of a path: two paths of one existing file have the same. A path that is too long to be
followed goes by its names. -/
def key (t : FileTree) (path : Bytes) : FileKey :=
  let components := Path.components path
  let placed (l : Location) := FileKey.located l (Path.namesFolder path && !l.isEmpty)
  match t.locate path with
  | .ok l => .located l false
  | .error .absent =>
    if t.startsInTree path then placed (t.settle (.start path) components)
    else .spelled (Path.normal path)
  | .error .tooLong =>
    if Path.isRooted path then placed (components.foldl Location.enter [])
    else .spelled (Path.normal path)

end FileTree

end TrustRegions
