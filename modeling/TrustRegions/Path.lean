import TrustRegions.Bytes

/-!
Paths as they are written. The normal form of a path names the same place with no component that a
later one takes back, and without looking at any file.
-/

namespace TrustRegions.Path

def here : Bytes := ascii "."

def up : Bytes := ascii ".."

def components (path : Bytes) : List Bytes := (path.pieces (byte '/')).filter (· ≠ [])

def isRooted (path : Bytes) : Bool := path.head? == some (byte '/')

def enter (rooted : Bool) (done : List Bytes) (component : Bytes) : List Bytes :=
  if component = here then done
  else if component = up then
    match done with
    | [] => if rooted then [] else [up]
    | last :: rest => if last = up then up :: done else rest
  else component :: done

def collapse (rooted : Bool) (components : List Bytes) : List Bytes :=
  (components.foldl (enter rooted) []).reverse

def isName (component : Bytes) : Bool := component != here && component != up

def namesFolder (path : Bytes) : Bool :=
  path.getLast? == some (byte '/') || (components path).getLast?.any fun c => !isName c

def folder (path : Bytes) : Bytes :=
  let upToSlash := path.reverse.dropWhile (· ≠ byte '/')
  let bare := (upToSlash.dropWhile (· = byte '/')).reverse
  if bare.isEmpty && isRooted path then [byte '/'] else bare

def maxName : Nat := 255

def maxLength : Nat := 4095

def normal (path : Bytes) : Bytes :=
  let names := collapse (isRooted path) (components path)
  let joined := (names.intersperse [byte '/']).flatten
  let root := if isRooted path then [byte '/'] else []
  if path.isEmpty then []
  else if names.isEmpty then (if isRooted path then root else here)
  else if namesFolder path && names.getLast? != some up then root ++ joined ++ [byte '/']
  else root ++ joined

end TrustRegions.Path
