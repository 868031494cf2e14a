import TrustRegions.CommandLine

/-!
The program: reads the files that its arguments name, and prints what there is to say about them.
-/

namespace TrustRegions

def contents? (path : String) : IO (Option Bytes) := do
  let handle ← IO.FS.Handle.mk path .read
  try
    return some (← handle.readBinToEnd).toList
  catch _ => return none

def load (tree : FileTree) (path : String) : IO FileTree := do
  let name := path.toUTF8.toList
  try
    match ← contents? path with
    | some content => return tree.write name content
    | none => return tree.makeFolder name
  catch _ => return tree

end TrustRegions

def main (args : List String) : IO UInt32 := do
  let mut tree : TrustRegions.FileTree := {}
  for path in ".collab" :: ".collab/config.json" :: ".collab/trust.json" :: args do
    tree ← TrustRegions.load tree path
  let out := TrustRegions.CommandLine.run tree (args.map fun a => a.toUTF8.toList)
  (← IO.getStderr).write out.stderr.toByteArray
  (← IO.getStdout).write out.stdout.toByteArray
  return out.exit.toUInt32
