import ChunkGuard.Tool

/-!
# The command line

Runs the tool on the files of the machine: what the arguments lead to is loaded into a file tree,
the tool runs on that tree, and the files that it made or changed are written back. There is no
disk usage program to ask here.
-/

namespace ChunkGuard.CommandLine

/-- Loads what names lead to from a place, with the directories and links on the way. -/
def loadFrom (tree : FileTree) (place : Place) : List String → IO FileTree
  | [] => return tree
  | name :: rest => do
    if name = "" ∨ name = "." then loadFrom tree place rest
    else if name = ".." then loadFrom tree place.dropLast rest
    else
      let here := place ++ [name]
      let path := FileTree.pathOf here
      let real ← try some <$> IO.FS.realPath path catch _ => pure none
      match real with
      | none => return tree
      | some real =>
        let target := (FileTree.names real.toString).filter (· ≠ "")
        let tree := if target = here then tree else tree.put here (.link real.toString)
        if ← real.isDir then loadFrom (tree.put target .directory) target rest
        else
          let bytes ← try some <$> IO.FS.readBinFile real catch _ => pure none
          return bytes.elim tree fun bytes => tree.put target (.file (.ofBytes bytes.toList))

/-- Loads what a path leads to. -/
def load (tree : FileTree) (path : String) : IO FileTree :=
  loadFrom tree (if FileTree.isAbsolute path then [] else tree.current) (FileTree.names path)

/-- The tree with the current directory and those that it is in. -/
def emptyTree : IO FileTree := do
  let current := (FileTree.names (← IO.currentDir).toString).filter (· ≠ "")
  let nodes := (List.range current.length).map fun n => (current.take (n + 1), Node.directory)
  return { nodes, current }

/-- Writes the files that differ from those of an earlier tree. -/
def writeChanges (before after : FileTree) : IO Unit :=
  after.nodes.forM fun (place, node) => do
    match node with
    | .file content =>
      let bytes := Content.toBytes content
      if before.bytes? place ≠ some bytes then
        IO.FS.writeBinFile (FileTree.pathOf place) bytes.toByteArray
    | _ => return

/-- Runs the tool on a line of arguments. -/
def run (arguments : List String) : IO UInt32 := do
  let paths := arguments.flatMap fun path => [path, path ++ Tool.extension]
  let tree ← paths.foldlM load (← emptyTree)
  let result := Tool.run arguments tree none
  writeChanges tree result.tree
  (← IO.getStdout).write result.output.toByteArray
  (← IO.getStdout).flush
  IO.eprint (result.console ++ result.errors)
  return UInt32.ofNat result.exit

end ChunkGuard.CommandLine

/-- The tool as a program. -/
def main (arguments : List String) : IO UInt32 := ChunkGuard.CommandLine.run arguments
