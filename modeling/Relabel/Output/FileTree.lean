import Relabel.Output.Sink

set_option autoImplicit false

namespace Relabel

structure FileTree where
  rootLength : Nat := 0
  nodes : List (List String × Option Bytes) := []

namespace FileTree

def maxPart : Nat := 255
def maxPath : Nat := 4095

def refusal : Fault := .io "cannot create"

def pathLength (tree : FileTree) (path : List String) : Nat :=
  (path.map fun part => part.utf8ByteSize + 1).foldl (· + ·) tree.rootLength

def accepts (tree : FileTree) (path : List String) : Bool :=
  path.all (fun part => !part.toList.contains '\x00') && tree.pathLength path ≤ maxPath

def makeBelow (made : List String) : List String → EStateM Fault FileTree Unit
  | [], tree => .ok () tree
  | part :: rest, tree =>
    let path := made ++ [part]
    match tree.nodes.lookup path with
    | some none => makeBelow path rest tree
    | some (some _) => .error refusal tree
    | none =>
      if maxPart < part.utf8ByteSize then .error refusal tree
      else makeBelow path rest { tree with nodes := tree.nodes ++ [(path, none)] }

def makeDirectories (path : List String) : EStateM Fault FileTree Unit := fun tree =>
  if tree.accepts path then makeBelow [] path tree else .error refusal tree

def writeFile (path : List String) (file : String) (data : Bytes) :
    EStateM Fault FileTree Unit := fun tree =>
  let full := path ++ [file]
  if !tree.accepts full || maxPart < file.utf8ByteSize then .error refusal tree
  else
    match tree.nodes.lookup full with
    | some none => .error refusal tree
    | some (some _) =>
      .ok () { tree with
        nodes := tree.nodes.map fun node => if node.1 = full then (full, some data) else node }
    | none => .ok () { tree with nodes := tree.nodes ++ [(full, some data)] }

def writeClass (name : Name) (data : Bytes) : EStateM Fault FileTree Unit := fun tree =>
  match Path.parts name with
  | .error e => .error e tree
  | .ok (directories, file) =>
    match makeDirectories directories tree with
    | .error e tree => .error e tree
    | .ok _ tree => writeFile directories file data tree

def listing (tree : FileTree) : List (String × Option Bytes) :=
  (tree.nodes.map fun (path, data) =>
    let text := "/".intercalate path
    (if data.isNone then text ++ "/" else text, data)).mergeSort fun a b => a.1 ≤ b.1

end FileTree

namespace Sink

def directory : Sink FileTree where
  write := FileTree.writeClass

end Sink

end Relabel
