import Relabel.Fault
import Relabel.Text.Split

set_option autoImplicit false

namespace Relabel.Path

def isPart (part : List Char) : Bool :=
  !part.isEmpty && part != ['.'] && part != ['.', '.'] && !part.contains '\\'

def parts (name : Name) : Except Fault (List String × String) :=
  let text := name.display
  let parts := Text.split '/' text.toList
  if parts.all isPart then
    .ok (parts.dropLast.map String.ofList, String.ofList (parts.getLast?.getD []) ++ ".class")
  else .error (.invalidOutputName text)

def push (path part : String) : String :=
  if path.isEmpty || path.toList.getLast? == some '/' then path ++ part else path ++ "/" ++ part

def below (root : String) (name : Name) : Except Fault String := do
  let (directories, file) ← parts name
  return (directories ++ [file]).foldl push root

end Relabel.Path
