import Relabel.ClassFile.Survey
import Relabel.Text.Blank
import Relabel.Text.Split
import Relabel.Warning

set_option autoImplicit false

namespace Relabel

structure Settings where
  platform : List String := ["java/", "javax/"]
  attributes : AttributeMode := .interpret
deriving DecidableEq

namespace Settings

def isPlatform (settings : Settings) (name : Name) : Bool :=
  settings.platform.any fun start => name.startsWith (Text.Utf8.encode start)

def parseList (text : String) : List String :=
  (((Text.split ',' text.toList).map Text.trim).filter (!·.isEmpty)).map String.ofList

def parseMode? (text : String) : Option AttributeMode :=
  let word := String.ofList ((Text.trim text.toList).map Char.toLower)
  if word = "passthrough" ∨ word = "copy" then some .pass
  else if word = "rewrite" ∨ word = "aware" then some .interpret
  else none

def ofEnvironment (platform attributes : Option String) : Settings × List Warning :=
  let settings : Settings :=
    match platform.map parseList with
    | some (first :: rest) => { platform := first :: rest }
    | _ => {}
  match attributes with
  | none => (settings, [])
  | some text =>
    match parseMode? text with
    | some mode => ({ settings with attributes := mode }, [])
    | none => (settings, [.unknownMode text])

end Settings

end Relabel
