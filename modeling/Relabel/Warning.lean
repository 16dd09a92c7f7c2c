import Relabel.Constant.Tag
import Relabel.Name

set_option autoImplicit false

namespace Relabel

inductive Warning where
  | sharedName (index : Nat) (held used other : Name)
  | renamedApart (index : Nat) (held one other : Name)
  | unknownMode (value : String)
deriving DecidableEq

namespace Warning

def text : Warning → String
  | .sharedName index held used other =>
    s!"{EntryKind.text.describe index} '{held.display}' is shared by members that rename " ++
      s!"differently ('{used.display}', '{other.display}'); using '{used.display}'"
  | .renamedApart index held one other =>
    s!"{EntryKind.text.describe index} '{held.display}' is the simple name of inner classes " ++
      s!"renamed apart ('{one.display}', '{other.display}'); keeping it"
  | .unknownMode value => s!"ignoring unknown CLASSREMAP_ATTRIBUTES value '{value}'"

end Warning

end Relabel
