import Relabel.Pool.Fact
import Relabel.Pool.NameTable

set_option autoImplicit false

namespace Relabel

inductive AttributeMode where
  | interpret
  | pass
deriving DecidableEq, Inhabited

structure Reading where
  cursor : Cursor
  facts : Array Fact

abbrev Survey := EStateM Fault Reading

instance : MonadLift Read Survey where
  monadLift act := fun r =>
    match act r.cursor with
    | .ok a cursor => .ok a { r with cursor }
    | .error e cursor => .error e { r with cursor }

instance : MonadLift (Except Fault) Survey where
  monadLift
    | .ok a => fun r => .ok a r
    | .error e => fun r => .error e r

namespace Survey

def note (fact : Fact) : Survey Unit :=
  modify fun r => { r with facts := r.facts.push fact }

def within {α : Type} (length : Nat) (act : Survey α) : Survey α := fun r =>
  match Read.split length r.cursor with
  | .error e cursor => .error e { r with cursor }
  | .ok part cursor =>
    match act { r with cursor := part } with
    | .ok a r => .ok a { r with cursor }
    | .error e r => .error e r

end Survey

end Relabel
