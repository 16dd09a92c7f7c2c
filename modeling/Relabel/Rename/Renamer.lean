import Relabel.TypeText.Descriptor
import Relabel.TypeText.Signature

set_option autoImplicit false

namespace Relabel

structure Renamer where
  class? : Name → Option Name
  field? : (owner name descriptor : Name) → Option Name
  method? : (owner name descriptor : Name) → Option Name
  module? : Name → Option Name
  package? : Name → Option Name

namespace Renamer

variable (r : Renamer)

/-- A class name inside a descriptor. An array cannot be named there, so what looks like one is
kept. -/
def elementClass (name : Name) : Name :=
  if name.isArray then name else (r.class? name).getD name

def descriptor (d : Name) : Name := Descriptor.rename r.elementClass d

def className (name : Name) : Name :=
  if name.isArray then r.descriptor name else (r.class? name).getD name

def signature (s : Name) : Except Fault Name := Signature.rename r.className s

def field (owner name descriptor : Name) : Name := (r.field? owner name descriptor).getD name

def method (owner name descriptor : Name) : Name :=
  if name.isSpecial then name else (r.method? owner name descriptor).getD name

def moduleName (name : Name) : Name := (r.module? name).getD name

def packageName (name : Name) : Name := (r.package? name).getD name

end Renamer

end Relabel
