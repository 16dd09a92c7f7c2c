import Relabel.Name

set_option autoImplicit false

namespace Relabel

structure Shape where
  ancestors : List Name := []
  methods : List (Name × Name) := []
deriving DecidableEq, Inhabited

namespace Shape

def declares (shape : Shape) (name descriptor : Name) : Bool :=
  shape.methods.contains (name, descriptor)

def addMethod (shape : Shape) (name descriptor : Name) : Shape :=
  if shape.declares name descriptor then shape
  else { shape with methods := shape.methods ++ [(name, descriptor)] }

def superName? (shape : Shape) : Option Name := shape.ancestors.head?

def overloads (shape : Shape) (name : Name) : List Name :=
  (shape.methods.filter (·.1 = name)).map (·.2)

def methodCount (shape : Shape) : Nat := shape.methods.length

end Shape

end Relabel
