import Testwright.Surface.Member

namespace Testwright

/-!
The surface of a class: what its tests need to know of it.
-/

structure ClassSurface where
  name : Text
  package : Option Text
  /-- The imported names in source order, `static` in front of a static one. -/
  imports : List Text
  constructors : List Constructor
  methods : List Method

namespace ClassSurface

/-- The class of this name in no package, with nothing in it. -/
def named (name : Text) : ClassSurface where
  name := name
  package := none
  imports := []
  constructors := []
  methods := []

/-- The name with the package in front, if there is one. -/
def qualifiedName (surface : ClassSurface) : Text :=
  match surface.package with
  | some package => package ++ '.' :: surface.name
  | none => surface.name

/-- The place in the list of constructors of the one that a test should call:
the first that is not private, else the first.  A class without constructors
has the implied one without parameters. -/
def preferredIndex? (surface : ClassSurface) : Option Nat :=
  (surface.constructors.findIdx? fun constructor =>
      constructor.visibility != Visibility.privateAccess).or
    (if surface.constructors.isEmpty then none else some 0)

/-- The constructor that a test should call. -/
def preferredConstructor? (surface : ClassSurface) : Option Constructor :=
  (surface.constructors.find? fun constructor =>
      constructor.visibility != Visibility.privateAccess).or
    surface.constructors.head?

/-- The methods of a name in source order, each with its place among all
methods. -/
def overloads (surface : ClassSurface) (name : Text) : List (Method × Nat) :=
  surface.methods.zipIdx.filter fun entry => entry.1.name == name

end ClassSurface
end Testwright
