import Testwright.Surface.TypeTree
import Testwright.Surface.Visibility

namespace Testwright

/-!
The members of a class that a test needs to know: constructors, methods, and
what a method throws.  Names and types of parameters are lists of their own, in
declaration order.  A reader of sources keeps them equally long; a stored
surface may not, and then the shorter list decides what the parameters are.
-/

/-- An entry of a `throws` clause, with its identifier token. -/
structure ThrownType where
  name : Text
  token : Text

/-- The thrown type of this name. -/
def ThrownType.named (name : Text) : ThrownType where
  name := name
  token := Token.simple name

structure Constructor where
  visibility : Visibility
  parameterNames : List Text
  parameterTypes : List TypeTree

namespace Constructor

/-- The constructor of this visibility without parameters. -/
def bare (visibility : Visibility) : Constructor where
  visibility := visibility
  parameterNames := []
  parameterTypes := []

/-- The parameters as pairs. -/
def parameters (constructor : Constructor) : List (Text × TypeTree) :=
  constructor.parameterNames.zip constructor.parameterTypes

def withParameters (constructor : Constructor) (parameters : List (Text × TypeTree)) :
    Constructor :=
  { constructor with
    parameterNames := parameters.map Prod.fst
    parameterTypes := parameters.map Prod.snd }

end Constructor

structure Method where
  name : Text
  visibility : Visibility
  isStatic : Bool
  /-- A method without a return type is void. -/
  returnType : Option TypeTree
  parameterNames : List Text
  parameterTypes : List TypeTree
  throws : List ThrownType
  /-- Whether the method reads or writes a private field that its name implies. -/
  isAccessor : Bool

namespace Method

/-- The public void method of this name without parameters. -/
def named (name : Text) : Method where
  name := name
  visibility := Visibility.publicAccess
  isStatic := false
  returnType := none
  parameterNames := []
  parameterTypes := []
  throws := []
  isAccessor := false

def isVoid (method : Method) : Bool :=
  method.returnType.isNone

/-- The parameters as pairs. -/
def parameters (method : Method) : List (Text × TypeTree) :=
  method.parameterNames.zip method.parameterTypes

def withParameters (method : Method) (parameters : List (Text × TypeTree)) : Method :=
  { method with
    parameterNames := parameters.map Prod.fst
    parameterTypes := parameters.map Prod.snd }

end Method
end Testwright
