import Testwright.Source.Field
import Testwright.Source.Normalized
import Testwright.Source.Parameter
import Testwright.Source.Signature

namespace Testwright
namespace Method

/-!
Methods of a source.

Each signature of the normalized source gives one method, in source order.  How
signatures are found is a parameter of `readWith`; `readAll` is the reading that
this library means.
-/

/-- The types that a `throws` clause names. -/
def thrownTypes (clause : Text) : List ThrownType :=
  let names := (Text.dropKeyword? "throws".toList clause).getD clause
  (((Text.splitOn (· == ',') names).map Text.trim).filter (!·.isEmpty)).map ThrownType.named

/-- The method that a signature of the normalized source declares. -/
def ofSignature (library : PatternLibrary) (policy : ExtractionPolicy) (scope : NameScope)
    (source : Text) (signature : Signature) : Method :=
  let parameters := Parameter.readAll policy scope signature.parameters
  let method : Method := {
    name := signature.name
    visibility := Visibility.ofSignature policy.implicitVisibility signature.heading
    isStatic := (Matcher.blankDelimited "static".toList).occursIn signature.heading
    returnType := TypeTree.read? policy scope signature.returnType
    parameterNames := parameters.map Parameter.name
    parameterTypes := parameters.map Parameter.type
    throws := (signature.throwsClause.map thrownTypes).getD []
    isAccessor := false }
  { method with isAccessor := method.isBacked library source }

/-- The methods of the class in a source, given how signatures are found in a
normalized source for a class name. -/
def readWith (find : Text → Text → List Signature) (library : PatternLibrary)
    (policy : ExtractionPolicy) (surface : ClassSurface) (source : Text) : List Method :=
  let normalized := Text.normalize source
  (find normalized surface.name).map
    (ofSignature library policy (NameScope.ofSurface surface) normalized)

/-- The methods of the class in a source, in source order. -/
def readAll (library : PatternLibrary) (policy : ExtractionPolicy) (surface : ClassSurface)
    (source : Text) : List Method :=
  readWith Signature.findAll library policy surface source

end Method
end Testwright
