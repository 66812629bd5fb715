import Branchwise.Guard.Expr
import Branchwise.Json.Basic

/-!
# Errors

The causes for which an operation of the library gives no result, and their messages.  Names that a
message shows are kept as they were stored, since a stored name may be any value.
-/

namespace Branchwise

inductive ModelFault where
  | nodeKind (shown : String)
  | complexity (function : Json) (value : Scalar)
  | enumerator (enum name value : Json)
  | noAggregate (name : String)
  | selfContaining (chain : List String)
  | unsized (kind : String) (aggregate member type : Json)
deriving Repr, Inhabited

namespace ModelFault

def message : ModelFault → String
  | nodeKind shown => "bad AST node kind in " ++ shown
  | complexity function value =>
    function.plain ++ ": cyclomatic complexity must be >= 1, got " ++ value.text
  | enumerator enum name value =>
    "enum " ++ enum.plain ++ ": cannot evaluate " ++ name.plain ++ " = " ++ value.display
  | noAggregate name => "no struct or union named " ++ Text.quote name
  | selfContaining chain => "aggregate contains itself by value: " ++ Text.join " -> " chain
  | unsized kind aggregate member type =>
    kind ++ " " ++ aggregate.plain ++ ": cannot size member " ++ member.display ++ " of type "
      ++ type.display

end ModelFault

inductive FileFault where
  | missing
  | directory
  | notDirectory
  | longName
  | nullByte
deriving DecidableEq, Repr, Inhabited

inductive Error where
  | guard (e : GuardError)
  | model (fault : ModelFault)
  | aliasCycle (chain : List String)
  | sourceNotFound (path : String)
  | functionNotFound (name : Json)
  | entityNotFound (kind : String) (name : Json)
  | settings (problems : List String)
  | solver
  | otherVariable (left right : Json)
  | badAlias (user : String) (base : Json)
  | coverage (shown : String)
  | notReal (text : String)
  | notInteger (text : String)
  /-- An integer with too many digits to be read, or, without their number, to be written. -/
  | longInteger (digits : Option Nat)
  | negativeShift
  | nanToInteger
  | overflow
  | memory
  | missingField (key : String)
  | unknownWord (word : Json) (kind : String)
  | exhausted
  /-- A variable of a query whose name is neither a text nor an integer. -/
  | badName
  | missingNode (key : Json)
  | mistyped
  | notRecord
  | file (fault : FileFault)
deriving Repr, Inhabited

namespace Error

def message : Error → String
  | guard e => e.message
  | model fault => fault.message
  | aliasCycle chain => "typedef cycle: " ++ Text.join " -> " chain
  | sourceNotFound path => "source file not found: " ++ Text.quote path
  | functionNotFound name => "function not found: " ++ name.display
  | entityNotFound kind name => kind ++ " not found: " ++ name.display
  | settings problems => "invalid configuration: " ++ Text.join "; " problems
  | otherVariable left right =>
    "cannot intersect constraints on " ++ left.display ++ " and " ++ right.display
  | badAlias user base => "invalid typedef " ++ Text.quote user ++ " -> " ++ base.display
  | coverage shown => "target coverage must be in (0, 1], got " ++ shown
  | notReal text => "could not convert string to float: " ++ Text.quote text
  | notInteger text =>
    "invalid literal for int() with base 10: " ++ String.ofList ((Text.quote text).toList.take 200)
  | longInteger digits =>
    "Exceeds the limit (4300 digits) for integer string conversion"
      ++ (digits.map fun n => s!": value has {n} digits").getD ""
      ++ "; use sys.set_int_max_str_digits() to increase the limit"
  | negativeShift => "negative shift count"
  | nanToInteger => "cannot convert float NaN to integer"
  | missingField key => Text.quote key
  | unknownWord word kind => word.display ++ " is not a valid " ++ kind
  | missingNode key => key.display
  | file .nullByte => "embedded null byte"
  | solver | overflow | memory | exhausted | badName | mistyped | notRecord | file _ => ""

end Error

/-- The text of a number; an integer has to be one that can be written. -/
def Scalar.write : Scalar → Except Error String
  | .int n => if Number.isWritable n then .ok (toString n) else .error (.longInteger none)
  | x => .ok x.text

/-- The text of a value, as `Json.plain` gives it; an integer has to be one that can be written. -/
def Json.write : Json → Except Error String
  | .int n => (Scalar.int n).write
  | j => .ok j.plain

end Branchwise
