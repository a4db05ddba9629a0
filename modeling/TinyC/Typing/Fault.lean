import TinyC.Operator
import TinyC.Token

/-!
# What can be wrong with a program

The reasons for which the analysis of a program stops, each with its code and its wording. A
`Fault` is a reason and the number of the token that it is reported at.
-/

namespace TinyC.Typing

/-- Why a program is rejected. -/
inductive Cause where
  /-- None of these kinds of tokens stands here. -/
  | expected (want : List Kind)
  | alreadyDeclared (name : String)
  | functionDeclared (name : String)
  | notDeclared (name : String)
  | functionNotDeclared (name : String)
  | notVariable (name : String)
  | initialType (type : Ty) (name : String) (found : Ty)
  | assignedType (found type : Ty) (name : String)
  | returnedType (found : Ty) (function : String) (type : Ty)
  | argumentType (number : Nat) (function : String) (found type : Ty)
  | comparedTypes (left : Ty) (op : RelOp) (right : Ty)
  | operandTypes (left : Ty) (op : ArithOp) (right : Ty)
  | conditionType (found : Ty)
  | negatedType (found : Ty)
  | castTypes (source target : Ty)
  | assignedConstant (name : String)
  | notInitialized (name : String)
  | constantNeedsValue (name : String)
  | returnsVoid (function : String)
  | mustReturn (function : String) (type : Ty)
  | missingReturn (function : String)
  | breakOutsideLoop
  | continueOutsideLoop
  | tooManyArguments (function : String) (want : Nat)
  | notEnoughArguments (function : String) (want : Nat)
  deriving Repr, DecidableEq

namespace Cause

/-- The code under which a reason is reported. -/
def code : Cause → Code
  | expected _ => .expectedToken
  | alreadyDeclared _ | functionDeclared _ => .duplicateDeclaration
  | notDeclared _ | functionNotDeclared _ => .notDeclared
  | notVariable _ => .notAVariable
  | initialType .. | assignedType .. | returnedType .. | argumentType .. | comparedTypes ..
  | operandTypes .. | conditionType _ | negatedType _ => .typeMismatch
  | castTypes .. => .invalidCast
  | assignedConstant _ => .assignToConstant
  | notInitialized _ => .notInitialized
  | constantNeedsValue _ => .constantNeedsValue
  | returnsVoid _ | mustReturn .. => .invalidReturn
  | missingReturn _ => .missingReturn
  | breakOutsideLoop => .breakOutsideLoop
  | continueOutsideLoop => .continueOutsideLoop
  | tooManyArguments .. | notEnoughArguments .. => .argumentCount

/-- How a token that should not stand there is named. -/
def foundText (t : Token) : String :=
  if t.kind = .eof then "EOF" else t.kind.name ++ " " ++ Text.quoted t.spelling

/-- The wording of a reason; `t` is the token that it is reported at. -/
def message (t : Token) : Cause → String
  | expected want => Diagnostic.expectedMessage (want.map Kind.name) (foundText t)
  | alreadyDeclared x => Text.quoted x ++ " is already declared"
  | functionDeclared f => "function " ++ Text.quoted f ++ " is already declared"
  | notDeclared x => Text.quoted x ++ " is not declared"
  | functionNotDeclared f => "function " ++ Text.quoted f ++ " is not declared"
  | notVariable x => Text.quoted x ++ " is not a variable"
  | initialType type x found =>
    "cannot initialize " ++ type.name ++ " " ++ Text.quoted x ++ " with a value of type "
      ++ found.name
  | assignedType found type x =>
    "cannot assign " ++ found.name ++ " to " ++ type.name ++ " " ++ Text.quoted x
  | returnedType found f type =>
    "cannot return " ++ found.name ++ " from function " ++ Text.quoted f ++ " returning "
      ++ type.name
  | argumentType n f found type =>
    "argument " ++ toString n ++ " to " ++ Text.quoted f ++ " has type " ++ found.name ++ ", want "
      ++ type.name
  | comparedTypes l op r => "cannot compare " ++ l.name ++ " " ++ op.symbol ++ " " ++ r.name
  | operandTypes l op r => "invalid operation " ++ l.name ++ " " ++ op.symbol ++ " " ++ r.name
  | conditionType found => "condition has type " ++ found.name
  | negatedType found => "cannot negate " ++ found.name
  | castTypes source target => "cannot cast " ++ source.name ++ " to " ++ target.name
  | assignedConstant x => "cannot assign to constant " ++ Text.quoted x
  | notInitialized x => Text.quoted x ++ " is used before it is assigned"
  | constantNeedsValue x => "constant " ++ Text.quoted x ++ " must be initialized"
  | returnsVoid f => "function " ++ Text.quoted f ++ " returns void"
  | mustReturn f type => "function " ++ Text.quoted f ++ " must return a " ++ type.name
  | missingReturn f => "function " ++ Text.quoted f ++ " does not return a value on every path"
  | breakOutsideLoop => "break is not in a loop"
  | continueOutsideLoop => "continue is not in a loop"
  | tooManyArguments f n => "too many arguments to " ++ Text.quoted f ++ ", want " ++ toString n
  | notEnoughArguments f n => "not enough arguments to " ++ Text.quoted f ++ ", want " ++ toString n

end Cause

/-- A reason, and the number of the token that it is reported at. -/
structure Fault where
  cause : Cause
  ord : Nat
  deriving Repr, DecidableEq

/-- The diagnostic for a fault at a token. Where the grammar allows none of the tokens there and
the token is no token at all, the diagnostic is the token's own. -/
def Fault.diagnostic (f : Fault) (t : Token) : Diagnostic :=
  match f.cause, t.value with
  | .expected _, .fault d => d
  | cause, _ => ⟨cause.code, t.pos, cause.message t⟩

end TinyC.Typing
