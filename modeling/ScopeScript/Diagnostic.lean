set_option autoImplicit false

namespace ScopeScript

inductive FunctionKind where
  | function
  | method
  deriving DecidableEq

def FunctionKind.word : FunctionKind → String
  | .function => "function"
  | .method => "method"

inductive Jump where
  | leave
  | next
  deriving DecidableEq

def Jump.word : Jump → String
  | .leave => "break"
  | .next => "continue"

inductive LexicalFault where
  | unexpectedCharacter (c : Char)
  | unterminatedString
  deriving DecidableEq

def LexicalFault.message : LexicalFault → String
  | .unexpectedCharacter c => "Unexpected character: " ++ c.toString
  | .unterminatedString => "Unterminated string."

inductive ImportFault where
  | missingPath
  | unterminatedPath
  | unreadable (path reason : String)
  deriving DecidableEq

def ImportFault.message : ImportFault → String
  | .missingPath => "Expect path string after 'import'."
  | .unterminatedPath => "Unterminated import path."
  | .unreadable path reason => "Could not import '" ++ path ++ "': " ++ reason

inductive Expectation where
  | expression
  | groupingEnd
  | argumentsEnd
  | propertyName
  | superDot
  | superMethod
  | expressionEnd
  | printEnd
  | returnEnd
  | variableName
  | variableEnd
  | jumpEnd (jump : Jump)
  | ifStart
  | ifEnd
  | whileStart
  | whileEnd
  | forStart
  | forConditionEnd
  | forEnd
  | blockEnd
  | functionName (kind : FunctionKind)
  | parametersStart (kind : FunctionKind)
  | parameterName
  | parametersEnd
  | bodyStart (kind : FunctionKind)
  | className
  | superclassName
  | classStart
  | classEnd
  deriving DecidableEq

def Expectation.text : Expectation → String
  | .expression => "expression"
  | .groupingEnd => "')' after expression"
  | .argumentsEnd => "')' after arguments"
  | .propertyName => "property name after '.'"
  | .superDot => "'.' after 'super'"
  | .superMethod => "superclass method name"
  | .expressionEnd => "';' after expression"
  | .printEnd => "';' after value"
  | .returnEnd => "';' after return value"
  | .variableName => "variable name"
  | .variableEnd => "';' after variable declaration"
  | .jumpEnd jump => "';' after '" ++ jump.word ++ "'"
  | .ifStart => "'(' after 'if'"
  | .ifEnd => "')' after if condition"
  | .whileStart => "'(' after 'while'"
  | .whileEnd => "')' after condition"
  | .forStart => "'(' after 'for'"
  | .forConditionEnd => "';' after loop condition"
  | .forEnd => "')' after for clauses"
  | .blockEnd => "'\x7d' after block"
  | .functionName kind => kind.word ++ " name"
  | .parametersStart kind => "'(' after " ++ kind.word ++ " name"
  | .parameterName => "parameter name"
  | .parametersEnd => "')' after parameters"
  | .bodyStart kind => "'\x7b' before " ++ kind.word ++ " body"
  | .className => "class name"
  | .superclassName => "superclass name"
  | .classStart => "'\x7b' before class body"
  | .classEnd => "'\x7d' after class body"

inductive SyntaxFault where
  | expected (what : Expectation)
  | invalidAssignmentTarget
  | tooManyArguments
  | tooManyParameters
  | outsideLoop (jump : Jump)
  deriving DecidableEq

def SyntaxFault.message : SyntaxFault → String
  | .expected what => "Expect " ++ what.text ++ "."
  | .invalidAssignmentTarget => "Invalid assignment target."
  | .tooManyArguments => "Cannot have more than 255 arguments."
  | .tooManyParameters => "Cannot have more than 255 parameters."
  | .outsideLoop jump => "Must be inside a loop to use '" ++ jump.word ++ "'."

inductive ScopeFault where
  | redeclared
  | readInOwnInitializer
  | returnAtTopLevel
  | returnValueFromInitializer
  | inheritsFromItself
  | thisOutsideClass
  | superOutsideClass
  | superWithoutSuperclass
  deriving DecidableEq

def ScopeFault.message : ScopeFault → String
  | .redeclared => "Variable with this name already declared in this scope."
  | .readInOwnInitializer => "Cannot read local variable in its own initializer."
  | .returnAtTopLevel => "Cannot return from top-level code."
  | .returnValueFromInitializer => "Cannot return a value from an initializer."
  | .inheritsFromItself => "A class cannot inherit from itself."
  | .thisOutsideClass => "Cannot use 'this' outside of a class."
  | .superOutsideClass => "Cannot use 'super' outside of a class."
  | .superWithoutSuperclass => "Cannot use 'super' in a class with no superclass."

inductive RuntimeFault where
  | undefinedVariable (name : String)
  | undefinedProperty (name : String)
  | operandNotNumber
  | operandsNotNumbers
  | operandsNotAddable
  | notCallable
  | wrongArity (expected got : Nat)
  | superclassNotClass
  | propertyOfNonInstance
  | fieldOfNonInstance
  | invalidSuper
  | native (message : String)
  deriving DecidableEq

def RuntimeFault.message : RuntimeFault → String
  | .undefinedVariable name => "Undefined variable '" ++ name ++ "'."
  | .undefinedProperty name => "Undefined property '" ++ name ++ "'."
  | .operandNotNumber => "Operand must be a number."
  | .operandsNotNumbers => "Operands must be numbers."
  | .operandsNotAddable => "Operands must be two numbers or two strings."
  | .notCallable => "Can only call functions and classes."
  | .wrongArity expected got =>
    "Expected " ++ expected.repr ++ " arguments but got " ++ got.repr ++ "."
  | .superclassNotClass => "Superclass must be a class."
  | .propertyOfNonInstance => "Only instances have properties."
  | .fieldOfNonInstance => "Only instances have fields."
  | .invalidSuper => "Invalid use of 'super'."
  | .native message => message

/-- Where a fault of the program's form was noticed: at a lexeme, or at the end of the text. -/
structure Place where
  line : Nat
  lexeme : Option String
  deriving DecidableEq

def Place.text (place : Place) : String :=
  match place.lexeme with
  | none => " at end"
  | some lexeme => " at '" ++ lexeme ++ "'"

inductive Diagnostic where
  | lexical (line : Nat) (fault : LexicalFault)
  | syntactic (place : Place) (fault : SyntaxFault)
  | scoping (place : Place) (fault : ScopeFault)
  | importing (line : Nat) (fault : ImportFault)
  | runtime (line : Nat) (fault : RuntimeFault)
  | output (reason : String)
  deriving DecidableEq

namespace Diagnostic

def line? : Diagnostic → Option Nat
  | .lexical line _ | .importing line _ | .runtime line _ => some line
  | .syntactic place _ | .scoping place _ => some place.line
  | .output _ => none

def isCompileTime : Diagnostic → Bool
  | .lexical .. | .syntactic .. | .scoping .. | .importing .. => true
  | .runtime .. | .output _ => false

def render : Diagnostic → String
  | .lexical line fault => "[line " ++ line.repr ++ "] Error: " ++ fault.message
  | .importing line fault => "[line " ++ line.repr ++ "] Error: " ++ fault.message
  | .syntactic place fault =>
    "[line " ++ place.line.repr ++ "] Error" ++ place.text ++ ": " ++ fault.message
  | .scoping place fault =>
    "[line " ++ place.line.repr ++ "] Error" ++ place.text ++ ": " ++ fault.message
  | .runtime line fault => "[line " ++ line.repr ++ "] Runtime Error: " ++ fault.message
  | .output reason => reason

end Diagnostic

end ScopeScript
