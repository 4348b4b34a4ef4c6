import ScopeScript.Bindings
import ScopeScript.Decimal.Notation
import ScopeScript.Decimal.Numeral
import ScopeScript.Decimal.Remainder
import ScopeScript.Syntax.Tree
import ScopeScript.Text.Blank

set_option autoImplicit false

namespace ScopeScript

/-- A scope and those around it, each by its address in the store, from the inside out. -/
structure Environment where
  innermost : Nat
  outer : List Nat
  deriving DecidableEq

namespace Environment

def root : Environment := ⟨0, []⟩

def chain (env : Environment) : List Nat :=
  env.innermost :: env.outer

def ancestor : Environment → Nat → Environment
  | env, 0 => env
  | ⟨a, []⟩, _ + 1 => ⟨a, []⟩
  | ⟨_, a :: outer⟩, distance + 1 => ancestor ⟨a, outer⟩ distance

end Environment

structure Closure where
  identity : Nat
  declaration : FunctionDecl
  environment : Environment
  isInitializer : Bool

structure Method where
  declaration : FunctionDecl
  environment : Environment

structure ClassLayer where
  identity : Nat
  name : String
  methods : Bindings Method

/-- A class and the classes above it, the nearest first. -/
structure Class where
  own : ClassLayer
  above : List ClassLayer

structure Instance where
  address : Nat
  ofClass : Class

inductive NativeBody where
  | clock
  | tick
  | read
  | typeOf
  | greet
  | host (slot : Nat)
  deriving DecidableEq

structure Native where
  identity : Nat
  name : String
  arity : Nat
  body : NativeBody
  deriving DecidableEq

inductive Value where
  | nil
  | bool (value : Bool)
  | number (value : Float)
  | string (contents : String)
  | function (f : Closure)
  | native (f : Native)
  | class (c : Class)
  | instance (i : Instance)

namespace Closure

def name (f : Closure) : String := f.declaration.name.text

def arity (f : Closure) : Nat := f.declaration.parameters.length

end Closure

namespace Class

def name (c : Class) : String := c.own.name

def layers (c : Class) : List ClassLayer :=
  c.own :: c.above

def method? (c : Class) (name : String) : Option Method :=
  c.layers.findSome? fun layer => layer.methods.get? name

def arity (c : Class) : Nat :=
  match c.method? "init" with
  | some init => init.declaration.parameters.length
  | none => 0

end Class

namespace Value

def isTruthy : Value → Bool
  | .nil => false
  | .bool value => value
  | _ => true

def typeName : Value → String
  | .nil => "nil"
  | .bool _ => "boolean"
  | .number _ => "number"
  | .string _ => "string"
  | .function _ | .native _ => "function"
  | .class _ => "class"
  | .instance _ => "instance"

/-- Literals are equal by value, where not-a-number equals itself, and all else by identity. -/
def equals : Value → Value → Bool
  | .nil, .nil => true
  | .bool a, .bool b => a == b
  | .number a, .number b => a == b || (a.isNaN && b.isNaN)
  | .string a, .string b => a == b
  | .function a, .function b => a.identity == b.identity
  | .native a, .native b => a.identity == b.identity
  | .class a, .class b => a.own.identity == b.own.identity
  | .instance a, .instance b => a.address == b.address
  | _, _ => false

/-- A whole number below `10 ^ 15` is written as one, which spares the search for digits. -/
def numberText (x : Float) : String :=
  match Binary64.integral? x with
  | some (negative, n) =>
    if n < Decimal.wholeLimit then
      if negative && n == 0 then "-0" else toString (Binary64.truncate x)
    else Decimal.plain x
  | none => Decimal.plain x

def text : Value → String
  | .nil => "nil"
  | .bool true => "true"
  | .bool false => "false"
  | .number value => numberText value
  | .string contents => contents
  | .function f => "<fn " ++ f.name ++ ">"
  | .native f => "<native fn " ++ f.name ++ ">"
  | .class c => c.name
  | .instance i => i.ofClass.name ++ " instance"

def ofInput (input : String) : Value :=
  let trimmed := Text.trim input.toList
  match Numeral.read? trimmed with
  | some x => .number x
  | none =>
    let word := String.ofList (trimmed.map Char.toLower)
    if word = "true" then .bool true
    else if word = "false" then .bool false
    else .string input

end Value

def Literal.toValue : Literal → Value
  | .nil => .nil
  | .bool value => .bool value
  | .number value => .number value
  | .string contents => .string contents

def UnaryOp.apply : UnaryOp → Value → Except RuntimeFault Value
  | .not, v => .ok (.bool !v.isTruthy)
  | .negate, .number x => .ok (.number (-x))
  | .negate, _ => .error .operandNotNumber

/-- Numbers are added and strings joined. Beside a string any value but `nil` counts as its text. -/
def Value.plus : Value → Value → Except RuntimeFault Value
  | .number a, .number b => .ok (.number (a + b))
  | .nil, _ | _, .nil => .error .operandsNotAddable
  | .string a, b => .ok (.string (a ++ b.text))
  | a, .string b => .ok (.string (a.text ++ b))
  | _, _ => .error .operandsNotAddable

def Value.onNumbers (f : Float → Float → Value) : Value → Value → Except RuntimeFault Value
  | .number a, .number b => .ok (f a b)
  | _, _ => .error .operandsNotNumbers

def BinaryOp.apply : BinaryOp → Value → Value → Except RuntimeFault Value
  | .add, a, b => a.plus b
  | .equal, a, b => .ok (.bool (a.equals b))
  | .notEqual, a, b => .ok (.bool !(a.equals b))
  | .subtract, a, b => Value.onNumbers (fun x y => .number (x - y)) a b
  | .multiply, a, b => Value.onNumbers (fun x y => .number (x * y)) a b
  | .divide, a, b => Value.onNumbers (fun x y => .number (x / y)) a b
  | .remainder, a, b => Value.onNumbers (fun x y => .number (Binary64.remainder x y)) a b
  | .greater, a, b => Value.onNumbers (fun x y => .bool (decide (x > y))) a b
  | .greaterEqual, a, b => Value.onNumbers (fun x y => .bool (decide (x ≥ y))) a b
  | .less, a, b => Value.onNumbers (fun x y => .bool (decide (x < y))) a b
  | .lessEqual, a, b => Value.onNumbers (fun x y => .bool (decide (x ≤ y))) a b

end ScopeScript
