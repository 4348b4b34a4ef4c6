import ScopeScript.Syntax.Tree

set_option autoImplicit false

namespace ScopeScript

mutual

def Expr.words : Expr → List String
  | .literal _ => []
  | .grouping inner => inner.words
  | .unary _ _ operand => operand.words
  | .binary _ _ left right => left.words ++ right.words
  | .logical _ left right => left.words ++ right.words
  | .var reference => [reference.name.text]
  | .assign reference value => reference.name.text :: value.words
  | .call callee _ arguments => callee.words ++ Expr.wordsAll arguments
  | .get object _ => object.words
  | .set object _ value => object.words ++ value.words
  | .self reference => [reference.name.text]
  | .super reference _ => [reference.name.text]

def Expr.wordsAll : List Expr → List String
  | [] => []
  | e :: rest => e.words ++ Expr.wordsAll rest

end

def Expr.wordsOf (e : Option Expr) : List String :=
  (e.map Expr.words).getD []

mutual

def Stmt.words : Stmt → List String
  | .expression value => value.words
  | .print value => value.words
  | .varDecl name initial => name.text :: Expr.wordsOf initial
  | .block body => Stmt.wordsAll body
  | .ifElse condition consequent none => condition.words ++ consequent.words
  | .ifElse condition consequent (some alternative) =>
    condition.words ++ (consequent.words ++ alternative.words)
  | .loop condition body step => condition.words ++ (body.words ++ Expr.wordsOf step)
  | .funDecl declaration => declaration.words
  | .classDecl name superclass methods =>
    name.text :: ((superclass.map fun above => above.name.text).toList ++
      FunctionDecl.wordsAll methods)
  | .returning _ value => Expr.wordsOf value
  | .jump _ => []

def Stmt.wordsAll : List Stmt → List String
  | [] => []
  | s :: rest => s.words ++ Stmt.wordsAll rest

def FunctionDecl.words : FunctionDecl → List String
  | .mk name parameters body => name.text :: (parameters.map Name.text ++ Stmt.wordsAll body)

def FunctionDecl.wordsAll : List FunctionDecl → List String
  | [] => []
  | f :: rest => f.words ++ FunctionDecl.wordsAll rest

end

theorem Stmt.wordsAll_append (left right : List Stmt) :
    Stmt.wordsAll (left ++ right) = Stmt.wordsAll left ++ Stmt.wordsAll right := by
  induction left with
  | nil => rfl
  | cons s rest ih => simp [Stmt.wordsAll, ih]

theorem FunctionDecl.wordsAll_append (left right : List FunctionDecl) :
    FunctionDecl.wordsAll (left ++ right) =
      FunctionDecl.wordsAll left ++ FunctionDecl.wordsAll right := by
  induction left with
  | nil => rfl
  | cons f rest ih => simp [FunctionDecl.wordsAll, ih]

end ScopeScript
