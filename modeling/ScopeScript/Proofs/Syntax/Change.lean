import ScopeScript.Proofs.Syntax.Form
import ScopeScript.Proofs.Syntax.Words
import ScopeScript.Scope.Resolution

set_option autoImplicit false

namespace ScopeScript

/-- The old and the new name of a variable. The table has the distances of the references. -/
structure Change where
  table : Resolution
  old : String
  new : String

namespace Change

def name (c : Change) (name : Name) : Name :=
  if name.text = c.old then { name with text := c.new } else name

def declared (c : Change) : Nat → Name → Name
  | 0, name => c.name name
  | _ + 1, name => name

def reference (c : Change) (depth : Nat) (r : Reference) : Reference :=
  if c.table[r.id]? = some depth then { r with name := c.name r.name } else r

end Change

mutual

def Expr.changed (c : Change) (depth : Nat) : Expr → Expr
  | .literal value => .literal value
  | .grouping inner => .grouping (inner.changed c depth)
  | .unary op line operand => .unary op line (operand.changed c depth)
  | .binary op line left right => .binary op line (left.changed c depth) (right.changed c depth)
  | .logical op left right => .logical op (left.changed c depth) (right.changed c depth)
  | .var reference => .var (c.reference depth reference)
  | .assign reference value => .assign (c.reference depth reference) (value.changed c depth)
  | .call callee line arguments =>
    .call (callee.changed c depth) line (Expr.changedAll c depth arguments)
  | .get object name => .get (object.changed c depth) name
  | .set object name value => .set (object.changed c depth) name (value.changed c depth)
  | .self reference => .self (c.reference depth reference)
  | .super reference method => .super (c.reference depth reference) method

def Expr.changedAll (c : Change) (depth : Nat) : List Expr → List Expr
  | [] => []
  | e :: rest => e.changed c depth :: Expr.changedAll c depth rest

end

mutual

def Stmt.changed (c : Change) (depth : Nat) : Stmt → Stmt
  | .expression value => .expression (value.changed c depth)
  | .print value => .print (value.changed c depth)
  | .varDecl name initial => .varDecl (c.declared depth name) (initial.map (Expr.changed c depth))
  | .block body => .block (Stmt.changedAll c (depth + 1) body)
  | .ifElse condition consequent none =>
    .ifElse (condition.changed c depth) (consequent.changed c depth) none
  | .ifElse condition consequent (some alternative) =>
    .ifElse (condition.changed c depth) (consequent.changed c depth)
      (some (alternative.changed c depth))
  | .loop condition body step =>
    .loop (condition.changed c depth) (body.changed c depth) (step.map (Expr.changed c depth))
  | .funDecl declaration => .funDecl (declaration.changed c depth)
  | .classDecl name superclass methods =>
    .classDecl name (superclass.map (c.reference depth))
      (FunctionDecl.changedAll c (depth + if superclass.isSome then 2 else 1) methods)
  | .returning line value => .returning line (value.map (Expr.changed c depth))
  | .jump kind => .jump kind

def Stmt.changedAll (c : Change) (depth : Nat) : List Stmt → List Stmt
  | [] => []
  | s :: rest => s.changed c depth :: Stmt.changedAll c depth rest

def FunctionDecl.changed (c : Change) (depth : Nat) : FunctionDecl → FunctionDecl
  | .mk name parameters body => .mk name parameters (Stmt.changedAll c (depth + 1) body)

def FunctionDecl.changedAll (c : Change) (depth : Nat) : List FunctionDecl → List FunctionDecl
  | [] => []
  | f :: rest => f.changed c depth :: FunctionDecl.changedAll c depth rest

end

mutual

inductive Stmt.Changes (c : Change) : Stmt → Stmt → Prop
  | declared {body name e} : .varDecl name e ∈ body → name.text = c.old →
      Stmt.Changes c (.block body) (.block (Stmt.changedAll c 0 body))
  | block {body body'} : Stmt.AllChanges c body body' → Stmt.Changes c (.block body) (.block body')
  | consequent {s s' e t} : Stmt.Changes c s s' → Stmt.Changes c (.ifElse e s t) (.ifElse e s' t)
  | alternative {t t' e s} : Stmt.Changes c t t' →
      Stmt.Changes c (.ifElse e s (some t)) (.ifElse e s (some t'))
  | loop {s s' e step} : Stmt.Changes c s s' → Stmt.Changes c (.loop e s step) (.loop e s' step)
  | function {f f'} : FunctionDecl.Changes c f f' → Stmt.Changes c (.funDecl f) (.funDecl f')
  | method {f f' name above before after} : FunctionDecl.Changes c f f' →
      Stmt.Changes c (.classDecl name above (before ++ f :: after))
        (.classDecl name above (before ++ f' :: after))

inductive Stmt.AllChanges (c : Change) : List Stmt → List Stmt → Prop
  | statement {s s' before after} : Stmt.Changes c s s' →
      Stmt.AllChanges c (before ++ s :: after) (before ++ s' :: after)

inductive FunctionDecl.Changes (c : Change) : FunctionDecl → FunctionDecl → Prop
  | parameter {parameters name body p} : p ∈ parameters → p.text = c.old →
      FunctionDecl.Changes c (.mk name parameters body)
        (.mk name (parameters.map c.name) (Stmt.changedAll c 0 body))
  | declared {name parameters body inner e} : .varDecl inner e ∈ body → inner.text = c.old →
      FunctionDecl.Changes c (.mk name parameters body)
        (.mk name parameters (Stmt.changedAll c 0 body))
  | body {body body' name parameters} : Stmt.AllChanges c body body' →
      FunctionDecl.Changes c (.mk name parameters body) (.mk name parameters body')

end

-- The old name is one that a program can declare.

mutual

theorem Stmt.Changes.ordinary {c : Change} : ∀ {s s' : Stmt}, Stmt.Changes c s s' →
    s.WellFormed → c.old ≠ "this" ∧ c.old ≠ "super"
  | .block body, _, .declared mem same, formed =>
    have declared : Stmt.AllWellFormed body := formed
    same ▸ (declared.of_mem mem).1
  | _, _, .block h, formed => h.ordinary formed
  | .ifElse _ _ none, _, .consequent h, formed => h.ordinary formed.2.1
  | .ifElse _ _ (some _), _, .consequent h, formed => h.ordinary formed.2.1.1
  | _, _, .alternative h, formed => h.ordinary formed.2.2.1
  | _, _, .loop h, formed => h.ordinary formed.2.1.1
  | _, _, .function h, formed => h.ordinary formed
  | .classDecl .., _, .method h, formed => h.ordinary (formed.2.2.of_mem (by simp))

theorem Stmt.AllChanges.ordinary {c : Change} : ∀ {body body' : List Stmt},
    Stmt.AllChanges c body body' → Stmt.AllWellFormed body → c.old ≠ "this" ∧ c.old ≠ "super"
  | _, _, .statement h, formed => h.ordinary (formed.of_mem (by simp))

theorem FunctionDecl.Changes.ordinary {c : Change} : ∀ {f f' : FunctionDecl},
    FunctionDecl.Changes c f f' → f.WellFormed → c.old ≠ "this" ∧ c.old ≠ "super"
  | .mk .., _, .parameter mem same, formed => same ▸ formed.2.1 _ mem
  | .mk .., _, .declared mem same, formed => same ▸ (formed.2.2.of_mem mem).1
  | .mk .., _, .body h, formed => h.ordinary formed.2.2

end

end ScopeScript
