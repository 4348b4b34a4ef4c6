import ScopeScript.Proofs.Syntax.Numbers

set_option autoImplicit false

namespace ScopeScript

def Name.mapLine (g : Nat → Nat) (name : Name) : Name := ⟨name.text, g name.line⟩

def Reference.mapLine (g : Nat → Nat) (r : Reference) : Reference := ⟨r.id, r.name.mapLine g⟩

mutual

def Expr.mapLines (g : Nat → Nat) : Expr → Expr
  | .literal value => .literal value
  | .grouping inner => .grouping (inner.mapLines g)
  | .unary op line operand => .unary op (g line) (operand.mapLines g)
  | .binary op line left right => .binary op (g line) (left.mapLines g) (right.mapLines g)
  | .logical op left right => .logical op (left.mapLines g) (right.mapLines g)
  | .var reference => .var (reference.mapLine g)
  | .assign reference value => .assign (reference.mapLine g) (value.mapLines g)
  | .call callee line arguments => .call (callee.mapLines g) (g line) (Expr.mapLinesAll g arguments)
  | .get object name => .get (object.mapLines g) (name.mapLine g)
  | .set object name value => .set (object.mapLines g) (name.mapLine g) (value.mapLines g)
  | .self reference => .self (reference.mapLine g)
  | .super reference method => .super (reference.mapLine g) (method.mapLine g)

def Expr.mapLinesAll (g : Nat → Nat) : List Expr → List Expr
  | [] => []
  | e :: rest => e.mapLines g :: Expr.mapLinesAll g rest

end

mutual

def Stmt.mapLines (g : Nat → Nat) : Stmt → Stmt
  | .expression value => .expression (value.mapLines g)
  | .print value => .print (value.mapLines g)
  | .varDecl name initial => .varDecl (name.mapLine g) (initial.map (Expr.mapLines g))
  | .block body => .block (Stmt.mapLinesAll g body)
  | .ifElse condition consequent none =>
    .ifElse (condition.mapLines g) (consequent.mapLines g) none
  | .ifElse condition consequent (some alternative) =>
    .ifElse (condition.mapLines g) (consequent.mapLines g) (some (alternative.mapLines g))
  | .loop condition body step =>
    .loop (condition.mapLines g) (body.mapLines g) (step.map (Expr.mapLines g))
  | .funDecl declaration => .funDecl (declaration.mapLines g)
  | .classDecl name superclass methods =>
    .classDecl (name.mapLine g) (superclass.map (Reference.mapLine g))
      (FunctionDecl.mapLinesAll g methods)
  | .returning line value => .returning (g line) (value.map (Expr.mapLines g))
  | .jump kind => .jump kind

def Stmt.mapLinesAll (g : Nat → Nat) : List Stmt → List Stmt
  | [] => []
  | s :: rest => s.mapLines g :: Stmt.mapLinesAll g rest

def FunctionDecl.mapLines (g : Nat → Nat) : FunctionDecl → FunctionDecl
  | .mk name parameters body =>
    .mk (name.mapLine g) (parameters.map (Name.mapLine g)) (Stmt.mapLinesAll g body)

def FunctionDecl.mapLinesAll (g : Nat → Nat) : List FunctionDecl → List FunctionDecl
  | [] => []
  | f :: rest => f.mapLines g :: FunctionDecl.mapLinesAll g rest

end

@[simp]
theorem Name.mapLine_id : Name.mapLine id = id := rfl

@[simp]
theorem mapLine_id : Reference.mapLine id = id := rfl

mutual

theorem Expr.mapLines_id : ∀ e : Expr, e.mapLines id = e
  | .literal _ | .var _ | .self _ | .super .. => by simp [Expr.mapLines]
  | .grouping inner | .unary _ _ inner | .assign _ inner | .get inner _ => by
    simp [Expr.mapLines, Expr.mapLines_id inner]
  | .binary _ _ left right | .logical _ left right | .set left _ right => by
    simp [Expr.mapLines, Expr.mapLines_id left, Expr.mapLines_id right]
  | .call callee _ arguments => by
    simp [Expr.mapLines, Expr.mapLines_id callee, Expr.mapLinesAll_id arguments]

theorem Expr.mapLinesAll_id : ∀ es : List Expr, Expr.mapLinesAll id es = es
  | [] => rfl
  | e :: rest => by simp [Expr.mapLinesAll, Expr.mapLines_id e, Expr.mapLinesAll_id rest]

end

theorem Expr.map_mapLines_id (e : Option Expr) : e.map (Expr.mapLines id) = e := by
  cases e <;> simp [Expr.mapLines_id]

mutual

theorem Stmt.mapLines_id : ∀ s : Stmt, s.mapLines id = s
  | .expression value | .print value => by simp [Stmt.mapLines, Expr.mapLines_id]
  | .varDecl _ value | .returning _ value => by
    simp [Stmt.mapLines, Expr.map_mapLines_id]
  | .block body => by simp [Stmt.mapLines, Stmt.mapLinesAll_id body]
  | .ifElse condition consequent none => by
    simp [Stmt.mapLines, Expr.mapLines_id, Stmt.mapLines_id consequent]
  | .ifElse condition consequent (some alternative) => by
    simp [Stmt.mapLines, Expr.mapLines_id, Stmt.mapLines_id consequent,
      Stmt.mapLines_id alternative]
  | .loop condition body step => by
    simp [Stmt.mapLines, Expr.mapLines_id, Stmt.mapLines_id body, Expr.map_mapLines_id]
  | .funDecl declaration => by
    simp [Stmt.mapLines, FunctionDecl.mapLines_id declaration]
  | .classDecl _ superclass methods => by
    simp [Stmt.mapLines, FunctionDecl.mapLinesAll_id methods]
  | .jump _ => rfl

theorem Stmt.mapLinesAll_id : ∀ body : List Stmt, Stmt.mapLinesAll id body = body
  | [] => rfl
  | s :: rest => by simp [Stmt.mapLinesAll, Stmt.mapLines_id s, Stmt.mapLinesAll_id rest]

theorem FunctionDecl.mapLines_id : ∀ f : FunctionDecl, f.mapLines id = f
  | .mk _ _ body => by simp [FunctionDecl.mapLines, Stmt.mapLinesAll_id body]

theorem FunctionDecl.mapLinesAll_id :
    ∀ fs : List FunctionDecl, FunctionDecl.mapLinesAll id fs = fs
  | [] => rfl
  | f :: rest => by
    simp [FunctionDecl.mapLinesAll, FunctionDecl.mapLines_id f, FunctionDecl.mapLinesAll_id rest]

end

mutual

theorem Expr.ids_mapLines (g : Nat → Nat) : ∀ e : Expr, (e.mapLines g).ids = e.ids
  | .literal _ | .var _ | .self _ | .super .. => rfl
  | .grouping inner | .unary _ _ inner | .get inner _ => Expr.ids_mapLines g inner
  | .assign r inner => congrArg (r.id :: ·) (Expr.ids_mapLines g inner)
  | .binary _ _ left right | .logical _ left right | .set left _ right => by
    simp [Expr.mapLines, Expr.ids, Expr.ids_mapLines g left, Expr.ids_mapLines g right]
  | .call callee _ arguments => by
    simp [Expr.mapLines, Expr.ids, Expr.ids_mapLines g callee, Expr.idsAll_mapLinesAll g arguments]

theorem Expr.idsAll_mapLinesAll (g : Nat → Nat) :
    ∀ es : List Expr, Expr.idsAll (Expr.mapLinesAll g es) = Expr.idsAll es
  | [] => rfl
  | e :: rest => by
    simp [Expr.mapLinesAll, Expr.idsAll, Expr.ids_mapLines g e, Expr.idsAll_mapLinesAll g rest]

end

theorem Expr.idsOf_map_mapLines (g : Nat → Nat) (e : Option Expr) :
    Expr.idsOf (e.map (Expr.mapLines g)) = Expr.idsOf e := by
  cases e with
  | none => rfl
  | some e => exact e.ids_mapLines g

mutual

theorem Stmt.ids_mapLines (g : Nat → Nat) : ∀ s : Stmt, (s.mapLines g).ids = s.ids
  | .expression e | .print e => e.ids_mapLines g
  | .varDecl _ e | .returning _ e => Expr.idsOf_map_mapLines g e
  | .block body => Stmt.idsAll_mapLinesAll g body
  | .ifElse condition consequent none => by
    simp [Stmt.mapLines, Stmt.ids, Expr.ids_mapLines, Stmt.ids_mapLines g consequent]
  | .ifElse condition consequent (some alternative) => by
    simp [Stmt.mapLines, Stmt.ids, Expr.ids_mapLines, Stmt.ids_mapLines g consequent,
      Stmt.ids_mapLines g alternative]
  | .loop condition body step => by
    simp [Stmt.mapLines, Stmt.ids, Expr.ids_mapLines, Stmt.ids_mapLines g body,
      Expr.idsOf_map_mapLines]
  | .funDecl f => FunctionDecl.ids_mapLines g f
  | .classDecl _ none methods => FunctionDecl.idsAll_mapLinesAll g methods
  | .classDecl _ (some r) methods =>
    congrArg (r.id :: ·) (FunctionDecl.idsAll_mapLinesAll g methods)
  | .jump _ => rfl

theorem Stmt.idsAll_mapLinesAll (g : Nat → Nat) :
    ∀ body : List Stmt, Stmt.idsAll (Stmt.mapLinesAll g body) = Stmt.idsAll body
  | [] => rfl
  | s :: rest => by
    simp [Stmt.mapLinesAll, Stmt.idsAll, Stmt.ids_mapLines g s, Stmt.idsAll_mapLinesAll g rest]

theorem FunctionDecl.ids_mapLines (g : Nat → Nat) :
    ∀ f : FunctionDecl, (f.mapLines g).ids = f.ids
  | .mk _ _ body => Stmt.idsAll_mapLinesAll g body

theorem FunctionDecl.idsAll_mapLinesAll (g : Nat → Nat) :
    ∀ fs : List FunctionDecl, FunctionDecl.idsAll (FunctionDecl.mapLinesAll g fs) =
      FunctionDecl.idsAll fs
  | [] => rfl
  | f :: rest => by
    simp [FunctionDecl.mapLinesAll, FunctionDecl.idsAll, FunctionDecl.ids_mapLines g f,
      FunctionDecl.idsAll_mapLinesAll g rest]

end

end ScopeScript
