import ScopeScript.Proofs.Syntax.Numbers

set_option autoImplicit false

namespace ScopeScript

mutual

def Expr.WithinArity : Expr → Prop
  | .literal _ | .var _ | .self _ | .super .. => True
  | .grouping inner | .unary _ _ inner | .assign _ inner | .get inner _ => inner.WithinArity
  | .binary _ _ left right | .logical _ left right | .set left _ right =>
    left.WithinArity ∧ right.WithinArity
  | .call callee _ arguments =>
    callee.WithinArity ∧ arguments.length ≤ 255 ∧ Expr.AllWithinArity arguments

def Expr.AllWithinArity : List Expr → Prop
  | [] => True
  | e :: rest => e.WithinArity ∧ Expr.AllWithinArity rest

end

def Expr.OptionWithinArity (e : Option Expr) : Prop := ∀ e' ∈ e, e'.WithinArity

mutual

def Stmt.WithinArity : Stmt → Prop
  | .expression value | .print value => value.WithinArity
  | .varDecl _ value | .returning _ value => Expr.OptionWithinArity value
  | .block body => Stmt.AllWithinArity body
  | .ifElse condition consequent none => condition.WithinArity ∧ consequent.WithinArity
  | .ifElse condition consequent (some alternative) =>
    condition.WithinArity ∧ consequent.WithinArity ∧ alternative.WithinArity
  | .loop condition body step =>
    condition.WithinArity ∧ body.WithinArity ∧ Expr.OptionWithinArity step
  | .funDecl declaration => declaration.WithinArity
  | .classDecl _ _ methods => FunctionDecl.AllWithinArity methods
  | .jump _ => True

def Stmt.AllWithinArity : List Stmt → Prop
  | [] => True
  | s :: rest => s.WithinArity ∧ Stmt.AllWithinArity rest

def FunctionDecl.WithinArity : FunctionDecl → Prop
  | .mk _ parameters body => parameters.length ≤ 255 ∧ Stmt.AllWithinArity body

def FunctionDecl.AllWithinArity : List FunctionDecl → Prop
  | [] => True
  | f :: rest => f.WithinArity ∧ FunctionDecl.AllWithinArity rest

end

mutual

/-- Each jump stands in the body of a loop of its own function, and each return in a function. The
flags tell what is already around the statement. -/
def Stmt.Enclosed (inFunction inLoop : Bool) : Stmt → Prop
  | .expression _ | .print _ | .varDecl .. => True
  | .block body => Stmt.AllEnclosed inFunction inLoop body
  | .ifElse _ consequent none => consequent.Enclosed inFunction inLoop
  | .ifElse _ consequent (some alternative) =>
    consequent.Enclosed inFunction inLoop ∧ alternative.Enclosed inFunction inLoop
  | .loop _ body _ => body.Enclosed inFunction true
  | .funDecl declaration => declaration.Enclosed
  | .classDecl _ _ methods => FunctionDecl.AllEnclosed methods
  | .returning .. => inFunction = true
  | .jump _ => inLoop = true

def Stmt.AllEnclosed (inFunction inLoop : Bool) : List Stmt → Prop
  | [] => True
  | s :: rest => s.Enclosed inFunction inLoop ∧ Stmt.AllEnclosed inFunction inLoop rest

def FunctionDecl.Enclosed : FunctionDecl → Prop
  | .mk _ _ body => Stmt.AllEnclosed true false body

def FunctionDecl.AllEnclosed : List FunctionDecl → Prop
  | [] => True
  | f :: rest => f.Enclosed ∧ FunctionDecl.AllEnclosed rest

end

theorem FunctionDecl.Enclosed.body {f : FunctionDecl} (h : f.Enclosed) :
    Stmt.AllEnclosed true false f.body := by
  cases f
  exact h

mutual

theorem Expr.withinArity_mapIds (f : Nat → Nat) :
    ∀ e : Expr, (e.mapIds f).WithinArity ↔ e.WithinArity
  | .literal _ | .var _ | .self _ | .super .. => Iff.rfl
  | .grouping inner | .unary _ _ inner | .assign _ inner | .get inner _ => by
    simp only [Expr.mapIds, Expr.WithinArity, Expr.withinArity_mapIds f inner]
  | .binary _ _ left right | .logical _ left right | .set left _ right => by
    simp only [Expr.mapIds, Expr.WithinArity, Expr.withinArity_mapIds f left,
      Expr.withinArity_mapIds f right]
  | .call callee _ arguments => by
    have same_length : (Expr.mapIdsAll f arguments).length = arguments.length := by
      simp [Expr.mapIdsAll_eq_map]
    simp only [Expr.mapIds, Expr.WithinArity, same_length, Expr.withinArity_mapIds f callee,
      Expr.allWithinArity_mapIdsAll f arguments]

theorem Expr.allWithinArity_mapIdsAll (f : Nat → Nat) :
    ∀ es : List Expr, Expr.AllWithinArity (Expr.mapIdsAll f es) ↔ Expr.AllWithinArity es
  | [] => Iff.rfl
  | e :: rest => by
    simp only [Expr.mapIdsAll, Expr.AllWithinArity, Expr.withinArity_mapIds f e,
      Expr.allWithinArity_mapIdsAll f rest]

end

theorem Expr.withinArity_of_anonymous_eq {e e' : Expr} (same : e'.anonymous = e.anonymous)
    (h : e.WithinArity) : e'.WithinArity := by
  have forgotten : e'.anonymous.WithinArity := same ▸ (Expr.withinArity_mapIds _ e).mpr h
  exact (Expr.withinArity_mapIds _ e').mp forgotten

def Name.Ordinary (name : Name) : Prop := name.text ≠ "this" ∧ name.text ≠ "super"

mutual

def Expr.WellNamed : Expr → Prop
  | .literal _ => True
  | .var reference => reference.name.Ordinary
  | .self reference => reference.name.text = "this"
  | .super reference _ => reference.name.text = "super"
  | .assign reference value => reference.name.Ordinary ∧ value.WellNamed
  | .grouping inner | .unary _ _ inner | .get inner _ => inner.WellNamed
  | .binary _ _ left right | .logical _ left right | .set left _ right =>
    left.WellNamed ∧ right.WellNamed
  | .call callee _ arguments => callee.WellNamed ∧ Expr.AllWellNamed arguments

def Expr.AllWellNamed : List Expr → Prop
  | [] => True
  | e :: rest => e.WellNamed ∧ Expr.AllWellNamed rest

end

def Expr.OptionWellNamed (e : Option Expr) : Prop := ∀ e' ∈ e, e'.WellNamed

def Stmt.declares : Stmt → List String
  | .varDecl name _ | .classDecl name _ _ => [name.text]
  | .funDecl f => [f.name.text]
  | _ => []

mutual

/-- Names are ordinary where a program chooses them, and no branch or loop has a declaration for its
body. -/
def Stmt.WellFormed : Stmt → Prop
  | .expression value | .print value => value.WellNamed
  | .varDecl name initial => name.Ordinary ∧ Expr.OptionWellNamed initial
  | .block body => Stmt.AllWellFormed body
  | .ifElse condition consequent none =>
    condition.WellNamed ∧ consequent.WellFormed ∧ consequent.declares = []
  | .ifElse condition consequent (some alternative) =>
    condition.WellNamed ∧ (consequent.WellFormed ∧ consequent.declares = []) ∧
      alternative.WellFormed ∧ alternative.declares = []
  | .loop condition body step =>
    condition.WellNamed ∧ (body.WellFormed ∧ body.declares = []) ∧ Expr.OptionWellNamed step
  | .funDecl f => f.WellFormed
  | .classDecl name above methods =>
    name.Ordinary ∧ (∀ reference ∈ above, reference.name.Ordinary) ∧
      FunctionDecl.AllWellFormed methods
  | .returning _ value => Expr.OptionWellNamed value
  | .jump _ => True

def Stmt.AllWellFormed : List Stmt → Prop
  | [] => True
  | s :: rest => s.WellFormed ∧ Stmt.AllWellFormed rest

def FunctionDecl.WellFormed : FunctionDecl → Prop
  | .mk name parameters body =>
    name.Ordinary ∧ (∀ p ∈ parameters, p.Ordinary) ∧ Stmt.AllWellFormed body

def FunctionDecl.AllWellFormed : List FunctionDecl → Prop
  | [] => True
  | f :: rest => f.WellFormed ∧ FunctionDecl.AllWellFormed rest

end

theorem Stmt.AllWellFormed.of_mem {body : List Stmt} {s : Stmt} (h : Stmt.AllWellFormed body)
    (mem : s ∈ body) : s.WellFormed := by
  induction body with
  | nil => cases mem
  | cons first rest ih =>
    cases mem with
    | head => exact h.1
    | tail _ mem => exact ih h.2 mem

theorem FunctionDecl.AllWellFormed.of_mem {fs : List FunctionDecl} {f : FunctionDecl}
    (h : FunctionDecl.AllWellFormed fs) (mem : f ∈ fs) : f.WellFormed := by
  induction fs with
  | nil => cases mem
  | cons first rest ih =>
    cases mem with
    | head => exact h.1
    | tail _ mem => exact ih h.2 mem

mutual

theorem Expr.wellNamed_mapIds (f : Nat → Nat) :
    ∀ e : Expr, (e.mapIds f).WellNamed ↔ e.WellNamed
  | .literal _ | .var _ | .self _ | .super .. => Iff.rfl
  | .assign reference value => by
    simp only [Expr.mapIds, Expr.WellNamed, Expr.wellNamed_mapIds f value, Reference.mapId]
  | .grouping inner | .unary _ _ inner | .get inner _ => by
    simp only [Expr.mapIds, Expr.WellNamed, Expr.wellNamed_mapIds f inner]
  | .binary _ _ left right | .logical _ left right | .set left _ right => by
    simp only [Expr.mapIds, Expr.WellNamed, Expr.wellNamed_mapIds f left,
      Expr.wellNamed_mapIds f right]
  | .call callee _ arguments => by
    simp only [Expr.mapIds, Expr.WellNamed, Expr.wellNamed_mapIds f callee,
      Expr.allWellNamed_mapIdsAll f arguments]

theorem Expr.allWellNamed_mapIdsAll (f : Nat → Nat) :
    ∀ es : List Expr, Expr.AllWellNamed (Expr.mapIdsAll f es) ↔ Expr.AllWellNamed es
  | [] => Iff.rfl
  | e :: rest => by
    simp only [Expr.mapIdsAll, Expr.AllWellNamed, Expr.wellNamed_mapIds f e,
      Expr.allWellNamed_mapIdsAll f rest]

end

theorem Expr.wellNamed_of_anonymous_eq {e e' : Expr} (same : e'.anonymous = e.anonymous)
    (h : e.WellNamed) : e'.WellNamed := by
  have forgotten : e'.anonymous.WellNamed := same ▸ (Expr.wellNamed_mapIds _ e).mpr h
  exact (Expr.wellNamed_mapIds _ e').mp forgotten

end ScopeScript
