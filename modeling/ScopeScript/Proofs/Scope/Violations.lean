import ScopeScript.Proofs.Syntax.Form
import ScopeScript.Scope.Resolution

set_option autoImplicit false

namespace ScopeScript

namespace ScopeState

-- Violations are only ever added.

def Extends (s s' : ScopeState) : Prop := s.faults <+: s'.faults

theorem Extends.refl (s : ScopeState) : s.Extends s := List.prefix_refl _

theorem Extends.trans {s s₁ s₂ : ScopeState} (first : s.Extends s₁) (second : s₁.Extends s₂) :
    s.Extends s₂ :=
  List.IsPrefix.trans first second

theorem Extends.clean {s s' : ScopeState} (h : s.Extends s') (clean : s'.faults = []) :
    s.faults = [] := by
  rw [Extends, clean] at h
  exact List.prefix_nil.mp h

theorem extends_note (s : ScopeState) (name : Name) (fault : ScopeFault) :
    s.Extends (s.note name fault) := List.prefix_append _ _

theorem note_faults_ne_nil (s : ScopeState) (name : Name) (fault : ScopeFault) :
    (s.note name fault).faults ≠ [] := by
  simp [note]

@[simp]
theorem faults_mark (s : ScopeState) (name : String) (status : Status) :
    (s.mark name status).faults = s.faults := by
  unfold mark
  split <;> rfl

@[simp]
theorem resolution_mark (s : ScopeState) (name : String) (status : Status) :
    (s.mark name status).resolution = s.resolution := by
  unfold mark
  split <;> rfl

@[simp]
theorem faults_define (s : ScopeState) (name : Name) : (s.define name).faults = s.faults :=
  s.faults_mark name.text .defined

@[simp]
theorem resolution_define (s : ScopeState) (name : Name) :
    (s.define name).resolution = s.resolution :=
  s.resolution_mark name.text .defined

@[simp]
theorem resolution_declare (s : ScopeState) (name : Name) :
    (s.declare name).resolution = s.resolution := by
  unfold declare
  split
  · rfl
  split
  · rfl
  · simp

@[simp]
theorem faults_resolve (s : ScopeState) (r : Reference) : (s.resolve r).faults = s.faults := by
  unfold resolve
  split <;> rfl

@[simp]
theorem scopes_resolve (s : ScopeState) (r : Reference) : (s.resolve r).scopes = s.scopes := by
  unfold resolve
  split <;> rfl

theorem extends_declare (s : ScopeState) (name : Name) : s.Extends (s.declare name) := by
  unfold declare
  split
  · exact .refl s
  split
  · exact s.extends_note name .redeclared
  · simp [Extends]

theorem extends_use (s : ScopeState) (r : Reference) : s.Extends (s.use r) := by
  unfold use
  split
  · simpa [Extends] using s.extends_note r.name .readInOwnInitializer
  · simp [Extends]

theorem extends_checkReturn (s : ScopeState) (context : ScopeContext) (line : Nat)
    (hasValue : Bool) : s.Extends (s.checkReturn context line hasValue) := by
  unfold checkReturn
  split
  · exact s.extends_note _ .returnAtTopLevel
  · split
    · exact s.extends_note _ .returnValueFromInitializer
    · exact .refl s
  all_goals exact .refl s

theorem extends_foldl (parameters : List Name) (s : ScopeState) :
    s.Extends (parameters.foldl (fun s name => (s.declare name).define name) s) := by
  induction parameters generalizing s with
  | nil => exact .refl s
  | cons name rest ih =>
    have step : s.Extends ((s.declare name).define name) := by
      simpa [Extends] using s.extends_declare name
    exact step.trans (ih _)

@[simp]
theorem resolution_enterFunction (s : ScopeState) (parameters : List Name) :
    (s.enterFunction parameters).resolution = s.resolution := by
  have fold (s : ScopeState) :
      (parameters.foldl (fun s name => (s.declare name).define name) s).resolution =
        s.resolution := by
    induction parameters generalizing s with
    | nil => rfl
    | cons name rest ih => simp [ih]
  exact fold s.enter

theorem extends_enterFunction (s : ScopeState) (parameters : List Name) :
    s.Extends (s.enterFunction parameters) :=
  extends_foldl parameters s.enter

theorem extends_enterClass (s : ScopeState) (name : Name) (superclass : Option Reference) :
    s.Extends (s.enterClass name superclass) := by
  have named : s.Extends ((s.declare name).define name) := by
    simpa [Extends] using s.extends_declare name
  unfold enterClass
  cases superclass with
  | none => simpa [Extends, enter] using named
  | some r =>
    simp only
    split
    · have noted := extends_note ((s.declare name).define name) r.name .inheritsFromItself
      simpa [Extends, enter] using (named.trans noted).trans (extends_use _ r)
    · simpa [Extends, enter] using named.trans (extends_use _ r)

theorem faults_leaveClass (s : ScopeState) (superclass : Option Reference) :
    (s.leaveClass superclass).faults = s.faults := by
  cases superclass <;> rfl

end ScopeState

mutual

theorem Expr.extends_scopes (context : ScopeContext) :
    ∀ (e : Expr) (s : ScopeState), s.Extends (e.scopes context s)
  | .literal _, s => .refl s
  | .grouping inner, s | .unary _ _ inner, s | .get inner _, s => inner.extends_scopes context s
  | .binary _ _ left right, s | .logical _ left right, s =>
    (left.extends_scopes context s).trans (right.extends_scopes context _)
  | .set object _ value, s =>
    (value.extends_scopes context s).trans (object.extends_scopes context _)
  | .var r, s => s.extends_use r
  | .assign r value, s => by
    simpa [Expr.scopes, ScopeState.Extends] using value.extends_scopes context s
  | .call callee _ arguments, s =>
    (callee.extends_scopes context s).trans (Expr.extends_scopesAll context arguments _)
  | .self r, s => by
    unfold Expr.scopes
    split
    · exact s.extends_note _ _
    all_goals simp [ScopeState.Extends]
  | .super r _, s => by
    unfold Expr.scopes
    split
    · exact s.extends_note _ _
    · exact s.extends_note _ _
    · simp [ScopeState.Extends]

theorem Expr.extends_scopesAll (context : ScopeContext) :
    ∀ (es : List Expr) (s : ScopeState), s.Extends (Expr.scopesAll context es s)
  | [], s => .refl s
  | e :: rest, s =>
    (e.extends_scopes context s).trans (Expr.extends_scopesAll context rest _)

end

theorem Expr.extends_scopes? (context : ScopeContext) (e : Option Expr) (s : ScopeState) :
    s.Extends (Expr.scopes? context e s) := by
  cases e with
  | none => exact .refl s
  | some e => exact e.extends_scopes context s

mutual

theorem Stmt.extends_scopes :
    ∀ (context : ScopeContext) (stmt : Stmt) (s : ScopeState), s.Extends (stmt.scopes context s)
  | context, .expression e, s | context, .print e, s => e.extends_scopes context s
  | context, .varDecl name initial, s => by
    have whole := (s.extends_declare name).trans (Expr.extends_scopes? context initial _)
    simpa [Stmt.scopes, ScopeState.Extends] using whole
  | context, .block body, s => Stmt.extends_scopesAll context body s.enter
  | context, .ifElse condition consequent none, s =>
    (condition.extends_scopes context s).trans (Stmt.extends_scopes context consequent _)
  | context, .ifElse condition consequent (some alternative), s =>
    ((condition.extends_scopes context s).trans (Stmt.extends_scopes context consequent _)).trans
      (Stmt.extends_scopes context alternative _)
  | context, .loop condition body step, s =>
    ((condition.extends_scopes context s).trans (Stmt.extends_scopes context body _)).trans
      (Expr.extends_scopes? context step _)
  | context, .funDecl f, s => by
    have named : s.Extends ((s.declare f.name).define f.name) := by
      simpa [ScopeState.Extends] using s.extends_declare f.name
    exact named.trans (FunctionDecl.extends_scopes _ f _)
  | context, .classDecl name above methods, s => by
    have whole := (s.extends_enterClass name above).trans
      (FunctionDecl.extends_scopesAll { context with owner := .of above } methods _)
    simpa only [Stmt.scopes, ScopeState.Extends, ScopeState.faults_leaveClass] using whole
  | context, .returning line value, s =>
    (s.extends_checkReturn context line value.isSome).trans (Expr.extends_scopes? context value _)
  | _, .jump _, s => .refl s

theorem Stmt.extends_scopesAll :
    ∀ (context : ScopeContext) (body : List Stmt) (s : ScopeState),
      s.Extends (Stmt.scopesAll context body s)
  | _, [], s => .refl s
  | context, first :: rest, s =>
    (Stmt.extends_scopes context first s).trans (Stmt.extends_scopesAll context rest _)

theorem FunctionDecl.extends_scopes :
    ∀ (context : ScopeContext) (f : FunctionDecl) (s : ScopeState),
      s.Extends (f.scopes context s)
  | context, .mk _ parameters body, s =>
    (s.extends_enterFunction parameters).trans (Stmt.extends_scopesAll context body _)

theorem FunctionDecl.extends_scopesAll :
    ∀ (context : ScopeContext) (fs : List FunctionDecl) (s : ScopeState),
      s.Extends (FunctionDecl.scopesAll context fs s)
  | _, [], s => .refl s
  | context, f :: rest, s =>
    (FunctionDecl.extends_scopes _ f s).trans (FunctionDecl.extends_scopesAll context rest _)

end

-- Returns.

def ScopeContext.inFunction (context : ScopeContext) : Bool :=
  context.function != .outside

theorem ScopeState.inFunction_of_checkReturn {s : ScopeState} {context : ScopeContext} {line : Nat}
    {hasValue : Bool} (clean : (s.checkReturn context line hasValue).faults = []) :
    context.inFunction = true := by
  unfold checkReturn at clean
  unfold ScopeContext.inFunction
  cases found : context.function with
  | outside => simp [found, note] at clean
  | function | method | initializer => rfl

theorem ScopeState.checkReturn_eq_self {s : ScopeState} {context : ScopeContext} {line : Nat}
    {hasValue : Bool} (clean : (s.checkReturn context line hasValue).faults = []) :
    s.checkReturn context line hasValue = s := by
  unfold checkReturn at clean ⊢
  cases found : context.function with
  | outside => simp [found, note] at clean
  | initializer => cases hasValue <;> simp_all [note]
  | function | method => rfl

mutual

theorem Stmt.enclosed_of_scopes :
    ∀ (stmt : Stmt) {context : ScopeContext} {inLoop : Bool} {s : ScopeState},
      (stmt.scopes context s).faults = [] → stmt.Enclosed true inLoop →
        stmt.Enclosed context.inFunction inLoop
  | .expression _, _, _, _, _, _ | .print _, _, _, _, _, _ | .varDecl .., _, _, _, _, _ => trivial
  | .block body, _, _, _, clean, enclosed => Stmt.allEnclosed_of_scopesAll body clean enclosed
  | .ifElse _ consequent none, _, _, _, clean, enclosed =>
    Stmt.enclosed_of_scopes consequent clean enclosed
  | .ifElse _ consequent (some alternative), context, _, _, clean, enclosed => by
    have before := (Stmt.extends_scopes context alternative _).clean clean
    exact ⟨Stmt.enclosed_of_scopes consequent before enclosed.1,
      Stmt.enclosed_of_scopes alternative clean enclosed.2⟩
  | .loop _ body step, context, _, _, clean, enclosed => by
    have before := (Expr.extends_scopes? context step _).clean clean
    exact Stmt.enclosed_of_scopes body before (show body.Enclosed true true from enclosed)
  -- What is inside a function does not depend on what is around it.
  | .funDecl _, _, _, _, _, enclosed | .classDecl .., _, _, _, _, enclosed => enclosed
  | .returning _ value, context, _, _, clean, _ =>
    ScopeState.inFunction_of_checkReturn ((Expr.extends_scopes? context value _).clean clean)
  | .jump _, _, _, _, _, enclosed => enclosed

theorem Stmt.allEnclosed_of_scopesAll :
    ∀ (body : List Stmt) {context : ScopeContext} {inLoop : Bool} {s : ScopeState},
      (Stmt.scopesAll context body s).faults = [] → Stmt.AllEnclosed true inLoop body →
        Stmt.AllEnclosed context.inFunction inLoop body
  | [], _, _, _, _, _ => trivial
  | first :: rest, context, _, _, clean, enclosed => by
    have before := (Stmt.extends_scopesAll context rest _).clean clean
    exact ⟨Stmt.enclosed_of_scopes first before enclosed.1,
      Stmt.allEnclosed_of_scopesAll rest clean enclosed.2⟩

end

theorem allEnclosed_of_resolve {body : List Stmt} {resolution : Resolution}
    (resolved : resolve body = .ok resolution) (enclosed : Stmt.AllEnclosed true false body) :
    Stmt.AllEnclosed false false body := by
  unfold resolve at resolved
  by_cases clean : (Stmt.scopesAll .topLevel body .initial).faults = []
  · exact Stmt.allEnclosed_of_scopesAll body clean enclosed
  · simp [clean] at resolved

end ScopeScript
