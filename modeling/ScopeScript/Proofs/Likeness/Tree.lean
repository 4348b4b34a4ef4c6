import Mathlib.Data.List.Forall2
import Mathlib.Logic.Equiv.Basic
import ScopeScript.Syntax.Tree

set_option autoImplicit false

/-!
Trees that say the same in other words.

Two trees are alike if they differ in nothing but the numbers of their references, the lines of
their words, and the names of variables: each scope may have its names changed, and then the
references that mean a variable of that scope follow. A `Link` tells which of these differences
count as none.
-/

namespace ScopeScript

structure Renaming where
  perm : Equiv.Perm String
  this : perm "this" = "this"
  super : perm "super" = "super"

namespace Renaming

instance : CoeFun Renaming fun _ => String → String := ⟨fun σ => σ.perm⟩

def same : Renaming := ⟨Equiv.refl String, rfl, rfl⟩

@[simp]
theorem same_apply (name : String) : same name = name := rfl

theorem injective (σ : Renaming) : Function.Injective σ := σ.perm.injective

def reached (σs : List Renaming) : Option Nat → Renaming
  | none => same
  | some d => σs.getD d same

def innermost (σs : List Renaming) : Renaming := σs.headD same

def Plain (σs : List Renaming) : Prop := ∀ σ ∈ σs, σ = same

theorem plain_nil : Plain [] := by simp [Plain]

theorem Plain.cons {σs : List Renaming} (h : Plain σs) : Plain (same :: σs) := by
  simpa [Plain] using h

theorem Plain.reached {σs : List Renaming} (h : Plain σs) (d : Option Nat) :
    reached σs d = same := by
  cases d with
  | none => rfl
  | some d =>
    cases found : σs[d]? with
    | none => simp [Renaming.reached, List.getD, found]
    | some σ =>
      have mem := h σ (List.mem_of_getElem? found)
      simp [Renaming.reached, List.getD, found, mem]

theorem Plain.innermost {σs : List Renaming} (h : Plain σs) : innermost σs = same := by
  cases σs with
  | nil => rfl
  | cons σ outer => exact h σ List.mem_cons_self

end Renaming

structure Link where
  lines : Nat → Nat → Prop
  renames : Renaming → Prop
  linked : Nat → Nat → Option Nat → Prop
  names : String → Prop

def Link.Plain (K : Link) : Prop := ∀ σ, K.renames σ → σ = .same

structure Name.Alike (K : Link) (n n' : Name) : Prop where
  line : K.lines n.line n'.line
  text : n'.text = n.text

structure Name.Declared (K : Link) (σ : Renaming) (n n' : Name) : Prop where
  line : K.lines n.line n'.line
  text : n'.text = σ n.text
  known : K.names n.text

structure Reference.Alike (K : Link) (σs : List Renaming) (r r' : Reference) : Prop where
  linked : ∃ d, K.linked r.id r'.id d ∧ r'.name.text = Renaming.reached σs d r.name.text
  line : K.lines r.name.line r'.name.line
  known : K.names r.name.text

mutual

inductive Expr.Alike (K : Link) (σs : List Renaming) : Expr → Expr → Prop
  | literal {value} : Expr.Alike K σs (.literal value) (.literal value)
  | grouping {e e'} : Expr.Alike K σs e e' → Expr.Alike K σs (.grouping e) (.grouping e')
  | unary {line line' e e' op} : K.lines line line' → Expr.Alike K σs e e' →
      Expr.Alike K σs (.unary op line e) (.unary op line' e')
  | binary {line line' left left' right right' op} :
      K.lines line line' → Expr.Alike K σs left left' → Expr.Alike K σs right right' →
      Expr.Alike K σs (.binary op line left right) (.binary op line' left' right')
  | logical {left left' right right' op} :
      Expr.Alike K σs left left' → Expr.Alike K σs right right' →
      Expr.Alike K σs (.logical op left right) (.logical op left' right')
  | var {r r'} : r.Alike K σs r' → Expr.Alike K σs (.var r) (.var r')
  | assign {e e' r r'} : r.Alike K σs r' → Expr.Alike K σs e e' →
      Expr.Alike K σs (.assign r e) (.assign r' e')
  | call {line line' e e' es es'} :
      K.lines line line' → Expr.Alike K σs e e' → Expr.AllAlike K σs es es' →
      Expr.Alike K σs (.call e line es) (.call e' line' es')
  | get {e e' name name'} : name.Alike K name' → Expr.Alike K σs e e' →
      Expr.Alike K σs (.get e name) (.get e' name')
  | set {object object' e e' name name'} :
      name.Alike K name' → Expr.Alike K σs object object' → Expr.Alike K σs e e' →
      Expr.Alike K σs (.set object name e) (.set object' name' e')
  | self {r r'} : r.Alike K σs r' → Expr.Alike K σs (.self r) (.self r')
  | super {r name r' name'} : r.Alike K σs r' → name.Alike K name' →
      Expr.Alike K σs (.super r name) (.super r' name')

inductive Expr.AllAlike (K : Link) (σs : List Renaming) : List Expr → List Expr → Prop
  | nil : Expr.AllAlike K σs [] []
  | cons {e e' es es'} : Expr.Alike K σs e e' → Expr.AllAlike K σs es es' →
      Expr.AllAlike K σs (e :: es) (e' :: es')

end

def Renaming.ofMethod (above : Option Reference) (σs : List Renaming) : List Renaming :=
  if above.isSome then same :: same :: σs else same :: σs

mutual

inductive Stmt.Alike (K : Link) : List Renaming → Stmt → Stmt → Prop
  | expression {σs e e'} : e.Alike K σs e' → Stmt.Alike K σs (.expression e) (.expression e')
  | print {σs e e'} : e.Alike K σs e' → Stmt.Alike K σs (.print e) (.print e')
  | varDecl {σs initial initial' name name'} : name.Declared K (.innermost σs) name' →
      Option.Rel (Expr.Alike K σs) initial initial' →
      Stmt.Alike K σs (.varDecl name initial) (.varDecl name' initial')
  | block {σ σs body body'} : K.renames σ → Stmt.AllAlike K (σ :: σs) body body' →
      Stmt.Alike K σs (.block body) (.block body')
  | ifElse {σs s s' e e'} : e.Alike K σs e' → Stmt.Alike K σs s s' →
      Stmt.Alike K σs (.ifElse e s none) (.ifElse e' s' none)
  | ifBoth {σs s s' t t' e e'} : e.Alike K σs e' → Stmt.Alike K σs s s' → Stmt.Alike K σs t t' →
      Stmt.Alike K σs (.ifElse e s (some t)) (.ifElse e' s' (some t'))
  | loop {σs s s' step step' e e'} :
      e.Alike K σs e' → Stmt.Alike K σs s s' → Option.Rel (Expr.Alike K σs) step step' →
      Stmt.Alike K σs (.loop e s step) (.loop e' s' step')
  | funDecl {σs f f'} :
      Renaming.innermost σs f.name.text = f.name.text → FunctionDecl.Alike K σs f f' →
      Stmt.Alike K σs (.funDecl f) (.funDecl f')
  | classDecl {σs above above' methods methods' name name'} :
      name.Declared K (.innermost σs) name' → name'.text = name.text →
      Option.Rel (Reference.Alike K σs) above above' →
      FunctionDecl.AllAlike K (Renaming.ofMethod above σs) methods methods' →
      Stmt.Alike K σs (.classDecl name above methods) (.classDecl name' above' methods')
  | returning {line line' σs value value'} :
      K.lines line line' → Option.Rel (Expr.Alike K σs) value value' →
      Stmt.Alike K σs (.returning line value) (.returning line' value')
  | jump {σs kind} : Stmt.Alike K σs (.jump kind) (.jump kind)

inductive Stmt.AllAlike (K : Link) : List Renaming → List Stmt → List Stmt → Prop
  | nil {σs} : Stmt.AllAlike K σs [] []
  | cons {σs s s' rest rest'} : Stmt.Alike K σs s s' → Stmt.AllAlike K σs rest rest' →
      Stmt.AllAlike K σs (s :: rest) (s' :: rest')

inductive FunctionDecl.Alike (K : Link) : List Renaming → FunctionDecl → FunctionDecl → Prop
  | mk {σ parameters parameters' σs body body' name name'} :
      name.Declared K .same name' → K.renames σ →
      List.Forall₂ (Name.Declared K σ) parameters parameters' →
      Stmt.AllAlike K (σ :: σs) body body' →
      FunctionDecl.Alike K σs (.mk name parameters body) (.mk name' parameters' body')

inductive FunctionDecl.AllAlike (K : Link) :
    List Renaming → List FunctionDecl → List FunctionDecl → Prop
  | nil {σs} : FunctionDecl.AllAlike K σs [] []
  | cons {σs f f' rest rest'} :
      FunctionDecl.Alike K σs f f' → FunctionDecl.AllAlike K σs rest rest' →
      FunctionDecl.AllAlike K σs (f :: rest) (f' :: rest')

end

structure Link.Below (K K' : Link) : Prop where
  lines : ∀ {l l'}, K.lines l l' → K'.lines l l'
  renames : ∀ {σ}, K.renames σ → K'.renames σ
  linked : ∀ {i j d}, K.linked i j d → K'.linked i j d
  names : ∀ {name}, K.names name → K'.names name

section

variable {K K' : Link} {σ : Renaming} {σs : List Renaming}

theorem Name.Alike.mono {n n' : Name} (h : n.Alike K n') (below : K.Below K') : n.Alike K' n' :=
  ⟨below.lines h.line, h.text⟩

theorem Name.Declared.mono {n n' : Name} (h : n.Declared K σ n') (below : K.Below K') :
    n.Declared K' σ n' :=
  ⟨below.lines h.line, h.text, below.names h.known⟩

theorem Reference.Alike.mono {r r' : Reference} (h : r.Alike K σs r') (below : K.Below K') :
    r.Alike K' σs r' := by
  obtain ⟨d, linked, text⟩ := h.linked
  exact ⟨⟨d, below.linked linked, text⟩, below.lines h.line, below.names h.known⟩

mutual

theorem Expr.Alike.mono (below : K.Below K') :
    ∀ {e e' : Expr}, e.Alike K σs e' → e.Alike K' σs e'
  | _, _, .literal => .literal
  | _, _, .grouping h => .grouping (h.mono below)
  | _, _, .unary line h => .unary (below.lines line) (h.mono below)
  | _, _, .binary line h h' => .binary (below.lines line) (h.mono below) (h'.mono below)
  | _, _, .logical h h' => .logical (h.mono below) (h'.mono below)
  | _, _, .var r => .var (r.mono below)
  | _, _, .assign r h => .assign (r.mono below) (h.mono below)
  | _, _, .call line h hs => .call (below.lines line) (h.mono below) (hs.mono below)
  | _, _, .get name h => .get (name.mono below) (h.mono below)
  | _, _, .set name h h' => .set (name.mono below) (h.mono below) (h'.mono below)
  | _, _, .self r => .self (r.mono below)
  | _, _, .super r name => .super (r.mono below) (name.mono below)

theorem Expr.AllAlike.mono (below : K.Below K') :
    ∀ {es es' : List Expr}, Expr.AllAlike K σs es es' → Expr.AllAlike K' σs es es'
  | _, _, .nil => .nil
  | _, _, .cons h hs => .cons (h.mono below) (hs.mono below)

end

theorem Expr.optionAlike_mono (below : K.Below K') {e e' : Option Expr}
    (h : Option.Rel (Expr.Alike K σs) e e') : Option.Rel (Expr.Alike K' σs) e e' := by
  cases h with
  | none => exact .none
  | some h => exact .some (h.mono below)

theorem Reference.optionAlike_mono (below : K.Below K') {r r' : Option Reference}
    (h : Option.Rel (Reference.Alike K σs) r r') : Option.Rel (Reference.Alike K' σs) r r' := by
  cases h with
  | none => exact .none
  | some h => exact .some (h.mono below)

end

mutual

theorem Stmt.Alike.mono {K K' : Link} (below : K.Below K') :
    ∀ {σs : List Renaming} {s s' : Stmt}, s.Alike K σs s' → s.Alike K' σs s'
  | _, _, _, .expression h => .expression (h.mono below)
  | _, _, _, .print h => .print (h.mono below)
  | _, _, _, .varDecl name h => .varDecl (name.mono below) (Expr.optionAlike_mono below h)
  | _, _, _, .block renames h => .block (below.renames renames) (h.mono below)
  | _, _, _, .ifElse h h' => .ifElse (h.mono below) (h'.mono below)
  | _, _, _, .ifBoth h h' h'' => .ifBoth (h.mono below) (h'.mono below) (h''.mono below)
  | _, _, _, .loop h h' step =>
    .loop (h.mono below) (h'.mono below) (Expr.optionAlike_mono below step)
  | _, _, _, .funDecl fixed h => .funDecl fixed (h.mono below)
  | _, _, _, .classDecl name fixed above h =>
    .classDecl (name.mono below) fixed (Reference.optionAlike_mono below above) (h.mono below)
  | _, _, _, .returning line h => .returning (below.lines line) (Expr.optionAlike_mono below h)
  | _, _, _, .jump => .jump

theorem Stmt.AllAlike.mono {K K' : Link} (below : K.Below K') :
    ∀ {σs : List Renaming} {body body' : List Stmt},
      Stmt.AllAlike K σs body body' → Stmt.AllAlike K' σs body body'
  | _, _, _, .nil => .nil
  | _, _, _, .cons h hs => .cons (h.mono below) (hs.mono below)

theorem FunctionDecl.Alike.mono {K K' : Link} (below : K.Below K') :
    ∀ {σs : List Renaming} {f f' : FunctionDecl}, f.Alike K σs f' → f.Alike K' σs f'
  | _, _, _, .mk name renames parameters h =>
    .mk (name.mono below) (below.renames renames) (parameters.imp fun _ _ p => p.mono below)
      (h.mono below)

theorem FunctionDecl.AllAlike.mono {K K' : Link} (below : K.Below K') :
    ∀ {σs : List Renaming} {fs fs' : List FunctionDecl},
      FunctionDecl.AllAlike K σs fs fs' → FunctionDecl.AllAlike K' σs fs fs'
  | _, _, _, .nil => .nil
  | _, _, _, .cons h hs => .cons (h.mono below) (hs.mono below)

end

-- What functions that are alike have in common.

section

variable {K : Link} {σs : List Renaming} {f f' : FunctionDecl}

theorem FunctionDecl.Alike.declared (h : f.Alike K σs f') : f.name.Declared K .same f'.name := by
  cases h with
  | mk name => exact name

theorem FunctionDecl.Alike.name (h : f.Alike K σs f') : f'.name.text = f.name.text :=
  h.declared.text

theorem FunctionDecl.Alike.arity (h : f.Alike K σs f') :
    f'.parameters.length = f.parameters.length := by
  cases h with
  | mk _ _ parameters => exact parameters.length_eq.symm

theorem FunctionDecl.Alike.inside (h : f.Alike K σs f') :
    ∃ σ, K.renames σ ∧ List.Forall₂ (Name.Declared K σ) f.parameters f'.parameters ∧
      Stmt.AllAlike K (σ :: σs) f.body f'.body := by
  cases h with
  | mk _ known named inside => exact ⟨_, known, named, inside⟩

theorem FunctionDecl.Alike.isInitializer (h : f.Alike K σs f') :
    f'.isInitializer = f.isInitializer := by
  simp [FunctionDecl.isInitializer, h.name]

end

end ScopeScript
