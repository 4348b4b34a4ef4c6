import ScopeScript.Proofs.Scope.Walk

set_option autoImplicit false

namespace ScopeScript

/-- What stands around a point of a program. A block and a function have a scope, with the names
that are declared in it before the point. -/
inductive Enclosure where
  | block (names : List String)
  | function (kind : FunctionKind) (f : FunctionDecl) (names : List String)
  | classBody (name : Name) (superclass : Option Reference)

namespace Enclosure

def names : Enclosure → List String
  | .block names | .function _ _ names => names
  | .classBody .. => []

def declare (more : List String) : Enclosure → Enclosure
  | .block names => .block (more ++ names)
  | .function kind f names => .function kind f (more ++ names)
  | .classBody name superclass => .classBody name superclass

def isFunction : Enclosure → Bool
  | .function .. => true
  | .block _ | .classBody .. => false

def isClass : Enclosure → Bool
  | .classBody .. => true
  | .block _ | .function .. => false

def declareIn (more : List String) : List Enclosure → List Enclosure
  | [] => []
  | inner :: outer => inner.declare more :: outer

end Enclosure

inductive Deed where
  | declares (name : Name)
  | reads (reference : Reference)
  | inherits (name : Name) (superclass : Reference)
  | returns (line : Nat) (hasValue : Bool)
  | self (reference : Reference)
  | super (reference : Reference)

/-- A deed, what it stands in from the innermost enclosure outwards, and the variable whose initial
value it is part of. -/
structure Checkpoint where
  deed : Deed
  around : List Enclosure
  initial : Option String

namespace Checkpoint

def place (p : Checkpoint) : Place :=
  match p.deed with
  | .declares name => ⟨name.line, some name.text⟩
  | .reads r | .inherits _ r | .self r | .super r => ⟨r.name.line, some r.name.text⟩
  | .returns line _ => ⟨line, some "return"⟩

/-- The rules, each with what it takes to break it. -/
inductive Breaks : Checkpoint → ScopeFault → Prop
  | redeclared {name inner outer initial} :
    name.text ∈ inner.names →
      Breaks ⟨.declares name, inner :: outer, initial⟩ .redeclared
  -- A variable that its scope has already is a violation itself, and its old value can be read.
  | readInOwnInitializer {r inner outer} :
    r.name.text ∉ inner.names →
      Breaks ⟨.reads r, inner :: outer, some r.name.text⟩ .readInOwnInitializer
  | inheritsFromItself {name r around initial} :
    r.name.text = name.text →
      Breaks ⟨.inherits name r, around, initial⟩ .inheritsFromItself
  | returnAtTopLevel {line hasValue around initial} :
    (∀ e ∈ around, e.isFunction = false) →
      Breaks ⟨.returns line hasValue, around, initial⟩ .returnAtTopLevel
  | returnValueFromInitializer {line inside f names outer initial} :
    (∀ e ∈ inside, e.isFunction = false) → f.isInitializer = true →
      Breaks ⟨.returns line true, inside ++ .function .method f names :: outer, initial⟩
        .returnValueFromInitializer
  | thisOutsideClass {r around initial} :
    (∀ e ∈ around, e.isClass = false) → Breaks ⟨.self r, around, initial⟩ .thisOutsideClass
  | superOutsideClass {r around initial} :
    (∀ e ∈ around, e.isClass = false) → Breaks ⟨.super r, around, initial⟩ .superOutsideClass
  | superWithoutSuperclass {r inside name outer initial} :
    (∀ e ∈ inside, e.isClass = false) →
      Breaks ⟨.super r, inside ++ .classBody name none :: outer, initial⟩ .superWithoutSuperclass

end Checkpoint

inductive Reported : List Checkpoint → List Diagnostic → Prop
  | nil : Reported [] []
  | broken {p fault ps ds} :
    p.Breaks fault → Reported ps ds → Reported (p :: ps) (.scoping p.place fault :: ds)
  | kept {p ps ds} :
    (∀ fault, ¬p.Breaks fault) → Reported ps ds → Reported (p :: ps) ds

-- The checkpoints of a program.

mutual

def Expr.checkpoints (around : List Enclosure) (initial : Option String) :
    Expr → List Checkpoint
  | .literal _ => []
  | .grouping inner | .unary _ _ inner | .assign _ inner | .get inner _ =>
    inner.checkpoints around initial
  | .binary _ _ left right | .logical _ left right =>
    left.checkpoints around initial ++ right.checkpoints around initial
  | .set object _ value => value.checkpoints around initial ++ object.checkpoints around initial
  | .call callee _ arguments =>
    callee.checkpoints around initial ++ Expr.checkpointsAll around initial arguments
  | .var r => [⟨.reads r, around, initial⟩]
  | .self r => [⟨.self r, around, initial⟩]
  | .super r _ => [⟨.super r, around, initial⟩]

def Expr.checkpointsAll (around : List Enclosure) (initial : Option String) :
    List Expr → List Checkpoint
  | [] => []
  | e :: rest => e.checkpoints around initial ++ Expr.checkpointsAll around initial rest

end

def Expr.checkpointsOf (around : List Enclosure) (initial : Option String) (e : Option Expr) :
    List Checkpoint :=
  (e.map (Expr.checkpoints around initial)).getD []

def FunctionDecl.parameterCheckpoints (outer : List Enclosure) (kind : FunctionKind)
    (f : FunctionDecl) (names : List String) : List Name → List Checkpoint
  | [] => []
  | p :: rest =>
    ⟨.declares p, .function kind f names :: outer, none⟩ ::
      f.parameterCheckpoints outer kind (names ++ [p.text]) rest

def classCheckpoints (around : List Enclosure) (name : Name) (above : Option Reference) :
    List Checkpoint :=
  match above with
  | none => [⟨.declares name, around, none⟩]
  | some r =>
    [⟨.declares name, around, none⟩, ⟨.inherits name r, around, none⟩,
      ⟨.reads r, Enclosure.declareIn [name.text] around, none⟩]

mutual

def Stmt.checkpoints (around : List Enclosure) : Stmt → List Checkpoint
  | .expression e | .print e => e.checkpoints around none
  | .varDecl name initial =>
    ⟨.declares name, around, none⟩ :: Expr.checkpointsOf around (some name.text) initial
  | .block body => Stmt.checkpointsAll (.block [] :: around) body
  | .ifElse condition consequent none =>
    condition.checkpoints around none ++ consequent.checkpoints around
  | .ifElse condition consequent (some alternative) =>
    condition.checkpoints around none ++
      (consequent.checkpoints around ++
        alternative.checkpoints (Enclosure.declareIn consequent.introduced around))
  | .loop condition body step =>
    condition.checkpoints around none ++
      (body.checkpoints around ++
        Expr.checkpointsOf (Enclosure.declareIn body.introduced around) none step)
  | .funDecl f =>
    ⟨.declares f.name, around, none⟩ ::
      f.checkpoints (Enclosure.declareIn [f.name.text] around) .function
  | .classDecl name above methods =>
    classCheckpoints around name above ++
      FunctionDecl.checkpointsAll
        (.classBody name above :: Enclosure.declareIn [name.text] around) methods
  | .returning line value =>
    ⟨.returns line value.isSome, around, none⟩ :: Expr.checkpointsOf around none value
  | .jump _ => []

def Stmt.checkpointsAll (around : List Enclosure) : List Stmt → List Checkpoint
  | [] => []
  | first :: rest =>
    first.checkpoints around ++
      Stmt.checkpointsAll (Enclosure.declareIn first.introduced around) rest

def FunctionDecl.checkpoints (outer : List Enclosure) (kind : FunctionKind) :
    FunctionDecl → List Checkpoint
  | .mk name parameters body =>
    FunctionDecl.parameterCheckpoints outer kind (.mk name parameters body) [] parameters ++
      Stmt.checkpointsAll
        (.function kind (.mk name parameters body) (parameters.map Name.text) :: outer) body

def FunctionDecl.checkpointsAll (outer : List Enclosure) : List FunctionDecl → List Checkpoint
  | [] => []
  | f :: rest => f.checkpoints outer .method ++ FunctionDecl.checkpointsAll outer rest

end

-- The walk hands down what stands around it as two words, one for the function, one for the class.

namespace Enclosure

def context : List Enclosure → ScopeContext
  | [] => .topLevel
  | .block _ :: outer => context outer
  | .function .function _ _ :: outer => { context outer with function := .function }
  | .function .method f _ :: outer => { context outer with function := .ofMethod f }
  | .classBody _ above :: outer => { context outer with owner := .of above }

@[simp]
theorem context_declareIn (more : List String) (around : List Enclosure) :
    context (declareIn more around) = context around := by
  cases around with
  | nil => rfl
  | cons inner outer =>
    cases inner with
    | block | classBody => rfl
    | function kind => cases kind <;> rfl

theorem function_context_append {inside : List Enclosure}
    (before : ∀ e ∈ inside, e.isFunction = false) (rest : List Enclosure) :
    (context (inside ++ rest)).function = (context rest).function := by
  induction inside with
  | nil => rfl
  | cons e inside ih =>
    have others := ih fun e' mem => before e' (List.mem_cons_of_mem e mem)
    cases e with
    | block | classBody => exact others
    | function => cases before _ List.mem_cons_self

theorem owner_context_append {inside : List Enclosure}
    (before : ∀ e ∈ inside, e.isClass = false) (rest : List Enclosure) :
    (context (inside ++ rest)).owner = (context rest).owner := by
  induction inside with
  | nil => rfl
  | cons e inside ih =>
    have others := ih fun e' mem => before e' (List.mem_cons_of_mem e mem)
    cases e with
    | block => exact others
    | function kind => cases kind <;> exact others
    | classBody => cases before _ List.mem_cons_self

theorem function_context {around : List Enclosure} (none : ∀ e ∈ around, e.isFunction = false) :
    (context around).function = .outside := by
  have whole := function_context_append none []
  rwa [List.append_nil] at whole

theorem owner_context {around : List Enclosure} (none : ∀ e ∈ around, e.isClass = false) :
    (context around).owner = .outside := by
  have whole := owner_context_append none []
  rwa [List.append_nil] at whole

theorem innermost_function (around : List Enclosure) :
    (∀ e ∈ around, e.isFunction = false) ∨
      ∃ inside e outer, around = inside ++ e :: outer ∧ (∀ e' ∈ inside, e'.isFunction = false) ∧
        e.isFunction = true := by
  induction around with
  | nil => exact .inl (by simp)
  | cons e outer ih =>
    by_cases here : e.isFunction = true
    · exact .inr ⟨[], e, outer, rfl, by simp, here⟩
    have other : e.isFunction = false := by simpa using here
    rcases ih with none | ⟨inside, found, rest, rfl, before, function⟩
    · exact .inl (by simpa [other] using none)
    · exact .inr ⟨e :: inside, found, rest, rfl, by simpa [other] using before, function⟩

theorem innermost_class (around : List Enclosure) :
    (∀ e ∈ around, e.isClass = false) ∨
      ∃ inside name above outer, around = inside ++ .classBody name above :: outer ∧
        ∀ e' ∈ inside, e'.isClass = false := by
  induction around with
  | nil => exact .inl (by simp)
  | cons e outer ih =>
    cases e with
    | classBody name above => exact .inr ⟨[], name, above, outer, rfl, by simp⟩
    | block | function =>
      rcases ih with none | ⟨inside, name, above, rest, rfl, before⟩
      · exact .inl (by simpa [isClass] using none)
      · exact .inr ⟨_ :: inside, name, above, rest, rfl, by simpa [isClass] using before⟩

end Enclosure

namespace Checkpoint

variable {around : List Enclosure} {initial : Option String} {fault : ScopeFault}

theorem breaks_returns_iff {line : Nat} {hasValue : Bool} :
    Breaks ⟨.returns line hasValue, around, initial⟩ fault ↔
      match (Enclosure.context around).function with
      | .outside => fault = .returnAtTopLevel
      | .initializer => hasValue = true ∧ fault = .returnValueFromInitializer
      | .function | .method => False := by
  constructor
  · intro broken
    cases broken with
    | returnAtTopLevel none =>
      rw [Enclosure.function_context none]
    -- What stands between the return and its method does not show in the context.
    | returnValueFromInitializer before init =>
      rw [Enclosure.function_context_append before]
      simp [Enclosure.context, FunctionContext.ofMethod, init]
  · intro meant
    rcases Enclosure.innermost_function around with none | ⟨inside, e, outer, rfl, before, here⟩
    · rw [Enclosure.function_context none] at meant
      exact meant ▸ .returnAtTopLevel none
    · rw [Enclosure.function_context_append before] at meant
      cases e with
      | block | classBody => cases here
      | function kind f names =>
      cases kind with
      | function => exact meant.elim
      | method =>
        by_cases init : f.isInitializer = true
        · simp only [Enclosure.context, FunctionContext.ofMethod, init, if_true] at meant
          obtain ⟨rfl, rfl⟩ := meant
          exact .returnValueFromInitializer before init
        · simp [Enclosure.context, FunctionContext.ofMethod, init] at meant

theorem breaks_self_iff {r : Reference} :
    Breaks ⟨.self r, around, initial⟩ fault ↔
      (Enclosure.context around).owner = .outside ∧ fault = .thisOutsideClass := by
  constructor
  · intro broken
    cases broken with
    | thisOutsideClass none => exact ⟨Enclosure.owner_context none, rfl⟩
  · rintro ⟨outside, rfl⟩
    rcases Enclosure.innermost_class around with none | ⟨inside, name, above, outer, rfl, before⟩
    · exact .thisOutsideClass none
    · rw [Enclosure.owner_context_append before] at outside
      cases above <;> cases outside

theorem breaks_super_iff {r : Reference} :
    Breaks ⟨.super r, around, initial⟩ fault ↔
      match (Enclosure.context around).owner with
      | .outside => fault = .superOutsideClass
      | .base => fault = .superWithoutSuperclass
      | .derived => False := by
  constructor
  · intro broken
    cases broken with
    | superOutsideClass none =>
      rw [Enclosure.owner_context none]
    | superWithoutSuperclass before =>
      rw [Enclosure.owner_context_append before]
      rfl
  · intro meant
    rcases Enclosure.innermost_class around with none | ⟨inside, name, above, outer, rfl, before⟩
    · rw [Enclosure.owner_context none] at meant
      exact meant ▸ .superOutsideClass none
    · rw [Enclosure.owner_context_append before] at meant
      cases above with
      | none => exact meant ▸ .superWithoutSuperclass before
      | some r => exact meant.elim

theorem breaks_inherits_iff {name : Name} {r : Reference} :
    Breaks ⟨.inherits name r, around, initial⟩ fault ↔
      r.name.text = name.text ∧ fault = .inheritsFromItself := by
  constructor
  · intro broken
    cases broken with
    | inheritsFromItself same => exact ⟨same, rfl⟩
  · rintro ⟨same, rfl⟩
    exact .inheritsFromItself same

theorem Breaks.unique {p : Checkpoint} {fault' : ScopeFault} (h : p.Breaks fault)
    (h' : p.Breaks fault') : fault = fault' := by
  obtain ⟨deed, around, initial⟩ := p
  cases deed with
  | declares name | reads r | inherits name r | self r =>
    cases h
    cases h'
    rfl
  | returns line hasValue =>
    rw [breaks_returns_iff] at h h'
    split at h <;> simp_all
  | super r =>
    rw [breaks_super_iff] at h h'
    split at h <;> simp_all

end Checkpoint

end ScopeScript
