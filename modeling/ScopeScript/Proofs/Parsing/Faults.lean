import ScopeScript.Proofs.Parsing.Outcome

set_option autoImplicit false

namespace ScopeScript

def Diagnostic.IsSyntactic (d : Diagnostic) : Prop := ∃ place fault, d = .syntactic place fault

namespace Parser

variable {α β : Type}

theorem bind_of_error {p : Parser α} {f : α → Parser β} {c c₁ : Cursor} {fault : Diagnostic}
    (h : p c = .error fault c₁) : (p >>= f) c = .error fault c₁ := by
  change EStateM.bind p f c = _
  simp [EStateM.bind, h]

def reports (p : Parser α) (c : Cursor) : List Diagnostic :=
  match p c with
  | .ok _ c' => c'.faults
  | .error fault c' => c'.faults ++ [fault]

def Adds (p : Parser α) : Prop :=
  ∀ c, ∃ more, reports p c = c.faults ++ more ∧ ∀ d ∈ more, d.IsSyntactic

namespace Adds

variable {p q : Parser α} {f : α → Parser β}

theorem reports (h : Adds p) (c : Cursor) : c.faults <+: Parser.reports p c := by
  obtain ⟨more, noted, -⟩ := h c
  exact ⟨more, noted.symm⟩

theorem bind (first : Adds p) (second : ∀ a, Adds (f a)) : Adds (p >>= f) := by
  intro c
  obtain ⟨more, noted, own⟩ := first c
  cases ran : p c with
  | error d c₁ =>
    simp only [Parser.reports, ran] at noted
    exact ⟨more, by simpa only [Parser.reports, bind_of_error ran] using noted, own⟩
  | ok a c₁ =>
    simp only [Parser.reports, ran] at noted
    obtain ⟨more', noted', own'⟩ := second a c₁
    refine ⟨more ++ more', ?_, fun d mem => (List.mem_append.mp mem).elim (own d) (own' d)⟩
    rw [← List.append_assoc, ← noted, ← noted']
    simp only [Parser.reports, bind_of_ok ran]

theorem still {p : Parser α} (same : ∀ c, ∃ a c', p c = .ok a c' ∧ c'.faults = c.faults) :
    Adds p := by
  intro c
  obtain ⟨a, c', ran, kept⟩ := same c
  refine ⟨[], ?_, by simp⟩
  rw [Parser.reports, ran, List.append_nil]
  exact kept

theorem pure {a : α} : Adds (Pure.pure a) := still fun c => ⟨a, c, rfl, rfl⟩

theorem one {place : Cursor → Place} {fault : SyntaxFault}
    (same : ∀ c, Parser.reports p c = c.faults ++ [.syntactic (place c) fault]) : Adds p := by
  intro c
  refine ⟨_, same c, fun d mem => ?_⟩
  exact ⟨place c, fault, List.mem_singleton.mp mem⟩

theorem fail {what : Expectation} : Adds (Parser.fail what : Parser α) := one fun _ => rfl

theorem take? {f : Kind → Option α} : Adds (Parser.take? f) := by
  refine still fun c => ?_
  unfold Parser.take?
  cases c.rest with
  | nil => exact ⟨none, c, rfl, rfl⟩
  | cons t rest =>
    simp only
    cases f t.kind with
    | none => exact ⟨_, _, rfl, rfl⟩
    | some a => exact ⟨_, _, rfl, rfl⟩

theorem accept {kind : Kind} : Adds (Parser.accept kind) := by
  refine still fun c => ?_
  unfold Parser.accept
  cases c.rest with
  | nil => exact ⟨_, _, rfl, rfl⟩
  | cons t rest =>
    simp only
    split <;> exact ⟨_, _, rfl, rfl⟩

theorem expect {kind : Kind} {what : Expectation} : Adds (Parser.expect kind what) := by
  intro c
  have fails : Adds (Parser.fail what : Parser Token) := fail
  have failed := fails c
  unfold Parser.reports at failed ⊢
  unfold Parser.expect
  cases c.rest with
  | nil => exact failed
  | cons t rest =>
    by_cases same : t.kind = kind
    · simp only [if_pos same]
      exact ⟨[], (List.append_nil _).symm, by simp⟩
    · simp only [if_neg same]
      exact failed

theorem expectName {what : Expectation} : Adds (Parser.expectName what) :=
  expect.bind fun _ => pure

theorem isNext {kind : Kind} : Adds (Parser.isNext kind) := still fun _ => ⟨_, _, rfl, rfl⟩

theorem atEnd : Adds Parser.atEnd := still fun _ => ⟨_, _, rfl, rfl⟩

theorem note {place : Place} {fault : SyntaxFault} : Adds (Parser.note place fault) :=
  one fun _ => rfl

theorem noteHere {fault : SyntaxFault} : Adds (Parser.noteHere fault) := one fun _ => rfl

theorem reference {name : Name} : Adds (Parser.reference name) := still fun _ => ⟨_, _, rfl, rfl⟩

theorem copy {e : Expr} : Adds (Parser.copy e) := still fun _ => ⟨_, _, rfl, rfl⟩

theorem ite {b : Bool} (yes : Adds p) (no : Adds q) : Adds (if b then p else q) := by
  cases b with
  | true => exact yes
  | false => exact no

theorem recovering {s : Parser Stmt} (h : Adds s) : Adds (Parser.recovering s) := by
  intro c
  have added := h c
  unfold Parser.reports Parser.recovering at *
  cases ran : s c with
  | ok a c₁ | error d c₁ => simpa only [ran] using added

end Adds

-- Expressions.

structure ExpressionsAdd (n : Nat) : Prop where
  expression : Adds (expression n)
  rung : ∀ rungs, Adds (rung n rungs)
  rungTail : ∀ r tighter left, Adds (rungTail n r tighter left)
  unary : Adds (unary n)
  suffixes : ∀ e, Adds (suffixes n e)
  arguments : ∀ count, Adds (arguments n count)
  operand : Adds (operand n)

theorem assignTo_adds (target value : Expr) (sign : Token) : Adds (assignTo target value sign) := by
  unfold assignTo
  cases target with
  | var old => exact Adds.reference.bind fun _ => .pure
  | get object name => exact .pure
  | _ => exact Adds.note.bind fun _ => .pure

theorem updateTo_adds (target : Expr) (op : BinaryOp) (value : Expr) (sign : Token) :
    Adds (updateTo target op value sign) := by
  unfold updateTo
  cases target with
  | var old => exact Adds.reference.bind fun _ => assignTo_adds _ _ _
  | get object name => exact Adds.copy.bind fun _ => assignTo_adds _ _ _
  | _ => exact assignTo_adds _ _ _

namespace ExpressionsAdd

variable {n : Nat}

theorem zero : ExpressionsAdd 0 where
  expression := .fail
  rung _ := .fail
  rungTail _ _ _ := .fail
  unary := .fail
  suffixes _ := .fail
  arguments _ := .fail
  operand := .fail

theorem expression_succ (ih : ExpressionsAdd n) : Adds (Parser.expression (n + 1)) := by
  refine (ih.rung ladder).bind fun target => Adds.take?.bind fun found => ?_
  rcases found with _ | ⟨_ | op | op, sign⟩
  · exact .pure
  · exact ih.expression.bind fun _ => assignTo_adds _ _ _
  · exact ih.expression.bind fun _ => updateTo_adds _ _ _ _
  · exact updateTo_adds _ _ _ _

theorem rung_succ (ih : ExpressionsAdd n) (rungs : List Rung) :
    Adds (Parser.rung (n + 1) rungs) := by
  cases rungs with
  | nil => exact ih.unary
  | cons r tighter => exact (ih.rung tighter).bind fun left => ih.rungTail r tighter left

theorem rungTail_succ (ih : ExpressionsAdd n) (r : Rung) (tighter : List Rung) (left : Expr) :
    Adds (Parser.rungTail (n + 1) r tighter left) := by
  refine Adds.take?.bind fun found => ?_
  rcases found with _ | ⟨op, sign⟩
  · exact .pure
  · exact (ih.rung tighter).bind fun right => ih.rungTail r tighter _

theorem unary_succ (ih : ExpressionsAdd n) : Adds (Parser.unary (n + 1)) := by
  refine Adds.take?.bind fun found => ?_
  rcases found with _ | ⟨op, sign⟩
  · exact ih.operand.bind fun e => ih.suffixes e
  · exact ih.unary.bind fun _ => .pure

theorem suffixes_succ (ih : ExpressionsAdd n) (e : Expr) :
    Adds (Parser.suffixes (n + 1) e) := by
  refine Adds.take?.bind fun found => ?_
  rcases found with _ | ⟨_ | _, sign⟩
  · exact .pure
  · have finish (es : List Expr) : Adds
        (do
          let close ← expect (.punctuator .rightParen) .argumentsEnd
          Parser.suffixes n (.call e close.line es)) :=
      Adds.expect.bind fun close => ih.suffixes _
    exact Adds.isNext.bind fun _ => .ite (Adds.pure.bind finish) ((ih.arguments 0).bind finish)
  · exact Adds.expectName.bind fun name => ih.suffixes _

theorem arguments_succ (ih : ExpressionsAdd n) (count : Nat) :
    Adds (Parser.arguments (n + 1) count) := by
  have list : Adds
      (do
        let e ← Parser.expression n
        if ← accept (.punctuator .comma) then return e :: (← Parser.arguments n (count + 1))
        else return [e]) :=
    ih.expression.bind fun _ => Adds.accept.bind fun _ =>
      .ite ((ih.arguments (count + 1)).bind fun _ => .pure) .pure
  unfold Parser.arguments
  by_cases full : maxArity ≤ count
  · simpa only [full, if_true] using Adds.noteHere.bind fun _ => list
  · simpa only [full, if_false] using list

theorem operand_succ (ih : ExpressionsAdd n) : Adds (Parser.operand (n + 1)) := by
  refine Adds.take?.bind fun found => ?_
  rcases found with _ | ⟨_ | _ | _ | _ | _, word⟩
  · exact .fail
  · exact .pure
  · exact Adds.reference.bind fun _ => .pure
  · exact Adds.reference.bind fun _ => .pure
  · exact Adds.expect.bind fun _ => Adds.expectName.bind fun _ => Adds.reference.bind fun _ => .pure
  · exact ih.expression.bind fun _ => Adds.expect.bind fun _ => .pure

end ExpressionsAdd

theorem expressions_add (n : Nat) : ExpressionsAdd n := by
  induction n with
  | zero => exact .zero
  | succ n ih =>
    exact {
      expression := ih.expression_succ
      rung := ih.rung_succ
      rungTail := ih.rungTail_succ
      unary := ih.unary_succ
      suffixes := ih.suffixes_succ
      arguments := ih.arguments_succ
      operand := ih.operand_succ }

-- Statements.

theorem expression_adds (n : Nat) : Adds (expression n) := (expressions_add n).expression

theorem expressionUnless_adds (n : Nat) (kind : Kind) : Adds (expressionUnless n kind) :=
  Adds.isNext.bind fun _ => .ite .pure ((expression_adds n).bind fun _ => .pure)

theorem expressionStatement_adds (n : Nat) : Adds (expressionStatement n) :=
  (expression_adds n).bind fun _ => Adds.expect.bind fun _ => .pure

theorem varDeclaration_adds (n : Nat) : Adds (varDeclaration n) := by
  refine Adds.expectName.bind fun name => Adds.accept.bind fun found => ?_
  have finish (initial : Option Expr) : Adds
      (do
        let _ ← expect (.punctuator .semicolon) .variableEnd
        return Stmt.varDecl name initial) :=
    Adds.expect.bind fun _ => .pure
  exact .ite ((expression_adds n).bind fun _ => Adds.pure.bind finish) (Adds.pure.bind finish)

theorem forInitial_adds (n : Nat) : Adds (forInitial n) :=
  Adds.accept.bind fun _ => .ite .pure (Adds.accept.bind fun _ =>
    .ite ((varDeclaration_adds n).bind fun _ => .pure)
      ((expressionStatement_adds n).bind fun _ => .pure))

theorem parameters_adds (n count : Nat) : Adds (parameters n count) := by
  induction n generalizing count with
  | zero => exact .fail
  | succ n ih =>
    have list : Adds
        (do
          let name ← expectName .parameterName
          if ← accept (.punctuator .comma) then return name :: (← parameters n (count + 1))
          else return [name]) :=
      Adds.expectName.bind fun _ => Adds.accept.bind fun _ =>
        .ite ((ih (count + 1)).bind fun _ => .pure) .pure
    unfold parameters
    by_cases full : maxArity ≤ count
    · simpa only [full, if_true] using Adds.noteHere.bind fun _ => list
    · simpa only [full, if_false] using list

theorem functionHead_adds (n : Nat) (kind : FunctionKind) : Adds (functionHead n kind) := by
  refine Adds.expectName.bind fun name => Adds.expect.bind fun _ => Adds.isNext.bind fun found => ?_
  have finish (names : List Name) : Adds
      (do
        let _ ← expect (.punctuator .rightParen) .parametersEnd
        let _ ← expect (.punctuator .leftBrace) (.bodyStart kind)
        return (name, names)) :=
    Adds.expect.bind fun _ => Adds.expect.bind fun _ => .pure
  exact .ite (Adds.pure.bind finish) ((parameters_adds n 0).bind finish)

theorem classHead_adds : Adds classHead := by
  refine Adds.expectName.bind fun name => Adds.accept.bind fun found => ?_
  have finish (above : Option Reference) : Adds
      (do
        let _ ← expect (.punctuator .leftBrace) .classStart
        return (name, above)) :=
    Adds.expect.bind fun _ => .pure
  exact .ite (Adds.expectName.bind fun _ => Adds.reference.bind fun _ => Adds.pure.bind finish)
    (Adds.pure.bind finish)

theorem jumpStatement_adds (inLoop : Bool) (kind : Jump) (word : Token) :
    Adds (jumpStatement inLoop kind word) := by
  have finish : Adds
      (do
        let _ ← expect (.punctuator .semicolon) (.jumpEnd kind)
        return Stmt.jump kind) :=
    Adds.expect.bind fun _ => .pure
  exact .ite (Adds.note.bind fun _ => finish) finish

structure StatementsAdd (n : Nat) : Prop where
  declaration : ∀ inLoop, Adds (declaration n inLoop)
  statement : ∀ inLoop, Adds (statement n inLoop)
  block : ∀ inLoop, Adds (block n inLoop)
  function : ∀ kind, Adds (function n kind)
  methods : Adds (methods n)

namespace StatementsAdd

variable {n : Nat}

theorem zero : StatementsAdd 0 where
  declaration _ := .fail
  statement _ := .fail
  block _ := .fail
  function _ := .fail
  methods := .fail

theorem declaration_succ (ih : StatementsAdd n) (inLoop : Bool) :
    Adds (Parser.declaration (n + 1) inLoop) := by
  refine .recovering (Adds.take?.bind fun found => ?_)
  rcases found with _ | ⟨_ | _ | _, word⟩
  · exact ih.statement inLoop
  · exact classHead_adds.bind fun _ => ih.methods.bind fun _ => Adds.expect.bind fun _ => .pure
  · exact (ih.function .function).bind fun _ => .pure
  · exact varDeclaration_adds n

theorem statement_succ (ih : StatementsAdd n) (inLoop : Bool) :
    Adds (Parser.statement (n + 1) inLoop) := by
  refine Adds.take?.bind fun found => ?_
  rcases found with _ | ⟨lead, word⟩
  · exact expressionStatement_adds n
  cases lead with
  | jump kind => exact jumpStatement_adds inLoop kind word
  | forLoop =>
    exact Adds.expect.bind fun _ => (forInitial_adds n).bind fun _ =>
      (expressionUnless_adds n _).bind fun _ => Adds.expect.bind fun _ =>
        (expressionUnless_adds n _).bind fun _ => Adds.expect.bind fun _ =>
          (ih.statement true).bind fun _ => .pure
  | whileLoop =>
    exact Adds.expect.bind fun _ => (expression_adds n).bind fun _ => Adds.expect.bind fun _ =>
      (ih.statement true).bind fun _ => .pure
  | branch =>
    exact Adds.expect.bind fun _ => (expression_adds n).bind fun _ => Adds.expect.bind fun _ =>
      (ih.statement inLoop).bind fun _ => Adds.accept.bind fun _ =>
        .ite ((ih.statement inLoop).bind fun _ => .pure) .pure
  | print => exact (expression_adds n).bind fun _ => Adds.expect.bind fun _ => .pure
  | returning => exact (expressionUnless_adds n _).bind fun _ => Adds.expect.bind fun _ => .pure
  | block => exact (ih.block inLoop).bind fun _ => .pure

theorem block_succ (ih : StatementsAdd n) (inLoop : Bool) :
    Adds (Parser.block (n + 1) inLoop) :=
  Adds.atEnd.bind fun _ => Adds.isNext.bind fun _ =>
    .ite (Adds.expect.bind fun _ => .pure)
      ((ih.declaration inLoop).bind fun _ => (ih.block inLoop).bind fun _ => .pure)

theorem function_succ (ih : StatementsAdd n) (kind : FunctionKind) :
    Adds (Parser.function (n + 1) kind) :=
  (functionHead_adds n kind).bind fun _ => (ih.block false).bind fun _ => .pure

theorem methods_succ (ih : StatementsAdd n) : Adds (Parser.methods (n + 1)) :=
  Adds.atEnd.bind fun _ => Adds.isNext.bind fun _ =>
    .ite .pure ((ih.function .method).bind fun _ => ih.methods.bind fun _ => .pure)

end StatementsAdd

theorem statements_add (n : Nat) : StatementsAdd n := by
  induction n with
  | zero => exact .zero
  | succ n ih =>
    exact {
      declaration := ih.declaration_succ
      statement := ih.statement_succ
      block := ih.block_succ
      function := ih.function_succ
      methods := ih.methods_succ }

theorem program_adds (n : Nat) : Adds (program n) := by
  induction n with
  | zero => exact .fail
  | succ n ih =>
    exact Adds.atEnd.bind fun _ => .ite .pure
      (((statements_add n).declaration false).bind fun _ => ih.bind fun _ => .pure)

end Parser

open ScopeScript.Parser

def Parsed.faults (p : Parsed) : List Diagnostic :=
  match p.result with
  | .ok _ => []
  | .error faults => faults

theorem faults_parse (tokens : List Token) (firstId : Nat) :
    (parse tokens firstId).faults =
      reports (program (depthFor tokens.length)) (Cursor.start tokens firstId) := by
  unfold parse reports Parsed.faults
  cases program (depthFor tokens.length) (Cursor.start tokens firstId) with
  | error fault c => rfl
  | ok body c =>
    by_cases clean : c.faults = []
    · simp [clean]
    · simp [clean]

theorem isSyntactic_of_parse {tokens : List Token} {firstId : Nat} :
    ∀ d ∈ (parse tokens firstId).faults, d.IsSyntactic := by
  obtain ⟨more, noted, own⟩ :=
    program_adds (depthFor tokens.length) (Cursor.start tokens firstId)
  rw [faults_parse, noted]
  exact own

theorem ne_nil_of_parse {tokens : List Token} {firstId : Nat} {errors : List Diagnostic}
    (refused : (parse tokens firstId).result = .error errors) : errors ≠ [] := by
  unfold parse at refused
  cases ran : program (depthFor tokens.length) (Cursor.start tokens firstId) with
  | error fault c =>
    simp only [ran, Except.error.injEq] at refused
    simp [← refused]
  | ok body c =>
    simp only [ran] at refused
    split at refused
    · cases refused
    next unclean =>
      obtain rfl := Except.error.inj refused
      simpa using unclean

end ScopeScript
