import ScopeScript.Proofs.Syntax.Lines
import ScopeScript.Syntax.Grammar

set_option autoImplicit false

namespace ScopeScript

def Token.mapLine (g : Nat → Nat) (t : Token) : Token := { t with line := g t.line }

def Place.mapLine (g : Nat → Nat) (place : Place) : Place := { place with line := g place.line }

def Diagnostic.mapLine (g : Nat → Nat) : Diagnostic → Diagnostic
  | .lexical line fault => .lexical (g line) fault
  | .syntactic place fault => .syntactic (place.mapLine g) fault
  | .scoping place fault => .scoping (place.mapLine g) fault
  | .importing line fault => .importing (g line) fault
  | .runtime line fault => .runtime (g line) fault
  | .output reason => .output reason

theorem Diagnostic.mapLine_id (d : Diagnostic) : d.mapLine id = d := by
  cases d <;> rfl

section

variable (k : Nat) (g : Nat → Nat)

def Reference.moved (r : Reference) : Reference := (r.mapLine g).mapId (· + k)

def Expr.moved (e : Expr) : Expr := (e.mapLines g).mapIds (· + k)

def Stmt.moved (s : Stmt) : Stmt := (s.mapLines g).mapIds (· + k)

def FunctionDecl.moved (f : FunctionDecl) : FunctionDecl := (f.mapLines g).mapIds (· + k)

def Cursor.moved (c : Cursor) : Cursor where
  rest := c.rest.map (Token.mapLine g)
  endLine := g c.endLine
  nextId := c.nextId + k
  faults := c.faults.map (Diagnostic.mapLine g)

end

mutual

theorem Expr.renumber_moved (k : Nat) (g : Nat → Nat) : ∀ (e : Expr) (next : Nat),
    (e.moved k g).renumber (next + k) = ((e.renumber next).1.moved k g, (e.renumber next).2 + k)
  | .literal _, next => rfl
  | .var _, next | .self _, next | .super .., next => by
    simp only [Expr.moved, Expr.mapLines, Expr.mapIds, Expr.renumber, Reference.mapId,
      Reference.mapLine, Nat.add_right_comm]
  | .grouping inner, next | .unary _ _ inner, next | .get inner _, next => by
    have part := Expr.renumber_moved k g inner next
    simp only [Expr.moved] at part
    simp only [Expr.moved, Expr.mapLines, Expr.mapIds, Expr.renumber, part]
  | .assign _ inner, next => by
    have part := Expr.renumber_moved k g inner (next + 1)
    simp only [Expr.moved, Nat.add_right_comm _ 1 k] at part
    simp only [Expr.moved, Expr.mapLines, Expr.mapIds, Expr.renumber, Reference.mapId,
      Reference.mapLine, part]
  | .binary _ _ left right, next | .logical _ left right, next | .set left _ right, next => by
    have first := Expr.renumber_moved k g left next
    have second := Expr.renumber_moved k g right (left.renumber next).2
    simp only [Expr.moved] at first second
    simp only [Expr.moved, Expr.mapLines, Expr.mapIds, Expr.renumber, first, second]
  | .call callee _ arguments, next => by
    have first := Expr.renumber_moved k g callee next
    have second := Expr.renumberAll_moved k g arguments (callee.renumber next).2
    simp only [Expr.moved] at first
    simp only [Expr.moved, Expr.mapLines, Expr.mapIds, Expr.renumber, first, second]

theorem Expr.renumberAll_moved (k : Nat) (g : Nat → Nat) : ∀ (es : List Expr) (next : Nat),
    Expr.renumberAll (next + k) (Expr.mapIdsAll (· + k) (Expr.mapLinesAll g es)) =
      (Expr.mapIdsAll (· + k) (Expr.mapLinesAll g (Expr.renumberAll next es).1),
        (Expr.renumberAll next es).2 + k)
  | [], next => rfl
  | e :: rest, next => by
    have first := Expr.renumber_moved k g e next
    have second := Expr.renumberAll_moved k g rest (e.renumber next).2
    simp only [Expr.moved] at first
    simp only [Expr.mapLinesAll, Expr.mapIdsAll, Expr.renumberAll, first, second]

end

namespace Parser

variable {α β : Type} {k : Nat} {g : Nat → Nat}

def movedResult (k : Nat) (g : Nat → Nat) (T : α → α) :
    EStateM.Result Diagnostic Cursor α → EStateM.Result Diagnostic Cursor α
  | .ok a c => .ok (T a) (c.moved k g)
  | .error d c => .error (d.mapLine g) (c.moved k g)

def Moves (k : Nat) (g : Nat → Nat) (T : α → α) (p p' : Parser α) : Prop :=
  ∀ c, p' (c.moved k g) = movedResult k g T (p c)

namespace Moves

variable {p p' : Parser α} {f f' : α → Parser β} {T : α → α} {U : β → β}

theorem bind (first : Moves k g T p p') (second : ∀ a, Moves k g U (f a) (f' (T a))) :
    Moves k g U (p >>= f) (p' >>= f') := by
  intro c
  change EStateM.bind p' f' (c.moved k g) = movedResult k g U (EStateM.bind p f c)
  unfold EStateM.bind
  rw [first c]
  cases p c with
  | ok a c₁ => exact second a c₁
  | error d c₁ => rfl

theorem pure {a a' : α} (same : a' = T a) :
    Moves k g T (Pure.pure a : Parser α) (Pure.pure a') := by
  intro c
  rw [same]
  rfl

theorem place_moved (c : Cursor) : (c.moved k g).place = c.place.mapLine g := by
  unfold Cursor.place Cursor.moved
  cases c.rest <;> rfl

theorem fail (what : Expectation) : Moves k g T (Parser.fail what) (Parser.fail what) := by
  intro c
  simp [Parser.fail, movedResult, Diagnostic.mapLine, place_moved]

theorem note {place place' : Place} {fault : SyntaxFault} (same : place' = place.mapLine g) :
    Moves k g id (Parser.note place fault) (Parser.note place' fault) := by
  intro c
  simp [Parser.note, movedResult, Cursor.moved, Diagnostic.mapLine, same]

theorem noteHere {fault : SyntaxFault} :
    Moves k g id (Parser.noteHere fault) (Parser.noteHere fault) :=
  fun c => note (place_moved c) c

theorem atEnd : Moves k g id Parser.atEnd Parser.atEnd := by
  intro c
  simp [Parser.atEnd, movedResult, Cursor.moved]

theorem isNext {kind : Kind} : Moves k g id (Parser.isNext kind) (Parser.isNext kind) := by
  intro c
  cases rest : c.rest with
  | nil => simp [Parser.isNext, movedResult, Cursor.moved, rest]
  | cons t more => simp [Parser.isNext, movedResult, Cursor.moved, rest, Token.mapLine]

theorem take? {f : Kind → Option α} :
    Moves k g (Option.map fun found => (found.1, found.2.mapLine g)) (Parser.take? f)
      (Parser.take? f) := by
  intro c
  unfold Parser.take?
  cases rest : c.rest with
  | nil => simp [movedResult, Cursor.moved, rest]
  | cons t more =>
    cases meant : f t.kind <;>
      simp [movedResult, Cursor.moved, rest, Token.mapLine, meant]

theorem accept {kind : Kind} : Moves k g id (Parser.accept kind) (Parser.accept kind) := by
  intro c
  unfold Parser.accept
  cases rest : c.rest with
  | nil => simp [movedResult, Cursor.moved, rest]
  | cons t more =>
    by_cases same : t.kind = kind <;>
      simp [movedResult, Cursor.moved, rest, Token.mapLine, same]

theorem expect {kind : Kind} {what : Expectation} :
    Moves k g (Token.mapLine g) (Parser.expect kind what) (Parser.expect kind what) := by
  intro c
  unfold Parser.expect
  cases rest : c.rest with
  | nil =>
    have stops := fail (k := k) (g := g) (T := Token.mapLine g) what c
    simpa [Cursor.moved, rest] using stops
  | cons t more =>
    have stops := fail (k := k) (g := g) (T := Token.mapLine g) what c
    by_cases same : t.kind = kind
    · simp [movedResult, Cursor.moved, rest, Token.mapLine, same]
    · simpa [Cursor.moved, rest, Token.mapLine, same] using stops

theorem expectName {what : Expectation} :
    Moves k g (Name.mapLine g) (Parser.expectName what) (Parser.expectName what) :=
  expect.bind fun _ => .pure rfl

theorem reference {name name' : Name} (same : name' = name.mapLine g) :
    Moves k g (Reference.moved k g) (Parser.reference name) (Parser.reference name') := by
  intro c
  rw [same]
  simp only [movedResult, Cursor.moved, Reference.moved, Reference.mapId, Reference.mapLine]
  change EStateM.Result.ok _ _ = EStateM.Result.ok _ _
  simp [Nat.add_right_comm]

theorem copy {e e' : Expr} (same : e' = e.moved k g) :
    Moves k g (Expr.moved k g) (Parser.copy e) (Parser.copy e') := by
  intro c
  rw [same]
  simp [Parser.copy, movedResult, Cursor.moved, Expr.renumber_moved]

theorem recovering {s s' : Parser Stmt} (h : Moves k g (Stmt.moved k g) s s') :
    Moves k g (Option.map (Stmt.moved k g)) (Parser.recovering s) (Parser.recovering s') := by
  have resumes (previous : Token) (ts : List Token) :
      resume (previous.mapLine g) (ts.map (Token.mapLine g)) =
        (resume previous ts).map (Token.mapLine g) := by
    induction ts generalizing previous with
    | nil => rfl
    | cons t rest ih =>
      simp only [List.map_cons, resume, Token.mapLine]
      split
      · rfl
      · exact ih t
  intro c
  unfold Parser.recovering
  rw [h c]
  cases s c with
  | ok a c₁ => rfl
  | error d c₁ =>
    cases rest : c₁.rest with
    | nil => simp [movedResult, Cursor.moved, rest, synchronize]
    | cons t more => simp [movedResult, Cursor.moved, rest, synchronize, resumes]

end Moves

-- Expressions.

theorem assignTo_moves (target value : Expr) (sign : Token) :
    Moves k g (Expr.moved k g) (assignTo target value sign)
      (assignTo (target.moved k g) (value.moved k g) (sign.mapLine g)) := by
  cases target with
  | var old => exact (Moves.reference rfl).bind fun _ => .pure rfl
  | get object name => exact .pure rfl
  | _ => exact (Moves.note rfl).bind fun _ => .pure rfl

theorem updateTo_moves (target : Expr) (op : BinaryOp) (value : Expr) (sign : Token) :
    Moves k g (Expr.moved k g) (updateTo target op value sign)
      (updateTo (target.moved k g) op (value.moved k g) (sign.mapLine g)) := by
  cases target with
  | var old =>
    exact (Moves.reference rfl).bind fun current =>
      assignTo_moves (.var old) (.binary op sign.line (.var current) value) sign
  | get object name =>
    exact (Moves.copy rfl).bind fun current =>
      assignTo_moves (.get object name) (.binary op sign.line (.get current name) value) sign
  | _ => exact (Moves.note rfl).bind fun _ => .pure rfl

structure ExpressionsMove (k : Nat) (g : Nat → Nat) (n : Nat) : Prop where
  expression : Moves k g (Expr.moved k g) (expression n) (expression n)
  rung : ∀ rungs, Moves k g (Expr.moved k g) (rung n rungs) (rung n rungs)
  rungTail : ∀ r tighter (left : Expr), Moves k g (Expr.moved k g) (rungTail n r tighter left)
    (rungTail n r tighter (left.moved k g))
  unary : Moves k g (Expr.moved k g) (unary n) (unary n)
  suffixes : ∀ e : Expr, Moves k g (Expr.moved k g) (suffixes n e) (suffixes n (e.moved k g))
  arguments : ∀ count, Moves k g (List.map (Expr.moved k g)) (arguments n count)
    (arguments n count)
  operand : Moves k g (Expr.moved k g) (operand n) (operand n)

theorem moved_node (op : Infix) (line : Nat) (left right : Expr) :
    (op.node line left right).moved k g =
      op.node (g line) (left.moved k g) (right.moved k g) := by
  cases op <;> rfl

theorem moved_call (e : Expr) (line : Nat) (es : List Expr) :
    (Expr.call e line es).moved k g =
      .call (e.moved k g) (g line) (es.map (Expr.moved k g)) := by
  have list : Expr.mapIdsAll (· + k) (Expr.mapLinesAll g es) = es.map (Expr.moved k g) := by
    induction es with
    | nil => rfl
    | cons e rest ih => simp [Expr.mapLinesAll, Expr.mapIdsAll, ih, Expr.moved]
  simp [Expr.moved, Expr.mapLines, Expr.mapIds, list]

namespace ExpressionsMove

variable {n : Nat}

theorem zero : ExpressionsMove k g 0 where
  expression := .fail _
  rung _ := .fail _
  rungTail _ _ _ := .fail _
  unary := .fail _
  suffixes _ := .fail _
  arguments _ := .fail _
  operand := .fail _

theorem expression_succ (ih : ExpressionsMove k g n) :
    Moves k g (Expr.moved k g) (Parser.expression (n + 1)) (Parser.expression (n + 1)) := by
  refine (ih.rung ladder).bind fun target => Moves.take?.bind fun found => ?_
  cases found with
  | none => exact .pure rfl
  | some found =>
    obtain ⟨form, sign⟩ := found
    cases form with
    | plain => exact ih.expression.bind fun value => assignTo_moves _ _ _
    | compound op => exact ih.expression.bind fun value => updateTo_moves _ _ _ _
    | step op => exact updateTo_moves target op (.literal (.number 1)) sign

theorem rung_succ (ih : ExpressionsMove k g n) (rungs : List Rung) :
    Moves k g (Expr.moved k g) (Parser.rung (n + 1) rungs) (Parser.rung (n + 1) rungs) := by
  cases rungs with
  | nil => exact ih.unary
  | cons r tighter => exact (ih.rung tighter).bind fun left => ih.rungTail r tighter left

theorem rungTail_succ (ih : ExpressionsMove k g n) (r : Rung) (tighter : List Rung)
    (left : Expr) : Moves k g (Expr.moved k g) (Parser.rungTail (n + 1) r tighter left)
      (Parser.rungTail (n + 1) r tighter (left.moved k g)) := by
  refine Moves.take?.bind fun found => ?_
  cases found with
  | none => exact .pure rfl
  | some found =>
    obtain ⟨op, sign⟩ := found
    refine (ih.rung tighter).bind fun right => ?_
    have next := ih.rungTail r tighter (op.node sign.line left right)
    rw [moved_node] at next
    exact next

theorem unary_succ (ih : ExpressionsMove k g n) :
    Moves k g (Expr.moved k g) (Parser.unary (n + 1)) (Parser.unary (n + 1)) := by
  refine Moves.take?.bind fun found => ?_
  cases found with
  | none => exact ih.operand.bind fun e => ih.suffixes e
  | some found => exact ih.unary.bind fun e => .pure rfl

theorem suffixes_succ (ih : ExpressionsMove k g n) (e : Expr) :
    Moves k g (Expr.moved k g) (Parser.suffixes (n + 1) e)
      (Parser.suffixes (n + 1) (e.moved k g)) := by
  refine Moves.take?.bind fun found => ?_
  cases found with
  | none => exact .pure rfl
  | some found =>
    obtain ⟨suffix, sign⟩ := found
    cases suffix with
    | call =>
      have finish (es : List Expr) : Moves k g (Expr.moved k g)
          (do
            let close ← expect (.punctuator .rightParen) .argumentsEnd
            Parser.suffixes n (.call e close.line es))
          (do
            let close ← expect (.punctuator .rightParen) .argumentsEnd
            Parser.suffixes n (.call (e.moved k g) close.line (es.map (Expr.moved k g)))) := by
        refine Moves.expect.bind fun close => ?_
        have next := ih.suffixes (.call e close.line es)
        rw [moved_call] at next
        exact next
      refine Moves.isNext.bind fun closes => ?_
      cases closes with
      | true => exact finish []
      | false => exact (ih.arguments 0).bind finish
    | property => exact Moves.expectName.bind fun name => ih.suffixes (.get e name)

theorem arguments_succ (ih : ExpressionsMove k g n) (count : Nat) :
    Moves k g (List.map (Expr.moved k g)) (Parser.arguments (n + 1) count)
      (Parser.arguments (n + 1) count) := by
  have list : Moves k g (List.map (Expr.moved k g))
      (do
        let e ← Parser.expression n
        if ← accept (.punctuator .comma) then return e :: (← Parser.arguments n (count + 1))
        else return [e])
      (do
        let e ← Parser.expression n
        if ← accept (.punctuator .comma) then return e :: (← Parser.arguments n (count + 1))
        else return [e]) := by
    refine ih.expression.bind fun e => Moves.accept.bind fun more => ?_
    cases more with
    | true => exact (ih.arguments (count + 1)).bind fun es => .pure rfl
    | false => exact .pure rfl
  unfold Parser.arguments
  by_cases full : maxArity ≤ count
  · simpa only [full, if_true] using Moves.noteHere.bind fun _ => list
  · simpa only [full, if_false] using list

theorem operand_succ (ih : ExpressionsMove k g n) :
    Moves k g (Expr.moved k g) (Parser.operand (n + 1)) (Parser.operand (n + 1)) := by
  refine Moves.take?.bind fun found => ?_
  cases found with
  | none => exact .fail _
  | some found =>
    obtain ⟨atom, t⟩ := found
    cases atom with
    | literal value => exact .pure rfl
    | name | self => exact (Moves.reference rfl).bind fun r => .pure rfl
    | super =>
      exact Moves.expect.bind fun _ => Moves.expectName.bind fun _ =>
        (Moves.reference rfl).bind fun r => .pure rfl
    | group => exact ih.expression.bind fun e => Moves.expect.bind fun _ => .pure rfl

end ExpressionsMove

theorem expressions_move (k : Nat) (g : Nat → Nat) (n : Nat) : ExpressionsMove k g n := by
  induction n with
  | zero => exact .zero
  | succ n ih =>
    exact {
      expression := ih.expression_succ
      rung := ih.rung_succ
      rungTail := ih.rungTail_succ
      unary := ih.unary_succ
      suffixes := ih.suffixes_succ
      arguments := ih.arguments_succ
      operand := ih.operand_succ }

-- Statements.

theorem moved_all (body : List Stmt) :
    Stmt.mapIdsAll (· + k) (Stmt.mapLinesAll g body) = body.map (Stmt.moved k g) := by
  induction body with
  | nil => rfl
  | cons s rest ih => simp [Stmt.mapLinesAll, Stmt.mapIdsAll, ih, Stmt.moved]

theorem moved_methods (fs : List FunctionDecl) :
    FunctionDecl.mapIdsAll (· + k) (FunctionDecl.mapLinesAll g fs) =
      fs.map (FunctionDecl.moved k g) := by
  induction fs with
  | nil => rfl
  | cons f rest ih =>
    simp [FunctionDecl.mapLinesAll, FunctionDecl.mapIdsAll, ih, FunctionDecl.moved]

theorem moved_block (body : List Stmt) :
    (Stmt.block body).moved k g = .block (body.map (Stmt.moved k g)) := by
  simp [Stmt.moved, Stmt.mapLines, Stmt.mapIds, moved_all]

theorem moved_function (name : Name) (parameters : List Name) (body : List Stmt) :
    (FunctionDecl.mk name parameters body).moved k g =
      .mk (name.mapLine g) (parameters.map (Name.mapLine g)) (body.map (Stmt.moved k g)) := by
  simp [FunctionDecl.moved, FunctionDecl.mapLines, FunctionDecl.mapIds, moved_all]

theorem moved_class (name : Name) (above : Option Reference) (methods : List FunctionDecl) :
    (Stmt.classDecl name above methods).moved k g =
      .classDecl (name.mapLine g) (above.map (Reference.moved k g))
        (methods.map (FunctionDecl.moved k g)) := by
  cases above <;>
    simp [Stmt.moved, Stmt.mapLines, Stmt.mapIds, moved_methods, Reference.moved]

theorem moved_forNode (initial : Option Stmt) (condition step : Option Expr) (body : Stmt) :
    (forNode initial condition step body).moved k g =
      forNode (initial.map (Stmt.moved k g)) (condition.map (Expr.moved k g))
        (step.map (Expr.moved k g)) (body.moved k g) := by
  have loop : (Stmt.loop (condition.getD (.literal (.bool true))) body step).moved k g =
      .loop ((condition.map (Expr.moved k g)).getD (.literal (.bool true))) (body.moved k g)
        (step.map (Expr.moved k g)) := by
    cases condition <;> cases step <;> rfl
  cases initial with
  | none => exact loop
  | some first =>
    simp only [forNode, moved_block, List.map_cons, List.map_nil, loop, Option.map_some]

theorem expression_moves (n : Nat) :
    Moves k g (Expr.moved k g) (expression n) (expression n) :=
  (expressions_move k g n).expression

theorem expressionUnless_moves (n : Nat) (kind : Kind) :
    Moves k g (Option.map (Expr.moved k g)) (expressionUnless n kind)
      (expressionUnless n kind) := by
  refine Moves.isNext.bind fun found => ?_
  cases found with
  | true => exact .pure rfl
  | false => exact (expression_moves n).bind fun e => .pure rfl

theorem expressionStatement_moves (n : Nat) :
    Moves k g (Stmt.moved k g) (expressionStatement n) (expressionStatement n) :=
  (expression_moves n).bind fun _ => Moves.expect.bind fun _ => .pure rfl

theorem varDeclaration_moves (n : Nat) :
    Moves k g (Stmt.moved k g) (varDeclaration n) (varDeclaration n) := by
  refine Moves.expectName.bind fun name => Moves.accept.bind fun found => ?_
  cases found with
  | true => exact (expression_moves n).bind fun e => Moves.expect.bind fun _ => .pure rfl
  | false => exact Moves.expect.bind fun _ => .pure rfl

theorem returnStatement_moves (n line : Nat) :
    Moves k g (Stmt.moved k g) (returnStatement n line) (returnStatement n (g line)) := by
  refine (expressionUnless_moves n _).bind fun value => Moves.expect.bind fun _ => .pure ?_
  cases value <;> rfl

theorem jumpStatement_moves (inLoop : Bool) (kind : Jump) (word : Token) :
    Moves k g (Stmt.moved k g) (jumpStatement inLoop kind word)
      (jumpStatement inLoop kind (word.mapLine g)) := by
  have finish : Moves k g (Stmt.moved k g)
      (do
        let _ ← expect (.punctuator .semicolon) (.jumpEnd kind)
        return Stmt.jump kind)
      (do
        let _ ← expect (.punctuator .semicolon) (.jumpEnd kind)
        return Stmt.jump kind) :=
    Moves.expect.bind fun _ => .pure rfl
  unfold jumpStatement
  cases inLoop with
  | true => exact finish
  | false => exact (Moves.note rfl).bind fun _ => finish

theorem forInitial_moves (n : Nat) :
    Moves k g (Option.map (Stmt.moved k g)) (forInitial n) (forInitial n) := by
  refine Moves.accept.bind fun found => ?_
  cases found with
  | true => exact .pure rfl
  | false =>
    refine Moves.accept.bind fun found => ?_
    cases found with
    | true => exact (varDeclaration_moves n).bind fun s => .pure rfl
    | false => exact (expressionStatement_moves n).bind fun s => .pure rfl

theorem parameters_moves (n count : Nat) :
    Moves k g (List.map (Name.mapLine g)) (parameters n count) (parameters n count) := by
  induction n generalizing count with
  | zero => exact .fail _
  | succ n ih =>
    have list : Moves k g (List.map (Name.mapLine g))
        (do
          let name ← expectName .parameterName
          if ← accept (.punctuator .comma) then return name :: (← parameters n (count + 1))
          else return [name])
        (do
          let name ← expectName .parameterName
          if ← accept (.punctuator .comma) then return name :: (← parameters n (count + 1))
          else return [name]) := by
      refine Moves.expectName.bind fun name => Moves.accept.bind fun more => ?_
      cases more with
      | true => exact (ih (count + 1)).bind fun _ => .pure rfl
      | false => exact .pure rfl
    unfold parameters
    by_cases full : maxArity ≤ count
    · simpa only [full, if_true] using Moves.noteHere.bind fun _ => list
    · simpa only [full, if_false] using list

theorem functionHead_moves (n : Nat) (kind : FunctionKind) :
    Moves k g (fun head => (head.1.mapLine g, head.2.map (Name.mapLine g))) (functionHead n kind)
      (functionHead n kind) := by
  refine Moves.expectName.bind fun name => Moves.expect.bind fun _ => Moves.isNext.bind
    fun found => ?_
  have finish (names : List Name) : Moves k g
      (fun head => (head.1.mapLine g, head.2.map (Name.mapLine g)))
      (do
        let _ ← expect (.punctuator .rightParen) .parametersEnd
        let _ ← expect (.punctuator .leftBrace) (.bodyStart kind)
        return (name, names))
      (do
        let _ ← expect (.punctuator .rightParen) .parametersEnd
        let _ ← expect (.punctuator .leftBrace) (.bodyStart kind)
        return (name.mapLine g, names.map (Name.mapLine g))) :=
    Moves.expect.bind fun _ => Moves.expect.bind fun _ => .pure rfl
  cases found with
  | true => exact finish []
  | false => exact (parameters_moves n 0).bind finish

theorem classHead_moves :
    Moves k g (fun head => (head.1.mapLine g, head.2.map (Reference.moved k g))) classHead
      classHead := by
  refine Moves.expectName.bind fun name => Moves.accept.bind fun found => ?_
  cases found with
  | true =>
    exact Moves.expectName.bind fun above => (Moves.reference rfl).bind fun r =>
      Moves.expect.bind fun _ => .pure rfl
  | false => exact Moves.expect.bind fun _ => .pure rfl

structure StatementsMove (k : Nat) (g : Nat → Nat) (n : Nat) : Prop where
  declaration : ∀ inLoop, Moves k g (Option.map (Stmt.moved k g)) (declaration n inLoop)
    (declaration n inLoop)
  statement : ∀ inLoop, Moves k g (Stmt.moved k g) (statement n inLoop) (statement n inLoop)
  block : ∀ inLoop, Moves k g (List.map (Stmt.moved k g)) (block n inLoop) (block n inLoop)
  function : ∀ kind, Moves k g (FunctionDecl.moved k g) (function n kind) (function n kind)
  methods : Moves k g (List.map (FunctionDecl.moved k g)) (methods n) (methods n)

namespace StatementsMove

variable {n : Nat}

theorem zero : StatementsMove k g 0 where
  declaration _ := .fail _
  statement _ := .fail _
  block _ := .fail _
  function _ := .fail _
  methods := .fail _

theorem declaration_succ (ih : StatementsMove k g n) (inLoop : Bool) :
    Moves k g (Option.map (Stmt.moved k g)) (Parser.declaration (n + 1) inLoop)
      (Parser.declaration (n + 1) inLoop) := by
  refine Moves.recovering (Moves.take?.bind fun found => ?_)
  cases found with
  | none => exact ih.statement inLoop
  | some found =>
    obtain ⟨lead, w⟩ := found
    cases lead with
    | classDecl =>
      exact classHead_moves.bind fun head => ih.methods.bind fun fs =>
        Moves.expect.bind fun _ => .pure (moved_class _ _ _).symm
    | funDecl => exact (ih.function .function).bind fun f => .pure rfl
    | varDecl => exact varDeclaration_moves n

theorem forStatement_moves (ih : StatementsMove k g n) : Moves k g (Stmt.moved k g)
    (do
      let _ ← expect (.punctuator .leftParen) .forStart
      let initial ← forInitial n
      let condition ← expressionUnless n (.punctuator .semicolon)
      let _ ← expect (.punctuator .semicolon) .forConditionEnd
      let step ← expressionUnless n (.punctuator .rightParen)
      let _ ← expect (.punctuator .rightParen) .forEnd
      return forNode initial condition step (← Parser.statement n true))
    (do
      let _ ← expect (.punctuator .leftParen) .forStart
      let initial ← forInitial n
      let condition ← expressionUnless n (.punctuator .semicolon)
      let _ ← expect (.punctuator .semicolon) .forConditionEnd
      let step ← expressionUnless n (.punctuator .rightParen)
      let _ ← expect (.punctuator .rightParen) .forEnd
      return forNode initial condition step (← Parser.statement n true)) :=
  Moves.expect.bind fun _ => (forInitial_moves n).bind fun _ =>
    (expressionUnless_moves n _).bind fun _ => Moves.expect.bind fun _ =>
    (expressionUnless_moves n _).bind fun _ => Moves.expect.bind fun _ =>
    (ih.statement true).bind fun _ => .pure (moved_forNode _ _ _ _).symm

theorem statement_succ (ih : StatementsMove k g n) (inLoop : Bool) :
    Moves k g (Stmt.moved k g) (Parser.statement (n + 1) inLoop)
      (Parser.statement (n + 1) inLoop) := by
  refine Moves.take?.bind fun found => ?_
  cases found with
  | none => exact expressionStatement_moves n
  | some found =>
    obtain ⟨lead, w⟩ := found
    cases lead with
    | jump kind => exact jumpStatement_moves inLoop kind w
    | forLoop => exact ih.forStatement_moves
    | whileLoop =>
      exact Moves.expect.bind fun _ => (expression_moves n).bind fun c =>
        Moves.expect.bind fun _ => (ih.statement true).bind fun s => .pure rfl
    | branch =>
      refine Moves.expect.bind fun _ => (expression_moves n).bind fun c =>
        Moves.expect.bind fun _ => (ih.statement inLoop).bind fun s =>
        Moves.accept.bind fun found => ?_
      cases found with
      | true => exact (ih.statement inLoop).bind fun s' => .pure rfl
      | false => exact .pure rfl
    | print =>
      exact (expression_moves n).bind fun e => Moves.expect.bind fun _ => .pure rfl
    | returning => exact returnStatement_moves n w.line
    | block => exact (ih.block inLoop).bind fun body => .pure (moved_block body).symm

theorem block_succ (ih : StatementsMove k g n) (inLoop : Bool) :
    Moves k g (List.map (Stmt.moved k g)) (Parser.block (n + 1) inLoop)
      (Parser.block (n + 1) inLoop) := by
  refine Moves.atEnd.bind fun ended => Moves.isNext.bind fun closes => ?_
  simp only [id]
  split
  · exact Moves.expect.bind fun _ => .pure rfl
  · refine (ih.declaration inLoop).bind fun first => (ih.block inLoop).bind fun body => .pure ?_
    cases first <;> rfl

theorem function_succ (ih : StatementsMove k g n) (kind : FunctionKind) :
    Moves k g (FunctionDecl.moved k g) (Parser.function (n + 1) kind)
      (Parser.function (n + 1) kind) :=
  (functionHead_moves n kind).bind fun _ =>
    (ih.block false).bind fun _ => .pure (moved_function _ _ _).symm

theorem methods_succ (ih : StatementsMove k g n) :
    Moves k g (List.map (FunctionDecl.moved k g)) (Parser.methods (n + 1))
      (Parser.methods (n + 1)) := by
  refine Moves.atEnd.bind fun ended => Moves.isNext.bind fun closes => ?_
  simp only [id]
  split
  · exact .pure rfl
  · exact (ih.function .method).bind fun f => ih.methods.bind fun fs => .pure rfl

end StatementsMove

theorem statements_move (k : Nat) (g : Nat → Nat) (n : Nat) : StatementsMove k g n := by
  induction n with
  | zero => exact .zero
  | succ n ih =>
    exact {
      declaration := ih.declaration_succ
      statement := ih.statement_succ
      block := ih.block_succ
      function := ih.function_succ
      methods := ih.methods_succ }

theorem program_moves (n : Nat) :
    Moves k g (List.map (Stmt.moved k g)) (program n) (program n) := by
  induction n with
  | zero => exact .fail _
  | succ n ih =>
    refine Moves.atEnd.bind fun ended => ?_
    simp only [id]
    split
    · exact .pure rfl
    · refine ((statements_move k g n).declaration false).bind fun first => ih.bind fun body =>
        .pure ?_
      cases first <;> rfl

end Parser

theorem Cursor.start_moved (k : Nat) {g : Nat → Nat} (tokens : List Token) (firstId : Nat)
    (ends : g 1 = 1 ∨ ∃ t ∈ tokens, t.kind = .eof) :
    Cursor.start (tokens.map (Token.mapLine g)) (firstId + k) =
      (Cursor.start tokens firstId).moved k g := by
  have kept : (fun t : Token => t.kind != .eof) ∘ Token.mapLine g = fun t => t.kind != .eof := rfl
  have found : (fun t : Token => t.kind == .eof) ∘ Token.mapLine g = fun t => t.kind == .eof := rfl
  unfold Cursor.start Cursor.moved
  simp only [List.takeWhile_map, List.find?_map, kept, found, List.map_nil, Cursor.mk.injEq,
    true_and, and_true]
  cases last : tokens.find? fun t => t.kind == .eof with
  | some t => rfl
  | none =>
    have absent : ¬∃ t ∈ tokens, t.kind = .eof := by
      simpa using List.find?_eq_none.mp last
    exact (ends.resolve_right absent).symm

theorem parse_moved (k : Nat) {g : Nat → Nat} (tokens : List Token) (firstId : Nat)
    (ends : g 1 = 1 ∨ ∃ t ∈ tokens, t.kind = .eof) :
    parse (tokens.map (Token.mapLine g)) (firstId + k) =
      { result := ((parse tokens firstId).result.map (List.map (Stmt.moved k g))).mapError
          (List.map (Diagnostic.mapLine g))
        nextId := (parse tokens firstId).nextId + k } := by
  have ran := Parser.program_moves (k := k) (g := g) (Parser.depthFor tokens.length)
    (Cursor.start tokens firstId)
  unfold parse
  rw [List.length_map, Cursor.start_moved k tokens firstId ends, ran]
  cases Parser.program (Parser.depthFor tokens.length) (Cursor.start tokens firstId) with
  | ok body c =>
    by_cases clean : c.faults = []
    · simp only [Parser.movedResult, Cursor.moved, clean, List.map_nil, List.isEmpty_nil, if_true]
      rfl
    · simp only [Parser.movedResult, Cursor.moved, List.isEmpty_map, List.isEmpty_iff, clean,
        if_false]
      rfl
  | error d c =>
    have faults : (c.faults ++ [d]).map (Diagnostic.mapLine g) =
        c.faults.map (Diagnostic.mapLine g) ++ [d.mapLine g] := List.map_append
    rw [Parser.movedResult]
    exact congrArg (Parsed.mk · (c.nextId + k)) (congrArg Except.error faults.symm)

end ScopeScript
