import ScopeScript.Proofs.Syntax.Numbers
import ScopeScript.Syntax.Grammar

set_option autoImplicit false

namespace ScopeScript

structure Fresh (low high : Nat) (ids : List Nat) : Prop where
  ordered : low ≤ high
  distinct : ids.Nodup
  inside : ∀ i ∈ ids, low ≤ i ∧ i < high

namespace Fresh

variable {low middle high : Nat} {xs ys : List Nat}

theorem nil (ordered : low ≤ high) : Fresh low high [] := ⟨ordered, .nil, by simp⟩

theorem single (i : Nat) : Fresh i (i + 1) [i] := ⟨by omega, by simp, by simp⟩

theorem append (first : Fresh low middle xs) (second : Fresh middle high ys) :
    Fresh low high (xs ++ ys) := by
  refine ⟨Nat.le_trans first.ordered second.ordered, ?_, ?_⟩
  · refine List.nodup_append.mpr ⟨first.distinct, second.distinct, fun i inFirst j inSecond => ?_⟩
    have below := (first.inside i inFirst).2
    have above := (second.inside j inSecond).1
    omega
  · intro i mem
    have left := first.ordered
    have right := second.ordered
    rcases List.mem_append.mp mem with inFirst | inSecond
    · have bounds := first.inside i inFirst
      omega
    · have bounds := second.inside i inSecond
      omega

theorem perm (h : Fresh low high xs) (same : xs.Perm ys) : Fresh low high ys :=
  ⟨h.ordered, same.nodup_iff.mp h.distinct, fun i mem => h.inside i (same.mem_iff.mpr mem)⟩

theorem append_comm (h : Fresh low high (xs ++ ys)) : Fresh low high (ys ++ xs) :=
  h.perm List.perm_append_comm

theorem sublist (h : Fresh low high ys) (part : xs.Sublist ys) : Fresh low high xs :=
  ⟨h.ordered, part.nodup h.distinct, fun i mem => h.inside i (part.subset mem)⟩

theorem left (h : Fresh low high (xs ++ ys)) : Fresh low high xs :=
  h.sublist (List.sublist_append_left xs ys)

theorem right (h : Fresh low high (xs ++ ys)) : Fresh low high ys :=
  h.sublist (List.sublist_append_right xs ys)

theorem mono (h : Fresh low middle xs) (later : middle ≤ high) : Fresh low high xs :=
  ⟨Nat.le_trans h.ordered later, h.distinct, fun i mem =>
    ⟨(h.inside i mem).1, Nat.lt_of_lt_of_le (h.inside i mem).2 later⟩⟩

end Fresh

mutual

theorem Expr.fresh_renumber :
    ∀ (e : Expr) (next : Nat), Fresh next (e.renumber next).2 (e.renumber next).1.ids
  | .literal _, next => .nil (Nat.le_refl next)
  | .var _, next | .self _, next | .super .., next => .single next
  | .grouping inner, next | .unary _ _ inner, next | .get inner _, next =>
    Expr.fresh_renumber inner next
  | .assign _ inner, next => (Fresh.single next).append (Expr.fresh_renumber inner (next + 1))
  | .binary _ _ left right, next | .logical _ left right, next | .set left _ right, next =>
    (Expr.fresh_renumber left next).append (Expr.fresh_renumber right (left.renumber next).2)
  | .call callee _ arguments, next =>
    (Expr.fresh_renumber callee next).append
      (Expr.fresh_renumberAll arguments (callee.renumber next).2)

theorem Expr.fresh_renumberAll :
    ∀ (es : List Expr) (next : Nat),
      Fresh next (Expr.renumberAll next es).2 (Expr.idsAll (Expr.renumberAll next es).1)
  | [], next => .nil (Nat.le_refl next)
  | e :: rest, next =>
    (Expr.fresh_renumber e next).append (Expr.fresh_renumberAll rest (e.renumber next).2)

end

namespace Parser

variable {α β : Type}

def ending : EStateM.Result Diagnostic Cursor α → Cursor
  | .ok _ c | .error _ c => c

def Numbers (p : Parser α) (Q : Nat → α → Nat → Prop) : Prop :=
  ∀ c, c.nextId ≤ (ending (p c)).nextId ∧
    ∀ a c', p c = .ok a c' → Q c.nextId a c'.nextId

namespace Numbers

variable {p : Parser α} {f : α → Parser β} {Q : Nat → α → Nat → Prop}

theorem mono {Q' : Nat → α → Nat → Prop} (h : Numbers p Q)
    (weaker : ∀ low a high, low ≤ high → Q low a high → Q' low a high) : Numbers p Q' := by
  intro c
  obtain ⟨grows, described⟩ := h c
  refine ⟨grows, fun a c' ran => ?_⟩
  simp only [ran, ending] at grows
  exact weaker _ _ _ grows (described a c' ran)

theorem bind {R : Nat → β → Nat → Prop} (first : Numbers p Q)
    (second : ∀ a, Numbers (f a) fun middle b high =>
      ∀ low, low ≤ middle → Q low a middle → R low b high) : Numbers (p >>= f) R := by
  intro c
  change c.nextId ≤ (ending (EStateM.bind p f c)).nextId ∧
    ∀ b c', EStateM.bind p f c = .ok b c' → R c.nextId b c'.nextId
  obtain ⟨grows, described⟩ := first c
  unfold EStateM.bind
  cases ran : p c with
  | error d c₁ => simpa [ran, ending] using grows
  | ok a c₁ =>
    simp only [ran, ending] at grows
    obtain ⟨grows', described'⟩ := second a c₁
    exact ⟨Nat.le_trans grows grows',
      fun b c' went => described' b c' went _ grows (described a c₁ ran)⟩

theorem pure {a : α} (h : ∀ low, Q low a low) : Numbers (Pure.pure a) Q := by
  refine fun c => ⟨Nat.le_refl _, fun a' c' ran => ?_⟩
  cases ran
  exact h _

theorem fail {what : Expectation} : Numbers (Parser.fail what) Q :=
  fun _ => ⟨Nat.le_refl _, fun _ _ ran => by cases ran⟩

theorem still {p : Parser α} (same : ∀ c, (ending (p c)).nextId = c.nextId) :
    Numbers p fun low _ high => high = low := by
  refine fun c => ⟨Nat.le_of_eq (same c).symm, fun a c' ran => ?_⟩
  simpa [ran, ending] using same c

theorem take? {f : Kind → Option α} :
    Numbers (Parser.take? f) fun low _ high => high = low := by
  refine still fun c => ?_
  unfold Parser.take?
  cases c.rest with
  | nil => rfl
  | cons t rest => cases meant : f t.kind <;> simp [meant, ending]

theorem accept {kind : Kind} : Numbers (Parser.accept kind) fun low _ high => high = low := by
  refine still fun c => ?_
  unfold Parser.accept
  cases c.rest with
  | nil => rfl
  | cons t rest => by_cases same : t.kind = kind <;> simp [same, ending]

theorem expect {kind : Kind} {what : Expectation} :
    Numbers (Parser.expect kind what) fun low _ high => high = low := by
  refine still fun c => ?_
  unfold Parser.expect
  cases c.rest with
  | nil => rfl
  | cons t rest => by_cases same : t.kind = kind <;> simp [same, ending, Parser.fail]

theorem expectName {what : Expectation} :
    Numbers (Parser.expectName what) fun low _ high => high = low :=
  expect.bind fun _ => .pure fun _ _ _ same => same

theorem isNext {kind : Kind} : Numbers (Parser.isNext kind) fun low _ high => high = low :=
  still fun _ => rfl

theorem atEnd : Numbers Parser.atEnd fun low _ high => high = low :=
  still fun _ => rfl

theorem note {place : Place} {fault : SyntaxFault} :
    Numbers (Parser.note place fault) fun low _ high => high = low :=
  still fun _ => rfl

theorem noteHere {fault : SyntaxFault} :
    Numbers (Parser.noteHere fault) fun low _ high => high = low :=
  still fun _ => rfl

theorem reference {name : Name} :
    Numbers (Parser.reference name) fun low r high => Fresh low high [r.id] := by
  refine fun c => ⟨Nat.le_succ _, fun r c' ran => ?_⟩
  cases ran
  exact .single _

theorem copy {e : Expr} : Numbers (Parser.copy e) fun low e' high => Fresh low high e'.ids := by
  intro c
  have taken := Expr.fresh_renumber e c.nextId
  refine ⟨taken.ordered, fun e' c' ran => ?_⟩
  cases ran
  exact taken

theorem recovering {s : Parser Stmt} (h : Numbers s fun low s high => Fresh low high s.ids) :
    Numbers (Parser.recovering s) fun low found high =>
      Fresh low high (Stmt.idsAll found.toList) := by
  intro c
  obtain ⟨grows, described⟩ := h c
  unfold Parser.recovering
  cases ran : s c with
  | ok a c₁ =>
    simp only [ran, ending] at grows
    refine ⟨grows, fun found c' same => ?_⟩
    cases same
    simpa [Stmt.idsAll] using described a _ ran
  | error d c₁ =>
    simp only [ran, ending] at grows
    refine ⟨grows, fun found c' same => ?_⟩
    cases same
    exact .nil grows

theorem after_still {R : Nat → β → Nat → Prop} (first : Numbers p fun low _ high => high = low)
    (second : ∀ a, Numbers (f a) R) : Numbers (p >>= f) R :=
  first.bind fun a => (second a).mono fun _ _ _ _ described _ _ same => same ▸ described

end Numbers

-- Expressions.

structure ExpressionsNumbered (n : Nat) : Prop where
  expression : Numbers (expression n) fun low e high => Fresh low high e.ids
  rung : ∀ rungs, Numbers (rung n rungs) fun low e high => Fresh low high e.ids
  rungTail : ∀ r tighter (left : Expr), Numbers (rungTail n r tighter left)
    fun middle e high => ∀ low, Fresh low middle left.ids → Fresh low high e.ids
  unary : Numbers (unary n) fun low e high => Fresh low high e.ids
  suffixes : ∀ e : Expr, Numbers (suffixes n e)
    fun middle e' high => ∀ low, Fresh low middle e.ids → Fresh low high e'.ids
  arguments : ∀ count, Numbers (arguments n count)
    fun low es high => Fresh low high (Expr.idsAll es)
  operand : Numbers (operand n) fun low e high => Fresh low high e.ids

theorem assignTo_numbers (target value : Expr) (sign : Token) :
    Numbers (assignTo target value sign) fun middle e high =>
      ∀ low, Fresh low middle (target.ids ++ value.ids) → Fresh low high e.ids := by
  unfold assignTo
  split
  next old =>
    refine Numbers.reference.bind fun r => .pure ?_
    intro high middle _ taken low before
    exact (before.right.append taken).append_comm
  next object name => exact .pure fun _ _ taken => taken
  next => exact Numbers.note.after_still fun _ => .pure fun _ _ taken => taken.left

theorem updateTo_numbers (target : Expr) (op : BinaryOp) (value : Expr) (sign : Token) :
    Numbers (updateTo target op value sign) fun middle e high =>
      ∀ low, Fresh low middle (target.ids ++ value.ids) → Fresh low high e.ids := by
  unfold updateTo
  split
  next old =>
    refine Numbers.reference.bind fun current => (assignTo_numbers _ _ _).mono ?_
    intro next e high _ numbered middle _ taken low before
    refine numbered low ((before.append taken).perm ?_)
    simp [Expr.ids]
  next object name =>
    refine Numbers.copy.bind fun current => (assignTo_numbers _ _ _).mono ?_
    intro next e high _ numbered middle _ taken low before
    refine numbered low ((before.append taken).perm ?_)
    simpa [Expr.ids] using List.perm_append_comm.append_left object.ids
  next other _ _ => exact assignTo_numbers _ _ _

namespace ExpressionsNumbered

variable {n : Nat}

theorem zero : ExpressionsNumbered 0 where
  expression := .fail
  rung _ := .fail
  rungTail _ _ _ := .fail
  unary := .fail
  suffixes _ := .fail
  arguments _ := .fail
  operand := .fail

theorem expression_succ (ih : ExpressionsNumbered n) :
    Numbers (Parser.expression (n + 1)) fun low e high => Fresh low high e.ids := by
  refine (ih.rung ladder).bind fun target => Numbers.take?.after_still fun found => ?_
  have value : Numbers (Parser.expression n) fun middle e high =>
      ∀ low, Fresh low middle target.ids → Fresh low high (target.ids ++ e.ids) :=
    ih.expression.mono fun _ _ _ _ taken _ before => before.append taken
  cases found with
  | none => exact .pure fun _ _ _ taken => taken
  | some found =>
    obtain ⟨form, sign⟩ := found
    cases form with
    | plain =>
      refine value.bind fun e => (assignTo_numbers _ _ _).mono ?_
      exact fun _ _ _ _ numbered _ _ both low _ before => numbered low (both low before)
    | compound op =>
      refine value.bind fun e => (updateTo_numbers _ _ _ _).mono ?_
      exact fun _ _ _ _ numbered _ _ both low _ before => numbered low (both low before)
    | step op =>
      refine (updateTo_numbers _ _ _ _).mono ?_
      intro middle e high _ numbered low _ before
      exact numbered low (by simpa [Expr.ids] using before)

theorem rung_succ (ih : ExpressionsNumbered n) (rungs : List Rung) :
    Numbers (Parser.rung (n + 1) rungs) fun low e high => Fresh low high e.ids := by
  cases rungs with
  | nil => exact ih.unary
  | cons r tighter =>
    refine (ih.rung tighter).bind fun left => (ih.rungTail r tighter left).mono ?_
    exact fun _ _ _ _ numbered low _ before => numbered low before

theorem rungTail_succ (ih : ExpressionsNumbered n) (r : Rung) (tighter : List Rung)
    (left : Expr) : Numbers (Parser.rungTail (n + 1) r tighter left)
      fun middle e high => ∀ low, Fresh low middle left.ids → Fresh low high e.ids := by
  refine Numbers.take?.after_still fun found => ?_
  cases found with
  | none => exact .pure fun _ _ taken => taken
  | some found =>
    obtain ⟨op, sign⟩ := found
    refine (ih.rung tighter).bind fun right => (ih.rungTail r tighter _).mono ?_
    intro next e high _ numbered middle _ taken low before
    refine numbered low ?_
    cases op <;> exact before.append taken

theorem unary_succ (ih : ExpressionsNumbered n) :
    Numbers (Parser.unary (n + 1)) fun low e high => Fresh low high e.ids := by
  refine Numbers.take?.after_still fun found => ?_
  cases found with
  | none =>
    refine ih.operand.bind fun e => (ih.suffixes e).mono ?_
    exact fun _ _ _ _ numbered low _ before => numbered low before
  | some found => exact ih.unary.bind fun e => .pure fun _ _ _ taken => taken

theorem suffixes_succ (ih : ExpressionsNumbered n) (e : Expr) :
    Numbers (Parser.suffixes (n + 1) e)
      fun middle e' high => ∀ low, Fresh low middle e.ids → Fresh low high e'.ids := by
  refine Numbers.take?.after_still fun found => ?_
  cases found with
  | none => exact .pure fun _ _ taken => taken
  | some found =>
    obtain ⟨suffix, sign⟩ := found
    cases suffix with
    | call =>
      have finish (es : List Expr) : Numbers
          (do
            let close ← expect (.punctuator .rightParen) .argumentsEnd
            Parser.suffixes n (.call e close.line es))
          fun middle e' high => ∀ low, Fresh low middle (e.ids ++ Expr.idsAll es) →
            Fresh low high e'.ids :=
        Numbers.expect.after_still fun close => ih.suffixes _
      refine Numbers.isNext.after_still fun closes => ?_
      cases closes with
      | true =>
        refine (finish []).mono ?_
        intro middle e' high _ numbered low before
        exact numbered low (by simpa [Expr.idsAll] using before)
      | false =>
        refine (ih.arguments 0).bind fun es => (finish es).mono ?_
        exact fun _ _ _ _ numbered _ _ taken low before => numbered low (before.append taken)
    | property => exact Numbers.expectName.after_still fun name => ih.suffixes _

theorem arguments_succ (ih : ExpressionsNumbered n) (count : Nat) :
    Numbers (Parser.arguments (n + 1) count)
      fun low es high => Fresh low high (Expr.idsAll es) := by
  have list : Numbers
      (do
        let e ← Parser.expression n
        if ← accept (.punctuator .comma) then return e :: (← Parser.arguments n (count + 1))
        else return [e])
      fun low es high => Fresh low high (Expr.idsAll es) := by
    refine ih.expression.bind fun e => Numbers.accept.after_still fun more => ?_
    cases more with
    | true =>
      refine (ih.arguments (count + 1)).bind fun es => .pure ?_
      exact fun high middle _ taken low _ before => before.append taken
    | false =>
      refine .pure ?_
      intro middle low _ before
      simpa [Expr.idsAll] using before
  unfold Parser.arguments
  by_cases full : maxArity ≤ count
  · simpa only [full, if_true] using Numbers.noteHere.after_still fun _ => list
  · simpa only [full, if_false] using list

theorem operand_succ (ih : ExpressionsNumbered n) :
    Numbers (Parser.operand (n + 1)) fun low e high => Fresh low high e.ids := by
  refine Numbers.take?.after_still fun found => ?_
  cases found with
  | none => exact .fail
  | some found =>
    obtain ⟨atom, t⟩ := found
    cases atom with
    | literal value => exact .pure fun low => .nil (Nat.le_refl low)
    | name | self => exact Numbers.reference.bind fun r => .pure fun _ _ _ taken => taken
    | super =>
      exact Numbers.expect.after_still fun _ => Numbers.expectName.after_still fun _ =>
        Numbers.reference.bind fun r => .pure fun _ _ _ taken => taken
    | group =>
      refine ih.expression.bind fun e => Numbers.expect.after_still fun _ => .pure ?_
      exact fun _ _ _ taken => taken

end ExpressionsNumbered

theorem expressions_numbered (n : Nat) : ExpressionsNumbered n := by
  induction n with
  | zero => exact .zero
  | succ n ih =>
    exact {
      expression := ih.expression_succ
      rung := ih.rung_succ
      rungTail := ih.rungTail_succ
      unary := ih.unary_succ
      suffixes := ih.suffixes_succ
      arguments := ih.arguments_succ
      operand := ih.operand_succ }

-- Statements.

theorem expression_numbers (n : Nat) :
    Numbers (expression n) fun low e high => Fresh low high e.ids :=
  (expressions_numbered n).expression

theorem expressionUnless_numbers (n : Nat) (kind : Kind) :
    Numbers (expressionUnless n kind) fun low e high => Fresh low high (Expr.idsOf e) := by
  refine Numbers.isNext.after_still fun found => ?_
  cases found with
  | true => exact .pure fun low => .nil (Nat.le_refl low)
  | false => exact (expression_numbers n).bind fun e => .pure fun _ _ _ taken => taken

theorem expressionStatement_numbers (n : Nat) :
    Numbers (expressionStatement n) fun low s high => Fresh low high s.ids :=
  (expression_numbers n).bind fun _ => Numbers.expect.after_still fun _ =>
    .pure fun _ _ _ taken => taken

theorem varDeclaration_numbers (n : Nat) :
    Numbers (varDeclaration n) fun low s high => Fresh low high s.ids := by
  refine Numbers.expectName.after_still fun name => Numbers.accept.after_still fun found => ?_
  cases found with
  | true =>
    refine (expression_numbers n).bind fun e => ?_
    exact Numbers.expect.after_still fun _ => .pure fun _ _ _ taken => taken
  | false => exact Numbers.expect.after_still fun _ => .pure fun low => .nil (Nat.le_refl low)

theorem forInitial_numbers (n : Nat) :
    Numbers (forInitial n) fun low s high => Fresh low high (Stmt.idsAll s.toList) := by
  refine Numbers.accept.after_still fun found => ?_
  cases found with
  | true => exact .pure fun low => .nil (Nat.le_refl low)
  | false =>
    refine Numbers.accept.after_still fun found => ?_
    cases found with
    | true =>
      refine (varDeclaration_numbers n).bind fun s => .pure ?_
      intro middle low _ taken
      simpa [Stmt.idsAll] using taken
    | false =>
      refine (expressionStatement_numbers n).bind fun s => .pure ?_
      intro middle low _ taken
      simpa [Stmt.idsAll] using taken

theorem parameters_still (n count : Nat) :
    Numbers (parameters n count) fun low _ high => high = low := by
  induction n generalizing count with
  | zero => exact .fail
  | succ n ih =>
    have list : Numbers
        (do
          let name ← expectName .parameterName
          if ← accept (.punctuator .comma) then return name :: (← parameters n (count + 1))
          else return [name])
        fun low _ high => high = low := by
      refine Numbers.expectName.after_still fun name => Numbers.accept.after_still fun more => ?_
      cases more with
      | true => exact (ih (count + 1)).after_still fun _ => .pure fun _ => rfl
      | false => exact .pure fun _ => rfl
    unfold parameters
    by_cases full : maxArity ≤ count
    · simpa only [full, if_true] using Numbers.noteHere.after_still fun _ => list
    · simpa only [full, if_false] using list

theorem functionHead_still (n : Nat) (kind : FunctionKind) :
    Numbers (functionHead n kind) fun low _ high => high = low := by
  refine Numbers.expectName.after_still fun name => Numbers.expect.after_still fun _ =>
    Numbers.isNext.after_still fun found => ?_
  have finish (names : List Name) : Numbers
      (do
        let _ ← expect (.punctuator .rightParen) .parametersEnd
        let _ ← expect (.punctuator .leftBrace) (.bodyStart kind)
        return (name, names)) fun low _ high => high = low :=
    Numbers.expect.after_still fun _ => Numbers.expect.after_still fun _ => .pure fun _ => rfl
  cases found with
  | true => exact finish []
  | false => exact (parameters_still n 0).after_still finish

theorem classHead_numbers : Numbers classHead fun low head high =>
    Fresh low high (head.2.map Reference.id).toList := by
  refine Numbers.expectName.after_still fun name => Numbers.accept.after_still fun found => ?_
  cases found with
  | true =>
    refine Numbers.expectName.after_still fun above => Numbers.reference.bind fun r => ?_
    exact Numbers.expect.after_still fun _ => .pure fun _ _ _ taken => taken
  | false => exact Numbers.expect.after_still fun _ => .pure fun low => .nil (Nat.le_refl low)

theorem jumpStatement_numbers (inLoop : Bool) (kind : Jump) (word : Token) :
    Numbers (jumpStatement inLoop kind word) fun low s high => Fresh low high s.ids := by
  have finish : Numbers
      (do
        let _ ← expect (.punctuator .semicolon) (.jumpEnd kind)
        return Stmt.jump kind) fun low s high => Fresh low high s.ids :=
    Numbers.expect.after_still fun _ => .pure fun low => .nil (Nat.le_refl low)
  unfold jumpStatement
  cases inLoop with
  | true => exact finish
  | false => exact Numbers.note.after_still fun _ => finish

structure StatementsNumbered (n : Nat) : Prop where
  declaration : ∀ inLoop, Numbers (declaration n inLoop)
    fun low found high => Fresh low high (Stmt.idsAll found.toList)
  statement : ∀ inLoop, Numbers (statement n inLoop) fun low s high => Fresh low high s.ids
  block : ∀ inLoop, Numbers (block n inLoop)
    fun low body high => Fresh low high (Stmt.idsAll body)
  function : ∀ kind, Numbers (function n kind) fun low f high => Fresh low high f.ids
  methods : Numbers (methods n) fun low fs high => Fresh low high (FunctionDecl.idsAll fs)

namespace StatementsNumbered

variable {n : Nat}

theorem zero : StatementsNumbered 0 where
  declaration _ := .fail
  statement _ := .fail
  block _ := .fail
  function _ := .fail
  methods := .fail

theorem declaration_succ (ih : StatementsNumbered n) (inLoop : Bool) :
    Numbers (Parser.declaration (n + 1) inLoop)
      fun low found high => Fresh low high (Stmt.idsAll found.toList) := by
  refine Numbers.recovering (Numbers.take?.after_still fun found => ?_)
  cases found with
  | none => exact ih.statement inLoop
  | some found =>
    obtain ⟨lead, w⟩ := found
    cases lead with
    | classDecl =>
      refine classHead_numbers.bind fun head => ih.methods.bind fun fs =>
        Numbers.expect.after_still fun _ => .pure ?_
      exact fun high middle _ taken low _ before => before.append taken
    | funDecl => exact (ih.function .function).bind fun f => .pure fun _ _ _ taken => taken
    | varDecl => exact varDeclaration_numbers n

theorem forStatement_numbers (ih : StatementsNumbered n) : Numbers
      (do
        let _ ← expect (.punctuator .leftParen) .forStart
        let initial ← forInitial n
        let condition ← expressionUnless n (.punctuator .semicolon)
        let _ ← expect (.punctuator .semicolon) .forConditionEnd
        let step ← expressionUnless n (.punctuator .rightParen)
        let _ ← expect (.punctuator .rightParen) .forEnd
        return forNode initial condition step (← Parser.statement n true))
      fun low s high => Fresh low high s.ids := by
  refine Numbers.expect.after_still fun _ => (forInitial_numbers n).bind fun first =>
    (expressionUnless_numbers n _).bind fun c => Numbers.expect.after_still fun _ =>
    (expressionUnless_numbers n _).bind fun step => Numbers.expect.after_still fun _ =>
    (ih.statement true).bind fun s => .pure ?_
  intro e d _ bodyTaken b _ stepTaken a _ testTaken low _ firstTaken
  have test_ids : (c.getD (.literal (.bool true))).ids = Expr.idsOf c := by
    cases c <;> rfl
  -- The step is read before the body, but stands behind it in the tree.
  have whole := firstTaken.append (testTaken.append (stepTaken.append bodyTaken).append_comm)
  cases first with
  | none => simpa [forNode, Stmt.ids, Stmt.idsAll, test_ids] using whole
  | some i => simpa [forNode, Stmt.ids, Stmt.idsAll, test_ids] using whole

theorem statement_succ (ih : StatementsNumbered n) (inLoop : Bool) :
    Numbers (Parser.statement (n + 1) inLoop) fun low s high => Fresh low high s.ids := by
  refine Numbers.take?.after_still fun found => ?_
  cases found with
  | none => exact expressionStatement_numbers n
  | some found =>
    obtain ⟨lead, w⟩ := found
    cases lead with
    | jump kind => exact jumpStatement_numbers inLoop kind w
    | forLoop => exact ih.forStatement_numbers
    | whileLoop =>
      refine Numbers.expect.after_still fun _ => (expression_numbers n).bind fun c =>
        Numbers.expect.after_still fun _ => (ih.statement true).bind fun s => .pure ?_
      intro high middle _ taken low _ before
      simpa [Stmt.ids, Expr.idsOf] using before.append taken
    | branch =>
      refine Numbers.expect.after_still fun _ => (expression_numbers n).bind fun c =>
        Numbers.expect.after_still fun _ => (ih.statement inLoop).bind fun s =>
        Numbers.accept.after_still fun found => ?_
      cases found with
      | true =>
        refine (ih.statement inLoop).bind fun s' => .pure ?_
        exact fun _ _ _ taken' _ _ taken _ _ before => before.append (taken.append taken')
      | false => exact .pure fun _ _ _ taken _ _ before => before.append taken
    | print =>
      exact (expression_numbers n).bind fun e => Numbers.expect.after_still fun _ =>
        .pure fun _ _ _ taken => taken
    | returning =>
      exact (expressionUnless_numbers n _).bind fun e => Numbers.expect.after_still fun _ =>
        .pure fun _ _ _ taken => taken
    | block => exact (ih.block inLoop).bind fun body => .pure fun _ _ _ taken => taken

theorem block_succ (ih : StatementsNumbered n) (inLoop : Bool) :
    Numbers (Parser.block (n + 1) inLoop)
      fun low body high => Fresh low high (Stmt.idsAll body) := by
  refine Numbers.atEnd.after_still fun ended => Numbers.isNext.after_still fun closes => ?_
  split
  · exact Numbers.expect.after_still fun _ => .pure fun low => .nil (Nat.le_refl low)
  · refine (ih.declaration inLoop).bind fun first => (ih.block inLoop).bind fun body => .pure ?_
    intro high middle _ taken low _ before
    simpa [Stmt.idsAll_append] using before.append taken

theorem function_succ (ih : StatementsNumbered n) (kind : FunctionKind) :
    Numbers (Parser.function (n + 1) kind) fun low f high => Fresh low high f.ids :=
  (functionHead_still n kind).after_still fun _ =>
    (ih.block false).bind fun _ => .pure fun _ _ _ taken => taken

theorem methods_succ (ih : StatementsNumbered n) :
    Numbers (Parser.methods (n + 1))
      fun low fs high => Fresh low high (FunctionDecl.idsAll fs) := by
  refine Numbers.atEnd.after_still fun ended => Numbers.isNext.after_still fun closes => ?_
  split
  · exact .pure fun low => .nil (Nat.le_refl low)
  · refine (ih.function .method).bind fun f => ih.methods.bind fun fs => .pure ?_
    exact fun _ _ _ taken _ _ before => before.append taken

end StatementsNumbered

theorem statements_numbered (n : Nat) : StatementsNumbered n := by
  induction n with
  | zero => exact .zero
  | succ n ih =>
    exact {
      declaration := ih.declaration_succ
      statement := ih.statement_succ
      block := ih.block_succ
      function := ih.function_succ
      methods := ih.methods_succ }

theorem program_numbers (n : Nat) : Numbers (program n)
    fun low body high => Fresh low high (Stmt.idsAll body) := by
  induction n with
  | zero => exact .fail
  | succ n ih =>
    refine Numbers.atEnd.after_still fun ended => ?_
    split
    · exact .pure fun low => .nil (Nat.le_refl low)
    · refine ((statements_numbered n).declaration false).bind fun first => ih.bind fun body =>
        .pure ?_
      intro high middle _ taken low _ before
      simpa [Stmt.idsAll_append] using before.append taken

end Parser

theorem le_nextId_parse (tokens : List Token) (firstId : Nat) :
    firstId ≤ (parse tokens firstId).nextId := by
  have grows := (Parser.program_numbers (Parser.depthFor tokens.length)
    (Cursor.start tokens firstId)).1
  unfold parse
  split
  all_goals
    next run =>
      rw [run] at grows
      exact grows

theorem fresh_of_parse {tokens : List Token} {firstId : Nat} {body : List Stmt}
    (read : (parse tokens firstId).result = .ok body) :
    Fresh firstId (parse tokens firstId).nextId (Stmt.idsAll body) := by
  have numbered := (Parser.program_numbers (Parser.depthFor tokens.length)
    (Cursor.start tokens firstId)).2
  unfold parse at read ⊢
  split
  next body' c run =>
    simp only [run] at read
    split at read
    · cases read
      exact numbered body c run
    · cases read
  next fault c run => simp [run] at read

end ScopeScript
