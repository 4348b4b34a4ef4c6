import ScopeScript.Proofs.Parsing.ExpressionSoundness

set_option autoImplicit false

namespace ScopeScript

structure Stmt.Accepted (inLoop : Bool) (s : Stmt) : Prop where
  arity : s.WithinArity
  enclosed : s.Enclosed true inLoop

structure Stmt.AllAccepted (inLoop : Bool) (body : List Stmt) : Prop where
  arity : Stmt.AllWithinArity body
  enclosed : Stmt.AllEnclosed true inLoop body

structure FunctionDecl.AllAccepted (fs : List FunctionDecl) : Prop where
  arity : FunctionDecl.AllWithinArity fs
  enclosed : FunctionDecl.AllEnclosed fs

theorem Stmt.AllAccepted.nil {inLoop : Bool} : Stmt.AllAccepted inLoop [] := ⟨trivial, trivial⟩

theorem Stmt.AllAccepted.cons {inLoop : Bool} {s : Stmt} {body : List Stmt}
    (first : s.Accepted inLoop) (rest : Stmt.AllAccepted inLoop body) :
    Stmt.AllAccepted inLoop (s :: body) :=
  ⟨⟨first.arity, rest.arity⟩, ⟨first.enclosed, rest.enclosed⟩⟩

namespace Parser

theorem lead?_eq {k : Kind} {lead : Lead} (h : lead? k = some lead) :
    match lead with
    | .jump .leave => k = .keyword .break
    | .jump .next => k = .keyword .continue
    | .forLoop => k = .keyword .for
    | .whileLoop => k = .keyword .while
    | .branch => k = .keyword .if
    | .print => k = .keyword .print
    | .returning => k = .keyword .return
    | .block => k = .punctuator .leftBrace := by
  unfold lead? at h
  split at h <;> cases h <;> rfl

theorem declarationLead?_eq {k : Kind} {lead : DeclarationLead}
    (h : declarationLead? k = some lead) :
    match lead with
    | .classDecl => k = .keyword .classWord
    | .funDecl => k = .keyword .fun
    | .varDecl => k = .keyword .var := by
  unfold declarationLead? at h
  split at h <;> cases h <;> rfl

variable {n : Nat}

theorem expression_yields (n : Nat) : Yields (expression n) fun e used _ =>
    Derives used (.expression e) ∧ e.WithinArity :=
  (expressions_sound n).expression

theorem expressionUnless_yields (n : Nat) (kind : Kind) :
    Yields (expressionUnless n kind) fun e used _ =>
      Derives used (.optional e) ∧ Expr.OptionWithinArity e := by
  refine (Yields.isNext _).bind fun found => ?_
  cases found with
  | true =>
    refine .pure ?_
    rintro rest _ rfl
    exact ⟨.absent, by simp [Expr.OptionWithinArity]⟩
  | false =>
    refine (expression_yields n).bind fun e => .pure ?_
    rintro rest us ⟨derived, arity⟩ _ rfl
    exact ⟨by simpa using .present derived, by simpa [Expr.OptionWithinArity] using arity⟩

theorem expressionStatement_yields (n : Nat) : Yields (expressionStatement n) fun s used _ =>
    ∃ e ts stop, s = .expression e ∧ used = ts ++ [stop] ∧ Derives ts (.expression e) ∧
      stop.Mark .semicolon ∧ e.WithinArity := by
  refine (expression_yields n).bind fun e => (Yields.expect _ _).bind fun stop => .pure ?_
  rintro rest _ ⟨rfl, stops⟩ us ⟨derived, arity⟩
  exact ⟨e, us, stop, rfl, rfl, derived, stops, arity⟩

theorem varDeclaration_yields (n : Nat) (inLoop : Bool) :
    Yields (varDeclaration n) fun s used _ => Derives used (.variable s) ∧ s.Accepted inLoop := by
  refine (Yields.expectName _).bind fun name => (Yields.accept _).bind fun found => ?_
  cases found with
  | true =>
    refine (expression_yields n).bind fun e => ?_
    refine (Yields.pure (R := fun e' used _ => e' = some e ∧ used = []) fun _ => ⟨rfl, rfl⟩).bind
      fun e' => (Yields.expect _ _).bind fun stop => .pure ?_
    rintro rest _ ⟨rfl, stops⟩ _ ⟨rfl, rfl⟩ us ⟨derived, arity⟩ _ ⟨sign, rfl, equals⟩ _
      ⟨t, rfl, identifier, rfl⟩
    refine ⟨by simpa using .set identifier equals derived stops, ?_, trivial⟩
    simpa [Stmt.WithinArity, Expr.OptionWithinArity] using arity
  | false =>
    refine (Yields.pure (R := fun e' used _ => e' = none ∧ used = []) fun _ => ⟨rfl, rfl⟩).bind
      fun e' => (Yields.expect _ _).bind fun stop => .pure ?_
    rintro rest _ ⟨rfl, stops⟩ _ ⟨rfl, rfl⟩ _ ⟨rfl, -⟩ _ ⟨t, rfl, identifier, rfl⟩
    refine ⟨by simpa using .unset identifier stops, ?_, trivial⟩
    simp [Stmt.WithinArity, Expr.OptionWithinArity]

theorem forInitial_yields (n : Nat) (inLoop : Bool) :
    Yields (forInitial n) fun first used _ =>
      match first with
      | none => ∃ stop : Token, used = [stop] ∧ stop.Mark .semicolon
      | some s => Derives used (.initial s) ∧ s.Accepted inLoop := by
  refine (Yields.accept _).bind fun found => ?_
  cases found with
  | true =>
    refine .pure ?_
    rintro rest _ ⟨stop, rfl, stops⟩
    exact ⟨stop, rfl, stops⟩
  | false =>
    refine (Yields.accept _).bind fun found => ?_
    cases found with
    | true =>
      refine (varDeclaration_yields n inLoop).bind fun s => .pure ?_
      rintro rest us ⟨derived, accepted⟩ _ ⟨w, rfl, word⟩ _ ⟨rfl, -⟩
      exact ⟨by simpa using .initialVariable word derived, accepted⟩
    | false =>
      refine (expressionStatement_yields n).bind fun s => .pure ?_
      rintro rest _ ⟨e, us, stop, rfl, rfl, derived, stops, arity⟩ _ ⟨rfl, -⟩ _ ⟨rfl, -⟩
      exact ⟨by simpa using .initialExpression derived stops, arity, trivial⟩

theorem jumpStatement_yields (inLoop : Bool) (kind : Jump) (word : Token) :
    Yields (jumpStatement inLoop kind word) fun s used _ =>
      inLoop = true ∧ s = .jump kind ∧ ∃ stop : Token, used = [stop] ∧ stop.Mark .semicolon := by
  unfold jumpStatement
  cases inLoop with
  | true =>
    refine (Yields.expect _ _).bind fun stop => .pure ?_
    rintro rest _ ⟨rfl, stops⟩
    exact ⟨rfl, rfl, stop, rfl, stops⟩
  | false =>
    exact (Yields.note (R := fun _ _ _ => False) _ _).bind fun _ =>
      (Yields.expect _ _).bind fun _ => .pure fun _ _ _ _ impossible => impossible.elim

theorem parameters_yields (n count : Nat) : Yields (parameters n count) fun names used _ =>
    Derives used (.parameters names) ∧ count + names.length ≤ 255 := by
  induction n generalizing count with
  | zero => exact .fail _
  | succ n ih =>
    have list : Yields
        (do
          let name ← expectName .parameterName
          if ← accept (.punctuator .comma) then return name :: (← parameters n (count + 1))
          else return [name])
        fun names used _ =>
          Derives used (.parameters names) ∧ (count < 255 → count + names.length ≤ 255) := by
      refine (Yields.expectName _).bind fun name => (Yields.accept _).bind fun more => ?_
      cases more with
      | true =>
        refine (ih (count + 1)).bind fun names => .pure ?_
        rintro rest us ⟨derived, bound⟩ _ ⟨comma, rfl, separates⟩ _ ⟨t, rfl, identifier, rfl⟩
        refine ⟨by simpa using .moreParameters identifier separates derived, fun _ => ?_⟩
        simp only [List.length_cons]
        omega
      | false =>
        refine .pure ?_
        rintro rest _ ⟨rfl, -⟩ _ ⟨t, rfl, identifier, rfl⟩
        refine ⟨.lastParameter identifier, fun room => ?_⟩
        simp only [List.length_cons, List.length_nil]
        omega
    unfold parameters
    by_cases full : maxArity ≤ count
    · simp only [full, if_true]
      exact (Yields.noteHere (R := fun _ _ _ => False) _).bind fun _ =>
        list.mono fun _ _ _ _ _ impossible => impossible.elim
    · simp only [full, if_false]
      refine list.mono ?_
      rintro names used rest ⟨derived, bound⟩
      exact ⟨derived, bound (Nat.lt_of_not_le full)⟩

inductive Headed : List Token → Name × List Name → Prop where
  | withoutParameters {t l r open' : Token} : t.Identifier → l.Mark .leftParen →
    r.Mark .rightParen → open'.Mark .leftBrace → Headed [t, l, r, open'] (t.name, [])
  | withParameters {t l r open' : Token} {ts : List Token} {names : List Name} : t.Identifier →
    l.Mark .leftParen → Derives ts (.parameters names) → r.Mark .rightParen →
    open'.Mark .leftBrace → Headed (t :: l :: (ts ++ [r, open'])) (t.name, names)

theorem Headed.derives {ts us : List Token} {r : Token} {head : Name × List Name}
    {body : List Stmt} (h : Headed ts head) (derived : Derives us (.declarations body))
    (closes : r.Mark .rightBrace) :
    Derives (ts ++ (us ++ [r])) (.function (.mk head.1 head.2 body)) := by
  cases h with
  | withoutParameters identifier opens closes' braces =>
    simpa using Derives.withoutParameters identifier opens closes' (.block braces derived closes)
  | withParameters identifier opens listed closes' braces =>
    simpa using
      Derives.withParameters identifier opens listed closes' (.block braces derived closes)

theorem functionHead_yields (n : Nat) (kind : FunctionKind) :
    Yields (functionHead n kind) fun head used _ =>
      Headed used head ∧ head.2.length ≤ 255 := by
  have finish (name : Name) (names : List Name) : Yields
      (do
        let _ ← expect (.punctuator .rightParen) .parametersEnd
        let _ ← expect (.punctuator .leftBrace) (.bodyStart kind)
        return (name, names))
      fun head used _ => ∃ r open' : Token, used = [r, open'] ∧ r.Mark .rightParen ∧
        open'.Mark .leftBrace ∧ head = (name, names) := by
    refine (Yields.expect _ _).bind fun r => (Yields.expect _ _).bind fun open' => .pure ?_
    rintro rest _ ⟨rfl, braces⟩ _ ⟨rfl, closes⟩
    exact ⟨r, open', rfl, closes, braces, rfl⟩
  refine (Yields.expectName _).bind fun name => (Yields.expect _ _).bind fun l =>
    (Yields.isNext _).bind fun found => ?_
  cases found with
  | true =>
    refine (Yields.pure (R := fun names used _ => names = [] ∧ used = [])
      fun _ => ⟨rfl, rfl⟩).bind fun names => (finish name names).mono ?_
    rintro head _ rest ⟨r, open', rfl, closes, braces, rfl⟩ _ ⟨rfl, rfl⟩ _ rfl _ ⟨rfl, opens⟩ _
      ⟨t, rfl, identifier, rfl⟩
    exact ⟨.withoutParameters identifier opens closes braces, by simp⟩
  | false =>
    refine (parameters_yields n 0).bind fun names => (finish name names).mono ?_
    rintro head _ rest ⟨r, open', rfl, closes, braces, rfl⟩ us ⟨derived, bound⟩ _ rfl _
      ⟨rfl, opens⟩ _ ⟨t, rfl, identifier, rfl⟩
    exact ⟨by simpa using Headed.withParameters identifier opens derived closes braces,
      by simpa using bound⟩

inductive ClassHeaded : List Token → Name × Option Reference → Prop where
  | base {t l : Token} : t.Identifier → l.Mark .leftBrace → ClassHeaded [t, l] (t.name, none)
  | derived {t less above l : Token} {above' : Reference} : t.Identifier → less.Mark .less →
    above.Identifier → l.Mark .leftBrace → above'.name = above.name →
    ClassHeaded [t, less, above, l] (t.name, some above')

theorem ClassHeaded.derives {ts us : List Token} {w r : Token} {head : Name × Option Reference}
    {fs : List FunctionDecl} (h : ClassHeaded ts head) (word : w.Word .classWord)
    (derived : Derives us (.functions fs)) (closes : r.Mark .rightBrace) :
    Derives (w :: (ts ++ (us ++ [r]))) (.declaration (.classDecl head.1 head.2 fs)) := by
  cases h with
  | base identifier opens => simpa using Derives.base word identifier opens derived closes
  | derived identifier less above opens named =>
    simpa using Derives.derived word identifier less above opens derived closes named

theorem classHead_yields : Yields classHead fun head used _ => ClassHeaded used head := by
  refine (Yields.expectName _).bind fun name => (Yields.accept _).bind fun found => ?_
  cases found with
  | true =>
    refine (Yields.expectName _).bind fun above => (Yields.reference _).bind fun above' => ?_
    refine (Yields.pure (R := fun a used _ => a = some above' ∧ used = [])
      fun _ => ⟨rfl, rfl⟩).bind fun a => (Yields.expect _ _).bind fun l => .pure ?_
    rintro rest _ ⟨rfl, opens⟩ _ ⟨rfl, rfl⟩ _ ⟨rfl, named⟩ _ ⟨above, rfl, identifier', rfl⟩ _
      ⟨less, rfl, below⟩ _ ⟨t, rfl, identifier, rfl⟩
    exact .derived identifier below identifier' opens named
  | false =>
    refine (Yields.pure (R := fun a used _ => a = none ∧ used = []) fun _ => ⟨rfl, rfl⟩).bind
      fun a => (Yields.expect _ _).bind fun l => .pure ?_
    rintro rest _ ⟨rfl, opens⟩ _ ⟨rfl, rfl⟩ _ ⟨rfl, -⟩ _ ⟨t, rfl, identifier, rfl⟩
    exact .base identifier opens

structure StatementsSound (n : Nat) : Prop where
  declaration : ∀ inLoop, Yields (declaration n inLoop) fun found used _ =>
    ∃ s, found = some s ∧ Derives used (.declaration s) ∧ s.Accepted inLoop
  statement : ∀ inLoop, Yields (statement n inLoop) fun s used rest =>
    ∃ isOpen, Derives used (.statement isOpen s) ∧
      (isOpen = true → ∀ t ∈ rest.head?, ¬ t.Word .else) ∧ s.Accepted inLoop
  block : ∀ inLoop, Yields (block n inLoop) fun body used _ =>
    ∃ us r, used = us ++ [r] ∧ r.Mark .rightBrace ∧ Derives us (.declarations body) ∧
      Stmt.AllAccepted inLoop body
  function : ∀ kind, Yields (function n kind) fun f used _ =>
    Derives used (.function f) ∧ f.WithinArity ∧ f.Enclosed
  methods : Yields (methods n) fun fs used _ =>
    Derives used (.functions fs) ∧ FunctionDecl.AllAccepted fs

namespace StatementsSound

theorem zero : StatementsSound 0 where
  declaration _ := .fail _
  statement _ := .fail _
  block _ := .fail _
  function _ := .fail _
  methods := .fail _

theorem function_succ (ih : StatementsSound n) (kind : FunctionKind) :
    Yields (Parser.function (n + 1) kind) fun f used _ =>
      Derives used (.function f) ∧ f.WithinArity ∧ f.Enclosed := by
  refine (functionHead_yields n kind).bind fun head => (ih.block false).bind fun body => .pure ?_
  rintro rest _ ⟨us, r, rfl, closes, derived, accepted⟩ ts ⟨headed, bound⟩
  exact ⟨by simpa using headed.derives derived closes, ⟨bound, accepted.arity⟩,
    accepted.enclosed⟩

theorem methods_succ (ih : StatementsSound n) :
    Yields (Parser.methods (n + 1)) fun fs used _ =>
      Derives used (.functions fs) ∧ FunctionDecl.AllAccepted fs := by
  refine Yields.atEnd.bind fun ended => (Yields.isNext _).bind fun closes => ?_
  split
  · refine .pure ?_
    rintro rest _ rfl _ ⟨rfl, -⟩
    exact ⟨.noFunction, trivial, trivial⟩
  · refine (ih.function .method).bind fun f => ih.methods.bind fun fs => .pure ?_
    rintro rest us ⟨derived', arity', enclosed'⟩ ts ⟨derived, arity, enclosed⟩ _ rfl _ ⟨rfl, -⟩
    exact ⟨by simpa using .moreFunctions derived derived', ⟨arity, arity'⟩, enclosed, enclosed'⟩

theorem block_succ (ih : StatementsSound n) (inLoop : Bool) :
    Yields (Parser.block (n + 1) inLoop) fun body used _ =>
      ∃ us r, used = us ++ [r] ∧ r.Mark .rightBrace ∧ Derives us (.declarations body) ∧
        Stmt.AllAccepted inLoop body := by
  refine Yields.atEnd.bind fun ended => (Yields.isNext _).bind fun closes => ?_
  split
  · refine (Yields.expect _ _).bind fun r => .pure ?_
    rintro rest _ ⟨rfl, closes⟩ _ rfl _ ⟨rfl, -⟩
    exact ⟨[], r, rfl, closes, .noDeclaration, .nil⟩
  · refine (ih.declaration inLoop).bind fun first => (ih.block inLoop).bind fun body => .pure ?_
    rintro rest _ ⟨us, r, rfl, closes, derived', accepted'⟩ ts ⟨s, rfl, derived, accepted⟩ _ rfl _
      ⟨rfl, -⟩
    exact ⟨ts ++ us, r, by simp, closes, .moreDeclarations derived derived',
      .cons accepted accepted'⟩

theorem declaration_succ (ih : StatementsSound n) (inLoop : Bool) :
    Yields (Parser.declaration (n + 1) inLoop) fun found used _ =>
      ∃ s, found = some s ∧ Derives used (.declaration s) ∧ s.Accepted inLoop := by
  refine Yields.recovering (Yields.take?.bind fun found => ?_)
  cases found with
  | none =>
    refine (ih.statement inLoop).mono ?_
    rintro s used rest ⟨isOpen, derived, -, accepted⟩ _ ⟨rfl, -⟩
    exact ⟨by simpa using .stated derived, accepted⟩
  | some found =>
    obtain ⟨lead, w⟩ := found
    cases lead with
    | classDecl =>
      refine classHead_yields.bind fun head => ih.methods.bind fun fs =>
        (Yields.expect _ _).bind fun r => .pure ?_
      rintro rest _ ⟨rfl, closes⟩ us ⟨derived, accepted⟩ ts headed _ ⟨rfl, meant⟩
      exact ⟨by simpa using headed.derives (declarationLead?_eq meant) derived closes,
        accepted.arity, accepted.enclosed⟩
    | funDecl =>
      refine (ih.function .function).bind fun f => .pure ?_
      rintro rest ts ⟨derived, arity, enclosed⟩ _ ⟨rfl, meant⟩
      exact ⟨by simpa using .function (declarationLead?_eq meant) derived, arity, enclosed⟩
    | varDecl =>
      refine (varDeclaration_yields n inLoop).mono ?_
      rintro s ts rest ⟨derived, accepted⟩ _ ⟨rfl, meant⟩
      exact ⟨.variableDecl (declarationLead?_eq meant) derived, accepted⟩

theorem forStatement_yields (ih : StatementsSound n) (inLoop : Bool) : Yields
      (do
        let _ ← expect (.punctuator .leftParen) .forStart
        let initial ← forInitial n
        let condition ← expressionUnless n (.punctuator .semicolon)
        let _ ← expect (.punctuator .semicolon) .forConditionEnd
        let step ← expressionUnless n (.punctuator .rightParen)
        let _ ← expect (.punctuator .rightParen) .forEnd
        return forNode initial condition step (← Parser.statement n true))
      fun s used rest => ∀ w : Token, w.Word .for → ∃ isOpen,
        Derives (w :: used) (.statement isOpen s) ∧
        (isOpen = true → ∀ t ∈ rest.head?, ¬ t.Word .else) ∧ s.Accepted inLoop := by
  refine (Yields.expect _ _).bind fun l => (forInitial_yields n inLoop).bind fun first =>
    (expressionUnless_yields n _).bind fun c => (Yields.expect _ _).bind fun stop =>
    (expressionUnless_yields n _).bind fun step => (Yields.expect _ _).bind fun r =>
    (ih.statement true).bind fun s => .pure ?_
  rintro rest us ⟨isOpen, derived, closed, accepted⟩ _ ⟨rfl, closes⟩ ss ⟨derivedStep, arityStep⟩ _
    ⟨rfl, stops⟩ cs ⟨derivedTest, arityTest⟩ is begun _ ⟨rfl, opens⟩ w word
  have loop_arity : (Stmt.loop (c.getD (.literal (.bool true))) s step).WithinArity := by
    refine ⟨?_, accepted.arity, arityStep⟩
    cases c with
    | none => trivial
    | some c => exact arityTest c rfl
  refine ⟨isOpen, ?_, by simpa using closed, ?_⟩
  · cases first with
    | none =>
      obtain ⟨semi, rfl, marks⟩ := begun
      simpa [forNode] using
        Derives.forLoop word opens marks derivedTest stops derivedStep closes derived
    | some i =>
      simpa [forNode] using
        Derives.forLoopFrom word opens begun.1 derivedTest stops derivedStep closes derived
  · cases first with
    | none => exact ⟨loop_arity, accepted.enclosed⟩
    | some i =>
      exact ⟨⟨begun.2.arity, loop_arity, trivial⟩, begun.2.enclosed, accepted.enclosed, trivial⟩

theorem whileStatement_yields (ih : StatementsSound n) (inLoop : Bool) : Yields
      (do
        let _ ← expect (.punctuator .leftParen) .whileStart
        let condition ← Parser.expression n
        let _ ← expect (.punctuator .rightParen) .whileEnd
        return .loop condition (← Parser.statement n true) none)
      fun s used rest => ∀ w : Token, w.Word .while → ∃ isOpen,
        Derives (w :: used) (.statement isOpen s) ∧
        (isOpen = true → ∀ t ∈ rest.head?, ¬ t.Word .else) ∧ s.Accepted inLoop := by
  refine (Yields.expect _ _).bind fun l => (expression_yields n).bind fun c =>
    (Yields.expect _ _).bind fun r => (ih.statement true).bind fun s => .pure ?_
  rintro rest us ⟨isOpen, derived, closed, accepted⟩ _ ⟨rfl, closes⟩ ts ⟨derivedTest, arity⟩ _
    ⟨rfl, opens⟩ w word
  exact ⟨isOpen, by simpa using .whileLoop word opens derivedTest closes derived,
    by simpa using closed, ⟨arity, accepted.arity, by simp [Expr.OptionWithinArity]⟩,
    accepted.enclosed⟩

theorem branchStatement_yields (ih : StatementsSound n) (inLoop : Bool) : Yields
      (do
        let _ ← expect (.punctuator .leftParen) .ifStart
        let condition ← Parser.expression n
        let _ ← expect (.punctuator .rightParen) .ifEnd
        let consequent ← Parser.statement n inLoop
        if ← accept (.keyword .else) then
          return .ifElse condition consequent (some (← Parser.statement n inLoop))
        else return .ifElse condition consequent none)
      fun s used rest => ∀ w : Token, w.Word .if → ∃ isOpen,
        Derives (w :: used) (.statement isOpen s) ∧
        (isOpen = true → ∀ t ∈ rest.head?, ¬ t.Word .else) ∧ s.Accepted inLoop := by
  refine (Yields.expect _ _).bind fun l => (expression_yields n).bind fun c =>
    (Yields.expect _ _).bind fun r => (ih.statement inLoop).bind fun s =>
    (Yields.accept _).bind fun found => ?_
  cases found with
  | true =>
    refine (ih.statement inLoop).bind fun s' => .pure ?_
    rintro rest vs ⟨isOpen', derived', closed', accepted'⟩ _ ⟨other, rfl, otherwise⟩ us
      ⟨isOpen, derived, closed, accepted⟩ _ ⟨rfl, closes⟩ ts ⟨derivedTest, arity⟩ _ ⟨rfl, opens⟩
      w word
    -- An open statement would have taken the `else` for a branch of its own.
    cases isOpen with
    | true => exact absurd otherwise (closed rfl other (by simp))
    | false =>
      exact ⟨isOpen',
        by simpa using .branches word opens derivedTest closes derived otherwise derived',
        by simpa using closed', ⟨arity, accepted.arity, accepted'.arity⟩, accepted.enclosed,
        accepted'.enclosed⟩
  | false =>
    refine .pure ?_
    rintro rest _ ⟨rfl, final⟩ us ⟨isOpen, derived, -, accepted⟩ _ ⟨rfl, closes⟩ ts
      ⟨derivedTest, arity⟩ _ ⟨rfl, opens⟩ w word
    exact ⟨true, by simpa using .branch word opens derivedTest closes derived,
      fun _ => by simpa using final, ⟨arity, accepted.arity⟩, accepted.enclosed⟩

theorem statement_succ (ih : StatementsSound n) (inLoop : Bool) :
    Yields (Parser.statement (n + 1) inLoop) fun s used rest =>
      ∃ isOpen, Derives used (.statement isOpen s) ∧
        (isOpen = true → ∀ t ∈ rest.head?, ¬ t.Word .else) ∧ s.Accepted inLoop := by
  refine Yields.take?.bind fun found => ?_
  cases found with
  | none =>
    refine (expressionStatement_yields n).mono ?_
    rintro s used rest ⟨e, ts, stop, rfl, rfl, derived, stops, arity⟩ _ ⟨rfl, -⟩
    exact ⟨false, by simpa using .expression derived stops, by simp, arity, trivial⟩
  | some found =>
    obtain ⟨lead, w⟩ := found
    cases lead with
    | jump kind =>
      refine (jumpStatement_yields inLoop kind w).mono ?_
      rintro s used rest ⟨rfl, rfl, stop, rfl, stops⟩ _ ⟨rfl, meant⟩
      refine ⟨false, ?_, by simp, trivial, rfl⟩
      cases kind with
      | leave => exact .leave (lead?_eq meant) stops
      | next => exact .next (lead?_eq meant) stops
    | forLoop =>
      refine (ih.forStatement_yields inLoop).mono ?_
      rintro s used rest tail _ ⟨rfl, meant⟩
      exact tail w (lead?_eq meant)
    | whileLoop =>
      refine (ih.whileStatement_yields inLoop).mono ?_
      rintro s used rest tail _ ⟨rfl, meant⟩
      exact tail w (lead?_eq meant)
    | branch =>
      refine (ih.branchStatement_yields inLoop).mono ?_
      rintro s used rest tail _ ⟨rfl, meant⟩
      exact tail w (lead?_eq meant)
    | print =>
      refine (expression_yields n).bind fun e => (Yields.expect _ _).bind fun stop => .pure ?_
      rintro rest _ ⟨rfl, stops⟩ ts ⟨derived, arity⟩ _ ⟨rfl, meant⟩
      exact ⟨false, by simpa using .print (lead?_eq meant) derived stops, by simp, arity, trivial⟩
    | returning =>
      refine (expressionUnless_yields n _).bind fun e => (Yields.expect _ _).bind fun stop =>
        .pure ?_
      rintro rest _ ⟨rfl, stops⟩ ts ⟨derived, arity⟩ _ ⟨rfl, meant⟩
      exact ⟨false, by simpa using .returning (lead?_eq meant) derived stops, by simp, arity, rfl⟩
    | block =>
      refine (ih.block inLoop).bind fun body => .pure ?_
      rintro rest _ ⟨us, r, rfl, closes, derived, accepted⟩ _ ⟨rfl, meant⟩
      exact ⟨false, by simpa using .nested (.block (lead?_eq meant) derived closes), by simp,
        accepted.arity, accepted.enclosed⟩

end StatementsSound

theorem statements_sound (n : Nat) : StatementsSound n := by
  induction n with
  | zero => exact .zero
  | succ n ih =>
    exact {
      declaration := ih.declaration_succ
      statement := ih.statement_succ
      block := ih.block_succ
      function := ih.function_succ
      methods := ih.methods_succ }

theorem program_yields (n : Nat) : Yields (program n) fun body used rest =>
    rest = [] ∧ Derives used (.declarations body) ∧ Stmt.AllAccepted false body := by
  induction n with
  | zero => exact .fail _
  | succ n ih =>
    refine Yields.atEnd.bind fun ended => ?_
    split
    next found =>
      refine .pure ?_
      rintro rest _ ⟨rfl, empty⟩
      exact ⟨by simpa [found] using empty, .noDeclaration, .nil⟩
    next =>
      refine ((statements_sound n).declaration false).bind fun first => ih.bind fun body => .pure ?_
      rintro rest us ⟨rfl, derived', accepted'⟩ ts ⟨s, rfl, derived, accepted⟩ _ ⟨rfl, -⟩
      exact ⟨rfl, by simpa using .moreDeclarations derived derived', .cons accepted accepted'⟩

end Parser

theorem derives_of_parse {tokens : List Token} {firstId : Nat} {body : List Stmt}
    (read : (parse tokens firstId).result = .ok body) :
    Derives (tokens.takeWhile fun t => t.kind != .eof) (.declarations body) ∧
      Stmt.AllAccepted false body := by
  unfold parse at read
  cases run : Parser.program (Parser.depthFor tokens.length) (Cursor.start tokens firstId) with
  | error fault c => simp [run] at read
  | ok body' c =>
    simp only [run] at read
    split at read
    next clean =>
      cases read
      obtain ⟨-, used, split, empty, derived, accepted⟩ :=
        Parser.program_yields _ _ _ _ run (by simpa using clean)
      rw [empty, List.append_nil] at split
      subst split
      exact ⟨derived, accepted⟩
    · cases read

end ScopeScript
