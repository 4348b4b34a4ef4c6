import ScopeScript.Proofs.Parsing.Tracking

set_option autoImplicit false

namespace ScopeScript

namespace Indexed

variable {α : Type} {words : List Token} {stop : Token} {s : State}

-- Expressions.

section

variable {k n rank : Nat}

theorem assignTo_tracks (target value : Expr) (sign : Token) :
    Tracks words stop k n rank 0 (assignTo target value sign)
      (Parser.assignTo target value sign) := by
  unfold assignTo Parser.assignTo
  cases target with
  | var old => exact Tracks.reference.bind fun _ => .pure
  | get object name => exact .pure
  | _ => exact (Tracks.note rfl).bind fun _ => .pure

theorem updateTo_tracks (target : Expr) (op : BinaryOp) (value : Expr) (sign : Token) :
    Tracks words stop k n rank 0 (updateTo target op value sign)
      (Parser.updateTo target op value sign) := by
  unfold updateTo Parser.updateTo
  cases target with
  | var old => exact Tracks.reference.bind fun _ => assignTo_tracks _ _ _
  | get object name => exact Tracks.copy.bind fun _ => assignTo_tracks _ _ _
  | _ => exact assignTo_tracks _ _ _

structure ExpressionsTrack (words : List Token) (stop : Token) (k n : Nat) : Prop where
  expression : Tracks words stop k n 10 1 (expression (words ++ [stop]) n) (Parser.expression n)
  rung : ∀ rungs, Tracks words stop k n (3 + rungs.length) 1 (rung (words ++ [stop]) n rungs)
    (Parser.rung n rungs)
  rungTail : ∀ r tighter left, Tracks words stop k n (1 + tighter.length) 0
    (rungTail (words ++ [stop]) n r tighter left) (Parser.rungTail n r tighter left)
  unary : Tracks words stop k n 2 1 (unary (words ++ [stop]) n) (Parser.unary n)
  suffixes : ∀ e, Tracks words stop k n 1 0 (suffixes (words ++ [stop]) n e) (Parser.suffixes n e)
  arguments : ∀ count, Tracks words stop k n 11 1 (arguments (words ++ [stop]) n count)
    (Parser.arguments n count)
  operand : Tracks words stop k n 1 1 (operand (words ++ [stop]) n) (Parser.operand n)

namespace ExpressionsTrack

theorem zero : ExpressionsTrack words stop k 0 where
  expression := .exhausted (by omega)
  rung _ := .exhausted (by omega)
  rungTail _ _ _ := .exhausted (by omega)
  unary := .exhausted (by omega)
  suffixes _ := .exhausted (by omega)
  arguments _ := .exhausted (by omega)
  operand := .exhausted (by omega)

theorem expression_succ (ended : Ended words stop) (ih : ExpressionsTrack words stop k n) :
    Tracks words stop k (n + 1) 10 1 (Indexed.expression (words ++ [stop]) (n + 1))
      (Parser.expression (n + 1)) := by
  refine .succ ((ih.rung Parser.ladder).bind fun target => .take? ended ?_ fun form sign => ?_)
  · exact .pure
  · rcases form with _ | op | op
    · exact (ih.expression.later (by omega)).bind fun _ => assignTo_tracks _ _ _
    · exact (ih.expression.later (by omega)).bind fun _ => updateTo_tracks _ _ _ _
    · exact updateTo_tracks _ _ _ _

theorem rung_succ (ih : ExpressionsTrack words stop k n) (rungs : List Parser.Rung) :
    Tracks words stop k (n + 1) (3 + rungs.length) 1
      (Indexed.rung (words ++ [stop]) (n + 1) rungs) (Parser.rung (n + 1) rungs) := by
  cases rungs with
  | nil => exact .succ ih.unary
  | cons r tighter =>
    exact .succ ((ih.rung tighter).bind fun left => (ih.rungTail r tighter left).later (by omega))

theorem rungTail_succ (ended : Ended words stop) (ih : ExpressionsTrack words stop k n)
    (r : Parser.Rung) (tighter : List Parser.Rung) (left : Expr) :
    Tracks words stop k (n + 1) (1 + tighter.length) 0
      (Indexed.rungTail (words ++ [stop]) (n + 1) r tighter left)
      (Parser.rungTail (n + 1) r tighter left) := by
  rw [Nat.add_comm 1]
  refine .succ (.take? ended .pure fun op sign => ?_)
  exact ((ih.rung tighter).later (by omega)).bind fun right =>
    (ih.rungTail r tighter _).later (by omega)

theorem unary_succ (ended : Ended words stop) (ih : ExpressionsTrack words stop k n) :
    Tracks words stop k (n + 1) 2 1 (Indexed.unary (words ++ [stop]) (n + 1))
      (Parser.unary (n + 1)) := by
  refine .succ (.take? ended ?_ fun op sign => ?_)
  · exact ih.operand.bind fun e => (ih.suffixes e).later (by omega)
  · exact (ih.unary.later (by omega)).bind fun _ => .pure

theorem suffixes_succ (ended : Ended words stop) (ih : ExpressionsTrack words stop k n) (e : Expr) :
    Tracks words stop k (n + 1) 1 0 (Indexed.suffixes (words ++ [stop]) (n + 1) e)
      (Parser.suffixes (n + 1) e) := by
  refine .succ (.take? ended .pure fun form sign => ?_)
  rcases form with _ | _
  · have finish (rank : Nat) (wide : 1 ≤ rank) (es : List Expr) : Tracks words stop k n rank 0
        (do
          let close ← Indexed.expect (words ++ [stop]) (.punctuator .rightParen) .argumentsEnd
          Indexed.suffixes (words ++ [stop]) n (.call e close.line es))
        (do
          let close ← Parser.expect (.punctuator .rightParen) .argumentsEnd
          Parser.suffixes n (.call e close.line es)) :=
      (Tracks.expect ended).bind fun close => (ih.suffixes _).later (by omega)
    exact (Tracks.isNext ended).bind fun _ => .ite (Tracks.pure.bind (finish _ (by omega)))
      (((ih.arguments 0).later (by omega)).bind (finish _ (by omega)))
  · exact (Tracks.expectName ended).bind fun name => (ih.suffixes _).later (by omega)

theorem arguments_succ (ended : Ended words stop) (ih : ExpressionsTrack words stop k n)
    (count : Nat) :
    Tracks words stop k (n + 1) 11 1 (Indexed.arguments (words ++ [stop]) (n + 1) count)
      (Parser.arguments (n + 1) count) := by
  have list : Tracks words stop k n 10 1
      (do
        let e ← Indexed.expression (words ++ [stop]) n
        if ← Indexed.accept (words ++ [stop]) (.punctuator .comma) then
          return e :: (← Indexed.arguments (words ++ [stop]) n (count + 1))
        else return [e])
      (do
        let e ← Parser.expression n
        if ← Parser.accept (.punctuator .comma) then
          return e :: (← Parser.arguments n (count + 1))
        else return [e]) :=
    ih.expression.bind fun _ => .accept ended
      (((ih.arguments (count + 1)).later (by omega)).bind fun _ => .pure) .pure
  refine .succ ?_
  unfold Indexed.arguments Parser.arguments
  by_cases full : Parser.maxArity ≤ count
  · simpa only [full, if_true] using (Tracks.noteHere ended fun _ => rfl).bind fun _ => list
  · simpa only [full, if_false] using list

theorem operand_succ (ended : Ended words stop) (ih : ExpressionsTrack words stop k n) :
    Tracks words stop k (n + 1) 1 1 (Indexed.operand (words ++ [stop]) (n + 1))
      (Parser.operand (n + 1)) := by
  refine .succ (.take? ended (.fail ended _) fun atom word => ?_)
  rcases atom with _ | _ | _ | _ | _
  · exact .pure
  · exact Tracks.reference.bind fun _ => .pure
  · exact Tracks.reference.bind fun _ => .pure
  · exact (Tracks.expect ended).bind fun _ => (Tracks.expectName ended).bind fun _ =>
      Tracks.reference.bind fun _ => .pure
  · exact (ih.expression.later (by omega)).bind fun _ => (Tracks.expect ended).bind fun _ => .pure

end ExpressionsTrack

theorem expressions_track (ended : Ended words stop) (k n : Nat) :
    ExpressionsTrack words stop k n := by
  induction n with
  | zero => exact .zero
  | succ n ih =>
    exact {
      expression := ih.expression_succ ended
      rung := ih.rung_succ
      rungTail := ih.rungTail_succ ended
      unary := ih.unary_succ ended
      suffixes := ih.suffixes_succ ended
      arguments := ih.arguments_succ ended
      operand := ih.operand_succ ended }

end

-- Statements.

section

variable {k n rank : Nat}

theorem expression_tracks (ended : Ended words stop) :
    Tracks words stop k n 10 1 (expression (words ++ [stop]) n) (Parser.expression n) :=
  (expressions_track ended k n).expression

theorem expressionUnless_tracks (ended : Ended words stop) (kind : Kind) :
    Tracks words stop k n 10 0 (expressionUnless (words ++ [stop]) n kind)
      (Parser.expressionUnless n kind) :=
  (Tracks.isNext ended).bind fun _ => .ite .pure ((expression_tracks ended).bind fun _ => .pure)

theorem expressionStatement_tracks (ended : Ended words stop) :
    Tracks words stop k n 10 1 (expressionStatement (words ++ [stop]) n)
      (Parser.expressionStatement n) :=
  (expression_tracks ended).bind fun _ => (Tracks.expect ended).bind fun _ => .pure

theorem varDeclaration_tracks (ended : Ended words stop) :
    Tracks words stop k n 1 0 (varDeclaration (words ++ [stop]) n) (Parser.varDeclaration n) := by
  refine (Tracks.expectName ended).bind fun name => ?_
  have finish (rank : Nat) (initial : Option Expr) : Tracks words stop k n rank 0
      (do
        let _ ← expect (words ++ [stop]) (.punctuator .semicolon) .variableEnd
        return Stmt.varDecl name initial)
      (do
        let _ ← Parser.expect (.punctuator .semicolon) .variableEnd
        return Stmt.varDecl name initial) :=
    (Tracks.expect ended).bind fun _ => .pure
  exact .accept ended (((expression_tracks ended).later (by omega)).bind fun _ =>
    Tracks.pure.bind (finish _)) (Tracks.pure.bind (finish _))

theorem forInitial_tracks (ended : Ended words stop) :
    Tracks words stop k n 10 0 (forInitial (words ++ [stop]) n) (Parser.forInitial n) :=
  .accept ended .pure (.accept ended
    (((varDeclaration_tracks ended).later (by omega)).bind fun _ => .pure)
    ((expressionStatement_tracks ended).bind fun _ => .pure))

theorem parameters_tracks (ended : Ended words stop) (count : Nat) :
    Tracks words stop k n 1 1 (parameters (words ++ [stop]) n count)
      (Parser.parameters n count) := by
  induction n generalizing count with
  | zero => exact .exhausted (by omega)
  | succ n ih =>
    have list : Tracks words stop k n 0 1
        (do
          let name ← expectName (words ++ [stop]) .parameterName
          if ← accept (words ++ [stop]) (.punctuator .comma) then
            return name :: (← parameters (words ++ [stop]) n (count + 1))
          else return [name])
        (do
          let name ← Parser.expectName .parameterName
          if ← Parser.accept (.punctuator .comma) then
            return name :: (← Parser.parameters n (count + 1))
          else return [name]) :=
      (Tracks.expectName ended).bind fun _ => .accept ended
        (((ih (count + 1)).later (by omega)).bind fun _ => .pure) .pure
    refine .succ ?_
    unfold parameters Parser.parameters
    by_cases full : Parser.maxArity ≤ count
    · simpa only [full, if_true] using (Tracks.noteHere ended fun _ => rfl).bind fun _ => list
    · simpa only [full, if_false] using list

theorem functionHead_tracks (ended : Ended words stop) (kind : FunctionKind) :
    Tracks words stop k n 0 1 (functionHead (words ++ [stop]) n kind)
      (Parser.functionHead n kind) := by
  refine (Tracks.expectName ended).bind fun name => (Tracks.expect ended).bind fun _ =>
    (Tracks.isNext ended).bind fun found => ?_
  have finish (rank : Nat) (names : List Name) : Tracks words stop k n rank 0
      (do
        let _ ← expect (words ++ [stop]) (.punctuator .rightParen) .parametersEnd
        let _ ← expect (words ++ [stop]) (.punctuator .leftBrace) (.bodyStart kind)
        return (name, names))
      (do
        let _ ← Parser.expect (.punctuator .rightParen) .parametersEnd
        let _ ← Parser.expect (.punctuator .leftBrace) (.bodyStart kind)
        return (name, names)) :=
    (Tracks.expect ended).bind fun _ => (Tracks.expect ended).bind fun _ => .pure
  exact .ite (Tracks.pure.bind (finish _))
    (((parameters_tracks ended 0).later (by omega)).bind (finish _))

theorem classHead_tracks (ended : Ended words stop) :
    Tracks words stop k n rank 0 (classHead (words ++ [stop])) Parser.classHead := by
  refine (Tracks.expectName ended).bind fun name => ?_
  have finish (rank : Nat) (above : Option Reference) : Tracks words stop k n rank 0
      (do
        let _ ← expect (words ++ [stop]) (.punctuator .leftBrace) .classStart
        return (name, above))
      (do
        let _ ← Parser.expect (.punctuator .leftBrace) .classStart
        return (name, above)) :=
    (Tracks.expect ended).bind fun _ => .pure
  exact .accept ended ((Tracks.expectName ended).bind fun _ => Tracks.reference.bind fun _ =>
    Tracks.pure.bind (finish _)) (Tracks.pure.bind (finish _))

theorem jumpStatement_tracks (ended : Ended words stop) (kind : Jump) (word : Token) :
    Tracks words stop k n rank 0 (jumpStatement (words ++ [stop]) kind word)
      (Parser.jumpStatement (decide (0 < k)) kind word) := by
  have finish : Tracks words stop k n rank 0
      (do
        let _ ← expect (words ++ [stop]) (.punctuator .semicolon) (.jumpEnd kind)
        return Stmt.jump kind)
      (do
        let _ ← Parser.expect (.punctuator .semicolon) (.jumpEnd kind)
        return Stmt.jump kind) :=
    (Tracks.expect ended).bind fun _ => .pure
  intro s loops inside room
  unfold jumpStatement Parser.jumpStatement
  rw [run_bind (rfl : (get : Reader State) s = .ok s s), loops]
  cases k with
  | zero => exact (Tracks.note rfl).bind (fun _ => finish) s loops inside room
  | succ k => exact finish s loops inside room

structure StatementsTrack (words : List Token) (stop : Token) (n : Nat) : Prop where
  declaration : ∀ s : State, s.current ≤ words.length →
    32 * (words.length - s.current) + 12 ≤ n →
    Proceeds words stop s (declaration (words ++ [stop]) n s)
      (Parser.declaration n (decide (0 < s.loops)) (s.cursor words stop))
  statement : ∀ k, Tracks words stop k n 11 1 (statement (words ++ [stop]) n)
    (Parser.statement n (decide (0 < k)))
  block : ∀ k, Tracks words stop k n 13 0 (block (words ++ [stop]) n)
    (Parser.block n (decide (0 < k)))
  function : ∀ k kind, Tracks words stop k n 1 1 (function (words ++ [stop]) n kind)
    (Parser.function n kind)
  methods : ∀ k, Tracks words stop k n 2 0 (methods (words ++ [stop]) n) (Parser.methods n)

theorem Tracks.closing {kind : Kind} {q q' : Reader α} {p p' : Parser α} {least : Nat}
    (ended : Ended words stop) (done : Tracks words stop k n rank least q p)
    (more : ∀ s : State, s.loops = k → s.current < words.length →
      32 * (words.length - s.current) + rank ≤ n →
      Ends words stop least s (q' s) (p' (s.cursor words stop))) :
    Tracks words stop k n rank least
      (do
        if (← atEnd (words ++ [stop])) || (← Indexed.isNext (words ++ [stop]) kind) then q else q')
      (do if (← Parser.atEnd) || (← Parser.isNext kind) then p else p') := by
  intro s loops inside room
  cases ended.holds inside with
  | last _ ahead here =>
    refine .bind_still (run_atEnd here) (by simp [Parser.atEnd, ahead, ended.last]) ?_
    refine .bind_still (run_isNext_last ended kind here) (by simp [Parser.isNext, ahead]) ?_
    simpa [ended.last] using done s loops inside room
  | word t within ahead here other =>
    refine .bind_still (run_atEnd here) (by simp [Parser.atEnd, ahead, other]) ?_
    refine .bind_still (run_isNext kind here other) (by simp [Parser.isNext, ahead]) ?_
    by_cases same : t.kind = kind
    · simpa [same] using done s loops inside room
    · simpa [same, other] using more s loops within room

namespace StatementsTrack

theorem zero : StatementsTrack words stop 0 where
  declaration _ _ room := absurd room (by omega)
  statement _ := .exhausted (by omega)
  block _ := .exhausted (by omega)
  function _ _ := .exhausted (by omega)
  methods _ := .exhausted (by omega)

theorem declaration_succ (ended : Ended words stop) (ih : StatementsTrack words stop n)
    (inside : s.current ≤ words.length) (room : 32 * (words.length - s.current) + 12 ≤ n + 1) :
    Proceeds words stop s (Indexed.declaration (words ++ [stop]) (n + 1) s)
      (Parser.declaration (n + 1) (decide (0 < s.loops)) (s.cursor words stop)) := by
  refine .recovering ended (by omega) ?_
  refine (?_ : Tracks words stop s.loops n 11 1 _ _) s rfl inside (by omega)
  refine .take? ended (ih.statement s.loops) fun lead word => ?_
  rcases lead with _ | _ | _
  · exact (classHead_tracks ended).bind fun _ => ((ih.methods s.loops).later (by omega)).bind
      fun _ => (Tracks.expect ended).bind fun _ => .pure
  · exact ((ih.function s.loops .function).later (by omega)).bind fun _ => .pure
  · exact (varDeclaration_tracks ended).later (by omega)

theorem forStatement_tracks (ended : Ended words stop) (ih : StatementsTrack words stop n) :
    Tracks words stop k n 42 0
      (do
        let _ ← expect (words ++ [stop]) (.punctuator .leftParen) .forStart
        let initial ← forInitial (words ++ [stop]) n
        let condition ← expressionUnless (words ++ [stop]) n (.punctuator .semicolon)
        let _ ← expect (words ++ [stop]) (.punctuator .semicolon) .forConditionEnd
        let step ← expressionUnless (words ++ [stop]) n (.punctuator .rightParen)
        let _ ← expect (words ++ [stop]) (.punctuator .rightParen) .forEnd
        return Parser.forNode initial condition step
          (← loopBody (Indexed.statement (words ++ [stop]) n)))
      (do
        let _ ← Parser.expect (.punctuator .leftParen) .forStart
        let initial ← Parser.forInitial n
        let condition ← Parser.expressionUnless n (.punctuator .semicolon)
        let _ ← Parser.expect (.punctuator .semicolon) .forConditionEnd
        let step ← Parser.expressionUnless n (.punctuator .rightParen)
        let _ ← Parser.expect (.punctuator .rightParen) .forEnd
        return Parser.forNode initial condition step (← Parser.statement n true)) :=
  (Tracks.expect ended).bind fun _ => ((forInitial_tracks ended).later (by omega)).bind fun _ =>
    ((expressionUnless_tracks ended _).later (by omega)).bind fun _ =>
      (Tracks.expect ended).bind fun _ =>
        ((expressionUnless_tracks ended _).later (by omega)).bind fun _ =>
          (Tracks.expect ended).bind fun _ =>
            (Tracks.loopBody ((ih.statement (k + 1)).later (by omega))).bind fun _ => .pure

theorem statement_succ (ended : Ended words stop) (ih : StatementsTrack words stop n) (k : Nat) :
    Tracks words stop k (n + 1) 11 1 (Indexed.statement (words ++ [stop]) (n + 1))
      (Parser.statement (n + 1) (decide (0 < k))) := by
  refine .succ (.take? ended (expressionStatement_tracks ended) fun lead word => ?_)
  cases lead with
  | jump kind => exact jumpStatement_tracks ended kind word
  | forLoop => exact forStatement_tracks ended ih
  | whileLoop =>
    exact (Tracks.expect ended).bind fun _ =>
      ((expression_tracks ended).later (by omega)).bind fun _ => (Tracks.expect ended).bind fun _ =>
        (Tracks.loopBody ((ih.statement (k + 1)).later (by omega))).bind fun _ => .pure
  | branch =>
    exact (Tracks.expect ended).bind fun _ =>
      ((expression_tracks ended).later (by omega)).bind fun _ => (Tracks.expect ended).bind fun _ =>
        ((ih.statement k).later (by omega)).bind fun _ => .accept ended
          (((ih.statement k).later (by omega)).bind fun _ => .pure) .pure
  | print =>
    exact ((expression_tracks ended).later (by omega)).bind fun _ =>
      (Tracks.expect ended).bind fun _ => .pure
  | returning =>
    exact ((expressionUnless_tracks ended _).later (by omega)).bind fun _ =>
      (Tracks.expect ended).bind fun _ => .pure
  | block => exact ((ih.block k).later (by omega)).bind fun _ => .pure

theorem block_succ (ended : Ended words stop) (ih : StatementsTrack words stop n) (k : Nat) :
    Tracks words stop k (n + 1) 13 0 (Indexed.block (words ++ [stop]) (n + 1))
      (Parser.block (n + 1) (decide (0 < k))) := by
  refine .succ (.closing ended ((Tracks.expect ended).bind fun _ => .pure) ?_)
  intro s loops within room
  have first := ih.declaration s (Nat.le_of_lt within) room
  rw [loops] at first
  refine (first.ends within).bind fun _ s' onward used => ?_
  have inside := onward.inside
  exact ((ih.block k).bind fun _ => .pure) s' (onward.loops.trans loops) inside (by omega)

theorem function_succ (ended : Ended words stop) (ih : StatementsTrack words stop n) (k : Nat)
    (kind : FunctionKind) :
    Tracks words stop k (n + 1) 1 1 (Indexed.function (words ++ [stop]) (n + 1) kind)
      (Parser.function (n + 1) kind) :=
  .succ ((functionHead_tracks ended kind).bind fun _ =>
    (Tracks.outsideLoops ((ih.block 0).later (by omega))).bind fun _ => .pure)

theorem methods_succ (ended : Ended words stop) (ih : StatementsTrack words stop n) (k : Nat) :
    Tracks words stop k (n + 1) 2 0 (Indexed.methods (words ++ [stop]) (n + 1))
      (Parser.methods (n + 1)) :=
  .succ (.closing ended .pure fun s loops within room =>
    ((ih.function k .method).bind fun _ => ((ih.methods k).later (by omega)).bind fun _ => .pure)
      s loops (Nat.le_of_lt within) room)

end StatementsTrack

theorem statements_track (ended : Ended words stop) (n : Nat) : StatementsTrack words stop n := by
  induction n with
  | zero => exact .zero
  | succ n ih =>
    exact {
      declaration := fun _ => ih.declaration_succ ended
      statement := ih.statement_succ ended
      block := ih.block_succ ended
      function := ih.function_succ ended
      methods := ih.methods_succ ended }

theorem program_finishes (ended : Ended words stop) (loops : s.loops = 0)
    (inside : s.current ≤ words.length) (room : 32 * (words.length - s.current) + 13 ≤ n) :
    ∃ statements s', program (words ++ [stop]) n s = .ok statements s' ∧
      Parser.program n (s.cursor words stop) = .ok statements (s'.cursor words stop) ∧
      Onward words stop s s' ∧ s'.current = words.length := by
  induction n generalizing s with
  | zero => omega
  | succ n ih =>
    unfold program Parser.program
    rw [Parser.bind_of_ok (rfl : Parser.atEnd (s.cursor words stop) = .ok _ _)]
    cases ended.holds inside with
    | last isLast ahead here =>
      rw [run_bind (run_atEnd here), ended.last, ahead]
      exact ⟨[], s, rfl, rfl, .refl inside, isLast⟩
    | word t within ahead here other =>
      rw [run_bind (run_atEnd here), beq_eq_false_iff_ne.mpr other, ahead]
      have first := (statements_track ended n).declaration s inside (by omega)
      rw [loops] at first
      generalize read : declaration (words ++ [stop]) n s = x at first
      generalize read' : Parser.declaration n (decide (0 < 0)) (s.cursor words stop) = y at first
      cases first with
      | ok a s' onward used =>
        have inside' := onward.inside
        have further := used within
        obtain ⟨statements, s'', ran, ran', onward', isLast⟩ :=
          ih (onward.loops.trans loops) inside' (by omega)
        refine ⟨a.toList ++ statements, s'', ?_, ?_, onward.trans onward', isLast⟩
        · exact (run_bind read).trans (run_bind ran)
        · exact (Parser.bind_of_ok read').trans (Parser.bind_of_ok ran')

end

/-- The reading of a whole list: it ends at the end of the text and outside of loops, and the faults
that end a declaration lie further and further behind, unless they lie at the end of the text. -/
structure Completes (words : List Token) (stop : Token) (firstId n : Nat)
    (statements : List Stmt) (s : State) : Prop where
  ran : program (words ++ [stop]) n (.start firstId) = .ok statements s
  same : Parser.program n (Cursor.start (words ++ [stop]) firstId) =
    .ok statements (s.cursor words stop)
  atEnd : s.current = words.length
  loops : s.loops = 0
  inside : ∀ i ∈ s.blamed, i ≤ words.length
  ascending : s.blamed.Pairwise fun i j => i < j ∨ i = words.length ∧ j = words.length
  once : (s.blamed.filter fun i => i < words.length).Nodup
  places : s.faults.filterMap Diagnostic.unwinding? =
    s.blamed.filterMap fun i => (words ++ [stop])[i]?.map Token.place

theorem Ended.start_cursor (ended : Ended words stop) (firstId : Nat) :
    (State.start firstId).cursor words stop = Cursor.start (words ++ [stop]) firstId := by
  have before : ∀ t ∈ words, (t.kind != .eof) = true := fun t mem =>
    bne_iff_ne.mpr (ended.only t mem)
  have found : words.find? (fun t => t.kind == .eof) = none :=
    List.find?_eq_none.mpr fun t mem same => ended.only t mem (beq_iff_eq.mp same)
  simp [State.cursor, State.start, Cursor.start, List.takeWhile_append_of_pos before,
    List.find?_append, found, ended.last]

theorem Ended.completes (ended : Ended words stop) (firstId : Nat) {n : Nat}
    (deep : Parser.depthFor (words ++ [stop]).length ≤ n) :
    ∃ statements s, Completes words stop firstId n statements s := by
  have room : 32 * (words.length - (State.start firstId).current) + 13 ≤ n := by
    simp only [Parser.depthFor, List.length_append, List.length_singleton] at deep
    change 32 * (words.length - 0) + 13 ≤ n
    omega
  obtain ⟨statements, s, ran, same, onward, atEnd⟩ :=
    program_finishes ended (s := .start firstId) rfl (Nat.zero_le _) room
  obtain ⟨new, split, ordered, before, places⟩ := onward.blamed
  obtain rfl : s.blamed = new := split
  refine ⟨statements, s, ran, ended.start_cursor firstId ▸ same, atEnd, onward.loops,
    fun i mem => ?_, ordered, ?_, places⟩
  · have := (before i mem).2
    unfold Later at this
    omega
  · refine (ordered.filter _).imp_of_mem fun {i j} mem mem' later => ?_
    have := of_decide_eq_true (List.mem_filter.mp mem).2
    unfold Later at later
    omega

end Indexed

open Indexed

/-- What reading does with any list of words and the end of the text behind them. -/
structure Totality (words : List Token) (stop : Token) : Prop where
  finishes : ∀ firstId n, Parser.depthFor (words ++ [stop]).length ≤ n →
    ∃ statements s, Completes words stop firstId n statements s
  parses : ∀ firstId, ∃ statements s,
    Completes words stop firstId (Parser.depthFor (words ++ [stop]).length) statements s ∧
    parse (words ++ [stop]) firstId =
      ⟨if s.faults.isEmpty then .ok statements else .error s.faults, s.nextId⟩
  rejects : ∀ firstId faults, (parse (words ++ [stop]) firstId).result = .error faults →
    faults ≠ []
  advances : ∀ (s : State) (n : Nat), s.current < words.length →
    Parser.depthFor (words.length - s.current) ≤ n →
    ∃ result s', declaration (words ++ [stop]) n s = .ok result s' ∧
      Parser.declaration n (decide (0 < s.loops)) (s.cursor words stop) =
        .ok result (s'.cursor words stop) ∧
      s.current < s'.current ∧ s'.current ≤ words.length ∧ s'.loops = s.loops

theorem parse_ne_nil {tokens : List Token} {firstId : Nat} {faults : List Diagnostic}
    (rejected : (parse tokens firstId).result = .error faults) : faults ≠ [] := by
  unfold parse at rejected
  split at rejected
  · split at rejected
    next => cases rejected
    next noted =>
      cases rejected
      exact fun same => noted (List.isEmpty_iff.mpr same)
  · cases rejected
    simp

theorem parse_total {words : List Token} {stop : Token} (ended : Ended words stop) :
    Totality words stop where
  finishes firstId _ deep := ended.completes firstId deep
  parses firstId := by
    obtain ⟨statements, s, done⟩ := ended.completes firstId (Nat.le_refl _)
    exact ⟨statements, s, done, by simp only [parse, done.same]; rfl⟩
  rejects _ _ := parse_ne_nil
  advances s n within deep := by
    have room : 32 * (words.length - s.current) + 12 ≤ n := by
      unfold Parser.depthFor at deep
      omega
    have proceeds := (statements_track ended n).declaration s (Nat.le_of_lt within) room
    generalize declaration (words ++ [stop]) n s = x at proceeds
    generalize Parser.declaration n (decide (0 < s.loops)) (s.cursor words stop) = y at proceeds
    cases proceeds with
    | ok a s' onward used =>
      exact ⟨a, s', rfl, rfl, used within, onward.inside, onward.loops⟩

def unclosed : List Token := List.replicate 2 ⟨.punctuator .leftBrace, "\x7b", 1⟩

theorem parse_total_unclosed :
    Ended unclosed ⟨.eof, "", 1⟩ ∧ Totality unclosed ⟨.eof, "", 1⟩ ∧
      ∃ s, program (unclosed ++ [⟨.eof, "", 1⟩]) (Parser.depthFor 3) (.start 0) = .ok [] s ∧
        s.blamed = [2, 2] := by
  have ended : Ended unclosed ⟨.eof, "", 1⟩ := ⟨rfl, by decide⟩
  exact ⟨ended, parse_total ended, _, rfl, rfl⟩

end ScopeScript
