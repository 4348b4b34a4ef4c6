import ScopeScript.Proofs.Parsing.ExpressionCompleteness

set_option autoImplicit false

namespace ScopeScript

open ScopeScript.Parser

namespace Complete

variable {ts us vs : List Token}

-- Clauses that end at a mark.

theorem reads_expressionStatement {stop : Token} {e : Expr}
    (h : Phrase.Complete ts (.expression e)) (stops : stop.Mark .semicolon) {m : Nat}
    {rest : List Token} (deep : 32 * ts.length ≤ m) (arity : e.WithinArity) :
    Reads (expressionStatement m) (ts ++ [stop]) rest
      (·.anonymous = (Stmt.expression e).anonymous) := by
  have closed : Closed ([stop] ++ rest) := .cons (Kind.closes_of_eq stops (by simp)) rest
  refine Reads.bind (h m _ deep closed arity) fun e' same => ?_
  refine Reads.bind_cons (.expect stops) fun _ _ => .pure ?_
  simp only [Expr.anonymous] at same
  simp [Stmt.anonymous, Stmt.mapIds, same]

theorem unset {t stop : Token} (identifier : t.Identifier) (stops : stop.Mark .semicolon) :
    Phrase.Complete [t, stop] (.variable (.varDecl t.name none)) := by
  intro m rest deep arity
  refine Reads.bind_cons (.expectName identifier) ?_
  rintro _ rfl
  refine Reads.bind_nil (.accept_false (by simp [stops])) ?_
  rintro _ rfl
  refine Reads.bind_nil (.pure rfl) ?_
  rintro _ rfl
  exact Reads.bind_cons (.expect stops) fun _ _ => .pure rfl

theorem set {t sign stop : Token} {e : Expr} (identifier : t.Identifier) (equals : sign.Mark .equal)
    (h : Phrase.Complete ts (.expression e)) (stops : stop.Mark .semicolon) :
    Phrase.Complete (t :: sign :: (ts ++ [stop])) (.variable (.varDecl t.name (some e))) := by
  intro m rest deep arity
  simp only [List.length_cons, List.length_append, List.length_nil] at deep
  refine Reads.bind_cons (.expectName identifier) ?_
  rintro _ rfl
  refine Reads.bind_cons (.accept_true equals) ?_
  rintro _ rfl
  have closed : Closed ([stop] ++ rest) := .cons (Kind.closes_of_eq stops (by simp)) rest
  refine Reads.bind (h m _ (by omega) closed (arity e rfl)) fun e' same => ?_
  refine Reads.bind_nil (.pure rfl) ?_
  rintro _ rfl
  refine Reads.bind_cons (.expect stops) fun _ _ => .pure ?_
  simp only [Expr.anonymous] at same
  simp [Stmt.anonymous, Stmt.mapIds, same]

theorem initialVariable {w : Token} {s : Stmt} (word : w.Word .var)
    (h : Phrase.Complete ts (.variable s)) : Phrase.Complete (w :: ts) (.initial s) := by
  intro m rest deep arity
  simp only [List.length_cons] at deep
  refine Reads.bind_nil (.accept_false (by simp [word])) ?_
  rintro _ rfl
  refine Reads.bind_cons (.accept_true word) ?_
  rintro _ rfl
  rw [← List.append_nil ts]
  refine Reads.bind (by simpa using h m rest (by omega) arity) fun s' same => .pure ?_
  simpa using same

theorem initialExpression {stop : Token} {e : Expr} (derived : Derives ts (.expression e))
    (h : Phrase.Complete ts (.expression e)) (stops : stop.Mark .semicolon) :
    Phrase.Complete (ts ++ [stop]) (.initial (.expression e)) := by
  intro m rest deep arity
  simp only [List.length_append, List.length_cons, List.length_nil] at deep
  have whole : Reads (expressionStatement m) (ts ++ [stop]) rest _ :=
    reads_expressionStatement h stops (by omega) arity
  obtain ⟨t, us, rfl, start⟩ := derived.exists_cons id
  have apart : t.kind ≠ .keyword .var := by
    intro word
    have none_leads := start.not_lead.2
    simp [word, declarationLead?] at none_leads
  refine Reads.bind_nil (.accept_false (by simpa using start.not_punctuator.2.1)) ?_
  rintro _ rfl
  refine Reads.bind_nil (.accept_false (by simpa using apart)) ?_
  rintro _ rfl
  rw [← List.append_nil (t :: us ++ [stop])]
  refine Reads.bind (by simpa using whole) fun s' same => .pure ?_
  simpa using same

-- Functions.

theorem parameters_step {count n : Nat} {rest : List Token} {Q : List Name → Prop}
    (room : count < 255) (list : Reads
      (do
        let name ← expectName .parameterName
        if ← accept (.punctuator .comma) then return name :: (← Parser.parameters n (count + 1))
        else return [name]) ts rest Q) :
    Reads (Parser.parameters (n + 1) count) ts rest Q := by
  unfold Parser.parameters
  have below : ¬ maxArity ≤ count := by
    rw [maxArity]
    omega
  simpa only [below, if_false] using list

theorem lastParameter {t : Token} (identifier : t.Identifier) :
    Phrase.Complete [t] (.parameters [t.name]) := by
  intro m count rest deep room next
  simp only [List.length_cons, List.length_nil] at deep room
  obtain ⟨m, rfl⟩ : ∃ m', m = m' + 1 := ⟨m - 1, by omega⟩
  refine parameters_step (by omega) ?_
  refine Reads.bind_cons (.expectName identifier) ?_
  rintro _ rfl
  refine Reads.bind_nil (.accept_false (next.not_mem (by simp))) ?_
  rintro _ rfl
  exact .pure rfl

theorem moreParameters {t comma : Token} {names : List Name} (identifier : t.Identifier)
    (separates : comma.Mark .comma) (h : Phrase.Complete ts (.parameters names)) :
    Phrase.Complete (t :: comma :: ts) (.parameters (t.name :: names)) := by
  intro m count rest deep room next
  simp only [List.length_cons] at deep room
  obtain ⟨m, rfl⟩ : ∃ m', m = m' + 1 := ⟨m - 1, by omega⟩
  refine parameters_step (by omega) ?_
  refine Reads.bind_cons (.expectName identifier) ?_
  rintro _ rfl
  refine Reads.bind_cons (.accept_true separates) ?_
  rintro _ rfl
  rw [← List.append_nil ts]
  refine Reads.bind (by simpa using h m (count + 1) rest (by omega) (by omega) next) ?_
  rintro _ rfl
  exact .pure rfl

theorem reads_headEnd {name : Name} {names : List Name} {kind : FunctionKind} {r l : Token}
    {rest : List Token} (closes : r.Mark .rightParen) (opens : l.Mark .leftBrace) :
    Reads
      (do
        let _ ← expect (.punctuator .rightParen) .parametersEnd
        let _ ← expect (.punctuator .leftBrace) (.bodyStart kind)
        return (name, names)) [r, l] rest (· = (name, names)) := by
  refine Reads.bind_cons (.expect closes) fun _ _ => ?_
  exact Reads.bind_cons (.expect opens) fun _ _ => .pure rfl

theorem reads_function {name : Name} {names : List Name} {body : List Stmt} {m : Nat}
    {kind : FunctionKind} {rest : List Token}
    (head : Reads (functionHead m kind) ts (us ++ rest) (· = (name, names)))
    (inside : Reads (Parser.block m false) us rest (Stmt.anonymousAll · = Stmt.anonymousAll body)) :
    Reads (Parser.function (m + 1) kind) (ts ++ us) rest
      (·.anonymous = (FunctionDecl.mk name names body).anonymous) := by
  refine Reads.bind head ?_
  rintro _ rfl
  rw [← List.append_nil us]
  refine Reads.bind (by simpa using inside) fun body' same => .pure ?_
  simp only [Stmt.anonymousAll] at same
  simp [FunctionDecl.anonymous, FunctionDecl.mapIds, same]

theorem withoutParameters {t l r : Token} {body : List Stmt} (identifier : t.Identifier)
    (opens : l.Mark .leftParen) (closes : r.Mark .rightParen)
    (h : Phrase.Complete ts (.block body)) :
    Phrase.Complete (t :: l :: r :: ts) (.function (.mk t.name [] body)) := by
  intro m kind rest deep arity enclosed
  obtain ⟨brace, us, rfl, braces, inside⟩ := h
  simp only [List.length_cons] at deep
  obtain ⟨m, rfl⟩ : ∃ m', m = m' + 1 := ⟨m - 1, by omega⟩
  have head : Reads (functionHead m kind) [t, l, r, brace] (us ++ rest) (· = (t.name, [])) := by
    refine Reads.bind_cons (.expectName identifier) ?_
    rintro _ rfl
    refine Reads.bind_cons (.expect opens) fun _ _ => ?_
    refine Reads.bind_nil (.isNext_true closes) ?_
    rintro _ rfl
    refine Reads.bind_nil (.pure rfl) ?_
    rintro _ rfl
    exact reads_headEnd closes braces
  exact reads_function head (inside m false rest (by omega) ⟨arity.2, enclosed⟩)

theorem withParameters {t l r : Token} {names : List Name} {body : List Stmt}
    (identifier : t.Identifier) (opens : l.Mark .leftParen)
    (derived : Derives ts (.parameters names))
    (h : Phrase.Complete ts (.parameters names)) (closes : r.Mark .rightParen)
    (h' : Phrase.Complete us (.block body)) :
    Phrase.Complete (t :: l :: (ts ++ r :: us)) (.function (.mk t.name names body)) := by
  intro m kind rest deep arity enclosed
  obtain ⟨brace, vs, rfl, braces, inside⟩ := h'
  simp only [List.length_cons, List.length_append] at deep
  obtain ⟨m, rfl⟩ : ∃ m', m = m' + 1 := ⟨m - 1, by omega⟩
  have listed := h m 0 ([r, brace] ++ (vs ++ rest)) (by omega) (by simpa using arity.1)
    (.cons closes _)
  obtain ⟨first, ws, rfl, start⟩ := derived.exists_cons id
  have apart : first.kind ≠ .punctuator .rightParen := by
    rw [show first.kind = .identifier from start]
    simp
  have head : Reads (functionHead m kind) (t :: l :: (first :: ws ++ [r, brace])) (vs ++ rest)
      (· = (t.name, names)) := by
    refine Reads.bind_cons (.expectName identifier) ?_
    rintro _ rfl
    refine Reads.bind_cons (.expect opens) fun _ _ => ?_
    refine Reads.bind_nil (.isNext_false (by simpa using apart)) ?_
    rintro _ rfl
    refine Reads.bind listed ?_
    rintro _ rfl
    exact reads_headEnd closes braces
  simpa using reads_function head (inside m false rest (by omega) ⟨arity.2, enclosed⟩)

theorem noFunction : Phrase.Complete [] (.functions []) := by
  rintro m rest deep ⟨t, us, rfl, same⟩ -
  obtain ⟨m, rfl⟩ : ∃ m', m = m' + 1 := ⟨m - 1, by omega⟩
  refine Reads.bind_last .atEnd ?_
  rintro _ rfl
  refine Reads.bind_last (.isNext_true same) ?_
  rintro _ rfl
  exact .pure rfl

theorem moreFunctions {f : FunctionDecl} {fs : List FunctionDecl}
    (derived : Derives ts (.function f)) (h : Phrase.Complete ts (.function f))
    (h' : Phrase.Complete us (.functions fs)) :
    Phrase.Complete (ts ++ us) (.functions (f :: fs)) := by
  intro m rest deep next accepted
  obtain ⟨t, vs, rfl, start⟩ := derived.exists_cons id
  simp only [List.length_cons, List.length_append] at deep
  obtain ⟨m, rfl⟩ : ∃ m', m = m' + 1 := ⟨m - 1, by omega⟩
  have apart : t.kind ≠ .punctuator .rightBrace := by
    rw [show t.kind = .identifier from start]
    simp
  refine Reads.bind_nil .atEnd ?_
  rintro _ rfl
  refine Reads.bind_nil (.isNext_false (by simpa using apart)) ?_
  rintro _ rfl
  refine Reads.bind (h m .method _ (by simp; omega) accepted.arity.1 accepted.enclosed.1)
    fun f' same => ?_
  rw [← List.append_nil us]
  refine Reads.bind
    (by simpa using h' m rest (by omega) next ⟨accepted.arity.2, accepted.enclosed.2⟩)
    fun fs' same' => .pure ?_
  simp only [FunctionDecl.anonymous, FunctionDecl.anonymousAll] at same same' ⊢
  simp [FunctionDecl.mapIdsAll, same, same']

-- Declarations.

theorem function {w : Token} {f : FunctionDecl} (word : w.Word .fun)
    (h : Phrase.Complete ts (.function f)) :
    Phrase.Complete (w :: ts) (.declaration (.funDecl f)) := by
  intro m inLoop rest deep unclaimed accepted
  simp only [List.length_cons] at deep
  obtain ⟨m, rfl⟩ : ∃ m', m = m' + 1 := ⟨m - 1, by omega⟩
  refine (Reads.recovering (Q := (·.anonymous = (Stmt.funDecl f).anonymous)) ?_).mono
    fun _ ⟨s', found, same⟩ => by simp [found, same]
  refine Reads.bind_cons (.take?_some
    (show declarationLead? w.kind = some .funDecl by rw [word]; rfl))
    ?_
  rintro _ rfl
  rw [← List.append_nil ts]
  refine Reads.bind (by simpa using h m .function rest (by omega) accepted.arity accepted.enclosed)
    fun f' same => .pure ?_
  simp only [FunctionDecl.anonymous] at same
  simp [Stmt.anonymous, Stmt.mapIds, same]

theorem variableDecl {w : Token} {s : Stmt} (word : w.Word .var)
    (h : Phrase.Complete ts (.variable s)) : Phrase.Complete (w :: ts) (.declaration s) := by
  intro m inLoop rest deep unclaimed accepted
  simp only [List.length_cons] at deep
  obtain ⟨m, rfl⟩ : ∃ m', m = m' + 1 := ⟨m - 1, by omega⟩
  refine (Reads.recovering (Q := (·.anonymous = s.anonymous)) ?_).mono
    fun _ ⟨s', found, same⟩ => by simp [found, same]
  refine Reads.bind_cons (.take?_some
    (show declarationLead? w.kind = some .varDecl by rw [word]; rfl))
    ?_
  rintro _ rfl
  exact h m rest (by omega) accepted.arity

theorem stated {isOpen : Bool} {s : Stmt} (derived : Derives ts (.statement isOpen s))
    (h : Phrase.Complete ts (.statement isOpen s)) : Phrase.Complete ts (.declaration s) := by
  intro m inLoop rest deep unclaimed accepted
  obtain ⟨t, us, rfl, start⟩ := derived.exists_cons id
  rw [List.length_cons] at deep
  obtain ⟨m, rfl⟩ : ∃ m', m = m' + 1 := ⟨m - 1, by omega⟩
  refine (Reads.recovering (Q := (·.anonymous = s.anonymous)) ?_).mono
    fun _ ⟨s', found, same⟩ => by simp [found, same]
  refine Reads.bind_nil (.take?_none (by simpa using start.2)) ?_
  rintro _ rfl
  exact h m inLoop rest (by rw [List.length_cons]; omega) (fun _ => unclaimed rfl) accepted

theorem reads_class (ts : List Token) (name : Name) (above : Option Reference) {w r : Token}
    {fs : List FunctionDecl} {m : Nat} {inLoop : Bool} {rest : List Token}
    (word : w.Word .classWord)
    (head : Reads classHead ts (us ++ r :: rest) fun head =>
      head.1 = name ∧ head.2.map (Reference.mapId fun _ => 0) =
        above.map (Reference.mapId fun _ => 0))
    (h : Phrase.Complete us (.functions fs)) (closes : r.Mark .rightBrace)
    (deep : 32 * us.length + 1 ≤ m) (accepted : FunctionDecl.AllAccepted fs) :
    Reads (Parser.declaration (m + 1) inLoop) (w :: (ts ++ (us ++ [r]))) rest
      (·.map Stmt.anonymous = some (Stmt.classDecl name above fs).anonymous) := by
  refine (Reads.recovering (Q := (·.anonymous = (Stmt.classDecl name above fs).anonymous)) ?_).mono
    fun _ ⟨s', found, same⟩ => by simp [found, same]
  refine Reads.bind_cons
    (.take?_some (show declarationLead? w.kind = some .classDecl by rw [word]; rfl)) ?_
  rintro _ rfl
  refine Reads.bind (by simpa using head) ?_
  rintro ⟨name', above'⟩ ⟨rfl, alike⟩
  refine Reads.bind (h m _ deep (.cons closes rest) accepted) fun fs' same => ?_
  refine Reads.bind_cons (.expect closes) fun _ _ => .pure ?_
  simp only [FunctionDecl.anonymousAll] at same
  simp [Stmt.anonymous, Stmt.mapIds, same, alike]

theorem base {w t l r : Token} {fs : List FunctionDecl} (word : w.Word .classWord)
    (identifier : t.Identifier) (opens : l.Mark .leftBrace)
    (h : Phrase.Complete ts (.functions fs)) (closes : r.Mark .rightBrace) :
    Phrase.Complete (w :: t :: l :: (ts ++ [r])) (.declaration (.classDecl t.name none fs)) := by
  intro m inLoop rest deep unclaimed accepted
  simp only [List.length_cons, List.length_append, List.length_nil] at deep
  obtain ⟨m, rfl⟩ : ∃ m', m = m' + 1 := ⟨m - 1, by omega⟩
  refine reads_class [t, l] t.name none word ?_ h closes (by omega)
    ⟨accepted.arity, accepted.enclosed⟩
  refine Reads.bind_cons (.expectName identifier) ?_
  rintro _ rfl
  refine Reads.bind_nil (.accept_false (by simp [opens])) ?_
  rintro _ rfl
  refine Reads.bind_nil (.pure rfl) ?_
  rintro _ rfl
  exact Reads.bind_cons (.expect opens) fun _ _ => .pure ⟨rfl, rfl⟩

theorem derived {w t less above l r : Token} {above' : Reference} {fs : List FunctionDecl}
    (word : w.Word .classWord) (identifier : t.Identifier) (below : less.Mark .less)
    (identifier' : above.Identifier) (opens : l.Mark .leftBrace)
    (h : Phrase.Complete ts (.functions fs)) (closes : r.Mark .rightBrace)
    (named : above'.name = above.name) :
    Phrase.Complete (w :: t :: less :: above :: l :: (ts ++ [r]))
      (.declaration (.classDecl t.name (some above') fs)) := by
  intro m inLoop rest deep unclaimed accepted
  simp only [List.length_cons, List.length_append, List.length_nil] at deep
  obtain ⟨m, rfl⟩ : ∃ m', m = m' + 1 := ⟨m - 1, by omega⟩
  refine reads_class [t, less, above, l] t.name (some above') word ?_ h closes (by omega)
    ⟨accepted.arity, accepted.enclosed⟩
  refine Reads.bind_cons (.expectName identifier) ?_
  rintro _ rfl
  refine Reads.bind_cons (.accept_true below) ?_
  rintro _ rfl
  refine Reads.bind_cons (.expectName identifier') ?_
  rintro _ rfl
  refine Reads.bind_nil (.reference _) fun r named' => ?_
  refine Reads.bind_nil (.pure rfl) ?_
  rintro _ rfl
  refine Reads.bind_cons (.expect opens) fun _ _ => .pure ⟨rfl, ?_⟩
  simp [Reference.mapId, named, named']

theorem noDeclaration : Phrase.Complete [] (.declarations []) := by
  refine ⟨?_, ?_⟩
  · intro m inLoop rest r deep closes accepted
    simp only [List.length_nil] at deep
    obtain ⟨m, rfl⟩ : ∃ m', m = m' + 1 := ⟨m - 1, by omega⟩
    refine Reads.bind_nil .atEnd ?_
    rintro _ rfl
    refine Reads.bind_nil (.isNext_true closes) ?_
    rintro _ rfl
    exact Reads.bind_cons (.expect closes) fun _ _ => .pure rfl
  · intro m deep accepted
    simp only [List.length_nil] at deep
    obtain ⟨m, rfl⟩ : ∃ m', m = m' + 1 := ⟨m - 1, by omega⟩
    refine Reads.bind_last .atEnd ?_
    rintro _ rfl
    exact .pure rfl

theorem unclaimed_declarations {body : List Stmt} (derived : Derives us (.declarations body))
    {rest : List Token} (unclaimed : Unclaimed true rest) : Unclaimed true (us ++ rest) := by
  obtain ⟨rfl, -⟩ | ⟨t, vs, rfl, start⟩ := derived.starts
  · exact unclaimed
  · intro _ t' next word
    simp only [List.cons_append, List.head?_cons, Option.mem_def, Option.some.injEq] at next
    subst next
    exact start (.inr word)

theorem unclaimed_rightBrace {r : Token} (closes : r.Mark .rightBrace) (rest : List Token) :
    Unclaimed true (r :: rest) := by
  intro _ t next word
  simp only [List.head?_cons, Option.mem_def, Option.some.injEq] at next
  subst next
  rw [Token.Word, closes] at word
  cases word

theorem moreDeclarations {s : Stmt} {body : List Stmt} (derived : Derives ts (.declaration s))
    (h : Phrase.Complete ts (.declaration s)) (derived' : Derives us (.declarations body))
    (h' : Phrase.Complete us (.declarations body)) :
    Phrase.Complete (ts ++ us) (.declarations (s :: body)) := by
  obtain ⟨t, vs, rfl, start⟩ := derived.exists_cons id
  refine ⟨?_, ?_⟩
  · intro m inLoop rest r deep closes accepted
    simp only [List.length_cons, List.length_append] at deep
    obtain ⟨m, rfl⟩ : ∃ m', m = m' + 1 := ⟨m - 1, by omega⟩
    have apart : t.kind ≠ .punctuator .rightBrace := fun brace => start (.inl brace)
    rw [List.append_assoc]
    refine Reads.bind_nil .atEnd ?_
    rintro _ rfl
    refine Reads.bind_nil (.isNext_false (by simpa using apart)) ?_
    rintro _ rfl
    have unclaimed : Unclaimed true (us ++ [r] ++ rest) := by
      simpa using unclaimed_declarations derived' (unclaimed_rightBrace closes rest)
    refine Reads.bind (h m inLoop _ (by rw [List.length_cons]; omega) unclaimed
      ⟨accepted.arity.1, accepted.enclosed.1⟩) fun found same => ?_
    have others := h'.1 m inLoop rest r (by omega) closes
      ⟨accepted.arity.2, accepted.enclosed.2⟩
    rw [← List.append_nil (us ++ [r])]
    refine Reads.bind (by simpa using others) fun body' same' => .pure ?_
    obtain ⟨s', rfl, alike⟩ := Option.map_eq_some_iff.mp same
    simp only [Stmt.anonymous, Stmt.anonymousAll] at alike same' ⊢
    simp [Stmt.mapIdsAll, alike, same']
  · intro m deep accepted
    simp only [List.length_cons, List.length_append] at deep
    obtain ⟨m, rfl⟩ : ∃ m', m = m' + 1 := ⟨m - 1, by omega⟩
    refine Reads.bind_nil .atEnd ?_
    rintro _ rfl
    have unclaimed : Unclaimed true (us ++ []) :=
      unclaimed_declarations derived' (by simp [Unclaimed])
    refine Reads.bind (h m false _ (by rw [List.length_cons]; omega) unclaimed
      ⟨accepted.arity.1, accepted.enclosed.1⟩) fun found same => ?_
    have others := h'.2 m (by omega) ⟨accepted.arity.2, accepted.enclosed.2⟩
    rw [← List.append_nil us]
    refine Reads.bind (by simpa using others) fun body' same' => .pure ?_
    obtain ⟨s', rfl, alike⟩ := Option.map_eq_some_iff.mp same
    simp only [Stmt.anonymous, Stmt.anonymousAll] at alike same' ⊢
    simp [Stmt.mapIdsAll, alike, same']

theorem block {l r : Token} {body : List Stmt} (opens : l.Mark .leftBrace)
    (h : Phrase.Complete ts (.declarations body)) (closes : r.Mark .rightBrace) :
    Phrase.Complete (l :: (ts ++ [r])) (.block body) := by
  refine ⟨l, ts ++ [r], rfl, opens, ?_⟩
  intro m inLoop rest deep accepted
  exact h.1 m inLoop rest r (by simpa using deep) closes accepted

-- Statements. The word in front says which of them is read.

theorem reads_statement {w : Token} {m : Nat} {inLoop : Bool} {rest : List Token}
    {s : Stmt} (lead : Lead) (meant : lead? w.kind = some lead)
    (read : Reads (match lead with
      | .jump kind => jumpStatement inLoop kind w
      | .forLoop => do
        let _ ← expect (.punctuator .leftParen) .forStart
        let initial ← forInitial m
        let condition ← expressionUnless m (.punctuator .semicolon)
        let _ ← expect (.punctuator .semicolon) .forConditionEnd
        let step ← expressionUnless m (.punctuator .rightParen)
        let _ ← expect (.punctuator .rightParen) .forEnd
        return forNode initial condition step (← Parser.statement m true)
      | .whileLoop => do
        let _ ← expect (.punctuator .leftParen) .whileStart
        let condition ← Parser.expression m
        let _ ← expect (.punctuator .rightParen) .whileEnd
        return .loop condition (← Parser.statement m true) none
      | .branch => do
        let _ ← expect (.punctuator .leftParen) .ifStart
        let condition ← Parser.expression m
        let _ ← expect (.punctuator .rightParen) .ifEnd
        let consequent ← Parser.statement m inLoop
        if ← accept (.keyword .else) then
          return .ifElse condition consequent (some (← Parser.statement m inLoop))
        else return .ifElse condition consequent none
      | .print => printStatement m
      | .returning => returnStatement m w.line
      | .block => do return .block (← Parser.block m inLoop)) ts rest
      (·.anonymous = s.anonymous)) :
    Reads (Parser.statement (m + 1) inLoop) (w :: ts) rest (·.anonymous = s.anonymous) := by
  unfold Parser.statement
  refine Reads.bind_cons (.take?_some meant) ?_
  rintro _ rfl
  cases lead <;> exact read

theorem expression {stop : Token} {e : Expr} (derived : Derives ts (.expression e))
    (h : Phrase.Complete ts (.expression e)) (stops : stop.Mark .semicolon) :
    Phrase.Complete (ts ++ [stop]) (.statement false (.expression e)) := by
  intro m inLoop rest deep unclaimed accepted
  obtain ⟨t, us, rfl, start⟩ := derived.exists_cons id
  simp only [List.length_append, List.length_cons, List.length_nil] at deep
  obtain ⟨m, rfl⟩ : ∃ m', m = m' + 1 := ⟨m - 1, by omega⟩
  refine Reads.bind_nil (.take?_none (by simpa using start.not_lead.1)) ?_
  rintro _ rfl
  exact reads_expressionStatement h stops (by simp; omega) accepted.arity

theorem print {w stop : Token} {e : Expr} (word : w.Word .print)
    (h : Phrase.Complete ts (.expression e)) (stops : stop.Mark .semicolon) :
    Phrase.Complete (w :: (ts ++ [stop])) (.statement false (.print e)) := by
  intro m inLoop rest deep unclaimed accepted
  simp only [List.length_append, List.length_cons, List.length_nil] at deep
  obtain ⟨m, rfl⟩ : ∃ m', m = m' + 1 := ⟨m - 1, by omega⟩
  refine reads_statement .print (by rw [word]; rfl) ?_
  have closed : Closed ([stop] ++ rest) := .cons (Kind.closes_of_eq stops (by simp)) rest
  refine Reads.bind (h m _ (by omega) closed accepted.arity) fun e' same => ?_
  refine Reads.bind_cons (.expect stops) fun _ _ => .pure ?_
  simp only [Expr.anonymous] at same
  simp [Stmt.anonymous, Stmt.mapIds, same]

theorem nested {body : List Stmt} (h : Phrase.Complete ts (.block body)) :
    Phrase.Complete ts (.statement false (.block body)) := by
  intro m inLoop rest deep unclaimed accepted
  obtain ⟨l, us, rfl, opens, inside⟩ := h
  simp only [List.length_cons] at deep
  obtain ⟨m, rfl⟩ : ∃ m', m = m' + 1 := ⟨m - 1, by omega⟩
  refine reads_statement .block (by rw [opens]; rfl) ?_
  have whole := inside m inLoop rest (by omega) ⟨accepted.arity, accepted.enclosed⟩
  rw [← List.append_nil us]
  refine Reads.bind (by simpa using whole) fun body' same => .pure ?_
  simp only [Stmt.anonymousAll] at same
  simp [Stmt.anonymous, Stmt.mapIds, same]

theorem returning {w stop : Token} {e : Option Expr} (word : w.Word .return)
    (h : Phrase.Complete ts (.optional e)) (stops : stop.Mark .semicolon) :
    Phrase.Complete (w :: (ts ++ [stop])) (.statement false (.returning w.line e)) := by
  intro m inLoop rest deep unclaimed accepted
  simp only [List.length_append, List.length_cons, List.length_nil] at deep
  obtain ⟨m, rfl⟩ : ∃ m', m = m' + 1 := ⟨m - 1, by omega⟩
  refine reads_statement .returning (by rw [word]; rfl) ?_
  have next : Ahead (.punctuator .semicolon) ([stop] ++ rest) := .cons stops rest
  refine Reads.bind (h m .semicolon _ (by omega) (.inl rfl) next accepted.arity) fun e' same => ?_
  refine Reads.bind_cons (.expect stops) fun _ _ => .pure ?_
  change e'.map (Expr.mapIds _) = e.map (Expr.mapIds _) at same
  simp only [Stmt.anonymous, Stmt.mapIds, same]

theorem jump {w stop : Token} {kind : Jump} (meant : lead? w.kind = some (.jump kind))
    (stops : stop.Mark .semicolon) :
    Phrase.Complete [w, stop] (.statement false (.jump kind)) := by
  intro m inLoop rest deep unclaimed accepted
  simp only [List.length_cons, List.length_nil] at deep
  obtain ⟨m, rfl⟩ : ∃ m', m = m' + 1 := ⟨m - 1, by omega⟩
  refine reads_statement (.jump kind) meant ?_
  obtain rfl : inLoop = true := accepted.enclosed
  exact Reads.bind_cons (.expect stops) fun _ _ => .pure rfl

theorem reads_condition {β : Type} {l r : Token} {c : Expr} {m : Nat} {rest : List Token}
    {starts ends : Expectation} {f : Expr → Parser β} {Q : β → Prop} (opens : l.Mark .leftParen)
    (h : Phrase.Complete ts (.expression c)) (closes : r.Mark .rightParen)
    (deep : 32 * ts.length ≤ m) (arity : c.WithinArity)
    (read : ∀ c', c'.anonymous = c.anonymous → Reads (f c') us rest Q) :
    Reads
      (do
        let _ ← expect (.punctuator .leftParen) starts
        let condition ← Parser.expression m
        let _ ← expect (.punctuator .rightParen) ends
        f condition) (l :: (ts ++ r :: us)) rest Q := by
  refine Reads.bind_cons (.expect opens) fun _ _ => ?_
  have closed : Closed (r :: us ++ rest) := .cons (Kind.closes_of_eq closes (by simp)) _
  refine Reads.bind (h m _ deep closed arity) fun c' same => ?_
  exact Reads.bind_cons (.expect closes) fun _ _ => read c' same

theorem whileLoop {w l r : Token} {isOpen : Bool} {c : Expr} {s : Stmt} (word : w.Word .while)
    (opens : l.Mark .leftParen) (h : Phrase.Complete ts (.expression c))
    (closes : r.Mark .rightParen) (h' : Phrase.Complete us (.statement isOpen s)) :
    Phrase.Complete (w :: l :: (ts ++ r :: us)) (.statement isOpen (.loop c s none)) := by
  intro m inLoop rest deep unclaimed accepted
  simp only [List.length_append, List.length_cons] at deep
  obtain ⟨m, rfl⟩ : ∃ m', m = m' + 1 := ⟨m - 1, by omega⟩
  refine reads_statement .whileLoop (by rw [word]; rfl) ?_
  refine reads_condition opens h closes (by omega) accepted.arity.1 fun c' same => ?_
  have whole := h' m true rest (by omega) unclaimed ⟨accepted.arity.2.1, accepted.enclosed⟩
  rw [← List.append_nil us]
  refine Reads.bind (by simpa using whole) fun s' same' => .pure ?_
  simp only [Expr.anonymous, Stmt.anonymous] at same same' ⊢
  simp [Stmt.mapIds, same, same']

theorem branch {w l r : Token} {isOpen : Bool} {c : Expr} {s : Stmt} (word : w.Word .if)
    (opens : l.Mark .leftParen) (h : Phrase.Complete ts (.expression c))
    (closes : r.Mark .rightParen) (h' : Phrase.Complete us (.statement isOpen s)) :
    Phrase.Complete (w :: l :: (ts ++ r :: us)) (.statement true (.ifElse c s none)) := by
  intro m inLoop rest deep unclaimed accepted
  simp only [List.length_append, List.length_cons] at deep
  obtain ⟨m, rfl⟩ : ∃ m', m = m' + 1 := ⟨m - 1, by omega⟩
  refine reads_statement .branch (by rw [word]; rfl) ?_
  refine reads_condition opens h closes (by omega) accepted.arity.1 fun c' same => ?_
  have whole := h' m inLoop rest (by omega) (fun _ => unclaimed rfl)
    ⟨accepted.arity.2, accepted.enclosed⟩
  rw [← List.append_nil us]
  refine Reads.bind (by simpa using whole) fun s' same' => ?_
  refine Reads.bind_nil (.accept_false (unclaimed rfl)) ?_
  rintro _ rfl
  refine .pure ?_
  simp only [Expr.anonymous, Stmt.anonymous] at same same' ⊢
  simp [Stmt.mapIds, same, same']

theorem branches {w l r other : Token} {isOpen : Bool} {c : Expr} {s s' : Stmt}
    (word : w.Word .if) (opens : l.Mark .leftParen) (h : Phrase.Complete ts (.expression c))
    (closes : r.Mark .rightParen) (h' : Phrase.Complete us (.statement false s))
    (otherwise : other.Word .else) (h'' : Phrase.Complete vs (.statement isOpen s')) :
    Phrase.Complete (w :: l :: (ts ++ r :: (us ++ other :: vs)))
      (.statement isOpen (.ifElse c s (some s'))) := by
  intro m inLoop rest deep unclaimed accepted
  simp only [List.length_append, List.length_cons] at deep
  obtain ⟨m, rfl⟩ : ∃ m', m = m' + 1 := ⟨m - 1, by omega⟩
  refine reads_statement .branch (by rw [word]; rfl) ?_
  refine reads_condition opens h closes (by omega) accepted.arity.1 fun c' same => ?_
  refine Reads.bind (h' m inLoop _ (by omega) (by simp [Unclaimed])
    ⟨accepted.arity.2.1, accepted.enclosed.1⟩) fun t same' => ?_
  refine Reads.bind_cons (.accept_true otherwise) ?_
  rintro _ rfl
  have whole := h'' m inLoop rest (by omega) unclaimed ⟨accepted.arity.2.2, accepted.enclosed.2⟩
  rw [← List.append_nil vs]
  refine Reads.bind (by simpa using whole) fun t' same'' => .pure ?_
  simp only [Expr.anonymous, Stmt.anonymous] at same same' same'' ⊢
  simp [Stmt.mapIds, same, same', same'']

theorem reads_for (first : Option Stmt) {l stop r : Token} {is cs ss : List Token} {isOpen : Bool}
    {c step : Option Expr} {s : Stmt} {m : Nat} {rest : List Token} (opens : l.Mark .leftParen)
    (begun : ∀ rest, Reads (forInitial m) is rest
      (·.map Stmt.anonymous = first.map Stmt.anonymous))
    (test : Phrase.Complete cs (.optional c)) (stops : stop.Mark .semicolon)
    (after : Phrase.Complete ss (.optional step)) (closes : r.Mark .rightParen)
    (h : Phrase.Complete us (.statement isOpen s))
    (deep : 32 * (cs.length + ss.length + us.length) ≤ m) (unclaimed : Unclaimed isOpen rest)
    (arity : Expr.OptionWithinArity c) (arity' : Expr.OptionWithinArity step)
    (accepted : s.Accepted true) :
    Reads
      (do
        let _ ← expect (.punctuator .leftParen) .forStart
        let initial ← forInitial m
        let condition ← expressionUnless m (.punctuator .semicolon)
        let _ ← expect (.punctuator .semicolon) .forConditionEnd
        let step ← expressionUnless m (.punctuator .rightParen)
        let _ ← expect (.punctuator .rightParen) .forEnd
        return forNode initial condition step (← Parser.statement m true))
      (l :: (is ++ (cs ++ stop :: (ss ++ r :: us)))) rest
      (·.anonymous = (forNode first c step s).anonymous) := by
  refine Reads.bind_cons (.expect opens) fun _ _ => ?_
  refine Reads.bind (begun _) fun first' same₁ => ?_
  have next : Ahead (.punctuator .semicolon) (stop :: (ss ++ r :: us) ++ rest) := .cons stops _
  refine Reads.bind (test m .semicolon _ (by omega) (.inl rfl) next arity) fun c' same₂ => ?_
  refine Reads.bind_cons (.expect stops) fun _ _ => ?_
  have next' : Ahead (.punctuator .rightParen) (r :: us ++ rest) := .cons closes _
  refine Reads.bind (after m .rightParen _ (by omega) (.inr rfl) next' arity') fun step' same₃ => ?_
  refine Reads.bind_cons (.expect closes) fun _ _ => ?_
  have whole := h m true rest (by omega) unclaimed accepted
  rw [← List.append_nil us]
  refine Reads.bind (by simpa using whole) fun s' same₄ => .pure ?_
  have conditions : (c'.getD (.literal (.bool true))).mapIds (fun _ => 0) =
      (c.getD (.literal (.bool true))).mapIds fun _ => 0 := by
    cases c <;> cases c' <;> simp_all [Expr.anonymous]
  have steps : step'.map (Expr.mapIds fun _ => 0) = step.map (Expr.mapIds fun _ => 0) := same₃
  simp only [Stmt.anonymous] at same₄ ⊢
  cases first <;> cases first' <;>
    simp_all [forNode, Stmt.anonymous, Stmt.mapIds, Stmt.mapIdsAll]

theorem optionWithinArity_of_getD {c : Option Expr}
    (arity : (c.getD (.literal (.bool true))).WithinArity) : Expr.OptionWithinArity c := by
  rintro e rfl
  exact arity

theorem forLoop {w l first stop r : Token} {cs ss : List Token} {isOpen : Bool}
    {c step : Option Expr} {s : Stmt} (word : w.Word .for) (opens : l.Mark .leftParen)
    (skips : first.Mark .semicolon) (test : Phrase.Complete cs (.optional c))
    (stops : stop.Mark .semicolon) (after : Phrase.Complete ss (.optional step))
    (closes : r.Mark .rightParen) (h : Phrase.Complete us (.statement isOpen s)) :
    Phrase.Complete (w :: l :: first :: (cs ++ stop :: (ss ++ r :: us)))
      (.statement isOpen (.loop (c.getD (.literal (.bool Bool.true))) s step)) := by
  intro m inLoop rest deep unclaimed accepted
  simp only [List.length_append, List.length_cons] at deep
  obtain ⟨m, rfl⟩ : ∃ m', m = m' + 1 := ⟨m - 1, by omega⟩
  refine reads_statement .forLoop (by rw [word]; rfl) ?_
  have begun (rest : List Token) : Reads (forInitial m) [first] rest
      (·.map Stmt.anonymous = (none : Option Stmt).map Stmt.anonymous) := by
    refine Reads.bind_cons (.accept_true skips) ?_
    rintro _ rfl
    exact .pure rfl
  exact reads_for none opens begun test stops after closes h (by omega) unclaimed
    (optionWithinArity_of_getD accepted.arity.1) accepted.arity.2.2
    ⟨accepted.arity.2.1, accepted.enclosed⟩

theorem forLoopFrom {w l stop r : Token} {is cs ss : List Token} {isOpen : Bool} {first : Stmt}
    {c step : Option Expr} {s : Stmt} (word : w.Word .for) (opens : l.Mark .leftParen)
    (begun : Phrase.Complete is (.initial first)) (test : Phrase.Complete cs (.optional c))
    (stops : stop.Mark .semicolon) (after : Phrase.Complete ss (.optional step))
    (closes : r.Mark .rightParen) (h : Phrase.Complete us (.statement isOpen s)) :
    Phrase.Complete (w :: l :: (is ++ (cs ++ stop :: (ss ++ r :: us))))
      (.statement isOpen (.block [first, .loop (c.getD (.literal (.bool Bool.true))) s step])) := by
  intro m inLoop rest deep unclaimed accepted
  simp only [List.length_append, List.length_cons] at deep
  obtain ⟨m, rfl⟩ : ∃ m', m = m' + 1 := ⟨m - 1, by omega⟩
  obtain ⟨⟨arity, ⟨arityTest, arityBody, arityStep⟩, -⟩, -, enclosed, -⟩ := accepted
  refine reads_statement .forLoop (by rw [word]; rfl) ?_
  exact reads_for (some first) opens (fun rest => begun m rest (by omega) arity) test stops after
    closes h (by omega) unclaimed (optionWithinArity_of_getD arityTest) arityStep
    ⟨arityBody, enclosed⟩

end Complete

theorem Derives.complete {ts : List Token} {p : Phrase} (h : Derives ts p) : p.Complete ts := by
  induction h with
  | assignName identifier equals _ named ih => exact Complete.assignName identifier equals ih named
  | assignProperty derived dots identifier equals _ ih ih' =>
    exact Complete.assignProperty derived ih dots identifier equals ih'
  | updateName identifier compound _ named named' ih =>
    exact Complete.updateName identifier compound ih named named'
  | updateProperty derived dots identifier compound _ copied ih ih' =>
    exact Complete.updateProperty derived ih dots identifier compound ih' copied
  | stepName identifier step named named' => exact Complete.stepName identifier step named named'
  | stepProperty derived dots identifier step copied ih =>
    exact Complete.stepProperty derived ih dots identifier step copied
  | plain derived ih => exact Complete.plain ih (derived.length_pos id)
  | @operand l _ e derived ih =>
    exact Complete.operand ih (derived.length_pos (l.not_mayBeEmpty_operand e))
  | @join l _ _ _ _ _ b _ joins derived ih ih' =>
    exact Complete.join ih joins ih' (derived.length_pos (l.not_mayBeEmpty_operand b))
  | unary sign _ ih => exact Complete.unary sign ih
  | called derived ih => exact Complete.called derived ih
  | primary _ ih => exact Complete.primary ih
  | callEmpty _ opens closes ih => exact Complete.callEmpty ih opens closes
  | callWith _ opens derived closes ih ih' => exact Complete.callWith ih opens derived ih' closes
  | property _ dots identifier ih => exact Complete.property ih dots identifier
  | lastArgument _ ih => exact Complete.lastArgument ih
  | moreArguments _ separates _ ih ih' => exact Complete.moreArguments ih separates ih'
  | literal word => exact Complete.literal word
  | variableName identifier named => exact Complete.variableName identifier named
  | this word named => exact Complete.this word named
  | super word dots identifier named => exact Complete.super word dots identifier named
  | grouping opens _ closes ih => exact Complete.grouping opens ih closes
  | absent => exact Complete.absent
  | present derived ih => exact Complete.present derived ih
  | noDeclaration => exact Complete.noDeclaration
  | moreDeclarations derived derived' ih ih' =>
    exact Complete.moreDeclarations derived ih derived' ih'
  | base word identifier opens _ closes ih => exact Complete.base word identifier opens ih closes
  | derived word identifier below identifier' opens _ closes named ih =>
    exact Complete.derived word identifier below identifier' opens ih closes named
  | function word _ ih => exact Complete.function word ih
  | variableDecl word _ ih => exact Complete.variableDecl word ih
  | stated derived ih => exact Complete.stated derived ih
  | unset identifier stops => exact Complete.unset identifier stops
  | set identifier equals _ stops ih => exact Complete.set identifier equals ih stops
  | noFunction => exact Complete.noFunction
  | moreFunctions derived _ ih ih' => exact Complete.moreFunctions derived ih ih'
  | withoutParameters identifier opens closes _ ih =>
    exact Complete.withoutParameters identifier opens closes ih
  | withParameters identifier opens derived closes _ ih ih' =>
    exact Complete.withParameters identifier opens derived ih closes ih'
  | lastParameter identifier => exact Complete.lastParameter identifier
  | moreParameters identifier separates _ ih =>
    exact Complete.moreParameters identifier separates ih
  | block opens _ closes ih => exact Complete.block opens ih closes
  | expression derived stops ih => exact Complete.expression derived ih stops
  | print word _ stops ih => exact Complete.print word ih stops
  | nested _ ih => exact Complete.nested ih
  | branch word opens _ closes _ ih ih' => exact Complete.branch word opens ih closes ih'
  | branches word opens _ closes _ otherwise _ ih ih' ih'' =>
    exact Complete.branches word opens ih closes ih' otherwise ih''
  | whileLoop word opens _ closes _ ih ih' => exact Complete.whileLoop word opens ih closes ih'
  | forLoop word opens skips _ stops _ closes _ ih ih' ih'' =>
    exact Complete.forLoop word opens skips ih stops ih' closes ih''
  | forLoopFrom word opens _ _ stops _ closes _ ih₁ ih₂ ih₃ ih₄ =>
    exact Complete.forLoopFrom word opens ih₁ ih₂ stops ih₃ closes ih₄
  | initialVariable word _ ih => exact Complete.initialVariable word ih
  | initialExpression derived stops ih => exact Complete.initialExpression derived ih stops
  | returning word _ stops ih => exact Complete.returning word ih stops
  | leave word stops => exact Complete.jump (by rw [word]; rfl) stops
  | next word stops => exact Complete.jump (by rw [word]; rfl) stops

theorem parse_of_derives {tokens : List Token} (firstId : Nat) {body : List Stmt}
    (derived : Derives (tokens.takeWhile fun t => t.kind != .eof) (.declarations body))
    (accepted : Stmt.AllAccepted false body) :
    ∃ body', (parse tokens firstId).result = .ok body' ∧
      Stmt.anonymousAll body' = Stmt.anonymousAll body := by
  have shorter := (List.takeWhile_sublist (l := tokens) fun t => t.kind != .eof).length_le
  have deep : 32 * ((tokens.takeWhile fun t => t.kind != .eof).length + 1) ≤
      depthFor tokens.length := by
    unfold depthFor
    omega
  obtain ⟨body', next, run, same⟩ := derived.complete.2 _ deep accepted
    (Cursor.start tokens firstId) (List.append_nil _).symm
  refine ⟨body', ?_, same⟩
  unfold parse
  rw [run]
  simp [Cursor.start]

/--
Reading accepts just the grammar, and the rules on jumps and on the lengths of lists beyond it. What
it builds is the tree of the derivation: a program has only one, up to the numbers of references.
-/
theorem parse_ok_iff_derives {words : List Token} {stop : Token}
    (inner : ∀ t ∈ words, t.kind ≠ .eof) (ends : stop.kind = .eof) (firstId : Nat) :
    ((∃ body, (parse (words ++ [stop]) firstId).result = .ok body) ↔
      ∃ body, Derives words (.declarations body) ∧ Stmt.AllEnclosed true false body ∧
        Stmt.AllWithinArity body) ∧
    ∀ body, (parse (words ++ [stop]) firstId).result = .ok body →
      Derives words (.declarations body) ∧
      ∀ body', Derives words (.declarations body') → Stmt.AllEnclosed true false body' →
        Stmt.AllWithinArity body' → Stmt.anonymousAll body = Stmt.anonymousAll body' := by
  have before : (words ++ [stop]).takeWhile (fun t => t.kind != .eof) = words := by
    rw [List.takeWhile_append_of_pos (by simpa using inner)]
    simp [ends]
  refine ⟨⟨?_, ?_⟩, ?_⟩
  · rintro ⟨body, read⟩
    obtain ⟨derived, accepted⟩ := derives_of_parse read
    rw [before] at derived
    exact ⟨body, derived, accepted.enclosed, accepted.arity⟩
  · rintro ⟨body, derived, enclosed, arity⟩
    obtain ⟨body', read, -⟩ := parse_of_derives firstId (before.symm ▸ derived)
      ⟨arity, enclosed⟩
    exact ⟨body', read⟩
  · intro body read
    refine ⟨before ▸ (derives_of_parse read).1, fun body' derived enclosed arity => ?_⟩
    obtain ⟨body'', read', same⟩ := parse_of_derives firstId (before.symm ▸ derived)
      ⟨arity, enclosed⟩
    rw [read] at read'
    cases read'
    exact same

theorem parse_ok_loop_left :
    let words : List Token := [⟨.keyword .while, "while", 1⟩, ⟨.punctuator .leftParen, "(", 1⟩,
      ⟨.keyword .true, "true", 1⟩, ⟨.punctuator .rightParen, ")", 1⟩, ⟨.keyword .break, "break", 1⟩,
      ⟨.punctuator .semicolon, ";", 1⟩]
    let stop : Token := ⟨.eof, "", 1⟩
    (∀ t ∈ words, t.kind ≠ .eof) ∧ stop.kind = .eof ∧
      ∃ body, (parse (words ++ [stop]) 0).result = .ok body := by
  intro words stop
  have inner : ∀ t ∈ words, t.kind ≠ .eof := by simp [words]
  refine ⟨inner, rfl, (parse_ok_iff_derives inner rfl 0).1.mpr ?_⟩
  have condition : Derives [⟨.keyword .true, "true", 1⟩]
      (.expression (.literal (.bool Bool.true))) :=
    .plain (.operand (.operand (.operand (.operand (.operand (.operand (.called (.primary
      (.literal .true)))))))))
  have inside : Derives [words[4], words[5]] (.statement false (.jump .leave)) :=
    .leave rfl rfl
  have whole := Derives.moreDeclarations (.stated (.whileLoop (w := words[0]) (l := words[1])
    (r := words[3]) rfl rfl condition rfl inside)) .noDeclaration
  refine ⟨_, whole, ?_, ?_⟩
  · simp [Stmt.AllEnclosed, Stmt.Enclosed]
  · simp [Stmt.AllWithinArity, Stmt.WithinArity, Expr.WithinArity, Expr.OptionWithinArity]

end ScopeScript
