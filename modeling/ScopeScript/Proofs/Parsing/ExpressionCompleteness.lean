import ScopeScript.Proofs.Parsing.Lookahead

set_option autoImplicit false

namespace ScopeScript

open ScopeScript.Parser

def Unclaimed (isOpen : Bool) (rest : List Token) : Prop :=
  isOpen = true → ∀ t ∈ rest.head?, ¬ t.Word .else

def Ahead (kind : Kind) (rest : List Token) : Prop :=
  ∃ t us, rest = t :: us ∧ t.kind = kind

def Phrase.Complete (ts : List Token) : Phrase → Prop
  | .expression e => ∀ m rest, 32 * ts.length ≤ m → Closed rest → e.WithinArity →
    Reads (Parser.expression m) ts rest (·.anonymous = e.anonymous)
  | .level l e => ∀ m rest, 32 * ts.length ≤ m + l.strength + 1 → Settled (l.strength + 1) rest →
    e.WithinArity → Becomes (Parser.rung m (l.rung :: l.tighter)) ts rest fun q =>
      ∃ k e', q = Parser.rungTail k l.rung l.tighter e' ∧ e'.anonymous = e.anonymous ∧
        m ≤ k + ts.length
  | .unary e => ∀ m rest, 32 * ts.length ≤ m + 8 → Settled 6 rest → e.WithinArity →
    Reads (Parser.unary m) ts rest (·.anonymous = e.anonymous)
  | .call e => ∀ m rest, 32 * ts.length ≤ m + 9 → e.WithinArity →
    Becomes (Parser.operand m >>= Parser.suffixes m) ts rest fun q =>
      ∃ k e', q = Parser.suffixes k e' ∧ e'.anonymous = e.anonymous ∧ m ≤ k + ts.length
  | .primary e => ∀ m rest, 32 * ts.length ≤ m + 9 → e.WithinArity →
    Reads (Parser.operand m) ts rest (·.anonymous = e.anonymous)
  | .arguments es => ∀ m count rest, 32 * ts.length + 1 ≤ m → count + es.length ≤ 255 →
    Expr.AllWithinArity es → Ahead (.punctuator .rightParen) rest →
    Reads (Parser.arguments m count) ts rest (Expr.anonymousAll · = Expr.anonymousAll es)
  | .optional e => ∀ m p rest, 32 * ts.length ≤ m → p = .semicolon ∨ p = .rightParen →
    Ahead (.punctuator p) rest → Expr.OptionWithinArity e →
    Reads (Parser.expressionUnless m (.punctuator p)) ts rest
      (·.map Expr.anonymous = e.map Expr.anonymous)
  | .declarations body =>
    (∀ m inLoop rest (r : Token), 32 * (ts.length + 1) ≤ m + 14 → r.Mark .rightBrace →
      Stmt.AllAccepted inLoop body →
      Reads (Parser.block m inLoop) (ts ++ [r]) rest
        (Stmt.anonymousAll · = Stmt.anonymousAll body)) ∧
    ∀ m, 32 * (ts.length + 1) ≤ m → Stmt.AllAccepted false body →
      Reads (Parser.program m) ts [] (Stmt.anonymousAll · = Stmt.anonymousAll body)
  | .declaration s => ∀ m inLoop rest, 32 * ts.length ≤ m + 15 → Unclaimed true rest →
    s.Accepted inLoop → Reads (Parser.declaration m inLoop) ts rest
      (·.map Stmt.anonymous = some s.anonymous)
  | .variable s => ∀ m rest, 32 * ts.length ≤ m → s.WithinArity →
    Reads (Parser.varDeclaration m) ts rest (·.anonymous = s.anonymous)
  | .statement isOpen s => ∀ m inLoop rest, 32 * ts.length ≤ m + 16 → Unclaimed isOpen rest →
    s.Accepted inLoop → Reads (Parser.statement m inLoop) ts rest (·.anonymous = s.anonymous)
  | .initial s => ∀ m rest, 32 * ts.length ≤ m → s.WithinArity →
    Reads (Parser.forInitial m) ts rest (·.map Stmt.anonymous = some s.anonymous)
  | .block body => ∃ l us, ts = l :: us ∧ l.Mark .leftBrace ∧
    ∀ m inLoop rest, 32 * us.length ≤ m + 14 → Stmt.AllAccepted inLoop body →
      Reads (Parser.block m inLoop) us rest (Stmt.anonymousAll · = Stmt.anonymousAll body)
  | .function f => ∀ m kind rest, 32 * ts.length ≤ m + 14 → f.WithinArity → f.Enclosed →
    Reads (Parser.function m kind) ts rest (·.anonymous = f.anonymous)
  | .functions fs => ∀ m rest, 32 * ts.length + 1 ≤ m → Ahead (.punctuator .rightBrace) rest →
    FunctionDecl.AllAccepted fs →
    Reads (Parser.methods m) ts rest (FunctionDecl.anonymousAll · = FunctionDecl.anonymousAll fs)
  | .parameters names => ∀ m count rest, 32 * ts.length + 1 ≤ m → count + names.length ≤ 255 →
    Ahead (.punctuator .rightParen) rest → Reads (Parser.parameters m count) ts rest (· = names)

theorem Ahead.not_mem {kind kind' : Kind} {rest : List Token} (h : Ahead kind rest)
    (other : kind ≠ kind') : ∀ t ∈ rest.head?, t.kind ≠ kind' := by
  obtain ⟨t, us, rfl, rfl⟩ := h
  simpa using other

theorem Ahead.closed {p : Punctuator} {rest : List Token} (h : Ahead (.punctuator p) rest)
    (closing : p = .semicolon ∨ p = .rightParen ∨ p = .comma) : Closed rest := by
  obtain ⟨t, us, rfl, same⟩ := h
  exact .cons (Kind.closes_of_eq same closing) us

theorem Ahead.cons {kind : Kind} {t : Token} (h : t.kind = kind) (rest : List Token) :
    Ahead kind (t :: rest) :=
  ⟨t, rest, rfl, h⟩

-- The tables of words, from the words to what they mean.

theorem UnarySign.meaning {k : Kind} {op : UnaryOp} (h : UnarySign k op) :
    unaryOp? k = some op := by
  cases h <;> rfl

theorem CompoundSign.meaning {k : Kind} {op : BinaryOp} (h : CompoundSign k op) :
    assignForm? k = some (.compound op) := by
  cases h <;> rfl

theorem StepSign.meaning {k : Kind} {op : BinaryOp} (h : StepSign k op) :
    assignForm? k = some (.step op) := by
  cases h <;> rfl

theorem LiteralWord.meaning {k : Kind} {l : Literal} (h : LiteralWord k l) :
    atom? k = some (.literal l) := by
  cases h <;> rfl

namespace Complete

variable {ts us : List Token}

-- From the operands of a level to the level.

theorem reads_level {l : Level} {e : Expr} (h : Phrase.Complete ts (.level l e))
    (some_word : 0 < ts.length) {m : Nat} {rest : List Token}
    (deep : 32 * ts.length ≤ m + l.strength + 1) (settled : Settled l.strength rest)
    (arity : e.WithinArity) :
    Reads (rung m (l.rung :: l.tighter)) ts rest (·.anonymous = e.anonymous) := by
  refine (h m rest deep (settled.mono (by omega)) arity).reads_nil ?_
  rintro _ ⟨k, e', rfl, same, bound⟩
  have weak : l.strength ≤ 5 := by cases l <;> decide
  obtain ⟨k, rfl⟩ : ∃ k', k = k' + 1 := ⟨k - 1, by omega⟩
  refine Reads.bind_nil (Reads.take?_none fun t next => (settled t next).2 l (Nat.le_refl _)) ?_
  rintro _ rfl
  exact .pure same

theorem reads_operand {l : Level} {e : Expr} (h : Phrase.Complete ts (l.operand e))
    (some_word : 0 < ts.length) {m : Nat} {rest : List Token}
    (deep : 32 * ts.length ≤ m + l.strength + 2) (settled : Settled (l.strength + 1) rest)
    (arity : e.WithinArity) :
    Reads (rung m l.tighter) ts rest (·.anonymous = e.anonymous) := by
  cases l with
  | or => exact reads_level (l := .and) h some_word deep settled arity
  | and => exact reads_level (l := .equality) h some_word deep settled arity
  | equality => exact reads_level (l := .comparison) h some_word deep settled arity
  | comparison => exact reads_level (l := .term) h some_word deep settled arity
  | term => exact reads_level (l := .factor) h some_word deep settled arity
  | factor =>
    simp only [Level.strength] at deep settled
    obtain ⟨m, rfl⟩ : ∃ m', m = m' + 1 := ⟨m - 1, by omega⟩
    exact h m rest (by omega) settled arity

theorem operand {l : Level} {e : Expr} (h : Phrase.Complete ts (l.operand e))
    (some_word : 0 < ts.length) : Phrase.Complete ts (.level l e) := by
  intro m rest deep settled arity
  have weak : l.strength ≤ 5 := by cases l <;> decide
  obtain ⟨m, rfl⟩ : ∃ m', m = m' + 1 := ⟨m - 1, by omega⟩
  have first := reads_operand h some_word (m := m) (by omega) settled arity
  rw [← List.append_nil ts]
  refine Becomes.bind (by simpa using first) fun e' same => .refl ?_
  exact ⟨m, e', rfl, same, by simp; omega⟩

theorem join {l : Level} {op : Infix} {t : Token} {a b : Expr}
    (left : Phrase.Complete ts (.level l a)) (joins : l.Joins t.kind op)
    (right : Phrase.Complete us (l.operand b)) (some_word : 0 < us.length) :
    Phrase.Complete (ts ++ t :: us) (.level l (op.node t.line a b)) := by
  intro m rest deep settled arity
  simp only [List.length_append, List.length_cons] at deep
  have weak : l.strength ≤ 5 := by cases l <;> decide
  have arities : a.WithinArity ∧ b.WithinArity := by
    cases op <;> exact arity
  refine (left m _ (by omega) (.cons joins.settles _) arities.1).trans ?_
  rintro _ ⟨k, a', rfl, same, bound⟩
  obtain ⟨k, rfl⟩ : ∃ k', k = k' + 1 := ⟨k - 1, by omega⟩
  refine Becomes.bind_cons (.take?_some ((l.joins_iff _ _).mp joins)) ?_
  rintro _ rfl
  rw [← List.append_nil us]
  refine Becomes.bind
    (by simpa using reads_operand right some_word (m := k) (by omega) settled arities.2)
    fun b' same' => .refl ?_
  refine ⟨k, op.node t.line a' b', rfl, ?_, by simp; omega⟩
  simp only [Expr.anonymous] at same same' ⊢
  cases op <;> simp [Infix.node, Expr.mapIds, same, same']

theorem unary {op : UnaryOp} {t : Token} {e : Expr} (sign : UnarySign t.kind op)
    (h : Phrase.Complete ts (.unary e)) :
    Phrase.Complete (t :: ts) (.unary (.unary op t.line e)) := by
  intro m rest deep settled arity
  simp only [List.length_cons] at deep
  obtain ⟨m, rfl⟩ : ∃ m', m = m' + 1 := ⟨m - 1, by omega⟩
  refine Reads.bind_cons (.take?_some sign.meaning) ?_
  rintro _ rfl
  rw [← List.append_nil ts]
  refine Reads.bind (by simpa using h m rest (by omega) settled arity) fun e' same => .pure ?_
  simp only [Expr.anonymous] at same ⊢
  simp [Expr.mapIds, same]

-- Calls.

theorem called {e : Expr} (derived : Derives ts (.call e)) (h : Phrase.Complete ts (.call e)) :
    Phrase.Complete ts (.unary e) := by
  intro m rest deep settled arity
  obtain ⟨t, us, rfl, start⟩ := derived.exists_cons id
  rw [List.length_cons] at deep
  obtain ⟨m, rfl⟩ : ∃ m', m = m' + 1 := ⟨m - 1, by omega⟩
  refine Reads.bind_nil (.take?_none (by simpa using start.unaryOp?_eq_none)) ?_
  rintro _ rfl
  refine (h m rest (by omega) arity).reads_nil ?_
  rintro _ ⟨k, e', rfl, same, bound⟩
  rw [List.length_cons] at bound
  obtain ⟨k, rfl⟩ : ∃ k', k = k' + 1 := ⟨k - 1, by omega⟩
  refine Reads.bind_nil (.take?_none fun t next => (settled t next).1) ?_
  rintro _ rfl
  exact .pure same

theorem primary {e : Expr} (h : Phrase.Complete ts (.primary e)) :
    Phrase.Complete ts (.call e) := by
  intro m rest deep arity
  rw [← List.append_nil ts]
  refine Becomes.bind (by simpa using h m rest deep arity) fun e' same => .refl ?_
  exact ⟨m, e', rfl, same, by omega⟩

theorem suffixed {e e' : Expr} (h : Phrase.Complete ts (.call e)) (some_word : 0 < us.length)
    (arity : e'.WithinArity → e.WithinArity)
    (suffix : ∀ k rest f, 32 * us.length ≤ k + 32 → e'.WithinArity → f.anonymous = e.anonymous →
      Becomes (suffixes (k + 1) f) us rest fun q =>
        ∃ f', q = suffixes k f' ∧ f'.anonymous = e'.anonymous) :
    Phrase.Complete (ts ++ us) (.call e') := by
  intro m rest deep arity'
  rw [List.length_append] at deep
  refine (h m _ (by omega) (arity arity')).trans ?_
  rintro _ ⟨k, f, rfl, same, bound⟩
  obtain ⟨k, rfl⟩ : ∃ k', k = k' + 1 := ⟨k - 1, by omega⟩
  intro c ahead
  obtain ⟨q, next, ran, f', rfl, same'⟩ := suffix k rest f (by omega) arity' same c ahead
  exact ⟨_, next, ran, k, f', rfl, same', by rw [List.length_append]; omega⟩

theorem property {dot t : Token} {o : Expr} (h : Phrase.Complete ts (.call o))
    (dots : dot.Mark .dot) (identifier : t.Identifier) :
    Phrase.Complete (ts ++ [dot, t]) (.call (.get o t.name)) := by
  refine suffixed h (by simp) id ?_
  intro k rest f deep arity same
  refine Becomes.bind_cons (.take?_some (show suffix? dot.kind = some .property from dots ▸ rfl)) ?_
  rintro _ rfl
  refine Becomes.bind_last (.expectName identifier) ?_
  rintro _ rfl
  refine .refl ⟨_, rfl, ?_⟩
  simp only [Expr.anonymous] at same ⊢
  simp [Expr.mapIds, same]

theorem callEmpty {l r : Token} {f : Expr} (h : Phrase.Complete ts (.call f))
    (opens : l.Mark .leftParen) (closes : r.Mark .rightParen) :
    Phrase.Complete (ts ++ [l, r]) (.call (.call f r.line [])) := by
  refine suffixed h (by simp) And.left ?_
  intro k rest f deep arity same
  refine Becomes.bind_cons (.take?_some (show suffix? l.kind = some .call from opens ▸ rfl)) ?_
  rintro _ rfl
  refine Becomes.bind_nil (.isNext_true closes) ?_
  rintro _ rfl
  refine Becomes.bind_nil (.pure rfl) ?_
  rintro _ rfl
  refine Becomes.bind_last (.expect closes) ?_
  rintro _ rfl
  refine .refl ⟨_, rfl, ?_⟩
  simp only [Expr.anonymous] at same ⊢
  simp [Expr.mapIds, same]

theorem callWith {l r : Token} {f : Expr} {es : List Expr} (h : Phrase.Complete ts (.call f))
    (opens : l.Mark .leftParen) (derived : Derives us (.arguments es))
    (h' : Phrase.Complete us (.arguments es)) (closes : r.Mark .rightParen) :
    Phrase.Complete (ts ++ l :: (us ++ [r])) (.call (.call f r.line es)) := by
  refine suffixed h (by simp) And.left ?_
  intro k rest f deep arity same
  obtain ⟨t, vs, rfl, start⟩ := derived.exists_cons id
  simp only [List.length_cons, List.length_append, List.length_nil] at deep
  refine Becomes.bind_cons (.take?_some (show suffix? l.kind = some .call from opens ▸ rfl)) ?_
  rintro _ rfl
  refine Becomes.bind_nil (.isNext_false (by simpa using start.not_punctuator.1)) ?_
  rintro _ rfl
  refine Becomes.bind
    (h' k 0 ([r] ++ rest) (by simp; omega) (by simpa using arity.2.1) arity.2.2
      (.cons closes rest)) fun es' same' => ?_
  refine Becomes.bind_last (.expect closes) ?_
  rintro _ rfl
  refine .refl ⟨_, rfl, ?_⟩
  simp only [Expr.anonymous, Expr.anonymousAll] at same same' ⊢
  simp [Expr.mapIds, same, same']

theorem arguments_step {count n : Nat} {rest : List Token} {Q : List Expr → Prop}
    (room : count < 255) (list : Reads
      (do
        let e ← Parser.expression n
        if ← accept (.punctuator .comma) then return e :: (← Parser.arguments n (count + 1))
        else return [e]) ts rest Q) :
    Reads (Parser.arguments (n + 1) count) ts rest Q := by
  unfold Parser.arguments
  have below : ¬ maxArity ≤ count := by
    rw [maxArity]
    omega
  simpa only [below, if_false] using list

theorem lastArgument {e : Expr} (h : Phrase.Complete ts (.expression e)) :
    Phrase.Complete ts (.arguments [e]) := by
  intro m count rest deep room arity next
  obtain ⟨m, rfl⟩ : ∃ m', m = m' + 1 := ⟨m - 1, by omega⟩
  simp only [List.length_cons, List.length_nil] at room
  refine arguments_step (by omega) ?_
  rw [← List.append_nil ts]
  refine Reads.bind (by simpa using h m rest (by omega) (next.closed (by simp)) arity.1)
    fun e' same => ?_
  refine Reads.bind_nil (.accept_false (next.not_mem (by simp))) ?_
  rintro _ rfl
  refine .pure ?_
  simp only [Expr.anonymous] at same
  simp [Expr.anonymousAll, Expr.mapIdsAll, same]

theorem moreArguments {comma : Token} {e : Expr} {es : List Expr}
    (h : Phrase.Complete ts (.expression e)) (separates : comma.Mark .comma)
    (h' : Phrase.Complete us (.arguments es)) :
    Phrase.Complete (ts ++ comma :: us) (.arguments (e :: es)) := by
  intro m count rest deep room arity next
  simp only [List.length_cons, List.length_append] at deep room
  obtain ⟨m, rfl⟩ : ∃ m', m = m' + 1 := ⟨m - 1, by omega⟩
  refine arguments_step (by omega) ?_
  refine Reads.bind (h m _ (by omega) (.cons (Kind.closes_of_eq separates (by simp)) _) arity.1)
    fun e' same => ?_
  refine Reads.bind_cons (.accept_true separates) ?_
  rintro _ rfl
  rw [← List.append_nil us]
  refine Reads.bind (by simpa using h' m (count + 1) rest (by omega) (by omega) arity.2 next)
    fun es' same' => .pure ?_
  simp only [Expr.anonymous, Expr.anonymousAll] at same same' ⊢
  simp [Expr.mapIdsAll, same, same']

-- Operands.

theorem primary_step {t : Token} {n : Nat} {rest : List Token} {a : Atom} {Q : Expr → Prop}
    (meant : atom? t.kind = some a)
    (read : Reads (match a with
      | .literal value => return .literal value
      | .name => return .var (← reference t.name)
      | .self => return .self (← reference t.name)
      | .super => do
        let _ ← expect (.punctuator .dot) .superDot
        let method ← expectName .superMethod
        return .super (← reference t.name) method
      | .group => do
        let inner ← Parser.expression n
        let _ ← expect (.punctuator .rightParen) .groupingEnd
        return .grouping inner) us rest Q) :
    Reads (Parser.operand (n + 1)) (t :: us) rest Q := by
  unfold Parser.operand
  refine Reads.bind_cons (.take?_some meant) ?_
  rintro _ rfl
  cases a <;> exact read

theorem literal {t : Token} {l : Literal} (word : LiteralWord t.kind l) :
    Phrase.Complete [t] (.primary (.literal l)) := by
  intro m rest deep arity
  simp only [List.length_cons, List.length_nil] at deep
  obtain ⟨m, rfl⟩ : ∃ m', m = m' + 1 := ⟨m - 1, by omega⟩
  exact primary_step word.meaning (.pure rfl)

theorem variableName {t : Token} {r : Reference} (identifier : t.Identifier)
    (named : r.name = t.name) : Phrase.Complete [t] (.primary (.var r)) := by
  intro m rest deep arity
  simp only [List.length_cons, List.length_nil] at deep
  obtain ⟨m, rfl⟩ : ∃ m', m = m' + 1 := ⟨m - 1, by omega⟩
  refine primary_step (a := .name) (identifier ▸ rfl) ?_
  refine Reads.bind_nil (.reference _) fun r' named' => .pure ?_
  simp [Expr.anonymous, Expr.mapIds, Reference.mapId, named, named']

theorem this {t : Token} {r : Reference} (word : t.Word .this) (named : r.name = t.name) :
    Phrase.Complete [t] (.primary (.self r)) := by
  intro m rest deep arity
  simp only [List.length_cons, List.length_nil] at deep
  obtain ⟨m, rfl⟩ : ∃ m', m = m' + 1 := ⟨m - 1, by omega⟩
  refine primary_step (a := .self) (word ▸ rfl) ?_
  refine Reads.bind_nil (.reference _) fun r' named' => .pure ?_
  simp [Expr.anonymous, Expr.mapIds, Reference.mapId, named, named']

theorem super {t dot method : Token} {r : Reference} (word : t.Word .super)
    (dots : dot.Mark .dot) (identifier : method.Identifier) (named : r.name = t.name) :
    Phrase.Complete [t, dot, method] (.primary (.super r method.name)) := by
  intro m rest deep arity
  simp only [List.length_cons, List.length_nil] at deep
  obtain ⟨m, rfl⟩ : ∃ m', m = m' + 1 := ⟨m - 1, by omega⟩
  refine primary_step (a := .super) (word ▸ rfl) ?_
  refine Reads.bind_cons (.expect dots) fun _ _ => ?_
  refine Reads.bind_cons (.expectName identifier) ?_
  rintro _ rfl
  refine Reads.bind_nil (.reference _) fun r' named' => .pure ?_
  simp [Expr.anonymous, Expr.mapIds, Reference.mapId, named, named']

theorem grouping {l r : Token} {e : Expr} (opens : l.Mark .leftParen)
    (h : Phrase.Complete ts (.expression e)) (closes : r.Mark .rightParen) :
    Phrase.Complete (l :: (ts ++ [r])) (.primary (.grouping e)) := by
  intro m rest deep arity
  simp only [List.length_cons, List.length_append, List.length_nil] at deep
  obtain ⟨m, rfl⟩ : ∃ m', m = m' + 1 := ⟨m - 1, by omega⟩
  refine primary_step (a := .group) (opens ▸ rfl) ?_
  have closed : Closed ([r] ++ rest) := .cons (Kind.closes_of_eq closes (by simp)) rest
  refine Reads.bind (h m _ (by omega) closed arity) fun e' same => ?_
  refine Reads.bind_cons (.expect closes) fun _ _ => .pure ?_
  simp only [Expr.anonymous] at same ⊢
  simp [Expr.mapIds, same]

-- Assignments. The target is read on the loosest level.

theorem level_of_call {e : Expr} (derived : Derives ts (.call e))
    (h : Phrase.Complete ts (.call e)) : ∀ l : Level, Phrase.Complete ts (.level l e) := by
  have some_word := derived.length_pos id
  have factor : Phrase.Complete ts (.level .factor e) :=
    operand (l := .factor) (called derived h) some_word
  have term : Phrase.Complete ts (.level .term e) := operand (l := .term) factor some_word
  have comparison : Phrase.Complete ts (.level .comparison e) :=
    operand (l := .comparison) term some_word
  have equality : Phrase.Complete ts (.level .equality e) :=
    operand (l := .equality) comparison some_word
  have and : Phrase.Complete ts (.level .and e) := operand (l := .and) equality some_word
  intro l
  cases l with
  | or => exact operand (l := .or) and some_word
  | and => exact and
  | equality => exact equality
  | comparison => exact comparison
  | term => exact term
  | factor => exact factor

theorem name_target {t : Token} (identifier : t.Identifier) :
    Phrase.Complete [t] (.level .or (.var ⟨0, t.name⟩)) :=
  level_of_call (.primary (.variableName identifier rfl))
    (primary (variableName identifier rfl)) .or

theorem property_target {dot t : Token} {o : Expr} (derived : Derives ts (.call o))
    (h : Phrase.Complete ts (.call o)) (dots : dot.Mark .dot) (identifier : t.Identifier) :
    Phrase.Complete (ts ++ [dot, t]) (.level .or (.get o t.name)) :=
  level_of_call (.property derived dots identifier) (property h dots identifier) .or

theorem plain {e : Expr} (h : Phrase.Complete ts (.level .or e)) (some_word : 0 < ts.length) :
    Phrase.Complete ts (.expression e) := by
  intro m rest deep closed arity
  obtain ⟨m, rfl⟩ : ∃ m', m = m' + 1 := ⟨m - 1, by omega⟩
  have target : Reads (rung m ladder) ts rest (·.anonymous = e.anonymous) :=
    reads_level h some_word (by omega) closed.settled arity
  rw [← List.append_nil ts]
  refine Reads.bind (by simpa using target) fun e' same => ?_
  obtain ⟨t, us, rfl, closes⟩ := closed
  refine Reads.bind_nil (.take?_none (by simpa using closes.assignForm?_eq_none)) ?_
  rintro _ rfl
  exact .pure same

theorem assignment {sign : Token} {form : AssignForm} {target : Expr} {m : Nat}
    {rest : List Token} {Q : Expr → Prop} (h : Phrase.Complete ts (.level .or target))
    (some_word : 0 < ts.length) (deep : 32 * ts.length ≤ m + 1) (arity : target.WithinArity)
    (settles : sign.kind.Settles 0) (meant : assignForm? sign.kind = some form)
    (read : ∀ target', target'.anonymous = target.anonymous → Reads (match form with
      | .plain => do assignTo target' (← Parser.expression m) sign
      | .compound op => do updateTo target' op (← Parser.expression m) sign
      | .step op => updateTo target' op (.literal (.number 1)) sign) us rest Q) :
    Reads (Parser.expression (m + 1)) (ts ++ sign :: us) rest Q := by
  have first : Reads (rung m ladder) ts (sign :: us ++ rest)
      (·.anonymous = target.anonymous) :=
    reads_level h some_word deep (.cons settles _) arity
  refine Reads.bind first fun target' same => ?_
  refine Reads.bind_cons (.take?_some meant) ?_
  rintro _ rfl
  cases form <;> exact read target' same

theorem assign_name {old r : Reference} {value value' : Expr} {sign : Token}
    {rest : List Token} (named : r.name = old.name) (same : value'.anonymous = value.anonymous) :
    Reads (assignTo (.var old) value' sign) [] rest
      (·.anonymous = (Expr.assign r value).anonymous) := by
  refine Reads.bind_last (.reference old.name) fun r' named' => .pure ?_
  simp only [Expr.anonymous] at same ⊢
  simp [Expr.mapIds, Reference.mapId, named, named', same]

theorem update_name {old r r' : Reference} {op : BinaryOp} {value value' : Expr} {sign : Token}
    {rest : List Token} (named : r.name = old.name) (named' : r'.name = old.name)
    (same : value'.anonymous = value.anonymous) :
    Reads (updateTo (.var old) op value' sign) [] rest
      (·.anonymous = (Expr.assign r (.binary op sign.line (.var r') value)).anonymous) := by
  refine Reads.bind_last (.reference old.name) fun s spelled => assign_name named ?_
  simp only [Expr.anonymous] at same ⊢
  simp [Expr.mapIds, Reference.mapId, named', spelled, same]

theorem update_property {object object₁ object₂ : Expr} {name : Name} {op : BinaryOp}
    {value value' : Expr} {sign : Token} {rest : List Token}
    (same₁ : object.anonymous = object₁.anonymous)
    (same₂ : object₂.anonymous = object₁.anonymous)
    (same : value'.anonymous = value.anonymous) :
    Reads (updateTo (.get object name) op value' sign) [] rest (·.anonymous =
      (Expr.set object₁ name (.binary op sign.line (.get object₂ name) value)).anonymous) := by
  refine Reads.bind_last (.copy object) fun copied alike => .pure ?_
  simp only [Expr.anonymous] at same same₁ same₂ alike ⊢
  simp [Expr.mapIds, same₁, same₂, alike, same]

theorem assigned_name {t sign : Token} {e : Expr} (form : AssignForm)
    (identifier : t.Identifier) (settles : sign.kind.Settles 0)
    (meant : assignForm? sign.kind = some form)
    (read : ∀ m rest (old : Reference), 32 * us.length ≤ m → old.name = t.name → Closed rest →
      e.WithinArity → Reads (match form with
        | .plain => do assignTo (.var old) (← Parser.expression m) sign
        | .compound op => do updateTo (.var old) op (← Parser.expression m) sign
        | .step op => updateTo (.var old) op (.literal (.number 1)) sign) us rest
        (·.anonymous = e.anonymous)) :
    Phrase.Complete (t :: sign :: us) (.expression e) := by
  intro m rest deep closed arity
  simp only [List.length_cons] at deep
  obtain ⟨m, rfl⟩ : ∃ m', m = m' + 1 := ⟨m - 1, by omega⟩
  have whole : Reads (Parser.expression (m + 1)) ([t] ++ sign :: us) rest
      (·.anonymous = e.anonymous) :=
    assignment (name_target identifier) (by simp) (by simp; omega) trivial settles meant
      fun target' same => by
        obtain ⟨old, rfl, spelled⟩ := Expr.eq_var_of_anonymous_eq same
        exact read m rest old (by omega) spelled closed arity
  exact whole

theorem assigned_property {dot t sign : Token} {o e : Expr} (form : AssignForm)
    (derived : Derives ts (.call o)) (h : Phrase.Complete ts (.call o)) (dots : dot.Mark .dot)
    (identifier : t.Identifier) (settles : sign.kind.Settles 0)
    (meant : assignForm? sign.kind = some form) (within : e.WithinArity → o.WithinArity)
    (read : ∀ m rest o', 32 * us.length ≤ m → o'.anonymous = o.anonymous → Closed rest →
      e.WithinArity → Reads (match form with
        | .plain => do assignTo (.get o' t.name) (← Parser.expression m) sign
        | .compound op => do updateTo (.get o' t.name) op (← Parser.expression m) sign
        | .step op => updateTo (.get o' t.name) op (.literal (.number 1)) sign) us rest
        (·.anonymous = e.anonymous)) :
    Phrase.Complete (ts ++ dot :: t :: sign :: us) (.expression e) := by
  intro m rest deep closed arity
  simp only [List.length_append, List.length_cons] at deep
  obtain ⟨m, rfl⟩ : ∃ m', m = m' + 1 := ⟨m - 1, by omega⟩
  have whole : Reads (Parser.expression (m + 1)) (ts ++ [dot, t] ++ sign :: us) rest
      (·.anonymous = e.anonymous) :=
    assignment (property_target derived h dots identifier) (by simp) (by simp; omega)
      (within arity) settles meant fun target' same => by
        obtain ⟨o', rfl, alike⟩ := Expr.eq_get_of_anonymous_eq same
        exact read m rest o' (by omega) alike closed arity
  simpa using whole

theorem assignName {t sign : Token} {r : Reference} {v : Expr} (identifier : t.Identifier)
    (equals : sign.Mark .equal) (h : Phrase.Complete ts (.expression v)) (named : r.name = t.name) :
    Phrase.Complete (t :: sign :: ts) (.expression (.assign r v)) := by
  refine assigned_name .plain identifier (equals ▸ Kind.settles_equal) (equals ▸ rfl) ?_
  intro m rest old deep spelled closed arity
  rw [← List.append_nil ts]
  refine Reads.bind (by simpa using h m rest deep closed arity) fun v' same => ?_
  exact assign_name (named.trans spelled.symm) same

theorem assignProperty {dot t sign : Token} {o v : Expr} (derived : Derives ts (.call o))
    (h : Phrase.Complete ts (.call o)) (dots : dot.Mark .dot) (identifier : t.Identifier)
    (equals : sign.Mark .equal) (h' : Phrase.Complete us (.expression v)) :
    Phrase.Complete (ts ++ dot :: t :: sign :: us) (.expression (.set o t.name v)) := by
  refine assigned_property .plain derived h dots identifier
    (equals ▸ Kind.settles_equal) (equals ▸ rfl) And.left ?_
  intro m rest o' deep alike closed arity
  rw [← List.append_nil us]
  refine Reads.bind (by simpa using h' m rest deep closed arity.2) fun v' same => .pure ?_
  simp only [Expr.anonymous] at same alike ⊢
  simp [Expr.mapIds, same, alike]

theorem updateName {t sign : Token} {r r' : Reference} {op : BinaryOp} {v : Expr}
    (identifier : t.Identifier) (compound : CompoundSign sign.kind op)
    (h : Phrase.Complete ts (.expression v)) (named : r.name = t.name) (named' : r'.name = t.name) :
    Phrase.Complete (t :: sign :: ts)
      (.expression (.assign r (.binary op sign.line (.var r') v))) := by
  refine assigned_name (.compound op) identifier compound.settles compound.meaning ?_
  intro m rest old deep spelled closed arity
  rw [← List.append_nil ts]
  refine Reads.bind (by simpa using h m rest deep closed arity.2) fun v' same => ?_
  exact update_name (named.trans spelled.symm) (named'.trans spelled.symm) same

theorem updateProperty {dot t sign : Token} {op : BinaryOp} {o o' v : Expr}
    (derived : Derives ts (.call o)) (h : Phrase.Complete ts (.call o)) (dots : dot.Mark .dot)
    (identifier : t.Identifier) (compound : CompoundSign sign.kind op)
    (h' : Phrase.Complete us (.expression v)) (copied : o'.anonymous = o.anonymous) :
    Phrase.Complete (ts ++ dot :: t :: sign :: us)
      (.expression (.set o t.name (.binary op sign.line (.get o' t.name) v))) := by
  refine assigned_property (.compound op) derived h dots identifier compound.settles
    compound.meaning And.left ?_
  intro m rest object deep alike closed arity
  rw [← List.append_nil us]
  refine Reads.bind (by simpa using h' m rest deep closed arity.2.2) fun v' same => ?_
  exact update_property alike copied same

theorem stepName {t sign : Token} {r r' : Reference} {op : BinaryOp}
    (identifier : t.Identifier) (step : StepSign sign.kind op) (named : r.name = t.name)
    (named' : r'.name = t.name) :
    Phrase.Complete [t, sign]
      (.expression (.assign r (.binary op sign.line (.var r') (.literal (.number 1))))) := by
  refine assigned_name (.step op) identifier step.settles step.meaning ?_
  intro m rest old deep spelled closed arity
  exact update_name (named.trans spelled.symm) (named'.trans spelled.symm) rfl

theorem stepProperty {dot t sign : Token} {op : BinaryOp} {o o' : Expr}
    (derived : Derives ts (.call o)) (h : Phrase.Complete ts (.call o)) (dots : dot.Mark .dot)
    (identifier : t.Identifier) (step : StepSign sign.kind op)
    (copied : o'.anonymous = o.anonymous) :
    Phrase.Complete (ts ++ [dot, t, sign]) (.expression
      (.set o t.name (.binary op sign.line (.get o' t.name) (.literal (.number 1))))) := by
  refine assigned_property (.step op) derived h dots identifier step.settles
    step.meaning And.left ?_
  intro m rest object deep alike closed arity
  exact update_property alike copied rfl

theorem absent : Phrase.Complete [] (.optional none) := by
  rintro m p rest - - ⟨t, us, rfl, same⟩ -
  refine Reads.bind_last (.isNext_true same) ?_
  rintro _ rfl
  exact .pure rfl

theorem present {e : Expr} (derived : Derives ts (.expression e))
    (h : Phrase.Complete ts (.expression e)) : Phrase.Complete ts (.optional (some e)) := by
  intro m p rest deep closing next arity
  obtain ⟨t, us, rfl, start⟩ := derived.exists_cons id
  have other : t.kind ≠ .punctuator p := by
    obtain rfl | rfl := closing
    · exact start.not_punctuator.2.1
    · exact start.not_punctuator.1
  have closed : Closed rest := next.closed (closing.imp_right .inl)
  refine Reads.bind_nil (.isNext_false (by simpa using other)) ?_
  rintro _ rfl
  rw [← List.append_nil (t :: us)]
  refine Reads.bind (by simpa using h m rest deep closed (arity e rfl)) fun e' same => .pure ?_
  simpa using same

end Complete

end ScopeScript
