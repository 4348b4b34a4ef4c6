import ScopeScript.Proofs.Parsing.StatementSoundness

set_option autoImplicit false

namespace ScopeScript

def Kind.StartsOperand (k : Kind) : Prop := ∃ a, Parser.atom? k = some a

def Kind.StartsExpression (k : Kind) : Prop := (∃ op, UnarySign k op) ∨ k.StartsOperand

/-- Words that end an expression wherever one stands. A keyword that starts a statement is out of
place behind an expression, but it ends it. -/
def Kind.Closes (k : Kind) : Prop :=
  k = .punctuator .semicolon ∨ k = .punctuator .rightParen ∨ k = .punctuator .comma ∨
    Parser.startsStatement k = true

def Kind.EndsDeclaration (k : Kind) : Prop :=
  k = .punctuator .rightBrace ∨ k = .keyword .else

namespace Kind.StartsExpression

variable {k : Kind}

theorem not_punctuator (h : k.StartsExpression) :
    k ≠ .punctuator .rightParen ∧ k ≠ .punctuator .semicolon ∧ ¬ k.EndsDeclaration := by
  unfold EndsDeclaration
  obtain ⟨op, signed⟩ | ⟨a, meant⟩ := h
  · cases signed <;> simp
  · unfold Parser.atom? at meant
    split at meant <;> cases meant <;> simp

theorem not_lead (h : k.StartsExpression) :
    Parser.lead? k = none ∧ Parser.declarationLead? k = none := by
  obtain ⟨op, signed⟩ | ⟨a, meant⟩ := h
  · cases signed <;> exact ⟨rfl, rfl⟩
  · unfold Parser.atom? at meant
    split at meant <;> cases meant <;> exact ⟨rfl, rfl⟩

end Kind.StartsExpression

def Phrase.StartsWith (k : Kind) : Phrase → Prop
  | .expression _ | .level .. | .unary _ | .arguments _ | .optional _ => k.StartsExpression
  | .call _ | .primary _ => k.StartsOperand
  | .declarations _ | .declaration _ => ¬ k.EndsDeclaration
  | .statement .. => ¬ k.EndsDeclaration ∧ Parser.declarationLead? k = none
  | .initial _ => k ≠ .punctuator .semicolon
  | .function _ | .functions _ | .parameters _ | .variable _ => k = .identifier
  | .block _ => k = .punctuator .leftBrace

def Phrase.MayBeEmpty : Phrase → Prop
  | .optional none | .declarations [] | .functions [] => True
  | _ => False

theorem Level.startsWith_operand (l : Level) (k : Kind) (e : Expr) :
    (l.operand e).StartsWith k ↔ k.StartsExpression := by
  cases l <;> rfl

theorem Level.not_mayBeEmpty_operand (l : Level) (e : Expr) : ¬ (l.operand e).MayBeEmpty := by
  cases l <;> exact id

theorem LiteralWord.startsOperand {k : Kind} {l : Literal} (h : LiteralWord k l) :
    k.StartsOperand := by
  cases h <;> exact ⟨_, rfl⟩

theorem Kind.StartsOperand.unaryOp?_eq_none {k : Kind} (h : k.StartsOperand) :
    Parser.unaryOp? k = none := by
  obtain ⟨a, meant⟩ := h
  unfold Parser.atom? at meant
  split at meant <;> cases meant <;> rfl

def Phrase.Starts (p : Phrase) (ts : List Token) : Prop :=
  (ts = [] ∧ p.MayBeEmpty) ∨ ∃ t us, ts = t :: us ∧ p.StartsWith t.kind

theorem Phrase.Starts.cons {p : Phrase} {t : Token} {ts : List Token} (h : p.StartsWith t.kind) :
    p.Starts (t :: ts) :=
  .inr ⟨t, ts, rfl, h⟩

theorem Phrase.Starts.exists_cons {p : Phrase} {ts : List Token} (h : p.Starts ts)
    (solid : ¬ p.MayBeEmpty) : ∃ t us, ts = t :: us ∧ p.StartsWith t.kind :=
  h.resolve_left fun empty => solid empty.2

theorem Phrase.Starts.append {p q : Phrase} {ts : List Token} (h : p.Starts ts)
    (solid : ¬ p.MayBeEmpty) (weaker : ∀ k, p.StartsWith k → q.StartsWith k) (us : List Token) :
    q.Starts (ts ++ us) := by
  obtain ⟨t, vs, rfl, start⟩ := h.exists_cons solid
  exact .inr ⟨t, vs ++ us, rfl, weaker _ start⟩

theorem Phrase.Starts.same {p q : Phrase} {ts : List Token} (h : p.Starts ts)
    (solid : ¬ p.MayBeEmpty) (weaker : ∀ k, p.StartsWith k → q.StartsWith k) : q.Starts ts := by
  simpa using h.append solid weaker []

theorem Kind.startsOperand_identifier {k : Kind} (h : k = .identifier) : k.StartsOperand :=
  ⟨.name, h ▸ rfl⟩

theorem Kind.not_endsDeclaration_word {k : Kind} {w : Keyword} (h : k = .keyword w)
    (other : w ≠ .else) : ¬ k.EndsDeclaration := by
  subst h
  simp [Kind.EndsDeclaration, other]

theorem Kind.startsStatement_of_startsExpression {k : Kind} (h : k.StartsExpression) :
    ¬ k.EndsDeclaration ∧ Parser.declarationLead? k = none :=
  ⟨h.not_punctuator.2.2, h.not_lead.2⟩

theorem Derives.starts {ts : List Token} {p : Phrase} (h : Derives ts p) : p.Starts ts := by
  induction h with
  | assignName identifier | updateName identifier | stepName identifier =>
    exact .cons (.inr (Kind.startsOperand_identifier identifier))
  | variableName identifier => exact .cons (Kind.startsOperand_identifier identifier)
  | assignProperty _ _ _ _ _ ih | updateProperty _ _ _ _ _ _ ih | stepProperty _ _ _ _ _ ih =>
    refine ih.append id ?_ _
    exact fun _ start => .inr start
  | callEmpty _ _ _ ih | property _ _ _ ih | callWith _ _ _ _ ih | moreArguments _ _ _ ih
  | join _ _ _ ih => exact ih.append id (fun _ => id) _
  | called _ ih =>
    refine ih.same id ?_
    exact fun _ start => .inr start
  | plain _ ih | primary _ ih | lastArgument _ ih | present _ ih => exact ih.same id fun _ => id
  | @operand l _ e _ ih =>
    exact ih.same (l.not_mayBeEmpty_operand e) fun k => (l.startsWith_operand k e).mp
  | unary signed => exact .cons (.inl ⟨_, signed⟩)
  | literal word => exact .cons word.startsOperand
  | this word => exact .cons ⟨.self, word ▸ rfl⟩
  | super word => exact .cons ⟨.super, word ▸ rfl⟩
  | grouping opens => exact .cons ⟨.group, opens ▸ rfl⟩
  | absent | noDeclaration | noFunction => exact .inl ⟨rfl, trivial⟩
  | moreDeclarations _ _ ih => exact ih.append id (fun _ => id) _
  | base word | derived word | function word | variableDecl word =>
    exact .cons (Kind.not_endsDeclaration_word word (by decide))
  | stated _ ih => exact ih.same id fun _ => And.left
  | unset identifier | set identifier | withoutParameters identifier | withParameters identifier
  | lastParameter identifier | moreParameters identifier => exact .cons identifier
  | moreFunctions _ _ ih => exact ih.append id (fun _ => id) _
  | block opens => exact .cons opens
  | expression _ _ ih =>
    refine ih.append id ?_ _
    exact fun _ => Kind.startsStatement_of_startsExpression
  | print word | branch word | branches word | whileLoop word | forLoop word
  | forLoopFrom word | returning word | leave word | next word =>
    exact .cons ⟨Kind.not_endsDeclaration_word word (by decide), word ▸ rfl⟩
  | nested _ ih =>
    refine ih.same id fun k opens => ?_
    subst opens
    exact ⟨by simp [Kind.EndsDeclaration], rfl⟩
  | initialVariable word => exact .cons (by simp [Phrase.StartsWith, word])
  | initialExpression _ _ ih =>
    refine ih.append id ?_ _
    exact fun _ start => start.not_punctuator.2.1

theorem Derives.exists_cons {ts : List Token} {p : Phrase} (h : Derives ts p)
    (solid : ¬ p.MayBeEmpty) : ∃ t us, ts = t :: us ∧ p.StartsWith t.kind :=
  h.starts.exists_cons solid

theorem Derives.length_pos {ts : List Token} {p : Phrase} (h : Derives ts p)
    (solid : ¬ p.MayBeEmpty) : 0 < ts.length := by
  obtain ⟨t, us, rfl, -⟩ := h.exists_cons solid
  simp

def Level.strength : Level → Nat
  | .or => 0
  | .and => 1
  | .equality => 2
  | .comparison => 3
  | .term => 4
  | .factor => 5

def Kind.Settles (strength : Nat) (k : Kind) : Prop :=
  Parser.suffix? k = none ∧ ∀ l : Level, strength ≤ l.strength → l.rung k = none

/-- Behind an expression these words go on with nothing that would bind so strongly. -/
def Settled (strength : Nat) (rest : List Token) : Prop :=
  ∀ t ∈ rest.head?, t.kind.Settles strength

def Closed (rest : List Token) : Prop :=
  ∃ t us, rest = t :: us ∧ t.kind.Closes

theorem Kind.Settles.mono {strength strength' : Nat} {k : Kind} (h : k.Settles strength)
    (more : strength ≤ strength') : k.Settles strength' :=
  ⟨h.1, fun l stronger => h.2 l (Nat.le_trans more stronger)⟩

theorem Settled.mono {strength strength' : Nat} {rest : List Token} (h : Settled strength rest)
    (more : strength ≤ strength') : Settled strength' rest :=
  fun t ahead => (h t ahead).mono more

theorem Level.Joins.settles {l : Level} {k : Kind} {op : Parser.Infix} (h : l.Joins k op) :
    k.Settles (l.strength + 1) := by
  refine ⟨by cases h <;> rfl, fun l' stronger => ?_⟩
  cases h <;> cases l' <;> first | rfl | simp [Level.strength] at stronger

theorem Kind.settles_of_startsStatement {k : Kind} (h : Parser.startsStatement k = true) :
    k.Settles 0 := by
  unfold Parser.startsStatement at h
  split at h <;> first | exact ⟨rfl, fun l _ => by cases l <;> rfl⟩ | cases h

theorem Kind.Closes.settles {k : Kind} (h : k.Closes) : k.Settles 0 := by
  obtain rfl | rfl | rfl | starts := h
  case inr.inr.inr => exact Kind.settles_of_startsStatement starts
  all_goals exact ⟨rfl, fun l _ => by cases l <;> rfl⟩

theorem Kind.Closes.assignForm?_eq_none {k : Kind} (h : k.Closes) :
    Parser.assignForm? k = none := by
  obtain rfl | rfl | rfl | starts := h
  case inr.inr.inr =>
    unfold Parser.startsStatement at starts
    split at starts <;> first | rfl | cases starts
  all_goals rfl

theorem Closed.settled {rest : List Token} (h : Closed rest) : Settled 0 rest := by
  obtain ⟨t, us, rfl, closes⟩ := h
  simpa [Settled] using closes.settles

theorem Kind.settles_equal : Kind.Settles 0 (.punctuator .equal) :=
  ⟨rfl, fun l _ => by cases l <;> rfl⟩

theorem CompoundSign.settles {k : Kind} {op : BinaryOp} (h : CompoundSign k op) :
    k.Settles 0 := by
  cases h <;> exact ⟨rfl, fun l _ => by cases l <;> rfl⟩

theorem StepSign.settles {k : Kind} {op : BinaryOp} (h : StepSign k op) : k.Settles 0 := by
  cases h <;> exact ⟨rfl, fun l _ => by cases l <;> rfl⟩

theorem Settled.cons {strength : Nat} {t : Token} (h : t.kind.Settles strength)
    (rest : List Token) : Settled strength (t :: rest) := by
  simpa [Settled] using h

theorem Closed.cons {t : Token} (h : t.kind.Closes) (rest : List Token) : Closed (t :: rest) :=
  ⟨t, rest, rfl, h⟩

theorem Kind.closes_of_eq {k : Kind} {p : Punctuator} (h : k = .punctuator p)
    (closing : p = .semicolon ∨ p = .rightParen ∨ p = .comma) : k.Closes := by
  subst h
  obtain rfl | rfl | rfl := closing <;> simp [Kind.Closes]

end ScopeScript
