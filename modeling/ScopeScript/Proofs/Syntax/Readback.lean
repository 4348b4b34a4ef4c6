import ScopeScript.Proofs.Scanning.Numerals
import ScopeScript.Proofs.Syntax.Lines
import ScopeScript.Proofs.Syntax.Sexp

set_option autoImplicit false

namespace ScopeScript

-- Trees whose words are those of a text without strings.

def Name.Readable (name : Name) : Prop := Lexicon.IsToken .identifier name.text.toList

def Literal.Measured : Literal → Prop
  | .nil | .bool _ => True
  | .number x => Binary64.Measure x
  | .string _ => False

mutual

def Expr.Readable : Expr → Prop
  | .literal value => value.Measured
  | .grouping inner | .unary _ _ inner => inner.Readable
  | .binary _ _ left right | .logical _ left right => left.Readable ∧ right.Readable
  | .var reference => reference.name.Readable
  | .assign reference value => reference.name.Readable ∧ value.Readable
  | .call callee _ arguments => callee.Readable ∧ Expr.AllReadable arguments
  | .get object name => object.Readable ∧ name.Readable
  | .set object name value => object.Readable ∧ name.Readable ∧ value.Readable
  | .self reference => reference.name.text = "this"
  | .super reference method => reference.name.text = "super" ∧ method.Readable

def Expr.AllReadable : List Expr → Prop
  | [] => True
  | e :: rest => e.Readable ∧ Expr.AllReadable rest

end

def Expr.OptionReadable (e : Option Expr) : Prop := ∀ e' ∈ e, e'.Readable

mutual

def Stmt.Readable : Stmt → Prop
  | .expression value | .print value => value.Readable
  | .varDecl name initial => name.Readable ∧ Expr.OptionReadable initial
  | .block body => Stmt.AllReadable body
  | .ifElse condition consequent none => condition.Readable ∧ consequent.Readable
  | .ifElse condition consequent (some alternative) =>
    condition.Readable ∧ consequent.Readable ∧ alternative.Readable
  | .loop condition body step => condition.Readable ∧ body.Readable ∧ Expr.OptionReadable step
  | .funDecl declaration => declaration.Readable
  | .classDecl name superclass methods =>
    name.Readable ∧ (∀ reference ∈ superclass, reference.name.Readable) ∧
      FunctionDecl.AllReadable methods
  | .returning _ value => Expr.OptionReadable value
  | .jump _ => True

def Stmt.AllReadable : List Stmt → Prop
  | [] => True
  | s :: rest => s.Readable ∧ Stmt.AllReadable rest

def FunctionDecl.Readable : FunctionDecl → Prop
  | .mk name parameters body =>
    name.Readable ∧ (∀ p ∈ parameters, p.Readable) ∧ Stmt.AllReadable body

def FunctionDecl.AllReadable : List FunctionDecl → Prop
  | [] => True
  | f :: rest => f.Readable ∧ FunctionDecl.AllReadable rest

end

-- Words.

namespace Lexicon

def IsWord (kind : Kind) : Prop := kindLead kind = .word ∨ kindLead kind = .digit

theorem IsToken.isInner {kind : Kind} {cs : List Char} (h : IsToken kind cs)
    (sort : IsWord kind) : ∀ c ∈ cs, Sexp.isInner c = true := by
  have ofPart {c : Char} (part : isWordPart c = true) : Sexp.isInner c = true := by
    simp only [Sexp.isInner, Bool.and_eq_true, bne_iff_ne]
    refine ⟨⟨?_, ?_⟩, ?_⟩ <;> rintro rfl <;> cases part
  have ofDigit {c : Char} (digit : c.isDigit = true) : Sexp.isInner c = true :=
    ofPart (by simp [isWordPart, Char.isAlphanum, digit])
  have ofWord {c : Char} {word : List Char} (start : isWordStart c = true)
      (parts : ∀ d ∈ word, isWordPart d = true) : ∀ d ∈ c :: word, Sexp.isInner d = true :=
    List.forall_mem_cons.mpr
      ⟨ofPart (isWordPart_of_isWordStart start), fun d mem => ofPart (parts d mem)⟩
  cases h with
  | punctuator | string => rcases sort with same | same <;> cases same
  | keyword k =>
    obtain ⟨c, word, spelled, start, parts⟩ := Keyword.isWord k
    exact spelled ▸ ofWord start parts
  | identifier start parts => exact ofWord start parts
  | whole _ all => exact fun d mem => ofDigit (all d mem)
  | fractional _ all _ all' =>
    refine List.forall_mem_append.mpr ⟨fun d mem => ofDigit (all d mem), ?_⟩
    exact List.forall_mem_cons.mpr ⟨rfl, fun d mem => ofDigit (all' d mem)⟩

theorem IsToken.plain {kind : Kind} {word : String} (h : IsToken kind word.toList)
    (sort : IsWord kind) : (Sexp.atom word).Plain :=
  ⟨h.ne_nil, h.isInner sort⟩

theorem IsToken.pieces_eq {kind : Kind} {cs : List Char} (h : IsToken kind cs)
    (sort : IsWord kind) : pieces cs = [.lexeme kind cs] := by
  obtain ⟨c, rest, rfl⟩ := List.exists_cons_of_ne_nil h.ne_nil
  have other {d : Char} (symbol : charLead d = .symbol) : c ≠ d := by
    rintro rfl
    rw [IsWord, ← h.lead, symbol] at sort
    rcases sort with same | same <;> cases same
  have begins : Begins (.lexeme kind (c :: rest)) [] := by
    refine .token h ?_ fun _ _ _ start => ?_
    · have space : isSpace c = false := by
        simp [isSpace, other (d := ' ') rfl, other (d := '\r') rfl, other (d := '\t') rfl,
          other (d := '\n') rfl]
      rw [List.append_nil]
      exact Lexicon.not_skippable space (other rfl)
    · rw [List.append_nil] at start
      exact start.length_le
  have cut := cut_iff.mp (.cons begins .nil)
  rwa [List.append_nil] at cut

end Lexicon

theorem Sexp.plain_atom {word : String}
    (inner : (!word.toList.isEmpty && word.toList.all isInner) = true) : (atom word).Plain := by
  simpa [Plain, List.isEmpty_iff] using inner

theorem UnaryOp.plain_spelling (op : UnaryOp) : (Sexp.atom op.spelling).Plain := by
  cases op <;> exact Sexp.plain_atom rfl

theorem BinaryOp.plain_spelling (op : BinaryOp) : (Sexp.atom op.spelling).Plain := by
  cases op <;> exact Sexp.plain_atom rfl

theorem LogicalOp.plain_spelling (op : LogicalOp) : (Sexp.atom op.spelling).Plain := by
  cases op <;> exact Sexp.plain_atom rfl

theorem Name.Readable.plain {name : Name} (h : name.Readable) : (Sexp.atom name.text).Plain :=
  Lexicon.IsToken.plain h (.inl rfl)

theorem Literal.Measured.plain {value : Literal} (h : value.Measured) :
    (Sexp.atom (PrefixForm.literal value)).Plain := by
  cases value with
  | nil => exact Sexp.plain_atom rfl
  | bool value => cases value <;> exact Sexp.plain_atom rfl
  | number x => exact (PrefixForm.isToken_number h).plain (.inr rfl)
  | string => exact h.elim

mutual

theorem Expr.plain_sexp : ∀ e : Expr, e.Readable → e.sexp.Plain
  | .literal _, h => Literal.Measured.plain h
  | .var _, h => Name.Readable.plain h
  | .self _, _ => Sexp.plain_atom rfl
  | .super _ method, h => by
    refine ⟨⟨by simp, ?_⟩, trivial⟩
    rw [String.toList_append]
    exact List.forall_mem_append.mpr ⟨List.all_eq_true.mp rfl, h.2.plain.2⟩
  | .grouping inner, h => ⟨Sexp.plain_atom rfl, inner.plain_sexp h, trivial⟩
  | .unary op _ inner, h => ⟨op.plain_spelling, inner.plain_sexp h, trivial⟩
  | .binary op _ left right, h =>
    ⟨op.plain_spelling, left.plain_sexp h.1, right.plain_sexp h.2, trivial⟩
  | .logical op left right, h =>
    ⟨op.plain_spelling, left.plain_sexp h.1, right.plain_sexp h.2, trivial⟩
  | .assign _ value, h => ⟨Sexp.plain_atom rfl, h.1.plain, value.plain_sexp h.2, trivial⟩
  | .call callee _ arguments, h =>
    ⟨Sexp.plain_atom rfl, callee.plain_sexp h.1, Expr.allPlain_sexps arguments h.2⟩
  | .get object _, h => ⟨Sexp.plain_atom rfl, object.plain_sexp h.1, h.2.plain, trivial⟩
  | .set object _ value, h =>
    ⟨Sexp.plain_atom rfl, ⟨Sexp.plain_atom rfl, object.plain_sexp h.1, h.2.1.plain, trivial⟩,
      value.plain_sexp h.2.2, trivial⟩

theorem Expr.allPlain_sexps : ∀ es : List Expr, Expr.AllReadable es →
    Sexp.AllPlain (Expr.sexps es)
  | [], _ => trivial
  | e :: rest, h => ⟨e.plain_sexp h.1, Expr.allPlain_sexps rest h.2⟩

end

theorem Sexp.allPlain_names {names : List Name} (h : ∀ p ∈ names, p.Readable) :
    AllPlain (names.map fun p => .atom p.text) := by
  induction names with
  | nil => trivial
  | cons p rest ih =>
    obtain ⟨first, others⟩ := List.forall_mem_cons.mp h
    exact ⟨first.plain, ih others⟩

mutual

theorem Stmt.plain_sexp : ∀ s : Stmt, s.Readable → s.sexp.Plain
  | .expression value, h => value.plain_sexp h
  | .print value, h => ⟨Sexp.plain_atom rfl, value.plain_sexp h, trivial⟩
  | .varDecl _ none, h => ⟨Sexp.plain_atom rfl, h.1.plain, trivial⟩
  | .varDecl _ (some value), h =>
    ⟨Sexp.plain_atom rfl, h.1.plain, value.plain_sexp (h.2 value rfl), trivial⟩
  | .block body, h => ⟨Sexp.plain_atom rfl, Stmt.allPlain_sexps body h⟩
  | .ifElse condition consequent none, h =>
    ⟨Sexp.plain_atom rfl, condition.plain_sexp h.1, consequent.plain_sexp h.2, trivial⟩
  | .ifElse condition consequent (some alternative), h =>
    ⟨Sexp.plain_atom rfl, condition.plain_sexp h.1, consequent.plain_sexp h.2.1,
      alternative.plain_sexp h.2.2, trivial⟩
  | .loop condition body none, h =>
    ⟨Sexp.plain_atom rfl, condition.plain_sexp h.1, body.plain_sexp h.2.1, trivial⟩
  | .loop condition body (some step), h =>
    ⟨Sexp.plain_atom rfl, condition.plain_sexp h.1, body.plain_sexp h.2.1,
      step.plain_sexp (h.2.2 step rfl), trivial⟩
  | .funDecl declaration, h => FunctionDecl.plain_sexp declaration h
  | .classDecl _ none methods, h =>
    ⟨Sexp.plain_atom rfl, h.1.plain, FunctionDecl.allPlain_sexps methods h.2.2⟩
  | .classDecl _ (some superclass) methods, h =>
    ⟨Sexp.plain_atom rfl, h.1.plain, Sexp.plain_atom rfl, (h.2.1 superclass rfl).plain,
      FunctionDecl.allPlain_sexps methods h.2.2⟩
  | .returning _ none, _ => ⟨Sexp.plain_atom rfl, trivial⟩
  | .returning _ (some value), h =>
    ⟨Sexp.plain_atom rfl, value.plain_sexp (h value rfl), trivial⟩
  | .jump .leave, _ | .jump .next, _ => ⟨Sexp.plain_atom rfl, trivial⟩

theorem Stmt.allPlain_sexps : ∀ body : List Stmt, Stmt.AllReadable body →
    Sexp.AllPlain (Stmt.sexps body)
  | [], _ => trivial
  | s :: rest, h => ⟨s.plain_sexp h.1, Stmt.allPlain_sexps rest h.2⟩

theorem FunctionDecl.plain_sexp : ∀ f : FunctionDecl, f.Readable → f.sexp.Plain
  | .mk _ _ body, h =>
    ⟨Sexp.plain_atom rfl, h.1.plain, Sexp.allPlain_names h.2.1,
      ⟨Sexp.plain_atom rfl, Stmt.allPlain_sexps body h.2.2⟩, trivial⟩

theorem FunctionDecl.allPlain_sexps : ∀ fs : List FunctionDecl, FunctionDecl.AllReadable fs →
    Sexp.AllPlain (FunctionDecl.sexps fs)
  | [], _ => trivial
  | f :: rest, h => ⟨f.plain_sexp h.1, FunctionDecl.allPlain_sexps rest h.2⟩

end

-- The tree of some parts.

def Expr.ofWord (word : String) : Expr :=
  match pieces word.toList with
  | [.lexeme (.number x) _] => .literal (.number x)
  | [.lexeme (.keyword .nil) _] => .literal .nil
  | [.lexeme (.keyword .true) _] => .literal (.bool true)
  | [.lexeme (.keyword .false) _] => .literal (.bool false)
  | [.lexeme (.keyword .this) _] => .self ⟨0, ⟨word, 0⟩⟩
  | _ => .var ⟨0, ⟨word, 0⟩⟩

def UnaryOp.ofSpelling (sign : String) : UnaryOp :=
  if sign = "-" then .negate else .not

def BinaryOp.ofSpelling : String → BinaryOp
  | "-" => .subtract
  | "*" => .multiply
  | "/" => .divide
  | "%" => .remainder
  | "==" => .equal
  | "!=" => .notEqual
  | ">" => .greater
  | ">=" => .greaterEqual
  | "<" => .less
  | "<=" => .lessEqual
  | _ => .add

def Expr.ofSign (sign : String) (left right : Expr) : Expr :=
  if sign = "and" then .logical .and left right
  else if sign = "or" then .logical .or left right
  else .binary (.ofSpelling sign) 0 left right

def Stmt.function? : Stmt → Option FunctionDecl
  | .funDecl f => some f
  | _ => none

namespace Sexp

def name : Sexp → Name
  | .atom word => ⟨word, 0⟩
  | .list _ => ⟨"", 0⟩

mutual

def expr : Sexp → Expr
  | .atom word => .ofWord word
  | .list [.atom word] => .super ⟨0, ⟨"super", 0⟩⟩ ⟨String.ofList (word.toList.drop 6), 0⟩
  | .list (.atom "call" :: callee :: arguments) => .call callee.expr 0 (exprs arguments)
  | .list [.atom "group", inner] => .grouping inner.expr
  | .list [.atom ".", object, name] => .get object.expr name.name
  | .list [.atom "=", .atom word, value] => .assign ⟨0, ⟨word, 0⟩⟩ value.expr
  | .list [.atom "=", .list [_, object, name], value] => .set object.expr name.name value.expr
  | .list [.atom sign, operand] => .unary (.ofSpelling sign) 0 operand.expr
  | .list [.atom sign, left, right] => .ofSign sign left.expr right.expr
  | _ => .literal .nil

def exprs : List Sexp → List Expr
  | [] => []
  | part :: rest => part.expr :: exprs rest

end

mutual

def stmt : Sexp → Stmt
  | .list [.atom "print", value] => .print value.expr
  | .list [.atom "var", name] => .varDecl name.name none
  | .list [.atom "var", name, initial] => .varDecl name.name (some initial.expr)
  | .list (.atom "block" :: body) => .block (stmts body)
  | .list [.atom "if", condition, consequent] => .ifElse condition.expr consequent.stmt none
  | .list [.atom "if", condition, consequent, alternative] =>
    .ifElse condition.expr consequent.stmt (some alternative.stmt)
  | .list [.atom "while", condition, body] => .loop condition.expr body.stmt none
  | .list [.atom "while", condition, body, step] =>
    .loop condition.expr body.stmt (some step.expr)
  | .list [.atom "fun", name, .list parameters, .list (_ :: body)] =>
    .funDecl (.mk name.name (parameters.map Sexp.name) (stmts body))
  | .list (.atom "class" :: name :: .atom "<" :: superclass :: methods) =>
    .classDecl name.name (some ⟨0, superclass.name⟩)
      ((stmts methods).filterMap Stmt.function?)
  | .list (.atom "class" :: name :: methods) =>
    .classDecl name.name none ((stmts methods).filterMap Stmt.function?)
  | .list [.atom "return"] => .returning 0 none
  | .list [.atom "return", value] => .returning 0 (some value.expr)
  | .list [.atom "break"] => .jump .leave
  | .list [.atom "continue"] => .jump .next
  | part => .expression part.expr

def stmts : List Sexp → List Stmt
  | [] => []
  | part :: rest => part.stmt :: stmts rest

end

end Sexp

-- What is read from the parts of a tree.

/-- A tree without the numbers of its references and without lines. -/
def Expr.outline (e : Expr) : Expr := (e.mapLines fun _ => 0).anonymous

def Stmt.outline (s : Stmt) : Stmt := (s.mapLines fun _ => 0).anonymous

def FunctionDecl.outline (f : FunctionDecl) : FunctionDecl := (f.mapLines fun _ => 0).anonymous

theorem Expr.ofWord_identifier {name : Name} (readable : name.Readable) :
    Expr.ofWord name.text = .var ⟨0, ⟨name.text, 0⟩⟩ := by
  rw [Expr.ofWord, readable.pieces_eq (.inl rfl)]

theorem Expr.ofWord_literal {value : Literal} (measured : value.Measured) :
    Expr.ofWord (PrefixForm.literal value) = .literal value := by
  have keyword (k : Keyword) : pieces k.spelling.toList =
    [.lexeme (.keyword k) k.spelling.toList] :=
    (Lexicon.IsToken.keyword k).pieces_eq (.inl rfl)
  cases value with
  | nil =>
    change Expr.ofWord Keyword.nil.spelling = _
    rw [Expr.ofWord, keyword]
  | bool value =>
    cases value with
    | true =>
      change Expr.ofWord Keyword.true.spelling = _
      rw [Expr.ofWord, keyword]
    | false =>
      change Expr.ofWord Keyword.false.spelling = _
      rw [Expr.ofWord, keyword]
  | number x =>
    rw [Expr.ofWord, PrefixForm.literal, (PrefixForm.isToken_number measured).pieces_eq (.inr rfl)]
  | string => exact measured.elim

theorem Expr.ofWord_this : Expr.ofWord "this" = .self ⟨0, ⟨"this", 0⟩⟩ := by
  change Expr.ofWord Keyword.this.spelling = _
  rw [Expr.ofWord, (Lexicon.IsToken.keyword .this).pieces_eq (.inl rfl)]
  rfl

-- A sign has as many parts behind it as operands.

theorem Sexp.expr_unary (op : UnaryOp) (operand : Sexp) :
    (list [.atom op.spelling, operand]).expr = .unary op 0 operand.expr := by
  cases op <;> simp [expr, UnaryOp.spelling, UnaryOp.ofSpelling]

theorem Sexp.expr_binary (op : BinaryOp) (left right : Sexp) :
    (list [.atom op.spelling, left, right]).expr = .binary op 0 left.expr right.expr := by
  cases op <;> simp [expr, BinaryOp.spelling, BinaryOp.ofSpelling, Expr.ofSign]

theorem Sexp.expr_logical (op : LogicalOp) (left right : Sexp) :
    (list [.atom op.spelling, left, right]).expr = .logical op left.expr right.expr := by
  cases op <;> simp [expr, LogicalOp.spelling, Expr.ofSign]

mutual

theorem Expr.expr_sexp : ∀ e : Expr, e.Readable → e.sexp.expr = e.outline
  | .literal _, h => Expr.ofWord_literal h
  | .var _, h => Expr.ofWord_identifier h
  | .self reference, h => by
    rw [Expr.sexp, Sexp.expr, Expr.ofWord_this, ← h]
    rfl
  | .super reference method, h => by
    have behind : String.ofList (("super." ++ method.text).toList.drop 6) = method.text := by
      simp
    rw [Expr.sexp, Sexp.expr, behind, ← h.1]
    rfl
  | .grouping inner, h => by
    rw [Expr.sexp, Sexp.expr, Expr.expr_sexp inner h]
    rfl
  | .unary op _ inner, h => by
    rw [Expr.sexp, Sexp.expr_unary, Expr.expr_sexp inner h]
    rfl
  | .binary op _ left right, h => by
    rw [Expr.sexp, Sexp.expr_binary, Expr.expr_sexp left h.1, Expr.expr_sexp right h.2]
    rfl
  | .logical op left right, h => by
    rw [Expr.sexp, Sexp.expr_logical, Expr.expr_sexp left h.1, Expr.expr_sexp right h.2]
    rfl
  | .assign reference value, h => by
    rw [Expr.sexp, Sexp.expr, Expr.expr_sexp value h.2]
    rfl
  | .call callee _ arguments, h => by
    rw [Expr.sexp, Sexp.expr, Expr.expr_sexp callee h.1, Expr.exprs_sexps arguments h.2]
    rfl
  | .get object name, h => by
    rw [Expr.sexp, Sexp.expr, Expr.expr_sexp object h.1]
    rfl
  | .set object name value, h => by
    rw [Expr.sexp, Sexp.expr, Expr.expr_sexp object h.1, Expr.expr_sexp value h.2.2]
    rfl

theorem Expr.exprs_sexps : ∀ es : List Expr, Expr.AllReadable es →
    Sexp.exprs (Expr.sexps es) = Expr.anonymousAll (Expr.mapLinesAll (fun _ => 0) es)
  | [], _ => rfl
  | e :: rest, h => by
    rw [Expr.sexps, Sexp.exprs, Expr.expr_sexp e h.1, Expr.exprs_sexps rest h.2]
    rfl

end

theorem Name.map_name_sexp (names : List Name) :
    (names.map fun p => .atom p.text).map Sexp.name = names.map (Name.mapLine fun _ => 0) := by
  simp [Sexp.name, Name.mapLine]

theorem FunctionDecl.sexps_ne_atom (fs : List FunctionDecl) (word : String) (rest : List Sexp) :
    FunctionDecl.sexps fs ≠ .atom word :: rest := by
  cases fs with
  | nil => simp [FunctionDecl.sexps]
  | cons f fs =>
    cases f
    simp [FunctionDecl.sexps, FunctionDecl.sexp]

theorem Expr.stmt_sexp (e : Expr) : e.sexp.stmt = .expression e.sexp.expr := by
  cases e with
  | literal | var | self => simp [Expr.sexp, Sexp.stmt]
  | unary op => cases op <;> simp [Expr.sexp, Sexp.stmt, UnaryOp.spelling]
  | binary op => cases op <;> simp [Expr.sexp, Sexp.stmt, BinaryOp.spelling]
  | logical op => cases op <;> simp [Expr.sexp, Sexp.stmt, LogicalOp.spelling]
  | super reference method =>
    have other (word : String) (first : word.toList.head? ≠ some 's') :
        "super." ++ method.text ≠ word := by
      rintro rfl
      simp at first
    simp [Expr.sexp, Sexp.stmt, other "block" (by decide), other "return" (by decide),
      other "break" (by decide), other "continue" (by decide)]
  | _ => simp [Expr.sexp, Sexp.stmt]

mutual

theorem Stmt.stmt_sexp : ∀ s : Stmt, s.Readable → s.sexp.stmt = s.outline
  | .expression value, h => by
    rw [Stmt.sexp, Expr.stmt_sexp, Expr.expr_sexp value h]
    rfl
  | .print value, h => by
    rw [Stmt.sexp, Sexp.stmt, Expr.expr_sexp value h]
    rfl
  | .varDecl _ none, h | .returning _ none, h => rfl
  | .varDecl _ (some value), h => by
    rw [Stmt.sexp, Sexp.stmt, Expr.expr_sexp value (h.2 value rfl)]
    rfl
  | .returning _ (some value), h => by
    rw [Stmt.sexp, Sexp.stmt, Expr.expr_sexp value (h value rfl)]
    rfl
  | .jump kind, h => by cases kind <;> rfl
  | .block body, h => by
    rw [Stmt.sexp, Sexp.stmt, Stmt.stmts_sexps body h]
    rfl
  | .ifElse condition consequent none, h => by
    rw [Stmt.sexp, Sexp.stmt, Expr.expr_sexp condition h.1, Stmt.stmt_sexp consequent h.2]
    rfl
  | .ifElse condition consequent (some alternative), h => by
    rw [Stmt.sexp, Sexp.stmt, Expr.expr_sexp condition h.1, Stmt.stmt_sexp consequent h.2.1,
      Stmt.stmt_sexp alternative h.2.2]
    rfl
  | .loop condition body none, h => by
    rw [Stmt.sexp, Sexp.stmt, Expr.expr_sexp condition h.1, Stmt.stmt_sexp body h.2.1]
    rfl
  | .loop condition body (some step), h => by
    rw [Stmt.sexp, Sexp.stmt, Expr.expr_sexp condition h.1, Stmt.stmt_sexp body h.2.1,
      Expr.expr_sexp step (h.2.2 step rfl)]
    rfl
  | .funDecl declaration, h => FunctionDecl.stmt_sexp declaration h
  | .classDecl name none methods, h => by
    rw [Stmt.sexp, Sexp.stmt, FunctionDecl.stmts_sexps methods h.2.2]
    · rfl
    · exact fun superclass rest => FunctionDecl.sexps_ne_atom methods "<" (superclass :: rest)
  | .classDecl name (some superclass) methods, h => by
    rw [Stmt.sexp, Sexp.stmt, FunctionDecl.stmts_sexps methods h.2.2]
    rfl

theorem Stmt.stmts_sexps : ∀ body : List Stmt, Stmt.AllReadable body →
    Sexp.stmts (Stmt.sexps body) = Stmt.anonymousAll (Stmt.mapLinesAll (fun _ => 0) body)
  | [], _ => rfl
  | s :: rest, h => by
    rw [Stmt.sexps, Sexp.stmts, Stmt.stmt_sexp s h.1, Stmt.stmts_sexps rest h.2]
    rfl

theorem FunctionDecl.stmt_sexp :
    ∀ f : FunctionDecl, f.Readable → f.sexp.stmt = .funDecl f.outline
  | .mk name parameters body, h => by
    rw [FunctionDecl.sexp, Sexp.stmt, Name.map_name_sexp, Stmt.stmts_sexps body h.2.2]
    rfl

theorem FunctionDecl.stmts_sexps : ∀ fs : List FunctionDecl, FunctionDecl.AllReadable fs →
    (Sexp.stmts (FunctionDecl.sexps fs)).filterMap Stmt.function? =
      FunctionDecl.anonymousAll (FunctionDecl.mapLinesAll (fun _ => 0) fs)
  | [], _ => rfl
  | f :: rest, h => by
    rw [FunctionDecl.sexps, Sexp.stmts, FunctionDecl.stmt_sexp f h.1]
    exact congrArg (f.outline :: ·) (FunctionDecl.stmts_sexps rest h.2)

end

theorem Stmt.outline_eq_of_text {s s' : Stmt} (readable : s.Readable) (readable' : s'.Readable)
    (same : PrefixForm.stmt s = PrefixForm.stmt s') : s.outline = s'.outline := by
  have parts : s.sexp = s'.sexp := by
    refine Sexp.text_injOn (s.plain_sexp readable) (s'.plain_sexp readable') ?_
    rw [s.text_sexp, s'.text_sexp, same]
  rw [← s.stmt_sexp readable, ← s'.stmt_sexp readable', parts]

end ScopeScript
