import ScopeScript.Proofs.Syntax.Numbers
import ScopeScript.Syntax.Grammar

set_option autoImplicit false

/-!
The grammar of the language as a derivation relation between words and trees.

A phrase is a nonterminal together with its tree, and each rule of the grammar is a constructor. The
numbers of references are arbitrary, so a derivation determines its tree up to them.

    program     → declaration*
    declaration → classDecl | "fun" function | varDecl | statement
    expression  → ( call "." )? IDENT ( "=" | "+=" | "-=" | "*=" | "/=" | "%=" ) expression
                | ( call "." )? IDENT ( "++" | "--" )
                | or
    level       → operand ( operator operand )*            the tighter level is the operand
    unary       → ( "!" | "-" ) unary | call
    call        → primary ( "(" arguments? ")" | "." IDENT )*
-/

namespace ScopeScript

abbrev Token.Mark (t : Token) (p : Punctuator) : Prop := t.kind = .punctuator p

abbrev Token.Word (t : Token) (k : Keyword) : Prop := t.kind = .keyword k

abbrev Token.Identifier (t : Token) : Prop := t.kind = .identifier

def Token.name (t : Token) : Name := ⟨t.lexeme, t.line⟩

inductive Level where
  | or
  | and
  | equality
  | comparison
  | term
  | factor

inductive Level.Joins : Level → Kind → Parser.Infix → Prop where
  | or : Joins .or (.keyword .or) (.logical .or)
  | and : Joins .and (.keyword .and) (.logical .and)
  | notEqual : Joins .equality (.punctuator .bangEqual) (.binary .notEqual)
  | equal : Joins .equality (.punctuator .equalEqual) (.binary .equal)
  | greater : Joins .comparison (.punctuator .greater) (.binary .greater)
  | greaterEqual : Joins .comparison (.punctuator .greaterEqual) (.binary .greaterEqual)
  | less : Joins .comparison (.punctuator .less) (.binary .less)
  | lessEqual : Joins .comparison (.punctuator .lessEqual) (.binary .lessEqual)
  | subtract : Joins .term (.punctuator .minus) (.binary .subtract)
  | add : Joins .term (.punctuator .plus) (.binary .add)
  | divide : Joins .factor (.punctuator .slash) (.binary .divide)
  | multiply : Joins .factor (.punctuator .star) (.binary .multiply)
  | remainder : Joins .factor (.punctuator .percent) (.binary .remainder)

inductive CompoundSign : Kind → BinaryOp → Prop where
  | add : CompoundSign (.punctuator .plusEqual) .add
  | subtract : CompoundSign (.punctuator .minusEqual) .subtract
  | multiply : CompoundSign (.punctuator .starEqual) .multiply
  | divide : CompoundSign (.punctuator .slashEqual) .divide
  | remainder : CompoundSign (.punctuator .percentEqual) .remainder

inductive StepSign : Kind → BinaryOp → Prop where
  | increment : StepSign (.punctuator .plusPlus) .add
  | decrement : StepSign (.punctuator .minusMinus) .subtract

inductive UnarySign : Kind → UnaryOp → Prop where
  | not : UnarySign (.punctuator .bang) .not
  | negate : UnarySign (.punctuator .minus) .negate

inductive LiteralWord : Kind → Literal → Prop where
  | false : LiteralWord (.keyword .false) (.bool Bool.false)
  | true : LiteralWord (.keyword .true) (.bool Bool.true)
  | nil : LiteralWord (.keyword .nil) .nil
  | number (x : Float) : LiteralWord (.number x) (.number x)
  | string (s : String) : LiteralWord (.string s) (.string s)

inductive Phrase where
  | expression (e : Expr)
  | level (l : Level) (e : Expr)
  | unary (e : Expr)
  | call (e : Expr)
  | primary (e : Expr)
  | arguments (es : List Expr)
  | optional (e : Option Expr)
  | declarations (body : List Stmt)
  | declaration (s : Stmt)
  | variable (s : Stmt)
  | statement (isOpen : Bool) (s : Stmt)
  | initial (s : Stmt)
  | block (body : List Stmt)
  | function (f : FunctionDecl)
  | functions (fs : List FunctionDecl)
  | parameters (names : List Name)

def Level.operand : Level → Expr → Phrase
  | .or, e => .level .and e
  | .and, e => .level .equality e
  | .equality, e => .level .comparison e
  | .comparison, e => .level .term e
  | .term, e => .level .factor e
  | .factor, e => .unary e

inductive Derives : List Token → Phrase → Prop where
  -- expressions
  | assignName {t sign : Token} {ts : List Token} {r : Reference} {v : Expr} :
    t.Identifier → sign.Mark .equal → Derives ts (.expression v) → r.name = t.name →
    Derives (t :: sign :: ts) (.expression (.assign r v))
  | assignProperty {dot t sign : Token} {ts us : List Token} {o v : Expr} :
    Derives ts (.call o) → dot.Mark .dot → t.Identifier → sign.Mark .equal →
    Derives us (.expression v) →
    Derives (ts ++ dot :: t :: sign :: us) (.expression (.set o t.name v))
  | updateName {t sign : Token} {ts : List Token} {r r' : Reference} {op : BinaryOp} {v : Expr} :
    t.Identifier → CompoundSign sign.kind op → Derives ts (.expression v) →
    r.name = t.name → r'.name = t.name →
    Derives (t :: sign :: ts) (.expression (.assign r (.binary op sign.line (.var r') v)))
  | updateProperty {dot t sign : Token} {ts us : List Token} {op : BinaryOp} {o o' v : Expr} :
    Derives ts (.call o) → dot.Mark .dot → t.Identifier → CompoundSign sign.kind op →
    Derives us (.expression v) → o'.anonymous = o.anonymous →
    Derives (ts ++ dot :: t :: sign :: us)
      (.expression (.set o t.name (.binary op sign.line (.get o' t.name) v)))
  | stepName {t sign : Token} {r r' : Reference} {op : BinaryOp} :
    t.Identifier → StepSign sign.kind op → r.name = t.name → r'.name = t.name →
    Derives [t, sign]
      (.expression (.assign r (.binary op sign.line (.var r') (.literal (.number 1)))))
  | stepProperty {dot t sign : Token} {ts : List Token} {op : BinaryOp} {o o' : Expr} :
    Derives ts (.call o) → dot.Mark .dot → t.Identifier → StepSign sign.kind op →
    o'.anonymous = o.anonymous →
    Derives (ts ++ [dot, t, sign])
      (.expression
        (.set o t.name (.binary op sign.line (.get o' t.name) (.literal (.number 1)))))
  | plain {ts : List Token} {e : Expr} :
    Derives ts (.level .or e) → Derives ts (.expression e)
  | operand {l : Level} {ts : List Token} {e : Expr} :
    Derives ts (l.operand e) → Derives ts (.level l e)
  | join {l : Level} {op : Parser.Infix} {t : Token} {ts us : List Token} {a b : Expr} :
    Derives ts (.level l a) → l.Joins t.kind op → Derives us (l.operand b) →
    Derives (ts ++ t :: us) (.level l (op.node t.line a b))
  | unary {op : UnaryOp} {t : Token} {ts : List Token} {e : Expr} :
    UnarySign t.kind op → Derives ts (.unary e) → Derives (t :: ts) (.unary (.unary op t.line e))
  | called {ts : List Token} {e : Expr} :
    Derives ts (.call e) → Derives ts (.unary e)
  | primary {ts : List Token} {e : Expr} :
    Derives ts (.primary e) → Derives ts (.call e)
  | callEmpty {l r : Token} {ts : List Token} {f : Expr} :
    Derives ts (.call f) → l.Mark .leftParen → r.Mark .rightParen →
    Derives (ts ++ [l, r]) (.call (.call f r.line []))
  | callWith {l r : Token} {ts us : List Token} {f : Expr} {es : List Expr} :
    Derives ts (.call f) → l.Mark .leftParen → Derives us (.arguments es) → r.Mark .rightParen →
    Derives (ts ++ l :: (us ++ [r])) (.call (.call f r.line es))
  | property {dot t : Token} {ts : List Token} {o : Expr} :
    Derives ts (.call o) → dot.Mark .dot → t.Identifier →
    Derives (ts ++ [dot, t]) (.call (.get o t.name))
  | lastArgument {ts : List Token} {e : Expr} :
    Derives ts (.expression e) → Derives ts (.arguments [e])
  | moreArguments {comma : Token} {ts us : List Token} {e : Expr} {es : List Expr} :
    Derives ts (.expression e) → comma.Mark .comma → Derives us (.arguments es) →
    Derives (ts ++ comma :: us) (.arguments (e :: es))
  | literal {t : Token} {l : Literal} :
    LiteralWord t.kind l → Derives [t] (.primary (.literal l))
  | variableName {t : Token} {r : Reference} :
    t.Identifier → r.name = t.name → Derives [t] (.primary (.var r))
  | this {t : Token} {r : Reference} :
    t.Word .this → r.name = t.name → Derives [t] (.primary (.self r))
  | super {t dot m : Token} {r : Reference} :
    t.Word .super → dot.Mark .dot → m.Identifier → r.name = t.name →
    Derives [t, dot, m] (.primary (.super r m.name))
  | grouping {l r : Token} {ts : List Token} {e : Expr} :
    l.Mark .leftParen → Derives ts (.expression e) → r.Mark .rightParen →
    Derives (l :: (ts ++ [r])) (.primary (.grouping e))
  -- clauses that may be missing
  | absent : Derives [] (.optional none)
  | present {ts : List Token} {e : Expr} :
    Derives ts (.expression e) → Derives ts (.optional (some e))
  -- declarations
  | noDeclaration : Derives [] (.declarations [])
  | moreDeclarations {ts us : List Token} {s : Stmt} {body : List Stmt} :
    Derives ts (.declaration s) → Derives us (.declarations body) →
    Derives (ts ++ us) (.declarations (s :: body))
  | base {w t l r : Token} {ts : List Token} {fs : List FunctionDecl} :
    w.Word .classWord → t.Identifier → l.Mark .leftBrace → Derives ts (.functions fs) →
    r.Mark .rightBrace →
    Derives (w :: t :: l :: (ts ++ [r])) (.declaration (.classDecl t.name none fs))
  | derived {w t less above l r : Token} {ts : List Token} {above' : Reference}
      {fs : List FunctionDecl} :
    w.Word .classWord → t.Identifier → less.Mark .less → above.Identifier → l.Mark .leftBrace →
    Derives ts (.functions fs) → r.Mark .rightBrace → above'.name = above.name →
    Derives (w :: t :: less :: above :: l :: (ts ++ [r]))
      (.declaration (.classDecl t.name (some above') fs))
  | function {w : Token} {ts : List Token} {f : FunctionDecl} :
    w.Word .fun → Derives ts (.function f) → Derives (w :: ts) (.declaration (.funDecl f))
  | variableDecl {w : Token} {ts : List Token} {s : Stmt} :
    w.Word .var → Derives ts (.variable s) → Derives (w :: ts) (.declaration s)
  | stated {ts : List Token} {isOpen : Bool} {s : Stmt} :
    Derives ts (.statement isOpen s) → Derives ts (.declaration s)
  | unset {t stop : Token} :
    t.Identifier → stop.Mark .semicolon → Derives [t, stop] (.variable (.varDecl t.name none))
  | set {t sign stop : Token} {ts : List Token} {e : Expr} :
    t.Identifier → sign.Mark .equal → Derives ts (.expression e) → stop.Mark .semicolon →
    Derives (t :: sign :: (ts ++ [stop])) (.variable (.varDecl t.name (some e)))
  | noFunction : Derives [] (.functions [])
  | moreFunctions {ts us : List Token} {f : FunctionDecl} {fs : List FunctionDecl} :
    Derives ts (.function f) → Derives us (.functions fs) →
    Derives (ts ++ us) (.functions (f :: fs))
  | withoutParameters {t l r : Token} {ts : List Token} {body : List Stmt} :
    t.Identifier → l.Mark .leftParen → r.Mark .rightParen → Derives ts (.block body) →
    Derives (t :: l :: r :: ts) (.function (.mk t.name [] body))
  | withParameters {t l r : Token} {ts us : List Token} {names : List Name} {body : List Stmt} :
    t.Identifier → l.Mark .leftParen → Derives ts (.parameters names) → r.Mark .rightParen →
    Derives us (.block body) →
    Derives (t :: l :: (ts ++ r :: us)) (.function (.mk t.name names body))
  | lastParameter {t : Token} : t.Identifier → Derives [t] (.parameters [t.name])
  | moreParameters {t comma : Token} {ts : List Token} {names : List Name} :
    t.Identifier → comma.Mark .comma → Derives ts (.parameters names) →
    Derives (t :: comma :: ts) (.parameters (t.name :: names))
  | block {l r : Token} {ts : List Token} {body : List Stmt} :
    l.Mark .leftBrace → Derives ts (.declarations body) → r.Mark .rightBrace →
    Derives (l :: (ts ++ [r])) (.block body)
  -- statements
  | expression {stop : Token} {ts : List Token} {e : Expr} :
    Derives ts (.expression e) → stop.Mark .semicolon →
    Derives (ts ++ [stop]) (.statement false (.expression e))
  | print {w stop : Token} {ts : List Token} {e : Expr} :
    w.Word .print → Derives ts (.expression e) → stop.Mark .semicolon →
    Derives (w :: (ts ++ [stop])) (.statement false (.print e))
  | nested {ts : List Token} {body : List Stmt} :
    Derives ts (.block body) → Derives ts (.statement false (.block body))
  | branch {w l r : Token} {ts us : List Token} {isOpen : Bool} {c : Expr} {s : Stmt} :
    w.Word .if → l.Mark .leftParen → Derives ts (.expression c) → r.Mark .rightParen →
    Derives us (.statement isOpen s) →
    Derives (w :: l :: (ts ++ r :: us)) (.statement true (.ifElse c s none))
  | branches {w l r other : Token} {ts us vs : List Token} {isOpen : Bool} {c : Expr}
      {s s' : Stmt} :
    w.Word .if → l.Mark .leftParen → Derives ts (.expression c) → r.Mark .rightParen →
    Derives us (.statement false s) → other.Word .else → Derives vs (.statement isOpen s') →
    Derives (w :: l :: (ts ++ r :: (us ++ other :: vs)))
      (.statement isOpen (.ifElse c s (some s')))
  | whileLoop {w l r : Token} {ts us : List Token} {isOpen : Bool} {c : Expr} {s : Stmt} :
    w.Word .while → l.Mark .leftParen → Derives ts (.expression c) → r.Mark .rightParen →
    Derives us (.statement isOpen s) →
    Derives (w :: l :: (ts ++ r :: us)) (.statement isOpen (.loop c s none))
  | forLoop {w l first stop r : Token} {cs ss us : List Token} {isOpen : Bool}
      {c step : Option Expr} {s : Stmt} :
    w.Word .for → l.Mark .leftParen → first.Mark .semicolon → Derives cs (.optional c) →
    stop.Mark .semicolon → Derives ss (.optional step) → r.Mark .rightParen →
    Derives us (.statement isOpen s) →
    Derives (w :: l :: first :: (cs ++ stop :: (ss ++ r :: us)))
      (.statement isOpen (.loop (c.getD (.literal (.bool Bool.true))) s step))
  | forLoopFrom {w l stop r : Token} {is cs ss us : List Token} {isOpen : Bool}
      {first : Stmt} {c step : Option Expr} {s : Stmt} :
    w.Word .for → l.Mark .leftParen → Derives is (.initial first) → Derives cs (.optional c) →
    stop.Mark .semicolon → Derives ss (.optional step) → r.Mark .rightParen →
    Derives us (.statement isOpen s) →
    Derives (w :: l :: (is ++ (cs ++ stop :: (ss ++ r :: us))))
      (.statement isOpen
        (.block [first, .loop (c.getD (.literal (.bool Bool.true))) s step]))
  | initialVariable {w : Token} {ts : List Token} {s : Stmt} :
    w.Word .var → Derives ts (.variable s) → Derives (w :: ts) (.initial s)
  | initialExpression {stop : Token} {ts : List Token} {e : Expr} :
    Derives ts (.expression e) → stop.Mark .semicolon →
    Derives (ts ++ [stop]) (.initial (.expression e))
  | returning {w stop : Token} {ts : List Token} {e : Option Expr} :
    w.Word .return → Derives ts (.optional e) → stop.Mark .semicolon →
    Derives (w :: (ts ++ [stop])) (.statement false (.returning w.line e))
  | leave {w stop : Token} :
    w.Word .break → stop.Mark .semicolon → Derives [w, stop] (.statement false (.jump .leave))
  | next {w stop : Token} :
    w.Word .continue → stop.Mark .semicolon → Derives [w, stop] (.statement false (.jump .next))

end ScopeScript
