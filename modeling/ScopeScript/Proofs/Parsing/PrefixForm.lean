import ScopeScript.Proofs.Parsing.StatementSoundness
import ScopeScript.Proofs.Parsing.TreeForm
import ScopeScript.Proofs.Scanning.Respacing
import ScopeScript.Proofs.Scope.Lexical
import ScopeScript.Proofs.Syntax.Readback

set_option autoImplicit false

namespace ScopeScript

open Binary64

def Token.Plain (t : Token) : Prop :=
  match t.kind with
  | .string _ => False
  | .number x => view x ≠ .infinite false
  | _ => True

instance : DecidablePred Token.Plain := fun t => by
  unfold Token.Plain
  split <;> infer_instance

structure Token.Readable (t : Token) : Prop where
  isToken : Lexicon.IsToken t.kind t.lexeme.toList
  plain : t.Plain

namespace Lexicon

theorem IsToken.of_keyword {k : Keyword} {cs : List Char} (h : IsToken (.keyword k) cs) :
    cs = k.spelling.toList := by
  cases h
  rfl

theorem IsToken.of_number {x : Float} {cs : List Char} (h : IsToken (.number x) cs) :
    ∃ q, Nearest q x := by
  cases h with
  | whole _ _ nearest | fractional _ _ _ _ nearest => exact ⟨_, nearest⟩

theorem isToken_of_mem_wordsOf {source : String} {t : Token} (mem : t ∈ wordsOf source) :
    IsToken t.kind t.lexeme.toList := by
  obtain ⟨text, inside, spelled⟩ := exists_mem_itemsOf_iff.mp ⟨t, mem, rfl, rfl⟩
  rw [← spelled, String.toList_ofList]
  cases begins_of_pieces (pieces_of_mem inside) with
  | token token => exact token
  | skipped skips => cases skips

end Lexicon

namespace Token.Readable

variable {t : Token}

theorem name (h : t.Readable) (identifier : t.Identifier) : t.name.Readable := by
  have token := h.isToken
  rwa [identifier] at token

theorem refers (h : t.Readable) (identifier : t.Identifier) {r : Reference}
    (named : r.name = t.name) : r.name.Readable :=
  named ▸ h.name identifier

theorem keyword (h : t.Readable) {k : Keyword} (word : t.Word k) {r : Reference}
    (named : r.name = t.name) : r.name.text = k.spelling := by
  have token := h.isToken
  rw [word] at token
  rw [named]
  exact String.toList_inj.mp token.of_keyword

theorem literal (h : t.Readable) {value : Literal} (word : LiteralWord t.kind value) :
    value.Measured := by
  obtain ⟨token, plain⟩ := h
  unfold Token.Plain at plain
  generalize t.kind = kind at *
  cases word with
  | false | true | nil => trivial
  | number x =>
    obtain ⟨_, positive, nearest⟩ := token.of_number
    refine ⟨positive, Nat.lt_of_le_of_ne nearest.le fun infinite => plain ?_⟩
    rw [view, if_neg (Nat.not_lt.mpr infinite.ge), if_pos infinite, positive]
  | string => exact plain

end Token.Readable

theorem readable_of_mem_scan {source : String} (plain : ∀ t ∈ scannedTokens (scan source), t.Plain)
    {t : Token} (mem : t ∈ (scannedTokens (scan source)).takeWhile fun t => t.kind != .eof) :
    t.Readable := by
  have scanned := List.takeWhile_subset _ mem
  have inner := List.mem_takeWhile_imp mem
  have word : t ∈ wordsOf source := by
    rw [scannedTokens_scan] at scanned
    rcases List.mem_append.mp scanned with word | last
    · exact word
    · obtain rfl := List.mem_singleton.mp last
      simp at inner
  exact ⟨Lexicon.isToken_of_mem_wordsOf word, plain t scanned⟩

-- Copies of a tree.

mutual

theorem Expr.readable_mapIds (f : Nat → Nat) :
    ∀ e : Expr, (e.mapIds f).Readable ↔ e.Readable
  | .literal _ | .var _ | .self _ | .super .. => Iff.rfl
  | .grouping inner | .unary _ _ inner | .assign _ inner | .get inner _ => by
    simp only [Expr.mapIds, Expr.Readable, Expr.readable_mapIds f inner, Reference.mapId]
  | .binary _ _ left right | .logical _ left right | .set left _ right => by
    simp only [Expr.mapIds, Expr.Readable, Expr.readable_mapIds f left,
      Expr.readable_mapIds f right]
  | .call callee _ arguments => by
    simp only [Expr.mapIds, Expr.Readable, Expr.readable_mapIds f callee,
      Expr.allReadable_mapIdsAll f arguments]

theorem Expr.allReadable_mapIdsAll (f : Nat → Nat) :
    ∀ es : List Expr, Expr.AllReadable (Expr.mapIdsAll f es) ↔ Expr.AllReadable es
  | [] => Iff.rfl
  | e :: rest => by
    simp only [Expr.mapIdsAll, Expr.AllReadable, Expr.readable_mapIds f e,
      Expr.allReadable_mapIdsAll f rest]

end

theorem Expr.readable_of_anonymous_eq {e e' : Expr} (same : e'.anonymous = e.anonymous)
    (h : e.Readable) : e'.Readable := by
  have forgotten : e'.anonymous.Readable := same ▸ (Expr.readable_mapIds _ e).mpr h
  exact (Expr.readable_mapIds _ e').mp forgotten

-- The trees of readable words.

def Phrase.Readable : Phrase → Prop
  | .expression e | .level _ e | .unary e | .call e | .primary e => e.Readable
  | .arguments es => Expr.AllReadable es
  | .optional e => Expr.OptionReadable e
  | .declarations body | .block body => Stmt.AllReadable body
  | .declaration s | .variable s | .initial s | .statement _ s => s.Readable
  | .function f => f.Readable
  | .functions fs => FunctionDecl.AllReadable fs
  | .parameters names => ∀ name ∈ names, name.Readable

theorem Level.readable_operand (l : Level) (e : Expr) :
    (l.operand e).Readable ↔ e.Readable := by
  cases l <;> exact Iff.rfl

theorem Expr.readable_node (op : Parser.Infix) (line : Nat) (a b : Expr) :
    (op.node line a b).Readable ↔ a.Readable ∧ b.Readable := by
  cases op <;> exact Iff.rfl

theorem Expr.optionReadable_some {e : Expr} (h : e.Readable) : Expr.OptionReadable (some e) := by
  rintro _ ⟨⟩
  exact h

theorem Expr.readable_getD {e : Option Expr} (h : Expr.OptionReadable e) :
    (e.getD (.literal (.bool true))).Readable := by
  cases e with
  | none => trivial
  | some e => exact h e rfl

theorem measured_one : (Literal.number 1).Measured :=
  ⟨by decide +kernel, by decide +kernel⟩

theorem Derives.readable {ts : List Token} {p : Phrase} (h : Derives ts p)
    (words : ∀ t ∈ ts, t.Readable) : p.Readable := by
  induction h <;>
    simp -failIfUnchanged only [List.forall_mem_append, List.forall_mem_cons] at words
  case assignName identifier _ _ named ih =>
    exact ⟨words.1.refers identifier named, ih words.2.2⟩
  case updateName identifier _ _ named read ih =>
    exact ⟨words.1.refers identifier named, words.1.refers identifier read, ih words.2.2⟩
  case assignProperty identifier _ _ ih ih' =>
    exact ⟨ih words.1, words.2.2.1.name identifier, ih' words.2.2.2.2⟩
  case updateProperty identifier _ _ copied ih ih' =>
    have name := words.2.2.1.name identifier
    have object := ih words.1
    have object' := Expr.readable_of_anonymous_eq copied object
    exact ⟨object, name, ⟨object', name⟩, ih' words.2.2.2.2⟩
  case stepName identifier _ named read =>
    exact ⟨words.1.refers identifier named, words.1.refers identifier read, measured_one⟩
  case stepProperty identifier _ copied ih =>
    have name := words.2.2.1.name identifier
    have object := ih words.1
    have object' := Expr.readable_of_anonymous_eq copied object
    exact ⟨object, name, ⟨object', name⟩, measured_one⟩
  case plain ih | called ih | primary ih => exact ih words
  case operand l _ e _ ih => exact (l.readable_operand e).mp (ih words)
  case join l op t _ _ _ b _ _ _ ih ih' =>
    have right := (l.readable_operand b).mp (ih' words.2.2)
    exact (Expr.readable_node op t.line _ b).mpr ⟨ih words.1, right⟩
  case unary ih => exact ih words.2
  case callEmpty ih => exact ⟨ih words.1, trivial⟩
  case callWith ih ih' => exact ⟨ih words.1, ih' words.2.2.1⟩
  case property identifier ih => exact ⟨ih words.1, words.2.2.1.name identifier⟩
  case lastArgument ih => exact ⟨ih words, trivial⟩
  case moreArguments ih ih' => exact ⟨ih words.1, ih' words.2.2⟩
  case literal word => exact words.1.literal word
  case variableName identifier named => exact words.1.refers identifier named
  case this word named => exact words.1.keyword word named
  case super word _ method named =>
    exact ⟨words.1.keyword word named, words.2.2.1.name method⟩
  case grouping ih => exact ih words.2.1
  case absent => exact nofun
  case present ih => exact Expr.optionReadable_some (ih words)
  case noDeclaration | noFunction => trivial
  case moreDeclarations ih ih' | moreFunctions ih ih' => exact ⟨ih words.1, ih' words.2⟩
  case base identifier _ _ _ ih =>
    exact ⟨words.2.1.name identifier, nofun, ih words.2.2.2.1⟩
  case derived identifier _ inherited _ _ _ named ih =>
    refine ⟨words.2.1.name identifier, ?_, ih words.2.2.2.2.2.1⟩
    rintro _ ⟨⟩
    exact words.2.2.2.1.refers inherited named
  case function ih | variableDecl ih | initialVariable ih => exact ih words.2
  case stated ih | nested ih => exact ih words
  case unset identifier _ => exact ⟨words.1.name identifier, nofun⟩
  case set identifier _ _ _ ih =>
    exact ⟨words.1.name identifier, Expr.optionReadable_some (ih words.2.2.1)⟩
  case withoutParameters identifier _ _ _ ih =>
    exact ⟨words.1.name identifier, by simp, ih words.2.2.2⟩
  case withParameters identifier _ _ _ _ ih ih' =>
    exact ⟨words.1.name identifier, ih words.2.2.1, ih' words.2.2.2.2⟩
  case lastParameter identifier =>
    exact List.forall_mem_singleton.mpr (words.1.name identifier)
  case moreParameters identifier _ _ ih =>
    exact List.forall_mem_cons.mpr ⟨words.1.name identifier, ih words.2.2⟩
  case block ih | print ih => exact ih words.2.1
  case expression ih | initialExpression ih => exact ih words.1
  case branch ih ih' => exact ⟨ih words.2.2.1, ih' words.2.2.2.2⟩
  case branches ih ih' ih'' =>
    exact ⟨ih words.2.2.1, ih' words.2.2.2.2.1, ih'' words.2.2.2.2.2.2⟩
  case whileLoop ih ih' => exact ⟨ih words.2.2.1, ih' words.2.2.2.2, nofun⟩
  case forLoop ih ih' ih'' =>
    have test := Expr.readable_getD (ih words.2.2.2.1)
    exact ⟨test, ih'' words.2.2.2.2.2.2.2, ih' words.2.2.2.2.2.1⟩
  case forLoopFrom ih₁ ih₂ ih₃ ih₄ =>
    have test := Expr.readable_getD (ih₂ words.2.2.2.1)
    have body := ih₄ words.2.2.2.2.2.2.2
    exact ⟨ih₁ words.2.2.1, ⟨test, body, ih₃ words.2.2.2.2.2.1⟩, trivial⟩
  case returning ih => exact ih words.2.1
  case leave | next => trivial

-- The statements of a program, at every depth.

def Part.Readable : Part → Prop
  | .row body => Stmt.AllReadable body
  | .statement s => s.Readable
  | .function f => f.Readable
  | .expression e => e.Readable

theorem Stmt.allReadable_append {left right : List Stmt} :
    Stmt.AllReadable (left ++ right) ↔ Stmt.AllReadable left ∧ Stmt.AllReadable right := by
  induction left with
  | nil => simp [Stmt.AllReadable]
  | cons s rest ih => simp [Stmt.AllReadable, ih, and_assoc]

theorem FunctionDecl.allReadable_append {left right : List FunctionDecl} :
    FunctionDecl.AllReadable (left ++ right) ↔
      FunctionDecl.AllReadable left ∧ FunctionDecl.AllReadable right := by
  induction left with
  | nil => simp [FunctionDecl.AllReadable]
  | cons f rest ih => simp [FunctionDecl.AllReadable, ih, and_assoc]

theorem Stands.readable {program : List Stmt} (whole : Stmt.AllReadable program)
    {frames : List Frame} {part : Part} (h : Stands program frames part) : part.Readable := by
  induction h with
  | program => exact whole
  | statement _ ih => exact (Stmt.allReadable_append.mp ih).2.1
  | expression _ ih | print _ ih | block _ ih | function _ ih => exact ih
  | initial _ ih => exact ih.2 _ rfl
  | @test _ _ _ alternative _ ih => cases alternative <;> exact ih.1
  | @consequent _ _ _ alternative _ ih =>
    cases alternative with
    | none => exact ih.2
    | some => exact ih.2.1
  | alternative _ ih => exact ih.2.2
  | condition _ ih => exact ih.1
  | body _ ih => exact ih.2.1
  | step _ ih => exact ih.2.2 _ rfl
  | method _ ih => exact (FunctionDecl.allReadable_append.mp ih.2.2).2.1
  | result _ ih => exact ih _ rfl
  | @calling _ f _ ih =>
    cases f
    exact ih.2.2

/-- The statement stands in what is parsed from some text without strings and infinite numbers. -/
def Stmt.IsParsed (s : Stmt) : Prop :=
  ∃ (source : String) (firstId : Nat) (program : List Stmt) (frames : List Frame),
    (∀ t ∈ scannedTokens (scan source), t.Plain) ∧
      (parse (scannedTokens (scan source)) firstId).result = .ok program ∧
        Stands program frames (.statement s)

theorem Stmt.IsParsed.readable {s : Stmt} (h : s.IsParsed) : s.Readable := by
  obtain ⟨source, firstId, program, frames, plain, parsed, stands⟩ := h
  have whole := (derives_of_parse parsed).1.readable fun _ mem => readable_of_mem_scan plain mem
  exact stands.readable whole

/-- The prefix form tells the tree: statements of texts without strings and infinite numbers that
have the same form are the same, up to the numbers of their references and their lines. -/
theorem Stmt.IsParsed.outline_eq {s s' : Stmt} (parsed : s.IsParsed) (parsed' : s'.IsParsed)
    (same : PrefixForm.stmt s = PrefixForm.stmt s') : s.outline = s'.outline :=
  Stmt.outline_eq_of_text parsed.readable parsed'.readable same

theorem Stmt.exists_parsed {source form : String}
    (plain : ∀ t ∈ scannedTokens (scan source), t.Plain)
    (read : (parse (scannedTokens (scan source)) 0).result.toOption.map PrefixForm.stmts =
      some [form]) : ∃ s : Stmt, s.IsParsed ∧ PrefixForm.stmt s = form := by
  obtain ⟨body, found, forms⟩ := Option.map_eq_some_iff.mp read
  have parsed : (parse (scannedTokens (scan source)) 0).result = .ok body := by
    cases result : (parse (scannedTokens (scan source)) 0).result with
    | error faults => simp [result, Except.toOption] at found
    | ok body' => simpa [result, Except.toOption] using found
  obtain ⟨s, rfl, same⟩ : ∃ s, body = [s] ∧ PrefixForm.stmt s = form := by
    cases body with
    | nil => cases forms
    | cons s rest =>
      obtain ⟨same, nothing⟩ := List.cons.inj forms
      cases rest with
      | nil => exact ⟨s, rfl, same⟩
      | cons => cases nothing
  have stands : Stands [s] _ (.statement s) := @Stands.statement [s] [] [] s [] .program
  exact ⟨s, ⟨source, 0, [s], _, plain, parsed, stands⟩, same⟩

theorem Stmt.IsParsed.outline_eq_step : ∃ s s' : Stmt, s.IsParsed ∧ s'.IsParsed ∧
    PrefixForm.stmt s = "(block (= x (- x 1.0)))" ∧ PrefixForm.stmt s = PrefixForm.stmt s' ∧
      s.outline = s'.outline := by
  obtain ⟨s, parsed, form⟩ := @Stmt.exists_parsed "\x7b x--; \x7d" "(block (= x (- x 1.0)))"
    (by decide +kernel) (by decide +kernel)
  obtain ⟨s', parsed', form'⟩ :=
    @Stmt.exists_parsed "\x7b\n  x = x - 1;\n\x7d" "(block (= x (- x 1.0)))"
      (by decide +kernel) (by decide +kernel)
  have same := form.trans form'.symm
  exact ⟨s, s', parsed, parsed', form, same, parsed.outline_eq parsed' same⟩

end ScopeScript
