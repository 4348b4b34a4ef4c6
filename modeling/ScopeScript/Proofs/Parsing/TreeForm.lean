import ScopeScript.Proofs.Parsing.Derivation
import ScopeScript.Proofs.Syntax.Form
import ScopeScript.Token.Scan

set_option autoImplicit false

namespace ScopeScript

structure Token.Spelled (t : Token) : Prop where
  keyword : ∀ k, t.Word k → t.lexeme = k.spelling
  identifier : t.Identifier → ∀ k : Keyword, t.lexeme ≠ k.spelling

theorem Token.Spelled.ordinary {t : Token} (h : t.Spelled) (identifier : t.Identifier) :
    t.name.Ordinary :=
  ⟨h.identifier identifier .this, h.identifier identifier .super⟩

theorem Token.Spelled.refers {t : Token} (h : t.Spelled) (identifier : t.Identifier)
    {r : Reference} (named : r.name = t.name) : r.name.Ordinary :=
  named ▸ h.ordinary identifier

namespace Piece

def Spelled : Piece → Prop
  | .lexeme kind text => ∀ line, (Token.mk kind (String.ofList text) line).Spelled
  | _ => True

theorem spelled_word (cs : List Char) : (word cs).1.Spelled := by
  intro line
  cases found : Keyword.ofSpelling? (String.ofList (cs.takeWhile isWordPart)) with
  | some k =>
    have meaning : wordKind (cs.takeWhile isWordPart) = .keyword k := by
      rw [wordKind, found]
    rw [meaning]
    refine ⟨fun k' same => ?_, fun same => absurd same (by simp)⟩
    cases same
    exact (Keyword.ofSpelling?_eq_some_iff.mp found).symm
  | none =>
    have meaning : wordKind (cs.takeWhile isWordPart) = .identifier := by
      rw [wordKind, found]
    rw [meaning]
    refine ⟨fun k same => absurd same (by simp), fun _ k same => ?_⟩
    simp [Keyword.ofSpelling?_eq_some_iff.mpr same.symm] at found

theorem spelled_other {kind : Kind} {text : List Char} (notWord : ∀ k, kind ≠ .keyword k)
    (notName : kind ≠ .identifier) : (Piece.lexeme kind text).Spelled :=
  fun _ => ⟨fun k same => absurd same (notWord k), fun same => absurd same notName⟩

theorem spelled_string (rest : List Char) : (string rest).1.Spelled := by
  unfold string
  split
  · trivial
  · exact spelled_other (by simp) (by simp)

theorem spelled_symbol (c : Char) (rest : List Char) : (symbol c rest).1.Spelled := by
  unfold symbol
  split
  · exact spelled_other (by simp) (by simp)
  split
  · exact spelled_other (by simp) (by simp)
  · trivial

theorem spelled_comment? {cs rest : List Char} {p : Piece} (h : comment? cs = some (p, rest)) :
    p.Spelled := by
  unfold comment? at h
  split at h <;> cases h <;> trivial

theorem spelled_first (c : Char) (rest : List Char) : (first c rest).1.Spelled := by
  unfold first
  split
  · trivial
  split
  · exact spelled_string rest
  split
  · exact spelled_other (by simp) (by simp)
  split
  · exact spelled_word _
  cases found : comment? (c :: rest) with
  | none => exact spelled_symbol c rest
  | some result => exact spelled_comment? found

end Piece

theorem spelled_of_mem_pieces {cs : List Char} {p : Piece} (mem : p ∈ pieces cs) : p.Spelled := by
  induction cs using pieces.induct with
  | case1 => simp [pieces] at mem
  | case2 c rest ih =>
    rw [pieces] at mem
    rcases List.mem_cons.mp mem with rfl | later
    · exact Piece.spelled_first c rest
    · exact ih later

theorem spelled_of_mem_scanPieces {ps : List Piece} (spelled : ∀ p ∈ ps, p.Spelled) {line : Nat}
    {t : Token} (mem : t ∈ scannedTokens (scanPieces line ps)) : t.Spelled := by
  induction ps generalizing line with
  | nil =>
    simp only [scannedTokens, scanPieces, List.mem_filterMap, List.mem_singleton] at mem
    obtain ⟨_, rfl, same⟩ := mem
    cases same
    exact ⟨fun _ word => (by cases word), fun identifier => (by cases identifier)⟩
  | cons p rest ih =>
    have others := fun q member => spelled q (List.mem_cons_of_mem p member)
    cases p with
    | blank | comment => exact ih others mem
    | lexeme kind text =>
      simp only [scannedTokens, scanPieces] at mem
      rcases List.mem_cons.mp mem with rfl | later
      · exact spelled _ List.mem_cons_self _
      · exact ih others later
    | unexpected c => exact ih others mem
    | unclosed text => exact ih others mem

theorem spelled_of_mem_scan {source : String} {t : Token}
    (mem : t ∈ scannedTokens (scan source)) : t.Spelled :=
  spelled_of_mem_scanPieces (fun _ => spelled_of_mem_pieces) mem

def Phrase.WellFormed : Phrase → Prop
  | .expression e | .level _ e | .unary e | .call e | .primary e => e.WellNamed
  | .arguments es => Expr.AllWellNamed es
  | .optional e => Expr.OptionWellNamed e
  | .declarations body | .block body => Stmt.AllWellFormed body
  | .declaration s | .variable s | .initial s => s.WellFormed
  | .statement _ s => s.WellFormed ∧ s.declares = []
  | .function f => f.WellFormed
  | .functions fs => FunctionDecl.AllWellFormed fs
  | .parameters names => ∀ name ∈ names, name.Ordinary

theorem Level.wellFormed_operand (l : Level) (e : Expr) :
    (l.operand e).WellFormed ↔ e.WellNamed := by
  cases l <;> exact Iff.rfl

theorem Expr.wellNamed_node (op : Parser.Infix) (line : Nat) (a b : Expr) :
    (op.node line a b).WellNamed ↔ a.WellNamed ∧ b.WellNamed := by
  cases op <;> exact Iff.rfl

theorem Expr.optionWellNamed_some {e : Expr} (h : e.WellNamed) :
    Expr.OptionWellNamed (some e) := by
  rintro _ ⟨⟩
  exact h

theorem Expr.wellNamed_getD {e : Option Expr} (h : Expr.OptionWellNamed e) :
    (e.getD (.literal (.bool true))).WellNamed := by
  cases e with
  | none => trivial
  | some e => exact h e rfl

theorem Derives.wellFormed {ts : List Token} {p : Phrase} (h : Derives ts p)
    (spelled : ∀ t ∈ ts, t.Spelled) : p.WellFormed := by
  induction h <;>
    simp -failIfUnchanged only [List.forall_mem_append, List.forall_mem_cons] at spelled
  case assignName identifier _ _ named ih =>
    exact ⟨spelled.1.refers identifier named, ih spelled.2.2⟩
  case updateName identifier _ _ named read ih =>
    exact ⟨spelled.1.refers identifier named, spelled.1.refers identifier read, ih spelled.2.2⟩
  case assignProperty ih ih' => exact ⟨ih spelled.1, ih' spelled.2.2.2.2⟩
  case updateProperty copied ih ih' =>
    have object := ih spelled.1
    have object' := Expr.wellNamed_of_anonymous_eq copied object
    exact ⟨object, object', ih' spelled.2.2.2.2⟩
  case stepName identifier _ named read =>
    exact ⟨spelled.1.refers identifier named, spelled.1.refers identifier read, trivial⟩
  case stepProperty copied ih =>
    have object := ih spelled.1
    have object' := Expr.wellNamed_of_anonymous_eq copied object
    exact ⟨object, object', trivial⟩
  case plain ih | called ih | primary ih => exact ih spelled
  case operand l _ e _ ih => exact (l.wellFormed_operand e).mp (ih spelled)
  case join l op t _ _ _ b _ _ _ ih ih' =>
    have right := (l.wellFormed_operand b).mp (ih' spelled.2.2)
    exact (Expr.wellNamed_node op t.line _ b).mpr ⟨ih spelled.1, right⟩
  case unary ih => exact ih spelled.2
  case callEmpty ih => exact ⟨ih spelled.1, trivial⟩
  case callWith ih ih' => exact ⟨ih spelled.1, ih' spelled.2.2.1⟩
  case property ih => exact ih spelled.1
  case lastArgument ih => exact ⟨ih spelled, trivial⟩
  case moreArguments ih ih' => exact ⟨ih spelled.1, ih' spelled.2.2⟩
  case literal => trivial
  case variableName identifier named => exact spelled.1.refers identifier named
  case this word named => exact (congrArg Name.text named).trans (spelled.1.keyword _ word)
  case super word _ _ named => exact (congrArg Name.text named).trans (spelled.1.keyword _ word)
  case grouping ih => exact ih spelled.2.1
  case absent => exact nofun
  case present ih => exact Expr.optionWellNamed_some (ih spelled)
  case noDeclaration | noFunction => trivial
  case moreDeclarations ih ih' | moreFunctions ih ih' => exact ⟨ih spelled.1, ih' spelled.2⟩
  case base identifier _ _ _ ih =>
    exact ⟨spelled.2.1.ordinary identifier, nofun, ih spelled.2.2.2.1⟩
  case derived identifier _ inherited _ _ _ named ih =>
    refine ⟨spelled.2.1.ordinary identifier, ?_, ih spelled.2.2.2.2.2.1⟩
    rintro _ ⟨⟩
    exact spelled.2.2.2.1.refers inherited named
  case function ih | variableDecl ih | initialVariable ih => exact ih spelled.2
  case stated ih => exact (ih spelled).1
  case unset identifier _ => exact ⟨spelled.1.ordinary identifier, nofun⟩
  case set identifier _ _ _ ih =>
    exact ⟨spelled.1.ordinary identifier, Expr.optionWellNamed_some (ih spelled.2.2.1)⟩
  case withoutParameters identifier _ _ _ ih =>
    exact ⟨spelled.1.ordinary identifier, by simp, ih spelled.2.2.2⟩
  case withParameters identifier _ _ _ _ ih ih' =>
    exact ⟨spelled.1.ordinary identifier, ih spelled.2.2.1, ih' spelled.2.2.2.2⟩
  case lastParameter identifier =>
    exact List.forall_mem_singleton.mpr (spelled.1.ordinary identifier)
  case moreParameters identifier _ _ ih =>
    exact List.forall_mem_cons.mpr ⟨spelled.1.ordinary identifier, ih spelled.2.2⟩
  case block ih => exact ih spelled.2.1
  case expression ih => exact ⟨ih spelled.1, rfl⟩
  case print ih => exact ⟨ih spelled.2.1, rfl⟩
  case nested ih => exact ⟨ih spelled, rfl⟩
  case branch ih ih' => exact ⟨⟨ih spelled.2.2.1, ih' spelled.2.2.2.2⟩, rfl⟩
  case branches ih ih' ih'' =>
    exact ⟨⟨ih spelled.2.2.1, ih' spelled.2.2.2.2.1, ih'' spelled.2.2.2.2.2.2⟩, rfl⟩
  case whileLoop ih ih' => exact ⟨⟨ih spelled.2.2.1, ih' spelled.2.2.2.2, nofun⟩, rfl⟩
  case forLoop ih ih' ih'' =>
    refine ⟨⟨Expr.wellNamed_getD (ih spelled.2.2.2.1), ?_, ih' spelled.2.2.2.2.2.1⟩, rfl⟩
    exact ih'' spelled.2.2.2.2.2.2.2
  case forLoopFrom ih₁ ih₂ ih₃ ih₄ =>
    have test := Expr.wellNamed_getD (ih₂ spelled.2.2.2.1)
    have body := ih₄ spelled.2.2.2.2.2.2.2
    exact ⟨⟨ih₁ spelled.2.2.1, ⟨test, body, ih₃ spelled.2.2.2.2.2.1⟩, trivial⟩, rfl⟩
  case initialExpression ih => exact ih spelled.1
  case returning ih => exact ⟨ih spelled.2.1, rfl⟩
  case leave | next => exact ⟨trivial, rfl⟩

theorem wellFormed_of_derives_scan {source : String} {body : List Stmt}
    (derived : Derives ((scannedTokens (scan source)).takeWhile fun t => t.kind != .eof)
      (.declarations body)) : Stmt.AllWellFormed body :=
  derived.wellFormed fun _ mem => spelled_of_mem_scan (List.takeWhile_subset _ mem)

end ScopeScript
