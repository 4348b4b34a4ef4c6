import Mathlib.Data.List.Basic
import ScopeScript.Proofs.Scanning.Lexicon
import ScopeScript.Syntax.PrefixForm

set_option autoImplicit false

namespace ScopeScript

inductive Sexp where
  | atom (word : String)
  | list (parts : List Sexp)

namespace Sexp

mutual

def text : Sexp → String
  | atom word => word
  | list parts => PrefixForm.list (texts parts)

def texts : List Sexp → List String
  | [] => []
  | part :: rest => text part :: texts rest

end

def isInner (c : Char) : Bool :=
  c != ' ' && c != '(' && c != ')'

mutual

def Plain : Sexp → Prop
  | atom word => word.toList ≠ [] ∧ ∀ c ∈ word.toList, isInner c = true
  | list parts => AllPlain parts

def AllPlain : List Sexp → Prop
  | [] => True
  | part :: rest => part.Plain ∧ AllPlain rest

end

def tail (rest : List String) : List Char :=
  rest.flatMap (fun text => ' ' :: text.toList) ++ [')']

theorem toList_list_cons (first : String) (rest : List String) :
    (PrefixForm.list (first :: rest)).toList = '(' :: (first.toList ++ tail rest) := by
  have inner : [' '].intercalate (List.map String.toList (first :: rest)) =
      first.toList ++ rest.flatMap fun text => ' ' :: text.toList := by
    induction rest generalizing first with
    | nil => simp
    | cons next rest ih =>
      rw [List.map_cons, List.map_cons, List.intercalate_cons_cons, ← List.map_cons, ih]
      simp
  simp only [PrefixForm.list, String.toList_append, String.toList_intercalate]
  change ['('] ++ [' '].intercalate _ ++ [')'] = _
  rw [inner]
  simp [tail]

theorem text_nil (r : List Char) : (list []).text.toList ++ r = '(' :: ')' :: r := rfl

theorem text_cons (part : Sexp) (rest : List Sexp) (r : List Char) :
    (list (part :: rest)).text.toList ++ r =
      '(' :: (part.text.toList ++ (tail (texts rest) ++ r)) := by
  rw [text, texts, toList_list_cons, List.cons_append, List.append_assoc]

theorem tail_cons (part : Sexp) (rest : List Sexp) (r : List Char) :
    tail (texts (part :: rest)) ++ r = ' ' :: (part.text.toList ++ (tail (texts rest) ++ r)) := by
  simp [texts, tail]

theorem tail_ends (rest : List String) (r : List Char) :
    ∀ c ∈ (tail rest ++ r).head?, isInner c = false := by
  cases rest <;> rintro _ ⟨⟩ <;> rfl

theorem toList_list (parts : List Sexp) : ∃ cs, (list parts).text.toList = '(' :: cs := by
  cases parts with
  | nil => exact ⟨_, rfl⟩
  | cons part rest => exact ⟨_, toList_list_cons _ _⟩

theorem Plain.not_close {s : Sexp} (plain : s.Plain) {r r' : List Char} :
    s.text.toList ++ r ≠ ')' :: r' := by
  intro same
  cases s with
  | atom word =>
    obtain ⟨some_char, inner⟩ := plain
    obtain ⟨c, cs, whole⟩ := List.exists_cons_of_ne_nil some_char
    rw [text, whole] at same
    obtain ⟨rfl, -⟩ := List.cons.inj same
    exact absurd (inner ')' (whole ▸ List.mem_cons_self)) (by decide)
  | list parts =>
    obtain ⟨cs, whole⟩ := toList_list parts
    rw [whole] at same
    exact absurd (List.cons.inj same).1 (by decide)

theorem ne_list_of_plain {word : String} (plain : (atom word).Plain) (parts : List Sexp)
    {r r' : List Char} : word.toList ++ r ≠ (list parts).text.toList ++ r' := by
  intro same
  obtain ⟨some_char, inner⟩ := plain
  obtain ⟨c, cs, whole⟩ := List.exists_cons_of_ne_nil some_char
  obtain ⟨cs', whole'⟩ := toList_list parts
  rw [whole, whole'] at same
  obtain ⟨rfl, -⟩ := List.cons.inj same
  exact absurd (inner '(' (whole ▸ List.mem_cons_self)) (by decide)

mutual

theorem eq_of_text_append : ∀ {s s' : Sexp} {r r' : List Char}, s.Plain → s'.Plain →
    (∀ c ∈ r.head?, isInner c = false) → (∀ c ∈ r'.head?, isInner c = false) →
      s.text.toList ++ r = s'.text.toList ++ r' → s = s' ∧ r = r'
  | atom word, atom word', r, r', plain, plain', stop, stop', same => by
    have words : word.toList = word'.toList := by
      rw [← Lexicon.takeWhile_run plain.2 stop, ← Lexicon.takeWhile_run plain'.2 stop']
      exact congrArg _ same
    obtain rfl := String.toList_inj.mp words
    exact ⟨rfl, List.append_cancel_left same⟩
  | atom _, list parts, _, _, plain, _, _, _, same => absurd same (ne_list_of_plain plain parts)
  | list parts, atom _, _, _, _, plain', _, _, same =>
    absurd same.symm (ne_list_of_plain plain' parts)
  | list [], list [], _, _, _, _, _, _, same => ⟨rfl, List.append_cancel_left same⟩
  | list [], list (part :: rest), _, _, _, plain', _, _, same => by
    rw [text_nil, text_cons] at same
    exact absurd (List.cons.inj same).2.symm plain'.1.not_close
  | list (part :: rest), list [], _, _, plain, _, _, _, same => by
    rw [text_nil, text_cons] at same
    exact absurd (List.cons.inj same).2 plain.1.not_close
  | list (part :: rest), list (part' :: rest'), _, _, plain, plain', _, _, same => by
    rw [text_cons, text_cons] at same
    obtain ⟨rfl, behind⟩ := eq_of_text_append plain.1 plain'.1 (tail_ends _ _) (tail_ends _ _)
      (List.cons.inj same).2
    obtain ⟨rfl, after⟩ := eq_of_tail_append plain.2 plain'.2 behind
    exact ⟨rfl, after⟩

theorem eq_of_tail_append : ∀ {parts parts' : List Sexp} {r r' : List Char}, AllPlain parts →
    AllPlain parts' → tail (texts parts) ++ r = tail (texts parts') ++ r' →
      parts = parts' ∧ r = r'
  | [], [], _, _, _, _, same => ⟨rfl, List.append_cancel_left same⟩
  | [], _ :: _, _, _, _, _, same => absurd (List.cons.inj same).1 (by decide)
  | _ :: _, [], _, _, _, _, same => absurd (List.cons.inj same).1 (by decide)
  | part :: rest, part' :: rest', _, _, plain, plain', same => by
    rw [tail_cons, tail_cons] at same
    obtain ⟨rfl, behind⟩ := eq_of_text_append plain.1 plain'.1 (tail_ends _ _) (tail_ends _ _)
      (List.cons.inj same).2
    obtain ⟨rfl, after⟩ := eq_of_tail_append plain.2 plain'.2 behind
    exact ⟨rfl, after⟩

end

theorem text_injOn {s s' : Sexp} (plain : s.Plain) (plain' : s'.Plain)
    (same : s.text = s'.text) : s = s' := by
  have whole : s.text.toList ++ [] = s'.text.toList ++ [] := by rw [same]
  have stop : ∀ c ∈ ([] : List Char).head?, isInner c = false := nofun
  exact (eq_of_text_append plain plain' stop stop whole).1

end Sexp

-- Trees as words and lists.

mutual

def Expr.sexp : Expr → Sexp
  | .literal value => .atom (PrefixForm.literal value)
  | .grouping inner => .list [.atom "group", inner.sexp]
  | .unary op _ operand => .list [.atom op.spelling, operand.sexp]
  | .binary op _ left right => .list [.atom op.spelling, left.sexp, right.sexp]
  | .logical op left right => .list [.atom op.spelling, left.sexp, right.sexp]
  | .var reference => .atom reference.name.text
  | .assign reference value => .list [.atom "=", .atom reference.name.text, value.sexp]
  | .call callee _ arguments => .list (.atom "call" :: callee.sexp :: Expr.sexps arguments)
  | .get object name => .list [.atom ".", object.sexp, .atom name.text]
  | .set object name value =>
    .list [.atom "=", .list [.atom ".", object.sexp, .atom name.text], value.sexp]
  | .self _ => .atom "this"
  | .super _ method => .list [.atom ("super." ++ method.text)]

def Expr.sexps : List Expr → List Sexp
  | [] => []
  | e :: rest => e.sexp :: Expr.sexps rest

end

mutual

def Stmt.sexp : Stmt → Sexp
  | .expression value => value.sexp
  | .print value => .list [.atom "print", value.sexp]
  | .varDecl name none => .list [.atom "var", .atom name.text]
  | .varDecl name (some initial) => .list [.atom "var", .atom name.text, initial.sexp]
  | .block body => .list (.atom "block" :: Stmt.sexps body)
  | .ifElse condition consequent none => .list [.atom "if", condition.sexp, consequent.sexp]
  | .ifElse condition consequent (some alternative) =>
    .list [.atom "if", condition.sexp, consequent.sexp, alternative.sexp]
  | .loop condition body none => .list [.atom "while", condition.sexp, body.sexp]
  | .loop condition body (some step) =>
    .list [.atom "while", condition.sexp, body.sexp, step.sexp]
  | .funDecl declaration => declaration.sexp
  | .classDecl name none methods =>
    .list (.atom "class" :: .atom name.text :: FunctionDecl.sexps methods)
  | .classDecl name (some superclass) methods =>
    .list (.atom "class" :: .atom name.text :: .atom "<" :: .atom superclass.name.text ::
      FunctionDecl.sexps methods)
  | .returning _ none => .list [.atom "return"]
  | .returning _ (some value) => .list [.atom "return", value.sexp]
  | .jump kind => .list [.atom kind.word]

def Stmt.sexps : List Stmt → List Sexp
  | [] => []
  | s :: rest => s.sexp :: Stmt.sexps rest

def FunctionDecl.sexp : FunctionDecl → Sexp
  | .mk name parameters body =>
    .list [.atom "fun", .atom name.text, .list (parameters.map fun p => .atom p.text),
      .list (.atom "block" :: Stmt.sexps body)]

def FunctionDecl.sexps : List FunctionDecl → List Sexp
  | [] => []
  | f :: rest => f.sexp :: FunctionDecl.sexps rest

end

mutual

theorem Expr.text_sexp : ∀ e : Expr, e.sexp.text = PrefixForm.expr e
  | .literal _ | .var _ | .self _ => rfl
  | .super _ method => by
    change "(" ++ ("super." ++ method.text) ++ ")" = "(super." ++ method.text ++ ")"
    rw [← String.append_assoc]
    rfl
  | .grouping inner | .unary _ _ inner | .assign _ inner | .get inner _ => by
    simp [Expr.sexp, Sexp.text, Sexp.texts, PrefixForm.expr, Expr.text_sexp inner]
  | .binary _ _ left right | .logical _ left right | .set left _ right => by
    simp [Expr.sexp, Sexp.text, Sexp.texts, PrefixForm.expr, Expr.text_sexp left,
      Expr.text_sexp right]
  | .call callee _ arguments => by
    simp [Expr.sexp, Sexp.text, Sexp.texts, PrefixForm.expr, Expr.text_sexp callee,
      Expr.texts_sexps arguments]

theorem Expr.texts_sexps : ∀ es : List Expr, Sexp.texts (Expr.sexps es) = PrefixForm.exprs es
  | [] => rfl
  | e :: rest => by
    simp [Expr.sexps, Sexp.texts, PrefixForm.exprs, Expr.text_sexp e, Expr.texts_sexps rest]

end

theorem Sexp.texts_names (names : List Name) :
    texts (names.map fun p => .atom p.text) = names.map Name.text := by
  induction names with
  | nil => rfl
  | cons p rest ih => simp [texts, text, ih]

mutual

theorem Stmt.text_sexp : ∀ s : Stmt, s.sexp.text = PrefixForm.stmt s
  | .expression value => value.text_sexp
  | .print value | .varDecl _ (some value) | .returning _ (some value) => by
    simp [Stmt.sexp, Sexp.text, Sexp.texts, PrefixForm.stmt, Expr.text_sexp]
  | .varDecl _ none | .returning _ none | .jump _ => rfl
  | .block body => by
    simp [Stmt.sexp, Sexp.text, Sexp.texts, PrefixForm.stmt, Stmt.texts_sexps body]
  | .ifElse condition consequent none => by
    simp [Stmt.sexp, Sexp.text, Sexp.texts, PrefixForm.stmt, Expr.text_sexp,
      Stmt.text_sexp consequent]
  | .ifElse condition consequent (some alternative) => by
    simp [Stmt.sexp, Sexp.text, Sexp.texts, PrefixForm.stmt, Expr.text_sexp,
      Stmt.text_sexp consequent, Stmt.text_sexp alternative]
  | .loop condition body none | .loop condition body (some _) => by
    simp [Stmt.sexp, Sexp.text, Sexp.texts, PrefixForm.stmt, Expr.text_sexp, Stmt.text_sexp body]
  | .funDecl declaration => FunctionDecl.text_sexp declaration
  | .classDecl _ none methods | .classDecl _ (some _) methods => by
    simp [Stmt.sexp, Sexp.text, Sexp.texts, PrefixForm.stmt, FunctionDecl.texts_sexps methods]

theorem Stmt.texts_sexps :
    ∀ body : List Stmt, Sexp.texts (Stmt.sexps body) = PrefixForm.stmts body
  | [] => rfl
  | s :: rest => by
    simp [Stmt.sexps, Sexp.texts, PrefixForm.stmts, Stmt.text_sexp s, Stmt.texts_sexps rest]

theorem FunctionDecl.text_sexp : ∀ f : FunctionDecl, f.sexp.text = PrefixForm.function f
  | .mk _ parameters body => by
    simp [FunctionDecl.sexp, Sexp.text, Sexp.texts, PrefixForm.function, Sexp.texts_names,
      Stmt.texts_sexps body]

theorem FunctionDecl.texts_sexps :
    ∀ fs : List FunctionDecl, Sexp.texts (FunctionDecl.sexps fs) = PrefixForm.functions fs
  | [] => rfl
  | f :: rest => by
    simp [FunctionDecl.sexps, Sexp.texts, PrefixForm.functions, FunctionDecl.text_sexp f,
      FunctionDecl.texts_sexps rest]

end

end ScopeScript
