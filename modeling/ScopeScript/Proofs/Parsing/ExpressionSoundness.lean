import ScopeScript.Proofs.Parsing.Outcome
import ScopeScript.Proofs.Syntax.Form

set_option autoImplicit false

namespace ScopeScript

namespace Level

def rung : Level → Parser.Rung
  | .or => Parser.orRung
  | .and => Parser.andRung
  | .equality => Parser.equalityRung
  | .comparison => Parser.comparisonRung
  | .term => Parser.additiveRung
  | .factor => Parser.multiplicativeRung

def tighter : Level → List Parser.Rung
  | .factor => []
  | .term => [Parser.multiplicativeRung]
  | .comparison => [Parser.additiveRung, Parser.multiplicativeRung]
  | .equality => [Parser.comparisonRung, Parser.additiveRung, Parser.multiplicativeRung]
  | .and =>
    [Parser.equalityRung, Parser.comparisonRung, Parser.additiveRung, Parser.multiplicativeRung]
  | .or =>
    [Parser.andRung, Parser.equalityRung, Parser.comparisonRung, Parser.additiveRung,
      Parser.multiplicativeRung]

theorem joins_iff (l : Level) (k : Kind) (op : Parser.Infix) :
    l.Joins k op ↔ l.rung k = some op := by
  constructor
  · intro h
    cases h <;> rfl
  · intro h
    cases l <;>
      simp only [rung, Parser.orRung, Parser.andRung, Parser.equalityRung, Parser.comparisonRung,
        Parser.additiveRung, Parser.multiplicativeRung] at h <;>
      split at h <;> cases h <;> constructor

end Level

namespace Parser

-- What each table of words says about the kind of a token.

theorem unaryOp?_eq {k : Kind} {op : UnaryOp} (h : unaryOp? k = some op) : UnarySign k op := by
  unfold unaryOp? at h
  split at h <;> cases h <;> constructor

theorem atom?_eq {k : Kind} {a : Atom} (h : atom? k = some a) :
    match a with
    | .literal value => LiteralWord k value
    | .name => k = .identifier
    | .self => k = .keyword .this
    | .super => k = .keyword .super
    | .group => k = .punctuator .leftParen := by
  unfold atom? at h
  split at h <;> cases h <;> first | rfl | constructor

theorem suffix?_eq {k : Kind} {s : Suffix} (h : suffix? k = some s) :
    match s with
    | .call => k = .punctuator .leftParen
    | .property => k = .punctuator .dot := by
  unfold suffix? at h
  split at h <;> cases h <;> rfl

theorem assignForm?_eq {k : Kind} {form : AssignForm} (h : assignForm? k = some form) :
    match form with
    | .plain => k = .punctuator .equal
    | .compound op => CompoundSign k op
    | .step op => StepSign k op := by
  unfold assignForm? at h
  split at h <;> cases h <;> first | rfl | constructor

end Parser

namespace Derives

theorem unary_of_level {l : Level} {ts : List Token} {e : Expr} (h : Derives ts (.level l e))
    (single : ∀ op line a b, e ≠ Parser.Infix.node op line a b) : Derives ts (.unary e) := by
  cases h with
  | join => exact absurd rfl (single _ _ _ _)
  | operand h =>
    cases l with
    | factor => exact h
    | or | and | equality | comparison | term => exact unary_of_level h single
termination_by ts.length + match l with
  | .or => 5 | .and => 4 | .equality => 3 | .comparison => 2 | .term => 1 | .factor => 0

theorem name_of_level {l : Level} {ts : List Token} {r : Reference}
    (h : Derives ts (.level l (.var r))) :
    ∃ t : Token, ts = [t] ∧ t.Identifier ∧ r.name = t.name := by
  have single := h.unary_of_level (by rintro (op | op) <;> simp [Parser.Infix.node])
  cases single with
  | called h =>
    cases h with
    | primary h =>
      cases h with
      | variableName identifier named => exact ⟨_, rfl, identifier, named⟩

theorem property_of_level {l : Level} {ts : List Token} {o : Expr} {name : Name}
    (h : Derives ts (.level l (.get o name))) :
    ∃ (us : List Token) (dot t : Token), ts = us ++ [dot, t] ∧ Derives us (.call o) ∧
      dot.Mark .dot ∧ t.Identifier ∧ name = t.name := by
  have single := h.unary_of_level (by rintro (op | op) <;> simp [Parser.Infix.node])
  cases single with
  | called h =>
    cases h with
    | primary h => cases h
    | property object dot identifier => exact ⟨_, _, _, rfl, object, dot, identifier, rfl⟩

end Derives

namespace Parser

structure ExpressionsSound (n : Nat) : Prop where
  expression : Yields (expression n) fun e used _ =>
    Derives used (.expression e) ∧ e.WithinArity
  level : ∀ l : Level, Yields (rung n (l.rung :: l.tighter)) fun e used _ =>
    Derives used (.level l e) ∧ e.WithinArity
  single : Yields (rung n []) fun e used _ => Derives used (.unary e) ∧ e.WithinArity
  levelTail : ∀ (l : Level) (left : Expr), Yields (rungTail n l.rung l.tighter left)
    fun e used _ => ∀ before, Derives before (.level l left) → left.WithinArity →
      Derives (before ++ used) (.level l e) ∧ e.WithinArity
  unary : Yields (unary n) fun e used _ => Derives used (.unary e) ∧ e.WithinArity
  suffixes : ∀ e : Expr, Yields (suffixes n e) fun e' used _ =>
    ∀ before, Derives before (.call e) → e.WithinArity →
      Derives (before ++ used) (.call e') ∧ e'.WithinArity
  arguments : ∀ count : Nat, Yields (arguments n count) fun es used _ =>
    Derives used (.arguments es) ∧ Expr.AllWithinArity es ∧ count + es.length ≤ 255
  operand : Yields (operand n) fun e used _ => Derives used (.primary e) ∧ e.WithinArity

namespace ExpressionsSound

variable {n : Nat}

theorem zero : ExpressionsSound 0 where
  expression := .fail _
  level _ := .fail _
  single := .fail _
  levelTail _ _ := .fail _
  unary := .fail _
  suffixes _ := .fail _
  arguments _ := .fail _
  operand := .fail _

theorem tighter (ih : ExpressionsSound n) (l : Level) :
    Yields (rung n l.tighter) fun e used _ => Derives used (l.operand e) ∧ e.WithinArity := by
  cases l with
  | or => exact ih.level .and
  | and => exact ih.level .equality
  | equality => exact ih.level .comparison
  | comparison => exact ih.level .term
  | term => exact ih.level .factor
  | factor => exact ih.single

theorem level_succ (ih : ExpressionsSound n) (l : Level) :
    Yields (rung (n + 1) (l.rung :: l.tighter)) fun e used _ =>
      Derives used (.level l e) ∧ e.WithinArity := by
  refine (ih.tighter l).bind fun left => (ih.levelTail l left).mono ?_
  rintro e used rest tail before ⟨derived, arity⟩
  exact tail before (.operand derived) arity

theorem levelTail_succ (ih : ExpressionsSound n) (l : Level) (left : Expr) :
    Yields (rungTail (n + 1) l.rung l.tighter left) fun e used _ =>
      ∀ before, Derives before (.level l left) → left.WithinArity →
        Derives (before ++ used) (.level l e) ∧ e.WithinArity := by
  refine Yields.take?.bind fun found => ?_
  cases found with
  | none =>
    refine .pure ?_
    rintro rest _ ⟨rfl, -⟩ before derived arity
    exact ⟨by simpa using derived, arity⟩
  | some joined =>
    obtain ⟨op, sign⟩ := joined
    refine (ih.tighter l).bind fun right => (ih.levelTail l _).mono ?_
    rintro e used rest tail us ⟨derived, arity⟩ _ ⟨rfl, meant⟩ before derivedLeft arityLeft
    have joins := (l.joins_iff _ _).mpr meant
    have within : (op.node sign.line left right).WithinArity := by
      cases op <;> exact ⟨arityLeft, arity⟩
    simpa using tail _ (.join derivedLeft joins derived) within

theorem unary_succ (ih : ExpressionsSound n) :
    Yields (Parser.unary (n + 1)) fun e used _ => Derives used (.unary e) ∧ e.WithinArity := by
  refine Yields.take?.bind fun found => ?_
  cases found with
  | none =>
    refine ih.operand.bind fun e => (ih.suffixes e).mono ?_
    rintro e' used rest tail us ⟨derived, arity⟩ _ ⟨rfl, -⟩
    obtain ⟨derived', arity'⟩ := tail us (.primary derived) arity
    exact ⟨.called derived', arity'⟩
  | some signed =>
    obtain ⟨op, sign⟩ := signed
    refine ih.unary.bind fun e => .pure ?_
    rintro rest us ⟨derived, arity⟩ _ ⟨rfl, meant⟩
    exact ⟨by simpa using .unary (unaryOp?_eq meant) derived, arity⟩

theorem suffixes_succ (ih : ExpressionsSound n) (e : Expr) :
    Yields (Parser.suffixes (n + 1) e) fun e' used _ =>
      ∀ before, Derives before (.call e) → e.WithinArity →
        Derives (before ++ used) (.call e') ∧ e'.WithinArity := by
  refine Yields.take?.bind fun found => ?_
  cases found with
  | none =>
    refine .pure ?_
    rintro rest _ ⟨rfl, -⟩ before derived arity
    exact ⟨by simpa using derived, arity⟩
  | some suffix =>
    obtain ⟨suffix, t⟩ := suffix
    cases suffix with
    | call =>
      have finish (es : List Expr) : Yields
          (do
            let close ← expect (.punctuator .rightParen) .argumentsEnd
            Parser.suffixes n (.call e close.line es))
          fun e' used _ => ∀ l us before, l.Mark .leftParen → Derives before (.call e) →
            e.WithinArity → (es = [] ∧ us = [] ∨ Derives us (.arguments es) ∧
              Expr.AllWithinArity es ∧ 0 + es.length ≤ 255) →
            Derives (before ++ l :: (us ++ used)) (.call e') ∧ e'.WithinArity := by
        refine (Yields.expect _ _).bind fun close => (ih.suffixes _).mono ?_
        rintro e' used rest tail _ ⟨rfl, closes⟩ l us before opens derived arity
          (⟨rfl, rfl⟩ | ⟨derived', arity', bound⟩)
        · simpa using tail _ (.callEmpty derived opens closes)
            ⟨arity, by simp, by simp [Expr.AllWithinArity]⟩
        · simpa using tail _ (.callWith derived opens derived' closes)
            ⟨arity, by omega, arity'⟩
      refine (Yields.isNext _).bind fun closes => ?_
      cases closes with
      | true =>
        refine (Yields.pure (R := fun es used _ => es = [] ∧ used = []) fun _ => ⟨rfl, rfl⟩).bind
          fun es => (finish es).mono ?_
        rintro e' used rest tail _ ⟨rfl, rfl⟩ _ rfl _ ⟨rfl, meant⟩ before derived arity
        exact tail t [] before (suffix?_eq meant) derived arity (.inl ⟨rfl, rfl⟩)
      | false =>
        refine (ih.arguments 0).bind fun es => (finish es).mono ?_
        rintro e' used rest tail us parts _ rfl _ ⟨rfl, meant⟩ before derived arity
        exact tail t us before (suffix?_eq meant) derived arity (.inr parts)
    | property =>
      refine (Yields.expectName _).bind fun name => (ih.suffixes _).mono ?_
      rintro e' used rest tail _ ⟨word, rfl, identifier, rfl⟩ _ ⟨rfl, meant⟩ before derived arity
      simpa using tail _ (.property derived (suffix?_eq meant) identifier) arity

theorem arguments_succ (ih : ExpressionsSound n) (count : Nat) :
    Yields (Parser.arguments (n + 1) count) fun es used _ =>
      Derives used (.arguments es) ∧ Expr.AllWithinArity es ∧ count + es.length ≤ 255 := by
  -- The result is bounded only by what is noted when the list is full.
  have list : Yields
      (do
        let e ← Parser.expression n
        if ← accept (.punctuator .comma) then return e :: (← Parser.arguments n (count + 1))
        else return [e])
      fun es used _ => Derives used (.arguments es) ∧ Expr.AllWithinArity es ∧
        (count < 255 → count + es.length ≤ 255) := by
    refine ih.expression.bind fun e => (Yields.accept _).bind fun more => ?_
    cases more with
    | true =>
      refine (ih.arguments (count + 1)).bind fun es => .pure ?_
      rintro rest us ⟨derived', arity', bound'⟩ _ ⟨comma, rfl, separates⟩ ts ⟨derived, arity⟩
      refine ⟨by simpa using .moreArguments derived separates derived', ⟨arity, arity'⟩, ?_⟩
      simp only [List.length_cons]
      omega
    | false =>
      refine .pure ?_
      rintro rest _ ⟨rfl, -⟩ ts ⟨derived, arity⟩
      refine ⟨by simpa using .lastArgument derived, ⟨arity, trivial⟩, fun room => ?_⟩
      simp only [List.length_cons, List.length_nil]
      omega
  unfold Parser.arguments
  by_cases full : maxArity ≤ count
  · simp only [full, if_true]
    exact (Yields.noteHere (R := fun _ _ _ => False) _).bind fun _ =>
      list.mono fun _ _ _ _ _ impossible => impossible.elim
  · simp only [full, if_false]
    refine list.mono ?_
    rintro es used rest ⟨derived, arity, bound⟩
    exact ⟨derived, arity, bound (Nat.lt_of_not_le full)⟩

theorem operand_succ (ih : ExpressionsSound n) :
    Yields (Parser.operand (n + 1)) fun e used _ =>
      Derives used (.primary e) ∧ e.WithinArity := by
  refine Yields.take?.bind fun found => ?_
  cases found with
  | none => exact .fail _
  | some found =>
    obtain ⟨atom, t⟩ := found
    cases atom with
    | literal value =>
      refine .pure ?_
      rintro rest _ ⟨rfl, meant⟩
      exact ⟨.literal (atom?_eq meant), trivial⟩
    | name =>
      refine (Yields.reference _).bind fun r => .pure ?_
      rintro rest _ ⟨rfl, named⟩ _ ⟨rfl, meant⟩
      exact ⟨.variableName (atom?_eq meant) named, trivial⟩
    | self =>
      refine (Yields.reference _).bind fun r => .pure ?_
      rintro rest _ ⟨rfl, named⟩ _ ⟨rfl, meant⟩
      exact ⟨.this (atom?_eq meant) named, trivial⟩
    | super =>
      refine (Yields.expect _ _).bind fun dot => (Yields.expectName _).bind fun method =>
        (Yields.reference _).bind fun r => .pure ?_
      rintro rest _ ⟨rfl, named⟩ _ ⟨word, rfl, identifier, rfl⟩ _ ⟨rfl, dots⟩ _ ⟨rfl, meant⟩
      exact ⟨.super (atom?_eq meant) dots identifier named, trivial⟩
    | group =>
      refine ih.expression.bind fun e => (Yields.expect _ _).bind fun close => .pure ?_
      rintro rest _ ⟨rfl, closes⟩ us ⟨derived, arity⟩ _ ⟨rfl, meant⟩
      exact ⟨by simpa using .grouping (atom?_eq meant) derived closes, arity⟩

end ExpressionsSound

-- A target is read on the loosest level, and its form decides what the sign behind it means.

inductive Assigned (value : Expr) : Expr → Expr → Prop where
  | name {old r : Reference} : r.name = old.name → Assigned value (.var old) (.assign r value)
  | property (object : Expr) (name : Name) :
    Assigned value (.get object name) (.set object name value)

inductive Updated (op : BinaryOp) (line : Nat) (value : Expr) : Expr → Expr → Prop where
  | name {old r r' : Reference} : r.name = old.name → r'.name = old.name →
    Updated op line value (.var old) (.assign r (.binary op line (.var r') value))
  | property {object object' : Expr} (name : Name) : object'.anonymous = object.anonymous →
    Updated op line value (.get object name)
      (.set object name (.binary op line (.get object' name) value))

theorem assignTo_yields (target value : Expr) (sign : Token) :
    Yields (assignTo target value sign) fun e used _ => used = [] ∧ Assigned value target e := by
  unfold assignTo
  split
  next old =>
    refine (Yields.reference _).bind fun r => .pure ?_
    rintro rest _ ⟨rfl, named⟩
    exact ⟨rfl, .name named⟩
  next object name => exact .pure fun _ => ⟨rfl, .property object name⟩
  next => exact (Yields.note (R := fun _ _ _ => False) _ _).bind fun _ =>
      .pure fun _ _ impossible => impossible.elim

theorem updateTo_yields (target : Expr) (op : BinaryOp) (value : Expr) (sign : Token) :
    Yields (updateTo target op value sign) fun e used _ =>
      used = [] ∧ Updated op sign.line value target e := by
  unfold updateTo
  split
  next old =>
    refine (Yields.reference _).bind fun r' => (assignTo_yields _ _ _).mono ?_
    rintro e used rest ⟨rfl, assigned⟩ _ ⟨rfl, named'⟩
    cases assigned with
    | name named => exact ⟨rfl, .name named named'⟩
  next object name =>
    refine (Yields.copy _).bind fun object' => (assignTo_yields _ _ _).mono ?_
    rintro e used rest ⟨rfl, assigned⟩ _ ⟨rfl, same⟩
    cases assigned with
    | property => exact ⟨rfl, .property name same⟩
  next other notName notProperty =>
    refine (assignTo_yields _ _ _).mono ?_
    rintro e used rest ⟨rfl, assigned⟩
    cases assigned with
    | name => exact absurd rfl (notName _)
    | property => exact absurd rfl (notProperty _ _)

theorem Assigned.derives {ts us : List Token} {sign : Token} {target value e : Expr}
    (h : Assigned value target e) (derived : Derives ts (.level .or target))
    (equals : sign.Mark .equal) (derived' : Derives us (.expression value)) :
    Derives (ts ++ sign :: us) (.expression e) := by
  cases h with
  | name named =>
    obtain ⟨t, rfl, identifier, spelled⟩ := derived.name_of_level
    exact .assignName identifier equals derived' (named.trans spelled)
  | property object name =>
    obtain ⟨os, dot, t, rfl, whole, dots, identifier, rfl⟩ := derived.property_of_level
    simpa using Derives.assignProperty whole dots identifier equals derived'

theorem Updated.derives_compound {ts us : List Token} {sign : Token} {target value e : Expr}
    {op : BinaryOp} (h : Updated op sign.line value target e)
    (derived : Derives ts (.level .or target)) (compound : CompoundSign sign.kind op)
    (derived' : Derives us (.expression value)) : Derives (ts ++ sign :: us) (.expression e) := by
  cases h with
  | name named named' =>
    obtain ⟨t, rfl, identifier, spelled⟩ := derived.name_of_level
    exact .updateName identifier compound derived' (named.trans spelled) (named'.trans spelled)
  | property name same =>
    obtain ⟨os, dot, t, rfl, whole, dots, identifier, rfl⟩ := derived.property_of_level
    simpa using Derives.updateProperty whole dots identifier compound derived' same

theorem Updated.derives_step {ts : List Token} {sign : Token} {target e : Expr} {op : BinaryOp}
    (h : Updated op sign.line (.literal (.number 1)) target e)
    (derived : Derives ts (.level .or target)) (step : StepSign sign.kind op) :
    Derives (ts ++ [sign]) (.expression e) := by
  cases h with
  | name named named' =>
    obtain ⟨t, rfl, identifier, spelled⟩ := derived.name_of_level
    exact .stepName identifier step (named.trans spelled) (named'.trans spelled)
  | property name same =>
    obtain ⟨os, dot, t, rfl, whole, dots, identifier, rfl⟩ := derived.property_of_level
    simpa using Derives.stepProperty whole dots identifier step same

theorem Assigned.withinArity {target value e : Expr} (h : Assigned value target e)
    (arity : target.WithinArity) (arity' : value.WithinArity) : e.WithinArity := by
  cases h with
  | name => exact arity'
  | property => exact ⟨arity, arity'⟩

theorem Updated.withinArity {op : BinaryOp} {line : Nat} {target value e : Expr}
    (h : Updated op line value target e) (arity : target.WithinArity)
    (arity' : value.WithinArity) : e.WithinArity := by
  cases h with
  | name => exact ⟨trivial, arity'⟩
  | property name same =>
    exact ⟨arity, Expr.withinArity_of_anonymous_eq (e := .get _ name)
      (by simpa [Expr.anonymous, Expr.mapIds] using same) arity, arity'⟩

theorem ExpressionsSound.expression_succ {n : Nat} (ih : ExpressionsSound n) :
    Yields (Parser.expression (n + 1)) fun e used _ =>
      Derives used (.expression e) ∧ e.WithinArity := by
  refine (ih.level .or).bind fun target => Yields.take?.bind fun found => ?_
  cases found with
  | none =>
    refine .pure ?_
    rintro rest _ ⟨rfl, -⟩ ts ⟨derived, arity⟩
    exact ⟨by simpa using .plain derived, arity⟩
  | some found =>
    obtain ⟨form, sign⟩ := found
    cases form with
    | plain =>
      refine ih.expression.bind fun value => (assignTo_yields _ _ _).mono ?_
      rintro e _ rest ⟨rfl, h⟩ us ⟨derived', arity'⟩ _ ⟨rfl, meant⟩ ts ⟨derived, arity⟩
      exact ⟨by simpa using h.derives derived (assignForm?_eq meant) derived',
        h.withinArity arity arity'⟩
    | compound op =>
      refine ih.expression.bind fun value => (updateTo_yields _ _ _ _).mono ?_
      rintro e _ rest ⟨rfl, h⟩ us ⟨derived', arity'⟩ _ ⟨rfl, meant⟩ ts ⟨derived, arity⟩
      exact ⟨by simpa using h.derives_compound derived (assignForm?_eq meant) derived',
        h.withinArity arity arity'⟩
    | step op =>
      refine (updateTo_yields _ _ _ _).mono ?_
      rintro e _ rest ⟨rfl, h⟩ _ ⟨rfl, meant⟩ ts ⟨derived, arity⟩
      exact ⟨by simpa using h.derives_step derived (assignForm?_eq meant),
        h.withinArity arity trivial⟩

theorem expressions_sound (n : Nat) : ExpressionsSound n := by
  induction n with
  | zero => exact .zero
  | succ n ih =>
    exact {
      expression := ih.expression_succ
      level := ih.level_succ
      single := ih.unary
      levelTail := ih.levelTail_succ
      unary := ih.unary_succ
      suffixes := ih.suffixes_succ
      arguments := ih.arguments_succ
      operand := ih.operand_succ }

end Parser

end ScopeScript
