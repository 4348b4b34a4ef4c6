import ScopeScript.Proofs.Scope.Occurrence
import ScopeScript.Proofs.Scope.Violations

set_option autoImplicit false

namespace ScopeScript

def Site.IsLocal : Site → Prop
  | .block _ | .call _ => True
  | .receiver _ | .superclass _ => False

namespace Frame

structure Local (frame : Frame) : Prop where
  site : frame.site.IsLocal
  ordinary : ∀ name ∈ frame.names, name ≠ "this" ∧ name ≠ "super"

inductive Derived : List Frame → Prop
  | method (f : FunctionDecl) (r : Reference) (outer : List Frame) :
      Derived (⟨.receiver f, ["this"]⟩ :: ⟨.superclass r, ["super"]⟩ :: outer)
  | inner {frame : Frame} {outer : List Frame} : frame.Local → Derived outer →
      Derived (frame :: outer)

inductive DerivedBody : List Frame → Prop
  | intro {frame : Frame} {outer : List Frame} : frame.Local → Derived outer →
      DerivedBody (frame :: outer)

variable {frames : List Frame}

theorem DerivedBody.derived (h : DerivedBody frames) : Derived frames := by
  cases h with
  | intro inner outer => exact .inner inner outer

theorem DerivedBody.enter (h : DerivedBody frames) {frame : Frame} (inner : frame.Local) :
    DerivedBody (frame :: frames) :=
  .intro inner h.derived

theorem DerivedBody.declare (h : DerivedBody frames) {names : List String}
    (ordinary : ∀ name ∈ names, name ≠ "this" ∧ name ≠ "super") :
    DerivedBody (declare names frames) := by
  cases h with
  | intro inner outer =>
    refine .intro ⟨inner.site, fun name mem => ?_⟩ outer
    exact (List.mem_append.mp mem).elim (ordinary name) (inner.ordinary name)

theorem Derived.split (h : Derived frames) : ∃ inside f r outer,
    frames = inside ++ ⟨.receiver f, ["this"]⟩ :: ⟨.superclass r, ["super"]⟩ :: outer ∧
      (∀ frame ∈ inside, frame.Local) ∧ address? frames "super" = some (inside.length + 1) := by
  induction h with
  | method f r outer => exact ⟨[], f, r, outer, rfl, by simp, by simp [address?_cons]⟩
  | @inner frame outer inner _ ih =>
    obtain ⟨inside, f, r, rest, rfl, locals, found⟩ := ih
    have missing : "super" ∉ frame.names := fun mem => (inner.ordinary _ mem).2 rfl
    refine ⟨frame :: inside, f, r, rest, rfl, List.forall_mem_cons.mpr ⟨inner, locals⟩, ?_⟩
    rw [address?_cons, if_neg missing, found]
    rfl

theorem local_block (body : List Stmt) : Local ⟨.block body, []⟩ := ⟨trivial, by simp⟩

theorem local_ofCall {f : FunctionDecl} (ordinary : ∀ p ∈ f.parameters, p.Ordinary) :
    Local ⟨.call f, f.parameters.map Name.text⟩ := by
  refine ⟨trivial, fun name mem => ?_⟩
  obtain ⟨p, parameter, rfl⟩ := List.mem_map.mp mem
  exact ordinary p parameter

end Frame

theorem FunctionDecl.WellFormed.name_ordinary {f : FunctionDecl} (h : f.WellFormed) :
    f.name.Ordinary := by
  cases f
  exact h.1

theorem FunctionDecl.WellFormed.parameters_ordinary {f : FunctionDecl} (h : f.WellFormed) :
    ∀ p ∈ f.parameters, p.Ordinary := by
  cases f
  exact h.2.1

theorem FunctionDecl.WellFormed.body {f : FunctionDecl} (h : f.WellFormed) :
    Stmt.AllWellFormed f.body := by
  cases f
  exact h.2.2

theorem Stmt.WellFormed.declares_ordinary {s : Stmt} (h : s.WellFormed) :
    ∀ name ∈ s.declares, name ≠ "this" ∧ name ≠ "super" := by
  cases s with
  | varDecl name | classDecl name => exact List.forall_mem_singleton.mpr h.1
  | funDecl f => exact List.forall_mem_singleton.mpr (FunctionDecl.WellFormed.name_ordinary h)
  | _ => simp [Stmt.declares]

-- The walk finds no violation, so each `super` is in a class with a superclass.

open ScopeScript.Frame

mutual

theorem Expr.derived_of_scopes {context : ScopeContext} {frames : List Frame}
    {fresh : Option String} : ∀ (e : Expr) {s : ScopeState}, (e.scopes context s).faults = [] →
    ∀ o ∈ e.occurrences frames fresh, o.use = .super →
      context.owner = .derived ∧ o.frames = frames
  | .literal _, _, _, _, mem, _ => by cases mem
  | .grouping inner, _, clean, o, mem, isSuper | .unary _ _ inner, _, clean, o, mem, isSuper
  | .get inner _, _, clean, o, mem, isSuper => inner.derived_of_scopes clean o mem isSuper
  | .binary _ _ left right, _, clean, o, mem, isSuper
  | .logical _ left right, _, clean, o, mem, isSuper => by
    rcases List.mem_append.mp mem with mem | mem
    · exact left.derived_of_scopes ((right.extends_scopes context _).clean clean) o mem isSuper
    · exact right.derived_of_scopes clean o mem isSuper
  | .set object _ value, _, clean, o, mem, isSuper => by
    rcases List.mem_append.mp mem with mem | mem
    · exact object.derived_of_scopes clean o mem isSuper
    · exact value.derived_of_scopes ((object.extends_scopes context _).clean clean) o mem isSuper
  | .var _, _, _, o, mem, isSuper | .self _, _, _, o, mem, isSuper => by
    cases List.mem_singleton.mp mem
    cases isSuper
  | .assign r value, s, clean, o, mem, isSuper => by
    have before : (value.scopes context s).faults = [] := by simpa [Expr.scopes] using clean
    rcases List.mem_cons.mp mem with rfl | mem
    · cases isSuper
    · exact value.derived_of_scopes before o mem isSuper
  | .call callee _ arguments, _, clean, o, mem, isSuper => by
    rcases List.mem_append.mp mem with mem | mem
    · have before := (Expr.extends_scopesAll context arguments _).clean clean
      exact callee.derived_of_scopes before o mem isSuper
    · exact Expr.derived_of_scopesAll arguments clean o mem isSuper
  | .super r _, s, clean, o, mem, _ => by
    cases List.mem_singleton.mp mem
    unfold Expr.scopes at clean
    cases owner : context.owner with
    | outside | base => simp [owner, ScopeState.note] at clean
    | derived => exact ⟨rfl, rfl⟩

theorem Expr.derived_of_scopesAll {context : ScopeContext} {frames : List Frame}
    {fresh : Option String} : ∀ (es : List Expr) {s : ScopeState},
    (Expr.scopesAll context es s).faults = [] →
    ∀ o ∈ Expr.occurrencesAll frames fresh es, o.use = .super →
      context.owner = .derived ∧ o.frames = frames
  | [], _, _, _, mem, _ => by cases mem
  | e :: rest, _, clean, o, mem, isSuper => by
    rcases List.mem_append.mp mem with mem | mem
    · have before := (Expr.extends_scopesAll context rest _).clean clean
      exact e.derived_of_scopes before o mem isSuper
    · exact Expr.derived_of_scopesAll rest clean o mem isSuper

end

section

variable {context : ScopeContext} {frames : List Frame} {fresh : Option String} {s : ScopeState}

theorem Expr.derived_of_body (inside : context.owner = .derived → DerivedBody frames) (e : Expr)
    (clean : (e.scopes context s).faults = []) :
    ∀ o ∈ e.occurrences frames fresh, o.use = .super → Derived o.frames := by
  intro o mem isSuper
  obtain ⟨owner, same⟩ := e.derived_of_scopes clean o mem isSuper
  exact same ▸ (inside owner).derived

theorem Expr.derived_of_body? (inside : context.owner = .derived → DerivedBody frames)
    (e : Option Expr) (clean : (Expr.scopes? context e s).faults = []) :
    ∀ o ∈ Expr.occurrencesOf frames fresh e, o.use = .super → Derived o.frames := by
  cases e with
  | none => exact fun _ mem => by cases mem
  | some e => exact e.derived_of_body inside clean

end

mutual

theorem Stmt.derived_of_scopes : ∀ (stmt : Stmt) {context : ScopeContext} {frames : List Frame}
    {s : ScopeState}, (context.owner = .derived → DerivedBody frames) → stmt.WellFormed →
    (stmt.scopes context s).faults = [] →
    ∀ o ∈ stmt.occurrences frames, o.use = .super → Derived o.frames
  | .expression e, _, _, _, inside, _, clean | .print e, _, _, _, inside, _, clean =>
    e.derived_of_body inside clean
  | .varDecl name initial, context, _, s, inside, _, clean => by
    have before : (Expr.scopes? context initial (s.declare name)).faults = [] := by
      simpa [Stmt.scopes] using clean
    exact Expr.derived_of_body? inside initial before
  | .block body, _, _, _, inside, formed, clean =>
    Stmt.derived_of_scopesAll body (fun owner => (inside owner).enter (local_block body)) formed
      clean
  | .ifElse condition consequent none, context, _, _, inside, formed, clean => by
    have before := (Stmt.extends_scopes context consequent _).clean clean
    intro o mem
    rcases List.mem_append.mp mem with mem | mem
    · exact condition.derived_of_body inside before o mem
    · exact Stmt.derived_of_scopes consequent inside formed.2.1 clean o mem
  | .ifElse condition consequent (some alternative), context, _, _, inside, formed, clean => by
    have before := (Stmt.extends_scopes context alternative _).clean clean
    have start := (Stmt.extends_scopes context consequent _).clean before
    intro o mem
    rcases List.mem_append.mp mem with mem | mem
    · exact condition.derived_of_body inside start o mem
    rcases List.mem_append.mp mem with mem | mem
    · exact Stmt.derived_of_scopes consequent inside formed.2.1.1 before o mem
    · exact Stmt.derived_of_scopes alternative inside formed.2.2.1 clean o mem
  | .loop condition body step, context, _, _, inside, formed, clean => by
    have before := (Expr.extends_scopes? context step _).clean clean
    have start := (Stmt.extends_scopes context body _).clean before
    intro o mem
    rcases List.mem_append.mp mem with mem | mem
    · exact condition.derived_of_body inside start o mem
    rcases List.mem_append.mp mem with mem | mem
    · exact Stmt.derived_of_scopes body inside formed.2.1.1 before o mem
    · exact Expr.derived_of_body? inside step clean o mem
  | .funDecl f, context, _, _, inside, formed, clean => by
    have ordinary := Stmt.WellFormed.declares_ordinary (s := .funDecl f) formed
    exact FunctionDecl.derived_of_scopes f { context with function := .function }
      (fun owner => ((inside owner).declare ordinary).derived) formed clean
  | .classDecl name above methods, context, frames, s, inside, formed, clean => by
    have clean' : (FunctionDecl.scopesAll { context with owner := .of above } methods
        (s.enterClass name above)).faults = [] := by
      simpa [Stmt.scopes, ScopeState.faults_leaveClass] using clean
    intro o mem isSuper
    rcases List.mem_append.mp mem with mem | mem
    · cases above with
      | none => cases mem
      | some r =>
        cases List.mem_singleton.mp mem
        cases isSuper
    · refine FunctionDecl.derived_of_scopesAll methods (fun owner f => ?_) formed.2.2 clean' o mem
        isSuper
      cases above with
      | none => cases owner
      | some r => exact .method f r _
  | .returning line value, context, _, _, inside, _, clean => by
    have before := (Expr.extends_scopes? context value _).clean clean
    have kept := ScopeState.checkReturn_eq_self before
    simp only [Stmt.scopes, kept] at clean
    exact Expr.derived_of_body? inside value clean
  | .jump _, _, _, _, _, _, _ => fun _ mem => by cases mem

theorem Stmt.derived_of_scopesAll : ∀ (body : List Stmt) {context : ScopeContext}
    {frames : List Frame} {s : ScopeState}, (context.owner = .derived → DerivedBody frames) →
    Stmt.AllWellFormed body → (Stmt.scopesAll context body s).faults = [] →
    ∀ o ∈ Stmt.occurrencesAll frames body, o.use = .super → Derived o.frames
  | [], _, _, _, _, _, _ => fun _ mem => by cases mem
  | first :: rest, context, _, _, inside, formed, clean => by
    have before := (Stmt.extends_scopesAll context rest _).clean clean
    intro o mem
    rcases List.mem_append.mp mem with mem | mem
    · exact Stmt.derived_of_scopes first inside formed.1 before o mem
    · exact Stmt.derived_of_scopesAll rest
        (fun owner => (inside owner).declare formed.1.declares_ordinary) formed.2 clean o mem

theorem FunctionDecl.derived_of_scopes : ∀ (f : FunctionDecl) (context : ScopeContext)
    {frames : List Frame} {s : ScopeState}, (context.owner = .derived → Derived frames) →
    f.WellFormed → (f.scopes context s).faults = [] →
    ∀ o ∈ f.occurrences frames, o.use = .super → Derived o.frames
  | .mk name parameters body, _, _, _, inside, formed, clean =>
    Stmt.derived_of_scopesAll body
      (fun owner => .intro (local_ofCall (f := .mk name parameters body) formed.2.1) (inside owner))
      formed.2.2 clean

theorem FunctionDecl.derived_of_scopesAll : ∀ (fs : List FunctionDecl) {context : ScopeContext}
    {frames : List Frame} {s : ScopeState},
    (context.owner = .derived → ∀ f, Derived (ofMethod f frames)) →
    FunctionDecl.AllWellFormed fs → (FunctionDecl.scopesAll context fs s).faults = [] →
    ∀ o ∈ FunctionDecl.occurrencesAll frames fs, o.use = .super → Derived o.frames
  | [], _, _, _, _, _, _ => fun _ mem => by cases mem
  | f :: rest, context, _, _, inside, formed, clean => by
    have before := (FunctionDecl.extends_scopesAll context rest _).clean clean
    intro o mem
    rcases List.mem_append.mp mem with mem | mem
    · exact FunctionDecl.derived_of_scopes f { context with function := .ofMethod f }
        (fun owner => inside owner f) formed.1 before o mem
    · exact FunctionDecl.derived_of_scopesAll rest inside formed.2 clean o mem

end

theorem derived_of_resolve {body : List Stmt} {resolution : Resolution}
    (resolved : resolve body = .ok resolution) (formed : Stmt.AllWellFormed body) :
    ∀ o ∈ Stmt.occurrencesAll [] body, o.use = .super → Derived o.frames := by
  unfold resolve at resolved
  by_cases clean : (Stmt.scopesAll .topLevel body .initial).faults = []
  · exact Stmt.derived_of_scopesAll body (fun owner => by cases owner) formed clean
  · simp [clean] at resolved

end ScopeScript
