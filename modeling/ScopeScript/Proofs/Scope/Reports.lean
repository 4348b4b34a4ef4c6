import ScopeScript.Proofs.Scope.Rules

set_option autoImplicit false

namespace ScopeScript

namespace ScopeState

-- The scopes around the innermost one.

structure SameOuter (s s' : ScopeState) : Prop where
  tail : s'.scopes.tail = s.scopes.tail
  length : s'.scopes.length = s.scopes.length

namespace SameOuter

variable {s s₁ s₂ : ScopeState}

theorem of_eq (same : s₁.scopes = s.scopes) : s.SameOuter s₁ := ⟨by rw [same], by rw [same]⟩

theorem refl (s : ScopeState) : s.SameOuter s := of_eq rfl

theorem trans (first : s.SameOuter s₁) (second : s₁.SameOuter s₂) : s.SameOuter s₂ :=
  ⟨second.tail.trans first.tail, second.length.trans first.length⟩

theorem mark (s : ScopeState) (name : String) (status : Status) :
    s.SameOuter (s.mark name status) := by
  unfold ScopeState.mark
  cases layers : s.scopes with
  | nil => exact refl s
  | cons scope outer => exact ⟨by simp [layers], by simp [layers]⟩

theorem declare (s : ScopeState) (name : Name) : s.SameOuter (s.declare name) := by
  unfold ScopeState.declare
  split
  · exact refl s
  split
  · exact of_eq rfl
  · exact mark s name.text .declared

theorem define (s : ScopeState) (name : Name) : s.SameOuter ((s.declare name).define name) :=
  (declare s name).trans (mark _ name.text .defined)

theorem enterFunction (s : ScopeState) (parameters : List Name) :
    s.enter.SameOuter (s.enterFunction parameters) := by
  have fold (s : ScopeState) :
      s.SameOuter (parameters.foldl (fun s name => (s.declare name).define name) s) := by
    induction parameters generalizing s with
    | nil => exact refl s
    | cons name rest ih => exact (define s name).trans (ih _)
  exact fold s.enter

theorem leave (inside : s.enter.SameOuter s₁) : s₁.leave.scopes = s.scopes := inside.tail

end SameOuter

theorem scopes_leaveClass {s s' : ScopeState} {name : Name} {above : Option Reference}
    (same : s'.scopes = (s.enterClass name above).scopes) :
    (s'.leaveClass above).scopes = ((s.declare name).define name).scopes := by
  unfold enterClass at same
  cases above with
  | none => exact congrArg List.tail same
  | some r =>
    have outer := congrArg (fun scopes => scopes.tail.tail) same
    refine Eq.trans outer ?_
    change (ScopeState.use _ r).scopes = _
    rw [scopes_use]
    split <;> rfl

end ScopeState

mutual

theorem Stmt.sameOuter_scopes : ∀ (stmt : Stmt) (context : ScopeContext) (s : ScopeState),
    s.SameOuter (stmt.scopes context s)
  | .expression e, context, s | .print e, context, s => .of_eq (e.scopes_scopes context s)
  | .varDecl name initial, context, s => by
    have valued := ScopeState.SameOuter.of_eq (Expr.scopes_scopes? context initial (s.declare name))
    exact ((ScopeState.SameOuter.declare s name).trans valued).trans (.mark _ name.text .defined)
  | .block body, context, s => .of_eq (Stmt.sameOuter_scopesAll body context s.enter).leave
  | .ifElse condition consequent none, context, s =>
    (ScopeState.SameOuter.of_eq (condition.scopes_scopes context s)).trans
      (Stmt.sameOuter_scopes consequent context _)
  | .ifElse condition consequent (some alternative), context, s =>
    ((ScopeState.SameOuter.of_eq (condition.scopes_scopes context s)).trans
      (Stmt.sameOuter_scopes consequent context _)).trans
        (Stmt.sameOuter_scopes alternative context _)
  | .loop condition body step, context, s =>
    ((ScopeState.SameOuter.of_eq (condition.scopes_scopes context s)).trans
      (Stmt.sameOuter_scopes body context _)).trans (.of_eq (Expr.scopes_scopes? context step _))
  | .funDecl f, context, s =>
    (ScopeState.SameOuter.define s f.name).trans (.of_eq (FunctionDecl.scopes_scopes f _ _))
  | .classDecl name above methods, context, s => by
    have inside := FunctionDecl.scopes_scopesAll methods { context with owner := .of above }
      (s.enterClass name above)
    exact (ScopeState.SameOuter.define s name).trans (.of_eq (ScopeState.scopes_leaveClass inside))
  | .returning line value, context, s => by
    have checked := s.scopes_checkReturn context line value.isSome
    exact .of_eq ((Expr.scopes_scopes? context value _).trans checked)
  | .jump _, _, s => .refl s

theorem Stmt.sameOuter_scopesAll : ∀ (body : List Stmt) (context : ScopeContext)
    (s : ScopeState), s.SameOuter (Stmt.scopesAll context body s)
  | [], _, s => .refl s
  | first :: rest, context, s =>
    (Stmt.sameOuter_scopes first context s).trans (Stmt.sameOuter_scopesAll rest context _)

theorem FunctionDecl.scopes_scopes : ∀ (f : FunctionDecl) (context : ScopeContext)
    (s : ScopeState), (f.scopes context s).scopes = s.scopes
  | .mk _ parameters body, context, s =>
    ((ScopeState.SameOuter.enterFunction s parameters).trans
      (Stmt.sameOuter_scopesAll body context _)).leave

theorem FunctionDecl.scopes_scopesAll : ∀ (fs : List FunctionDecl) (context : ScopeContext)
    (s : ScopeState), (FunctionDecl.scopesAll context fs s).scopes = s.scopes
  | [], _, _ => rfl
  | f :: rest, context, s =>
    (FunctionDecl.scopes_scopesAll rest context _).trans (FunctionDecl.scopes_scopes f _ s)

end

-- The innermost scope.

/-- The innermost scope of the walk has the names around a point. The variable whose initial value
is looked for is not defined yet, unless the scope has had its name before. -/
def Knows (around : List Enclosure) (initial : Option String) (scopes : List (Bindings Status)) :
    Prop :=
  match around with
  | [] => scopes = []
  | inner :: _ => inner.isClass = false ∧ ∃ scope outer, scopes = scope :: outer ∧
    ∀ name, scope.get? name = if name ∈ inner.names then some .defined
      else if initial = some name then some .declared else none

theorem Enclosure.names_declare {e : Enclosure} (layered : e.isClass = false) (more : List String) :
    (e.declare more).names = more ++ e.names := by
  cases e with
  | block | function => rfl
  | classBody => cases layered

theorem Enclosure.isClass_declare (e : Enclosure) (more : List String) :
    (e.declare more).isClass = e.isClass := by
  cases e <;> rfl

namespace Knows

variable {s : ScopeState} {around : List Enclosure} {initial : Option String}

theorem mark {name : String} (h : Knows around initial s.scopes)
    (only : ∀ other ∈ initial, other = name) :
    Knows (Enclosure.declareIn [name] around) none (s.mark name .defined).scopes := by
  unfold ScopeState.mark
  cases around with
  | nil =>
    have top : s.scopes = [] := h
    simp [top, Enclosure.declareIn, Knows]
  | cons inner outer =>
    obtain ⟨layered, scope, scopes, layers, names⟩ := h
    rw [layers]
    refine ⟨(inner.isClass_declare _).trans layered, _, scopes, rfl, fun other => ?_⟩
    rw [Bindings.get?_insert, names other, Enclosure.names_declare layered]
    by_cases same : name = other
    · simp [same]
    · have old : initial ≠ some other := fun found => same (only other found).symm
      simp [same, Ne.symm same, old]

theorem declare (h : Knows around none s.scopes) (name : Name) :
    Knows around (some name.text) (s.declare name).scopes := by
  unfold ScopeState.declare
  cases around with
  | nil =>
    have top : s.scopes = [] := h
    simp [top, Knows]
  | cons inner outer =>
    obtain ⟨layered, scope, scopes, layers, names⟩ := h
    rw [layers]
    by_cases again : name.text ∈ inner.names
    · have known : scope.contains name.text = true := by simp [Bindings.contains, names, again]
      simp only [known, if_true, ScopeState.note, layers]
      refine ⟨layered, scope, scopes, rfl, fun other => ?_⟩
      by_cases same : name.text = other
      · simp [names, ← same, again]
      · simp [names, same]
    · have new : scope.contains name.text = false := by simp [Bindings.contains, names, again]
      simp only [new, ScopeState.mark, layers]
      refine ⟨layered, _, scopes, rfl, fun other => ?_⟩
      rw [Bindings.get?_insert, names other]
      by_cases same : name.text = other
      · simp [← same, again]
      · simp [same]

theorem define (h : Knows around none s.scopes) (name : Name) :
    Knows (Enclosure.declareIn [name.text] around) none ((s.declare name).define name).scopes :=
  (h.declare name).mark (by simp)

theorem congr {more more' : List String}
    (h : Knows (Enclosure.declareIn more around) none s.scopes)
    (same : ∀ name, name ∈ more ↔ name ∈ more') :
    Knows (Enclosure.declareIn more' around) none s.scopes := by
  cases around with
  | nil => exact h
  | cons inner outer =>
    obtain ⟨layered, scope, scopes, layers, names⟩ := h
    rw [Enclosure.isClass_declare] at layered
    refine ⟨(inner.isClass_declare _).trans layered, scope, scopes, layers, fun name => ?_⟩
    rw [names name]
    simp [Enclosure.names_declare layered, same name]

theorem enter (outer : List Enclosure) (s : ScopeState) {e : Enclosure}
    (layered : e.isClass = false) (new : e.names = []) : Knows (e :: outer) none s.enter.scopes :=
  ⟨layered, ∅, s.scopes, rfl, by simp [new]⟩

end Knows

-- What the walk notes.

def Notes (ps : List Checkpoint) (s s' : ScopeState) : Prop :=
  ∃ ds, Reported ps ds ∧ s'.faults = s.faults ++ ds

theorem Reported.append {ps qs : List Checkpoint} {ds es : List Diagnostic}
    (first : Reported ps ds) (second : Reported qs es) : Reported (ps ++ qs) (ds ++ es) := by
  induction first with
  | nil => exact second
  | broken rule _ ih => exact .broken rule ih
  | kept none _ ih => exact .kept none ih

theorem Reported.eq_nil_iff {ps : List Checkpoint} {ds : List Diagnostic} (h : Reported ps ds) :
    ds = [] ↔ ∀ p ∈ ps, ∀ fault, ¬p.Breaks fault := by
  induction h with
  | nil => simp
  | broken rule _ _ =>
    constructor
    · intro none
      cases none
    · intro none
      exact absurd rule (none _ List.mem_cons_self _)
  | kept none _ ih => simpa [none] using ih

theorem Reported.unique {ps : List Checkpoint} {ds es : List Diagnostic} (h : Reported ps ds)
    (h' : Reported ps es) : ds = es := by
  induction h generalizing es with
  | nil =>
    cases h'
    rfl
  | broken rule _ ih =>
    cases h' with
    | broken rule' rest => rw [rule.unique rule', ih rest]
    | kept none _ => exact absurd rule (none _)
  | kept none _ ih =>
    cases h' with
    | broken rule' _ => exact absurd rule' (none _)
    | kept _ rest => exact ih rest

namespace Notes

variable {p : Checkpoint} {ps qs : List Checkpoint} {s s₁ s₂ : ScopeState}

theorem nil (same : s₁.faults = s.faults) : Notes [] s s₁ := ⟨[], .nil, by simp [same]⟩

theorem append (first : Notes ps s s₁) (second : Notes qs s₁ s₂) : Notes (ps ++ qs) s s₂ := by
  obtain ⟨ds, reported, noted⟩ := first
  obtain ⟨es, reported', noted'⟩ := second
  exact ⟨ds ++ es, reported.append reported', by rw [noted', noted, List.append_assoc]⟩

theorem cons (first : Notes [p] s s₁) (second : Notes ps s₁ s₂) : Notes (p :: ps) s s₂ :=
  first.append second

theorem congr {s' s₁' : ScopeState} (h : Notes ps s s₁) (same : s'.faults = s.faults)
    (same' : s₁'.faults = s₁.faults) : Notes ps s' s₁' := by
  obtain ⟨ds, reported, noted⟩ := h
  exact ⟨ds, reported, by rw [same, same', noted]⟩

theorem broken {fault : ScopeFault} (rule : p.Breaks fault)
    (noted : s₁.faults = s.faults ++ [.scoping p.place fault]) : Notes [p] s s₁ :=
  ⟨_, .broken rule .nil, noted⟩

theorem kept (none : ∀ fault, ¬p.Breaks fault) (same : s₁.faults = s.faults) : Notes [p] s s₁ :=
  ⟨[], .kept none .nil, by simp [same]⟩

end Notes

section

variable {s : ScopeState} {around : List Enclosure} {initial : Option String}

theorem notes_declare (h : Knows around none s.scopes) (name : Name) :
    Notes [⟨.declares name, around, none⟩] s (s.declare name) := by
  unfold ScopeState.declare
  cases around with
  | nil =>
    have top : s.scopes = [] := h
    rw [top]
    refine .kept (fun fault broken => ?_) rfl
    cases broken
  | cons inner outer =>
    obtain ⟨-, scope, scopes, layers, names⟩ := h
    rw [layers]
    by_cases again : name.text ∈ inner.names
    · have known : scope.contains name.text = true := by simp [Bindings.contains, names, again]
      simp only [known, if_true]
      exact .broken (.redeclared again) rfl
    · have new : scope.contains name.text = false := by simp [Bindings.contains, names, again]
      simp only [new]
      refine .kept (fun fault broken => ?_) (by simp)
      cases broken with
      | redeclared mem => exact again mem

theorem notes_define (h : Knows around none s.scopes) (name : Name) :
    Notes [⟨.declares name, around, none⟩] s ((s.declare name).define name) :=
  (notes_declare h name).congr rfl (by simp)

theorem notes_use (h : Knows around initial s.scopes) (r : Reference) :
    Notes [⟨.reads r, around, initial⟩] s (s.use r) := by
  have pending : s.isPending r.name.text = true ↔
      ∃ inner outer, around = inner :: outer ∧ r.name.text ∉ inner.names ∧
        initial = some r.name.text := by
    unfold ScopeState.isPending
    cases around with
    | nil =>
      have top : s.scopes = [] := h
      simp [top]
    | cons inner outer =>
      obtain ⟨-, scope, scopes, layers, names⟩ := h
      rw [layers]
      by_cases known : r.name.text ∈ inner.names
      · simp [names, known]
      · by_cases own : initial = some r.name.text <;> simp [names, known, own]
  unfold ScopeState.use
  by_cases waits : s.isPending r.name.text = true
  · obtain ⟨inner, outer, rfl, new, rfl⟩ := pending.mp waits
    rw [if_pos waits]
    exact .broken (.readInOwnInitializer new) (by simp [ScopeState.note, Checkpoint.place])
  · rw [if_neg waits]
    refine .kept (fun fault broken => waits (pending.mpr ?_)) (by simp)
    cases broken with
    | readInOwnInitializer new => exact ⟨_, _, rfl, new, rfl⟩

theorem notes_checkReturn (s : ScopeState) (around : List Enclosure) (line : Nat)
    (hasValue : Bool) :
    Notes [⟨.returns line hasValue, around, none⟩] s
      (s.checkReturn (Enclosure.context around) line hasValue) := by
  have rule := @Checkpoint.breaks_returns_iff around none
  unfold ScopeState.checkReturn
  cases inside : (Enclosure.context around).function with
  | outside => exact .broken (rule.mpr (by rw [inside])) rfl
  | function | method =>
    exact .kept (fun fault broken => by simpa [inside] using rule.mp broken) rfl
  | initializer =>
    cases hasValue with
    | true => exact .broken (rule.mpr (by rw [inside]; exact ⟨rfl, rfl⟩)) rfl
    | false => exact .kept (fun fault broken => by simpa [inside] using rule.mp broken) rfl

end

mutual

theorem Expr.notes_scopes {around : List Enclosure} {initial : Option String} :
    ∀ (e : Expr) {s : ScopeState}, Knows around initial s.scopes →
      Notes (e.checkpoints around initial) s (e.scopes (Enclosure.context around) s)
  | .literal _, _, _ => .nil rfl
  | .grouping inner, _, h | .unary _ _ inner, _, h | .get inner _, _, h =>
    Expr.notes_scopes inner h
  | .assign r value, _, h => (Expr.notes_scopes value h).congr rfl (by simp [Expr.scopes])
  | .binary _ _ left right, s, h | .logical _ left right, s, h =>
    (Expr.notes_scopes left h).append
      (Expr.notes_scopes right ((left.scopes_scopes _ s).symm ▸ h))
  | .set object _ value, s, h =>
    (Expr.notes_scopes value h).append
      (Expr.notes_scopes object ((value.scopes_scopes _ s).symm ▸ h))
  | .call callee _ arguments, s, h =>
    (Expr.notes_scopes callee h).append
      (Expr.notes_scopesAll arguments ((callee.scopes_scopes _ s).symm ▸ h))
  | .var r, _, h => notes_use h r
  | .self r, s, _ => by
    have rule := @Checkpoint.breaks_self_iff around initial
    unfold Expr.scopes
    cases inside : (Enclosure.context around).owner with
    | outside => exact .broken (rule.mpr ⟨inside, rfl⟩) rfl
    | base | derived =>
      exact .kept (fun fault broken => by simpa [inside] using rule.mp broken) (by simp)
  | .super r _, s, _ => by
    have rule := @Checkpoint.breaks_super_iff around initial
    unfold Expr.scopes
    cases inside : (Enclosure.context around).owner with
    | outside | base => exact .broken (rule.mpr (by rw [inside])) rfl
    | derived => exact .kept (fun fault broken => by simpa [inside] using rule.mp broken) (by simp)

theorem Expr.notes_scopesAll {around : List Enclosure} {initial : Option String} :
    ∀ (es : List Expr) {s : ScopeState}, Knows around initial s.scopes →
      Notes (Expr.checkpointsAll around initial es) s
        (Expr.scopesAll (Enclosure.context around) es s)
  | [], _, _ => .nil rfl
  | e :: rest, s, h =>
    (Expr.notes_scopes e h).append
      (Expr.notes_scopesAll rest ((e.scopes_scopes _ s).symm ▸ h))

end

theorem Expr.notes_scopes? {around : List Enclosure} {initial : Option String} (e : Option Expr)
    {s : ScopeState} (h : Knows around initial s.scopes) :
    Notes (Expr.checkpointsOf around initial e) s
      (Expr.scopes? (Enclosure.context around) e s) := by
  cases e with
  | none => exact .nil rfl
  | some e => exact e.notes_scopes h

theorem notes_enterClass {around : List Enclosure} {s : ScopeState}
    (h : Knows around none s.scopes) (name : Name) (above : Option Reference) :
    Notes (classCheckpoints around name above) s (s.enterClass name above) := by
  have declared := notes_define h name
  have known := h.define name
  unfold ScopeState.enterClass
  cases above with
  | none => exact declared.congr rfl (by simp [ScopeState.enter])
  | some r =>
    refine declared.cons ?_
    have rule := @Checkpoint.breaks_inherits_iff around none
    simp only
    split
    next itself =>
      have noted : Notes [⟨.inherits name r, around, none⟩] ((s.declare name).define name)
          (((s.declare name).define name).note r.name .inheritsFromItself) :=
        .broken (rule.mpr ⟨itself, rfl⟩) rfl
      refine noted.cons ((notes_use ?_ r).congr rfl (by simp [ScopeState.enter]))
      exact known
    next other =>
      have kept : Notes [⟨.inherits name r, around, none⟩] ((s.declare name).define name)
          ((s.declare name).define name) :=
        .kept (fun fault broken => other (rule.mp broken).1) rfl
      exact kept.cons ((notes_use known r).congr rfl (by simp [ScopeState.enter]))

theorem notes_enterFunction (s : ScopeState) (outer : List Enclosure) (kind : FunctionKind)
    (f : FunctionDecl) :
    Notes (f.parameterCheckpoints outer kind [] f.parameters) s (s.enterFunction f.parameters) ∧
      Knows (.function kind f (f.parameters.map Name.text) :: outer) none
        (s.enterFunction f.parameters).scopes := by
  -- By induction on the parameters that are left, with the names of those before.
  have fold (parameters : List Name) : ∀ (names : List String) (s : ScopeState),
      Knows (.function kind f names :: outer) none s.scopes →
      Notes (f.parameterCheckpoints outer kind names parameters) s
          (parameters.foldl (fun s name => (s.declare name).define name) s) ∧
        Knows (.function kind f (names ++ parameters.map Name.text) :: outer) none
          (parameters.foldl (fun s name => (s.declare name).define name) s).scopes := by
    induction parameters with
    | nil =>
      intro names s h
      exact ⟨.nil rfl, by simpa using h⟩
    | cons p rest ih =>
      intro names s h
      have known : Knows (.function kind f (names ++ [p.text]) :: outer) none
          ((s.declare p).define p).scopes := by
        obtain ⟨-, scope, scopes, layers, found⟩ := h.define p
        refine ⟨rfl, scope, scopes, layers, fun name => ?_⟩
        rw [found name]
        simp [Enclosure.declare, Enclosure.names, or_comm]
      obtain ⟨noted, after⟩ := ih (names ++ [p.text]) _ known
      exact ⟨(notes_define h p).cons noted, by simpa using after⟩
  obtain ⟨noted, after⟩ := fold f.parameters [] s.enter (.enter outer s rfl rfl)
  exact ⟨noted.congr rfl rfl, after⟩

theorem Enclosure.declareIn_nil (around : List Enclosure) : declareIn [] around = around := by
  cases around with
  | nil => rfl
  | cons inner outer => cases inner <;> rfl

theorem Enclosure.declareIn_declareIn (xs ys : List String) (around : List Enclosure) :
    declareIn xs (declareIn ys around) = declareIn (xs ++ ys) around := by
  cases around with
  | nil => rfl
  | cons inner outer => cases inner <;> simp [declareIn, declare]

structure Surveyed (around : List Enclosure) (introduced : List String) (ps : List Checkpoint)
    (s s' : ScopeState) : Prop where
  knows : Knows (Enclosure.declareIn introduced around) none s'.scopes
  notes : Notes ps s s'

theorem Surveyed.of_eq {around : List Enclosure} {ps : List Checkpoint} {s s' : ScopeState}
    (h : Knows around none s.scopes) (same : s'.scopes = s.scopes) (notes : Notes ps s s') :
    Surveyed around [] ps s s' :=
  ⟨by rw [Enclosure.declareIn_nil, same]; exact h, notes⟩

mutual

theorem Stmt.surveyed : ∀ (stmt : Stmt) {around : List Enclosure} {s : ScopeState},
    Knows around none s.scopes →
      Surveyed around stmt.introduced (stmt.checkpoints around) s
        (stmt.scopes (Enclosure.context around) s)
  | .expression e, _, s, h | .print e, _, s, h =>
    .of_eq h (e.scopes_scopes _ s) (e.notes_scopes h)
  | .varDecl name initial, around, s, h => by
    -- The initial value is walked between the two steps, with the name declared but not defined.
    have declared := h.declare name
    have valued : Knows around (some name.text)
        (Expr.scopes? (Enclosure.context around) initial (s.declare name)).scopes := by
      rw [Expr.scopes_scopes?]
      exact declared
    refine ⟨valued.mark (by simp), ?_⟩
    exact (notes_declare h name).cons
      ((Expr.notes_scopes? initial declared).congr rfl (by simp [Stmt.scopes]))
  | .block body, around, s, h => by
    have inside := Stmt.surveyedAll body (Knows.enter around s (e := .block []) rfl rfl)
    exact .of_eq h (Stmt.sameOuter_scopesAll body _ s.enter).leave (inside.notes.congr rfl rfl)
  | .ifElse condition consequent none, around, s, h => by
    have tested := (condition.scopes_scopes (Enclosure.context around) s).symm ▸ h
    have first := Stmt.surveyed consequent tested
    exact ⟨first.knows, (condition.notes_scopes h).append first.notes⟩
  | .ifElse condition consequent (some alternative), around, s, h => by
    have tested := (condition.scopes_scopes (Enclosure.context around) s).symm ▸ h
    have first := Stmt.surveyed consequent tested
    -- A branch that declares something declares it in the scope around, for the other one too.
    have second := Stmt.surveyed alternative first.knows
    rw [Enclosure.context_declareIn] at second
    refine ⟨?_, (condition.notes_scopes h).append (first.notes.append second.notes)⟩
    have both := second.knows
    rw [Enclosure.declareIn_declareIn] at both
    exact both.congr (by simp [Stmt.introduced, or_comm])
  | .loop condition body step, around, s, h => by
    have tested := (condition.scopes_scopes (Enclosure.context around) s).symm ▸ h
    have first := Stmt.surveyed body tested
    have second := Expr.notes_scopes? step first.knows
    rw [Enclosure.context_declareIn] at second
    refine ⟨?_, (condition.notes_scopes h).append (first.notes.append second)⟩
    rw [Stmt.scopes, Expr.scopes_scopes?]
    exact first.knows
  | .funDecl f, around, s, h => by
    have inside := FunctionDecl.notes_scopes f (Enclosure.declareIn [f.name.text] around) .function
      ((s.declare f.name).define f.name)
    refine ⟨?_, (notes_define h f.name).cons ?_⟩
    · rw [Stmt.scopes, FunctionDecl.scopes_scopes]
      exact h.define f.name
    · rw [Enclosure.context, Enclosure.context_declareIn] at inside
      exact inside
  | .classDecl name above methods, around, s, h => by
    have inside := FunctionDecl.notes_scopesAll methods
      (.classBody name above :: Enclosure.declareIn [name.text] around) (s.enterClass name above)
    rw [Enclosure.context, Enclosure.context_declareIn] at inside
    refine ⟨?_, (notes_enterClass h name above).append (inside.congr rfl ?_)⟩
    · rw [Stmt.scopes, ScopeState.scopes_leaveClass (FunctionDecl.scopes_scopesAll methods _ _)]
      exact h.define name
    · rw [Stmt.scopes, ScopeState.faults_leaveClass]
  | .returning line value, around, s, h => by
    have checked := s.scopes_checkReturn (Enclosure.context around) line value.isSome
    have same := (Expr.scopes_scopes? (Enclosure.context around) value _).trans checked
    exact .of_eq h same ((notes_checkReturn s around line value.isSome).cons
      (Expr.notes_scopes? value (checked.symm ▸ h)))
  | .jump _, _, _, h => .of_eq h rfl (.nil rfl)

theorem Stmt.surveyedAll : ∀ (body : List Stmt) {around : List Enclosure} {s : ScopeState},
    Knows around none s.scopes →
      Surveyed around (Stmt.introducedAll body) (Stmt.checkpointsAll around body) s
        (Stmt.scopesAll (Enclosure.context around) body s)
  | [], _, _, h => .of_eq h rfl (.nil rfl)
  | first :: rest, around, s, h => by
    have head := Stmt.surveyed first h
    have tail := Stmt.surveyedAll rest head.knows
    rw [Enclosure.context_declareIn] at tail
    refine ⟨?_, head.notes.append tail.notes⟩
    have both := tail.knows
    rw [Enclosure.declareIn_declareIn] at both
    exact both.congr (by simp [Stmt.introducedAll, or_comm])

theorem FunctionDecl.notes_scopes : ∀ (f : FunctionDecl) (outer : List Enclosure)
    (kind : FunctionKind) (s : ScopeState),
      Notes (f.checkpoints outer kind) s
        (f.scopes (Enclosure.context (.function kind f [] :: outer)) s)
  | .mk name parameters body, outer, kind, s => by
    obtain ⟨entered, known⟩ := notes_enterFunction s outer kind (.mk name parameters body)
    have inside := Stmt.surveyedAll body known
    -- The names of its scope do not show in the context of a function.
    have same : Enclosure.context (.function kind (.mk name parameters body) [] :: outer) =
        Enclosure.context
          (.function kind (.mk name parameters body) (parameters.map Name.text) :: outer) := by
      cases kind <;> rfl
    rw [same]
    exact (entered.append inside.notes).congr rfl rfl

theorem FunctionDecl.notes_scopesAll : ∀ (fs : List FunctionDecl) (outer : List Enclosure)
    (s : ScopeState),
      Notes (FunctionDecl.checkpointsAll outer fs) s
        (FunctionDecl.scopesAll (Enclosure.context outer) fs s)
  | [], _, _ => .nil rfl
  | f :: rest, outer, s =>
    (FunctionDecl.notes_scopes f outer .method s).append (FunctionDecl.notes_scopesAll rest outer _)

end

theorem notes_program (program : List Stmt) :
    Reported (Stmt.checkpointsAll [] program)
      (Stmt.scopesAll .topLevel program .initial).faults := by
  have outermost : Knows [] none ScopeState.initial.scopes := rfl
  obtain ⟨ds, reported, noted⟩ := (Stmt.surveyedAll program outermost).notes
  have same : (Stmt.scopesAll .topLevel program .initial).faults = ds := noted
  rwa [same]

/-- A program is resolved if and only if it breaks no rule. Otherwise there is one diagnostic for
each checkpoint that breaks one, in the order of the walk. A statement leaves the scopes around it
as they were, and what stands behind it is looked at in the same function and class, whatever was
reported before. -/
theorem resolve_reports (program : List Stmt) :
    ((∃ table, resolve program = .ok table) ↔
      ∀ p ∈ Stmt.checkpointsAll [] program, ∀ fault, ¬p.Breaks fault) ∧
    (∀ faults, resolve program = .error faults ↔
      Reported (Stmt.checkpointsAll [] program) faults ∧ faults ≠ []) ∧
    (∀ (p : Checkpoint) (fault fault' : ScopeFault),
      p.Breaks fault → p.Breaks fault' → fault = fault') ∧
    (∀ (stmt : Stmt) (context : ScopeContext) (s : ScopeState),
      s.SameOuter (stmt.scopes context s)) ∧
    (∀ (f : FunctionDecl) (context : ScopeContext) (s : ScopeState),
      (f.scopes context s).scopes = s.scopes) ∧
    (∀ (e : Expr) (context : ScopeContext) (s : ScopeState),
      (e.scopes context s).scopes = s.scopes) ∧
    ∀ (around : List Enclosure) (s : ScopeState), Knows around none s.scopes →
      ∀ (stmt : Stmt) (rest : List Stmt),
        let context := Enclosure.context around
        let behind := Enclosure.declareIn stmt.introduced around
        Notes (stmt.checkpoints around) s (stmt.scopes context s) ∧
          Knows behind none (stmt.scopes context s).scopes ∧
          Notes (Stmt.checkpointsAll behind rest) (stmt.scopes context s)
            (Stmt.scopesAll context (stmt :: rest) s) := by
  have reported := notes_program program
  have outcome : resolve program =
      if (Stmt.scopesAll .topLevel program .initial).faults.isEmpty then
        .ok (Stmt.scopesAll .topLevel program .initial).resolution
      else .error (Stmt.scopesAll .topLevel program .initial).faults := rfl
  refine ⟨?_, fun faults => ?_, fun _ _ _ h h' => h.unique h', Stmt.sameOuter_scopes,
    FunctionDecl.scopes_scopes, fun e context s => e.scopes_scopes context s,
    fun around s h stmt rest => ?_⟩
  · rw [← reported.eq_nil_iff, outcome]
    split
    next none => simpa using none
    next some => simpa using some
  · rw [outcome]
    constructor
    · intro failed
      split at failed
      next => cases failed
      next some =>
        cases failed
        exact ⟨reported, by simpa using some⟩
    · rintro ⟨reported', some⟩
      rw [reported.unique reported', if_neg (by simpa using some)]
  · have first := Stmt.surveyed stmt h
    have others := Stmt.surveyedAll rest first.knows
    rw [Enclosure.context_declareIn] at others
    exact ⟨first.notes, first.knows, others.notes⟩

-- Two methods of a class, the first with a local class that breaks rules of its own.
def brokenRules : List Stmt :=
  [.classDecl ⟨"A", 1⟩ none
    [.mk ⟨"init", 2⟩ []
      [.classDecl ⟨"B", 3⟩ (some ⟨0, ⟨"B", 3⟩⟩)
        [.mk ⟨"init", 4⟩ [⟨"a", 4⟩, ⟨"a", 4⟩]
          [.returning 5 (some (.super ⟨1, ⟨"super", 5⟩⟩ ⟨"x", 5⟩))]],
      .expression (.super ⟨2, ⟨"super", 6⟩⟩ ⟨"x", 6⟩),
      .returning 7 (some (.self ⟨3, ⟨"this", 7⟩⟩))]],
  .block [.varDecl ⟨"b", 8⟩ (some (.var ⟨4, ⟨"b", 8⟩⟩)),
    .varDecl ⟨"b", 9⟩ (some (.var ⟨5, ⟨"b", 9⟩⟩))],
  .returning 10 (some (.self ⟨6, ⟨"this", 10⟩⟩))]

theorem resolve_reports_nested :
    (Reported (Stmt.checkpointsAll [] brokenRules)
      [.scoping ⟨3, some "B"⟩ .inheritsFromItself, .scoping ⟨4, some "a"⟩ .redeclared,
        .scoping ⟨5, some "return"⟩ .returnValueFromInitializer,
        .scoping ⟨6, some "super"⟩ .superWithoutSuperclass,
        .scoping ⟨7, some "return"⟩ .returnValueFromInitializer,
        .scoping ⟨8, some "b"⟩ .readInOwnInitializer, .scoping ⟨9, some "b"⟩ .redeclared,
        .scoping ⟨10, some "return"⟩ .returnAtTopLevel,
        .scoping ⟨10, some "this"⟩ .thisOutsideClass]) ∧
      Knows [.block ["b"]] none
        ((Stmt.varDecl ⟨"b", 8⟩ (some (.var ⟨4, ⟨"b", 8⟩⟩))).scopes .topLevel
          ScopeState.initial.enter).scopes := by
  obtain ⟨-, reports, -, -, -, -, behind⟩ := resolve_reports brokenRules
  have inside : Knows [.block []] none ScopeState.initial.enter.scopes := .enter [] _ rfl rfl
  exact ⟨((reports _).mp rfl).1, (behind _ _ inside _ []).2.1⟩

end ScopeScript
