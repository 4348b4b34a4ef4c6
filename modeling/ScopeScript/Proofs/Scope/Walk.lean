import Mathlib.Data.List.Forall2
import ScopeScript.Proofs.Scope.Addresses

set_option autoImplicit false

namespace ScopeScript

mutual

def Expr.references : Expr → List Reference
  | .literal _ => []
  | .grouping inner | .unary _ _ inner | .get inner _ => inner.references
  | .binary _ _ left right | .logical _ left right | .set left _ right =>
    left.references ++ right.references
  | .var r | .self r | .super r _ => [r]
  | .assign r value => r :: value.references
  | .call callee _ arguments => callee.references ++ Expr.referencesAll arguments

def Expr.referencesAll : List Expr → List Reference
  | [] => []
  | e :: rest => e.references ++ Expr.referencesAll rest

end

mutual

theorem Expr.map_id_references : ∀ e : Expr, e.references.map Reference.id = e.ids
  | .literal _ | .var _ | .self _ | .super .. => rfl
  | .grouping inner | .unary _ _ inner | .get inner _ => Expr.map_id_references inner
  | .binary _ _ left right | .logical _ left right | .set left _ right => by
    simp [Expr.references, Expr.ids, Expr.map_id_references left, Expr.map_id_references right]
  | .assign _ value => by simp [Expr.references, Expr.ids, Expr.map_id_references value]
  | .call callee _ arguments => by
    simp [Expr.references, Expr.ids, Expr.map_id_references callee,
      Expr.map_id_referencesAll arguments]

theorem Expr.map_id_referencesAll :
    ∀ es : List Expr, (Expr.referencesAll es).map Reference.id = Expr.idsAll es
  | [] => rfl
  | e :: rest => by
    simp [Expr.referencesAll, Expr.idsAll, Expr.map_id_references e, Expr.map_id_referencesAll rest]

end

/-- The names that a statement adds to the scope around it, also from a branch or the body of a loop
that is a declaration itself. -/
def Stmt.introduced : Stmt → List String
  | .varDecl name _ | .classDecl name .. => [name.text]
  | .funDecl f => [f.name.text]
  | .ifElse _ consequent none => consequent.introduced
  | .ifElse _ consequent (some alternative) => consequent.introduced ++ alternative.introduced
  | .loop _ body _ => body.introduced
  | .expression _ | .print _ | .block _ | .returning .. | .jump _ => []

def Stmt.introducedAll (body : List Stmt) : List String :=
  body.flatMap Stmt.introduced

-- The scopes of the walk, as far as names go.

def Names (scopes : List (Bindings Status)) (frames : List Frame) : Prop :=
  List.Forall₂ (fun scope frame => ∀ name, scope.contains name = decide (name ∈ frame.names))
    scopes frames

theorem Bindings.contains_insert {α : Type} (b : Bindings α) (name other : String) (value : α) :
    (b.insert name value).contains other = (decide (other = name) || b.contains other) := by
  unfold Bindings.contains
  rw [Bindings.get?_insert]
  by_cases same : name = other
  · simp [same]
  · simp [same, Ne.symm same]

theorem Frame.declare_declare (xs ys : List String) (frames : List Frame) :
    declare xs (declare ys frames) = declare (xs ++ ys) frames := by
  cases frames <;> simp [declare]

namespace Names

variable {s : ScopeState} {frames : List Frame}

theorem distance?_eq (h : Names s.scopes frames) (name : String) :
    s.distance? name = Frame.address? frames name := by
  unfold ScopeState.distance?
  generalize s.scopes = scopes at h
  induction h with
  | nil => rfl
  | cons same outer ih => rw [List.findIdx?_cons, same, ih, Frame.address?_cons]; simp

theorem congr {xs ys : List String} (h : Names s.scopes (Frame.declare xs frames))
    (same : ∀ name, name ∈ xs ↔ name ∈ ys) : Names s.scopes (Frame.declare ys frames) := by
  cases frames with
  | nil => exact h
  | cons frame outer =>
    generalize s.scopes = scopes at h
    cases h with
    | cons inner outer => exact .cons (fun name => by simp [inner name, same]) outer

theorem enter (h : Names s.scopes frames) (site : Site) :
    Names s.enter.scopes (⟨site, []⟩ :: frames) :=
  .cons (fun name => by simp [Bindings.contains]) h

theorem leave {frame : Frame} (h : Names s.scopes (frame :: frames)) :
    Names s.leave.scopes frames := by
  unfold ScopeState.leave
  generalize s.scopes = scopes at h
  cases h with
  | cons inner outer => exact outer

theorem mark (h : Names s.scopes frames) (name : String) (status : Status) :
    Names (s.mark name status).scopes (Frame.declare [name] frames) := by
  unfold ScopeState.mark
  cases layers : s.scopes with
  | nil =>
    rw [layers] at h
    cases h
    simp [layers, Frame.declare, Names]
  | cons scope scopes =>
    rw [layers] at h
    cases h with
    | cons inner outer =>
      exact .cons (fun other => by simp [Bindings.contains_insert, inner other]) outer

-- A name that is declared again is a violation, but it is in the scope all the same.
theorem declare (h : Names s.scopes frames) (name : Name) :
    Names (s.declare name).scopes (Frame.declare [name.text] frames) := by
  unfold ScopeState.declare
  cases layers : s.scopes with
  | nil =>
    rw [layers] at h
    cases h
    simp [layers, Frame.declare, Names]
  | cons scope scopes =>
    by_cases again : scope.contains name.text
    · simp only [again, if_true, ScopeState.note]
      rw [layers] at h ⊢
      cases h with
      | cons inner outer =>
        have inside := (inner name.text).symm.trans again
        simp only [decide_eq_true_eq] at inside
        exact .cons (fun other => by by_cases same : other = name.text <;> simp_all) outer
    · simp only [again]
      exact h.mark name.text .declared

theorem define (h : Names s.scopes frames) (name : Name) :
    Names ((s.declare name).define name).scopes (Frame.declare [name.text] frames) := by
  have twice := (h.declare name).mark name.text .defined
  rw [Frame.declare_declare] at twice
  exact twice.congr (by simp)

theorem enterFunction (h : Names s.scopes frames) (f : FunctionDecl) :
    Names (s.enterFunction f.parameters).scopes (Frame.ofCall f frames) := by
  have fold (parameters : List Name) : ∀ (s : ScopeState) (frames : List Frame),
      Names s.scopes frames →
      Names (parameters.foldl (fun s name => (s.declare name).define name) s).scopes
        (Frame.declare (parameters.map Name.text) frames) := by
    induction parameters with
    | nil => simp
    | cons name rest ih =>
      intro s frames h
      have whole := ih _ _ (h.define name)
      rw [Frame.declare_declare] at whole
      exact whole.congr (by simp [or_comm])
  have whole := fold f.parameters s.enter _ (h.enter (.call f))
  rw [Frame.declare, List.append_nil] at whole
  exact whole

end Names

theorem ScopeState.scopes_use (s : ScopeState) (r : Reference) : (s.use r).scopes = s.scopes := by
  unfold use
  split <;> simp [note]

-- Violations do not matter to what is entered.
theorem ScopeState.resolution_note_resolve (s : ScopeState) (name : Name) (fault : ScopeFault)
    (r : Reference) : ((s.note name fault).resolve r).resolution = (s.resolve r).resolution := by
  unfold resolve
  simp only [distance?, note]
  split <;> rfl

theorem ScopeState.resolution_use (s : ScopeState) (r : Reference) :
    (s.use r).resolution = (s.resolve r).resolution := by
  unfold use
  split
  · exact s.resolution_note_resolve _ _ r
  · rfl

theorem ScopeState.scopes_checkReturn (s : ScopeState) (context : ScopeContext) (line : Nat)
    (hasValue : Bool) : (s.checkReturn context line hasValue).scopes = s.scopes := by
  unfold checkReturn
  split
  · rfl
  · split <;> rfl
  all_goals rfl

theorem ScopeState.resolution_checkReturn (s : ScopeState) (context : ScopeContext) (line : Nat)
    (hasValue : Bool) : (s.checkReturn context line hasValue).resolution = s.resolution := by
  unfold checkReturn
  split
  · rfl
  · split <;> rfl
  all_goals rfl

mutual

theorem Expr.scopes_scopes (context : ScopeContext) :
    ∀ (e : Expr) (s : ScopeState), (e.scopes context s).scopes = s.scopes
  | .literal _, _ => rfl
  | .grouping inner, s | .unary _ _ inner, s | .get inner _, s => inner.scopes_scopes context s
  | .binary _ _ left right, s | .logical _ left right, s =>
    (right.scopes_scopes context _).trans (left.scopes_scopes context s)
  | .set object _ value, s =>
    (object.scopes_scopes context _).trans (value.scopes_scopes context s)
  | .var r, s => s.scopes_use r
  | .assign r value, s => (ScopeState.scopes_resolve _ r).trans (value.scopes_scopes context s)
  | .call callee _ arguments, s =>
    (Expr.scopes_scopesAll context arguments _).trans (callee.scopes_scopes context s)
  | .self r, s => by
    unfold Expr.scopes
    cases context.owner with
    | outside => rfl
    | base | derived => exact s.scopes_resolve r
  | .super r _, s => by
    unfold Expr.scopes
    cases context.owner with
    | outside | base => rfl
    | derived => exact s.scopes_resolve r

theorem Expr.scopes_scopesAll (context : ScopeContext) :
    ∀ (es : List Expr) (s : ScopeState), (Expr.scopesAll context es s).scopes = s.scopes
  | [], _ => rfl
  | e :: rest, s =>
    (Expr.scopes_scopesAll context rest _).trans (e.scopes_scopes context s)

end

theorem Expr.scopes_scopes? (context : ScopeContext) (e : Option Expr) (s : ScopeState) :
    (Expr.scopes? context e s).scopes = s.scopes := by
  cases e with
  | none => rfl
  | some e => exact e.scopes_scopes context s

theorem Names.enterClass {s : ScopeState} {frames : List Frame} (h : Names s.scopes frames)
    (name : Name) (above : Option Reference) (f : FunctionDecl) :
    Names (s.enterClass name above).scopes
      (Frame.ofMethod f (Frame.ofClass name above frames)) := by
  unfold ScopeState.enterClass
  have named := h.define name
  cases above with
  | none => exact (named.enter (.receiver f)).mark "this" .defined
  | some r =>
    -- A class that inherits from itself is a violation, which changes no scope.
    have derived (noted : ScopeState)
        (same : noted.scopes = ((s.declare name).define name).scopes) :
        Names (((noted.use r).enter.mark "super" .defined).enter.mark "this" .defined).scopes
          (Frame.ofMethod f (Frame.ofClass name (some r) frames)) := by
      have used : Names (noted.use r).scopes (Frame.declare [name.text] frames) := by
        rw [noted.scopes_use, same]
        exact named
      have outer := (used.enter (.superclass r)).mark "super" .defined
      exact (outer.enter (.receiver f)).mark "this" .defined
    simp only
    split
    · exact derived _ rfl
    · exact derived _ rfl

mutual

theorem Stmt.names_scopes : ∀ (stmt : Stmt) (context : ScopeContext) {frames : List Frame}
    {s : ScopeState}, Names s.scopes frames →
      Names (stmt.scopes context s).scopes (Frame.declare stmt.introduced frames)
  | .expression e, context, frames, s, h | .print e, context, frames, s, h => by
    rw [Stmt.introduced, Frame.declare_nil, Stmt.scopes, e.scopes_scopes context s]
    exact h
  | .varDecl name initial, context, frames, s, h => by
    have declared : Names (Expr.scopes? context initial (s.declare name)).scopes
        (Frame.declare [name.text] frames) := by
      rw [Expr.scopes_scopes?]
      exact h.declare name
    have twice := declared.mark name.text .defined
    rw [Frame.declare_declare] at twice
    exact twice.congr (by simp [Stmt.introduced])
  | .block body, context, frames, s, h => by
    rw [Stmt.introduced, Frame.declare_nil]
    exact (Stmt.names_scopesAll body context (h.enter (.block body))).leave
  | .ifElse condition consequent none, context, frames, s, h => by
    have tested := (condition.scopes_scopes context s).symm ▸ h
    exact Stmt.names_scopes consequent context tested
  | .ifElse condition consequent (some alternative), context, frames, s, h => by
    have tested := (condition.scopes_scopes context s).symm ▸ h
    have both := Stmt.names_scopes alternative context
      (Stmt.names_scopes consequent context tested)
    rw [Frame.declare_declare] at both
    exact both.congr (by simp [Stmt.introduced, or_comm])
  | .loop condition body step, context, frames, s, h => by
    have tested := (condition.scopes_scopes context s).symm ▸ h
    rw [Stmt.scopes, Expr.scopes_scopes?]
    exact Stmt.names_scopes body context tested
  | .funDecl f, context, frames, s, h =>
    FunctionDecl.names_scopes f _ (h.define f.name)
  | .classDecl name above methods, context, frames, s, h => by
    have entered := h.enterClass name above (.mk name [] [])
    have walked := FunctionDecl.names_scopesAll methods { context with owner := .of above } entered
    cases above with
    | none => exact walked.leave
    | some r => exact walked.leave.leave
  | .returning line value, context, frames, s, h => by
    rw [Stmt.introduced, Frame.declare_nil, Stmt.scopes, Expr.scopes_scopes?,
      ScopeState.scopes_checkReturn]
    exact h
  | .jump _, _, frames, _, h => by
    rw [Stmt.introduced, Frame.declare_nil]
    exact h

theorem Stmt.names_scopesAll : ∀ (body : List Stmt) (context : ScopeContext) {frames : List Frame}
    {s : ScopeState}, Names s.scopes frames →
      Names (Stmt.scopesAll context body s).scopes (Frame.declare (Stmt.introducedAll body) frames)
  | [], _, frames, _, h => by
    rw [Stmt.introducedAll, List.flatMap_nil, Frame.declare_nil]
    exact h
  | first :: rest, context, frames, s, h => by
    have both := Stmt.names_scopesAll rest context (Stmt.names_scopes first context h)
    rw [Frame.declare_declare] at both
    exact both.congr (by simp [Stmt.introducedAll, or_comm])

theorem FunctionDecl.names_scopes : ∀ (f : FunctionDecl) (context : ScopeContext)
    {frames : List Frame} {s : ScopeState}, Names s.scopes frames →
      Names (f.scopes context s).scopes frames
  | .mk name parameters body, context, _, _, h =>
    (Stmt.names_scopesAll body context (h.enterFunction (.mk name parameters body))).leave

theorem FunctionDecl.names_scopesAll : ∀ (fs : List FunctionDecl) (context : ScopeContext)
    {frames : List Frame} {s : ScopeState}, Names s.scopes frames →
      Names (FunctionDecl.scopesAll context fs s).scopes frames
  | [], _, _, _, h => h
  | f :: rest, context, _, _, h =>
    FunctionDecl.names_scopesAll rest context (FunctionDecl.names_scopes f _ h)

end

-- The table of the walk.

theorem ScopeState.getElem?_resolve (s : ScopeState) {r : Reference} {i : Nat} (other : i ≠ r.id) :
    (s.resolve r).resolution[i]? = s.resolution[i]? := by
  unfold resolve
  split
  · simp [Std.TreeMap.getElem?_insert, Ne.symm other]
  · rfl

mutual

theorem Expr.getElem?_scopes (context : ScopeContext) {i : Nat} :
    ∀ (e : Expr) (s : ScopeState), i ∉ e.ids →
      (e.scopes context s).resolution[i]? = s.resolution[i]?
  | .literal _, _, _ => rfl
  | .grouping inner, s, outside | .unary _ _ inner, s, outside | .get inner _, s, outside =>
    inner.getElem?_scopes context s outside
  | .binary _ _ left right, s, outside | .logical _ left right, s, outside => by
    simp only [Expr.ids, List.mem_append, not_or] at outside
    exact (right.getElem?_scopes context _ outside.2).trans
      (left.getElem?_scopes context s outside.1)
  | .set object _ value, s, outside => by
    simp only [Expr.ids, List.mem_append, not_or] at outside
    exact (object.getElem?_scopes context _ outside.1).trans
      (value.getElem?_scopes context s outside.2)
  | .var r, s, outside => by
    simp only [Expr.ids, List.mem_singleton] at outside
    rw [Expr.scopes, ScopeState.resolution_use]
    exact s.getElem?_resolve outside
  | .assign r value, s, outside => by
    simp only [Expr.ids, List.mem_cons, not_or] at outside
    exact (ScopeState.getElem?_resolve _ outside.1).trans
      (value.getElem?_scopes context s outside.2)
  | .call callee _ arguments, s, outside => by
    simp only [Expr.ids, List.mem_append, not_or] at outside
    exact (Expr.getElem?_scopesAll context arguments _ outside.2).trans
      (callee.getElem?_scopes context s outside.1)
  | .self r, s, outside => by
    simp only [Expr.ids, List.mem_singleton] at outside
    unfold Expr.scopes
    cases context.owner with
    | outside => rfl
    | base | derived => exact s.getElem?_resolve outside
  | .super r _, s, outside => by
    simp only [Expr.ids, List.mem_singleton] at outside
    unfold Expr.scopes
    cases context.owner with
    | outside | base => rfl
    | derived => exact s.getElem?_resolve outside

theorem Expr.getElem?_scopesAll (context : ScopeContext) {i : Nat} :
    ∀ (es : List Expr) (s : ScopeState), i ∉ Expr.idsAll es →
      (Expr.scopesAll context es s).resolution[i]? = s.resolution[i]?
  | [], _, _ => rfl
  | e :: rest, s, outside => by
    simp only [Expr.idsAll, List.mem_append, not_or] at outside
    exact (Expr.getElem?_scopesAll context rest _ outside.2).trans
      (e.getElem?_scopes context s outside.1)

end

theorem Expr.getElem?_scopes? (context : ScopeContext) {i : Nat} (e : Option Expr) (s : ScopeState)
    (outside : i ∉ Expr.idsOf e) :
    (Expr.scopes? context e s).resolution[i]? = s.resolution[i]? := by
  cases e with
  | none => rfl
  | some e => exact e.getElem?_scopes context s outside

theorem ScopeState.getElem?_enterClass (s : ScopeState) (name : Name) {above : Option Reference}
    {i : Nat} (outside : i ∉ (above.map Reference.id).toList) :
    (s.enterClass name above).resolution[i]? = s.resolution[i]? := by
  unfold enterClass
  cases above with
  | none => simp [enter]
  | some r =>
    simp only [Option.map_some, Option.toList_some, List.mem_singleton] at outside
    simp only [resolution_mark, enter, resolution_use, getElem?_resolve _ outside]
    split <;> simp [note]

mutual

theorem Stmt.getElem?_scopes {i : Nat} : ∀ (stmt : Stmt) (context : ScopeContext) (s : ScopeState),
    i ∉ stmt.ids → (stmt.scopes context s).resolution[i]? = s.resolution[i]?
  | .expression e, context, s, outside | .print e, context, s, outside =>
    e.getElem?_scopes context s outside
  | .varDecl name initial, context, s, outside => by
    rw [Stmt.scopes, ScopeState.resolution_define,
      Expr.getElem?_scopes? context initial _ outside, ScopeState.resolution_declare]
  | .block body, context, s, outside => Stmt.getElem?_scopesAll body context s.enter outside
  | .ifElse condition consequent none, context, s, outside => by
    simp only [Stmt.ids, List.mem_append, not_or] at outside
    exact (Stmt.getElem?_scopes consequent context _ outside.2).trans
      (condition.getElem?_scopes context s outside.1)
  | .ifElse condition consequent (some alternative), context, s, outside => by
    simp only [Stmt.ids, List.mem_append, not_or] at outside
    exact ((Stmt.getElem?_scopes alternative context _ outside.2.2).trans
      (Stmt.getElem?_scopes consequent context _ outside.2.1)).trans
        (condition.getElem?_scopes context s outside.1)
  | .loop condition body step, context, s, outside => by
    simp only [Stmt.ids, List.mem_append, not_or] at outside
    exact ((Expr.getElem?_scopes? context step _ outside.2.2).trans
      (Stmt.getElem?_scopes body context _ outside.2.1)).trans
        (condition.getElem?_scopes context s outside.1)
  | .funDecl f, context, s, outside => by
    rw [Stmt.scopes, FunctionDecl.getElem?_scopes f _ _ outside, ScopeState.resolution_define,
      ScopeState.resolution_declare]
  | .classDecl name above methods, context, s, outside => by
    simp only [Stmt.ids, List.mem_append, not_or] at outside
    have walked := (FunctionDecl.getElem?_scopesAll methods { context with owner := .of above } _
      outside.2).trans (s.getElem?_enterClass name outside.1)
    cases above <;> exact walked
  | .returning line value, context, s, outside => by
    rw [Stmt.scopes, Expr.getElem?_scopes? context value _ outside,
      ScopeState.resolution_checkReturn]
  | .jump _, _, _, _ => rfl

theorem Stmt.getElem?_scopesAll {i : Nat} : ∀ (body : List Stmt) (context : ScopeContext)
    (s : ScopeState), i ∉ Stmt.idsAll body →
      (Stmt.scopesAll context body s).resolution[i]? = s.resolution[i]?
  | [], _, _, _ => rfl
  | first :: rest, context, s, outside => by
    simp only [Stmt.idsAll, List.mem_append, not_or] at outside
    exact (Stmt.getElem?_scopesAll rest context _ outside.2).trans
      (Stmt.getElem?_scopes first context s outside.1)

theorem FunctionDecl.getElem?_scopes {i : Nat} : ∀ (f : FunctionDecl) (context : ScopeContext)
    (s : ScopeState), i ∉ f.ids → (f.scopes context s).resolution[i]? = s.resolution[i]?
  | .mk _ parameters body, context, s, outside =>
    (Stmt.getElem?_scopesAll body context _ outside).trans (by simp)

theorem FunctionDecl.getElem?_scopesAll {i : Nat} : ∀ (fs : List FunctionDecl)
    (context : ScopeContext) (s : ScopeState), i ∉ FunctionDecl.idsAll fs →
      (FunctionDecl.scopesAll context fs s).resolution[i]? = s.resolution[i]?
  | [], _, _, _ => rfl
  | f :: rest, context, s, outside => by
    simp only [FunctionDecl.idsAll, List.mem_append, not_or] at outside
    exact (FunctionDecl.getElem?_scopesAll rest context _ outside.2).trans
      (FunctionDecl.getElem?_scopes f _ s outside.1)

end

theorem Unentered.later {s s' : ScopeState} {xs ys : List Nat} (h : Unentered s (xs ++ ys))
    (kept : ∀ i ∉ xs, s'.resolution[i]? = s.resolution[i]?) : Unentered s' ys := by
  obtain ⟨-, distinct, apart⟩ := List.nodup_append.mp h.distinct
  refine ⟨distinct, fun i mem => ?_⟩
  rw [kept i fun mem' => apart i mem' i mem rfl]
  exact h.none i (List.mem_append_right xs mem)

def Enters (table : Resolution) (frames : List Frame) (ids : List Nat)
    (references : List Reference) : Prop :=
  ∀ r ∈ references, r.id ∈ ids ∧ table[r.id]? = Frame.address? frames r.name.text

theorem Enters.append {table table' : Resolution} {frames : List Frame} {xs ys : List Nat}
    {rs rs' : List Reference} (first : Enters table frames xs rs)
    (second : Enters table' frames ys rs')
    (kept : ∀ i ∉ ys, table'[i]? = table[i]?) (distinct : (xs ++ ys).Nodup) :
    Enters table' frames (xs ++ ys) (rs ++ rs') := by
  obtain ⟨-, -, apart⟩ := List.nodup_append.mp distinct
  intro r mem
  rcases List.mem_append.mp mem with before | after
  · obtain ⟨inside, address⟩ := first r before
    rw [kept r.id fun inside' => apart _ inside _ inside' rfl]
    exact ⟨List.mem_append_left ys inside, address⟩
  · obtain ⟨inside, address⟩ := second r after
    exact ⟨List.mem_append_right xs inside, address⟩

theorem Enters.swap {table : Resolution} {frames : List Frame} {xs ys : List Nat}
    {rs rs' : List Reference} (h : Enters table frames (xs ++ ys) (rs ++ rs')) :
    Enters table frames (ys ++ xs) (rs' ++ rs) := by
  intro r mem
  obtain ⟨inside, address⟩ := h r (by simpa [or_comm] using mem)
  exact ⟨by simpa [or_comm] using inside, address⟩

theorem enters_resolve {s : ScopeState} {frames : List Frame} (names : Names s.scopes frames)
    {r : Reference} (free : Unentered s [r.id]) :
    Enters (s.resolve r).resolution frames [r.id] [r] := by
  intro r' mem
  obtain rfl := List.mem_singleton.mp mem
  have found := names.distance?_eq r'.name.text
  refine ⟨by simp, ?_⟩
  unfold ScopeState.resolve
  split
  next d distance => simp [← found, distance]
  next distance => rw [free.none r'.id (by simp), ← found, distance]

mutual

theorem Expr.enters_scopes {frames : List Frame} {context : ScopeContext} :
    ∀ (e : Expr) {s : ScopeState}, Names s.scopes frames → Unentered s e.ids →
      (e.scopes context s).faults = [] →
      Enters (e.scopes context s).resolution frames e.ids e.references
  | .literal _, _, _, _, _ => by simp [Enters, Expr.references]
  | .grouping inner, _, names, free, clean | .unary _ _ inner, _, names, free, clean
  | .get inner _, _, names, free, clean => Expr.enters_scopes inner names free clean
  | .binary _ _ left right, s, names, free, clean
  | .logical _ left right, s, names, free, clean => by
    have before := (right.extends_scopes context _).clean clean
    have kept := fun i => left.getElem?_scopes context s (i := i)
    have first := Expr.enters_scopes left names free.left before
    have second := Expr.enters_scopes right ((left.scopes_scopes context s).symm ▸ names)
      (free.later kept) clean
    exact first.append second (fun i => right.getElem?_scopes context _) free.distinct
  | .set object _ value, s, names, free, clean => by
    have before := (object.extends_scopes context _).clean clean
    have kept := fun i => value.getElem?_scopes context s (i := i)
    have first := Expr.enters_scopes value names free.swap.left before
    have second := Expr.enters_scopes object ((value.scopes_scopes context s).symm ▸ names)
      (free.swap.later kept) clean
    exact (first.append second (fun i => object.getElem?_scopes context _) free.swap.distinct).swap
  | .var r, s, names, free, clean => by
    rw [Expr.scopes, ScopeState.resolution_use]
    exact enters_resolve names free
  | .assign r value, s, names, free, clean => by
    have swapped : Unentered s (value.ids ++ [r.id]) :=
      Unentered.swap (show Unentered s ([r.id] ++ value.ids) from free)
    have clean' : (value.scopes context s).faults = [] := by
      simpa [Expr.scopes] using clean
    have kept := fun i => value.getElem?_scopes context s (i := i)
    have first := Expr.enters_scopes value names swapped.left clean'
    have second := enters_resolve ((value.scopes_scopes context s).symm ▸ names)
      (swapped.later kept)
    have last := fun i (other : i ∉ [r.id]) =>
      (value.scopes context s).getElem?_resolve (by simpa using other)
    exact (first.append second last swapped.distinct).swap
  | .call callee _ arguments, s, names, free, clean => by
    have before := (Expr.extends_scopesAll context arguments _).clean clean
    have kept := fun i => callee.getElem?_scopes context s (i := i)
    have first := Expr.enters_scopes callee names free.left before
    have second := Expr.enters_scopesAll arguments ((callee.scopes_scopes context s).symm ▸ names)
      (free.later kept) clean
    exact first.append second (fun i => Expr.getElem?_scopesAll context arguments _) free.distinct
  | .self r, s, names, free, clean => by
    unfold Expr.scopes at clean ⊢
    cases owner : context.owner with
    | outside => simp [owner, ScopeState.note] at clean
    | base | derived => exact enters_resolve names free
  | .super r _, s, names, free, clean => by
    unfold Expr.scopes at clean ⊢
    cases owner : context.owner with
    | outside | base => simp [owner, ScopeState.note] at clean
    | derived => exact enters_resolve names free

theorem Expr.enters_scopesAll {frames : List Frame} {context : ScopeContext} :
    ∀ (es : List Expr) {s : ScopeState}, Names s.scopes frames → Unentered s (Expr.idsAll es) →
      (Expr.scopesAll context es s).faults = [] →
      Enters (Expr.scopesAll context es s).resolution frames (Expr.idsAll es)
        (Expr.referencesAll es)
  | [], _, _, _, _ => by simp [Enters, Expr.referencesAll]
  | e :: rest, s, names, free, clean => by
    have before := (Expr.extends_scopesAll context rest _).clean clean
    have kept := fun i => e.getElem?_scopes context s (i := i)
    have first := Expr.enters_scopes e names free.left before
    have second := Expr.enters_scopesAll rest ((e.scopes_scopes context s).symm ▸ names)
      (free.later kept) clean
    exact first.append second (fun i => Expr.getElem?_scopesAll context rest _) free.distinct

end

-- Statements in a row.

theorem Stmt.scopesAll_append (context : ScopeContext) (before after : List Stmt) (s : ScopeState) :
    Stmt.scopesAll context (before ++ after) s =
      Stmt.scopesAll context after (Stmt.scopesAll context before s) := by
  induction before generalizing s with
  | nil => rfl
  | cons first rest ih => exact ih (first.scopes context s)

theorem FunctionDecl.scopesAll_append (context : ScopeContext) (before after : List FunctionDecl)
    (s : ScopeState) :
    FunctionDecl.scopesAll context (before ++ after) s =
      FunctionDecl.scopesAll context after (FunctionDecl.scopesAll context before s) := by
  induction before generalizing s with
  | nil => rfl
  | cons first rest ih => exact ih _

end ScopeScript
