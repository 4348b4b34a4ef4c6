import ScopeScript.Proofs.Scope.Lexical

set_option autoImplicit false

namespace ScopeScript

def Stmt.titles : Stmt → List String
  | .funDecl f => [f.name.text]
  | .classDecl name .. => [name.text]
  | .ifElse _ consequent none => consequent.titles
  | .ifElse _ consequent (some alternative) => consequent.titles ++ alternative.titles
  | .loop _ body _ => body.titles
  | .varDecl .. | .expression _ | .print _ | .block _ | .returning .. | .jump _ => []

def Stmt.titlesAll (body : List Stmt) : List String :=
  body.flatMap Stmt.titles

theorem Stmt.titles_subset : ∀ stmt : Stmt, stmt.titles ⊆ stmt.introduced
  | .funDecl _ | .classDecl .. => List.Subset.refl _
  | .ifElse _ consequent none => consequent.titles_subset
  | .ifElse _ consequent (some alternative) =>
    List.append_subset.mpr ⟨List.subset_append_of_subset_left _ consequent.titles_subset,
      List.subset_append_of_subset_right _ alternative.titles_subset⟩
  | .loop _ body _ => body.titles_subset
  | .varDecl .. | .expression _ | .print _ | .block _ | .returning .. | .jump _ =>
    List.nil_subset _

theorem Stmt.titlesAll_subset (body : List Stmt) : titlesAll body ⊆ introducedAll body := by
  intro name mem
  obtain ⟨stmt, inside, title⟩ := List.mem_flatMap.mp mem
  exact List.mem_flatMap.mpr ⟨stmt, inside, stmt.titles_subset title⟩

def Frame.Adds (frame : Frame) (names : List String) : Prop :=
  names.Nodup ∧ ∀ name ∈ names, name ∉ frame.names

namespace Frame.Adds

variable {frame : Frame} {xs ys : List String}

theorem nil (frame : Frame) : frame.Adds [] := ⟨List.nodup_nil, by simp⟩

theorem single {name : String} (new : name ∉ frame.names) : frame.Adds [name] :=
  ⟨by simp, by simpa using new⟩

theorem append (first : frame.Adds xs) (second : Frame.Adds ⟨frame.site, xs ++ frame.names⟩ ys) :
    frame.Adds (xs ++ ys) := by
  have apart (name : String) (mem : name ∈ ys) := List.mem_append.not.mp (second.2 name mem)
  simp only [not_or] at apart
  refine ⟨List.nodup_append.mpr ⟨first.1, second.1, ?_⟩, fun name mem => ?_⟩
  · rintro name here _ there rfl
    exact (apart name there).1 here
  · rcases List.mem_append.mp mem with here | there
    · exact first.2 name here
    · exact (apart name there).2

end Frame.Adds

theorem ScopeState.adds_of_declare {s : ScopeState} {frame : Frame} {frames : List Frame}
    (names : Names s.scopes (frame :: frames)) {name : Name}
    (clean : (s.declare name).faults = []) : frame.Adds [name.text] := by
  unfold declare at clean
  generalize layers : s.scopes = scopes at names clean
  cases names with
  | @cons scope _ outer _ inner _ =>
    simp only at clean
    split at clean
    · exact absurd clean (s.note_faults_ne_nil name .redeclared)
    next new =>
      refine .single fun mem => new ?_
      rw [inner name.text]
      exact decide_eq_true mem

theorem ScopeState.extends_enterClass_declare (s : ScopeState) (name : Name)
    (above : Option Reference) : (s.declare name).Extends (s.enterClass name above) := by
  unfold enterClass
  cases above with
  | none => simp [Extends, enter]
  | some r =>
    simp only
    split
    · have noted := extends_note ((s.declare name).define name) r.name .inheritsFromItself
      simpa [Extends, enter] using noted.trans (extends_use _ r)
    · simpa [Extends, enter] using extends_use ((s.declare name).define name) r

theorem Stmt.adds_scopes : ∀ (stmt : Stmt) (context : ScopeContext) {frame : Frame}
    {frames : List Frame} {s : ScopeState}, Names s.scopes (frame :: frames) →
      (stmt.scopes context s).faults = [] → frame.Adds stmt.introduced
  | .varDecl name initial, context, _, _, s, names, clean => by
    have walked : (Expr.scopes? context initial (s.declare name)).faults = [] := by
      simpa [Stmt.scopes] using clean
    exact s.adds_of_declare names ((Expr.extends_scopes? context initial _).clean walked)
  | .funDecl f, context, _, _, s, names, clean => by
    have named :=
      (FunctionDecl.extends_scopes { context with function := .function } f _).clean clean
    exact s.adds_of_declare names (by simpa using named)
  | .classDecl name above methods, context, _, _, s, names, clean => by
    rw [Stmt.scopes, ScopeState.faults_leaveClass] at clean
    have entered := (FunctionDecl.extends_scopesAll _ methods _).clean clean
    exact s.adds_of_declare names ((s.extends_enterClass_declare name above).clean entered)
  | .ifElse condition consequent none, context, _, _, s, names, clean => by
    have tested := (condition.scopes_scopes context s).symm ▸ names
    exact Stmt.adds_scopes consequent context tested clean
  | .ifElse condition consequent (some alternative), context, _, _, s, names, clean => by
    have tested := (condition.scopes_scopes context s).symm ▸ names
    have first := (Stmt.extends_scopes context alternative _).clean clean
    exact (Stmt.adds_scopes consequent context tested first).append
      (Stmt.adds_scopes alternative context (Stmt.names_scopes consequent context tested) clean)
  | .loop condition body step, context, _, _, s, names, clean => by
    have tested := (condition.scopes_scopes context s).symm ▸ names
    exact Stmt.adds_scopes body context tested ((Expr.extends_scopes? context step _).clean clean)
  | .expression _, _, frame, _, _, _, _ | .print _, _, frame, _, _, _, _
  | .block _, _, frame, _, _, _, _ | .returning .., _, frame, _, _, _, _
  | .jump _, _, frame, _, _, _, _ => .nil frame

theorem Stmt.adds_scopesAll (context : ScopeContext) {frame : Frame} {frames : List Frame}
    {body : List Stmt} {s : ScopeState} (names : Names s.scopes (frame :: frames))
    (clean : (Stmt.scopesAll context body s).faults = []) :
    frame.Adds (Stmt.introducedAll body) := by
  induction body generalizing frame s with
  | nil => exact .nil frame
  | cons first rest ih =>
    have before := (Stmt.extends_scopesAll context rest _).clean clean
    exact (first.adds_scopes context names before).append
      (ih (first.names_scopes context names) clean)

theorem Stmt.notMem_titlesAll {body : List Stmt} (distinct : (Stmt.introducedAll body).Nodup)
    {name : Name} {e : Option Expr} (mem : .varDecl name e ∈ body) :
    name.text ∉ Stmt.titlesAll body := by
  induction body with
  | nil => cases mem
  | cons first rest ih =>
    rw [Stmt.introducedAll, List.flatMap_cons, List.nodup_append] at distinct
    obtain ⟨-, others, apart⟩ := distinct
    rw [Stmt.titlesAll, List.flatMap_cons, List.mem_append, not_or]
    cases mem with
    | head =>
      refine ⟨by simp [Stmt.titles], fun title => ?_⟩
      exact apart _ List.mem_cons_self _ (Stmt.titlesAll_subset rest title) rfl
    | tail _ mem =>
      have introduced : name.text ∈ Stmt.introducedAll rest :=
        List.mem_flatMap.mpr ⟨_, mem, List.mem_cons_self⟩
      exact ⟨fun title => apart _ (first.titles_subset title) _ introduced rfl, ih others mem⟩

end ScopeScript
