import ScopeScript.Proofs.Likeness.Moved
import ScopeScript.Proofs.Scope.Distinct
import ScopeScript.Proofs.Syntax.Change

set_option autoImplicit false

namespace ScopeScript

def Renaming.Renames (σ : Renaming) (depth : Nat) (σs : List Renaming) : Prop :=
  ∀ d, Renaming.reached σs (some d) = if d = depth then σ else .same

structure Link.Permits (K : Link) (c : Change) (σ : Renaming) : Prop where
  lines : ∀ line, K.lines line line
  same : K.renames .same
  renamed : K.renames σ
  spelled : ∀ word, K.names word → σ word = if word = c.old then c.new else word

section

variable {K : Link} {c : Change} {σ : Renaming} {depth : Nat} {σs : List Renaming}

namespace Renaming.Renames

theorem here (σ : Renaming) (plain : Renaming.Plain σs) : σ.Renames 0 (σ :: σs) := by
  intro d
  cases d with
  | zero => rfl
  | succ d => exact plain.reached (some d)

theorem inside (h : σ.Renames depth σs) : σ.Renames (depth + 1) (.same :: σs) := by
  intro d
  cases d with
  | zero => rfl
  | succ d =>
    simp only [Nat.add_right_cancel_iff]
    exact h d

theorem ofMethod (h : σ.Renames depth σs) (above : Option Reference) :
    σ.Renames (depth + if above.isSome then 2 else 1) (Renaming.ofMethod above σs) := by
  unfold Renaming.ofMethod
  split
  · exact h.inside.inside
  · exact h.inside

theorem innermost (h : σ.Renames depth σs) :
    Renaming.innermost σs = if depth = 0 then σ else .same := by
  have first : Renaming.innermost σs = if 0 = depth then σ else .same := by
    cases σs <;> exact h 0
  rw [first]
  exact if_congr eq_comm rfl rfl

end Renaming.Renames

theorem Link.Permits.moves (permits : K.Permits c σ) : K.Moves id := ⟨permits.lines, permits.same⟩

theorem Change.declared_name (permits : K.Permits c σ) (name : Name) (known : K.names name.text) :
    name.Declared K σ (c.name name) := by
  have spelled := permits.spelled name.text known
  unfold Change.name
  by_cases old : name.text = c.old
  · rw [if_pos old] at spelled ⊢
    exact ⟨permits.lines _, spelled.symm, known⟩
  · rw [if_neg old] at spelled ⊢
    exact ⟨permits.lines _, spelled.symm, known⟩

theorem Change.declared_self (permits : K.Permits c σ) (name : Name) (known : K.names name.text)
    (other : name.text ≠ c.old) : name.Declared K σ name := by
  have declared := c.declared_name permits name known
  rwa [Change.name, if_neg other] at declared

theorem Change.declared_declared (permits : K.Permits c σ) (renames : σ.Renames depth σs)
    (name : Name) (known : K.names name.text) :
    name.Declared K (.innermost σs) (c.declared depth name) := by
  rw [renames.innermost]
  cases depth with
  | zero => exact c.declared_name permits name known
  | succ depth => exact ⟨permits.lines _, rfl, known⟩

theorem Change.declared_title (permits : K.Permits c σ) (renames : σ.Renames depth σs) (name : Name)
    (known : K.names name.text) (other : depth = 0 → name.text ≠ c.old) :
    name.Declared K (.innermost σs) name := by
  rw [renames.innermost]
  split
  next here => exact c.declared_self permits name known (other here)
  · exact ⟨permits.lines _, rfl, known⟩

theorem Change.alike_reference (permits : K.Permits c σ) (renames : σ.Renames depth σs)
    (r : Reference) (given : K.Admits id (fun i => c.table[i]?) [r.id] [r.name.text]) :
    r.Alike K σs (c.reference depth r) := by
  have linked := given.linked r.id List.mem_cons_self
  have declared := c.declared_name permits r.name given.first
  unfold Change.reference
  by_cases bound : c.table[r.id]? = some depth
  · rw [if_pos bound]
    refine ⟨⟨_, linked, ?_⟩, declared.line, given.first⟩
    dsimp only
    rw [bound, renames depth, if_pos rfl]
    exact declared.text
  · rw [if_neg bound]
    refine ⟨⟨_, linked, ?_⟩, permits.lines _, given.first⟩
    cases distance : c.table[r.id]? with
    | none => rfl
    | some d =>
      have other : d ≠ depth := fun same => bound (same ▸ distance)
      rw [renames d, if_neg other, Renaming.same_apply]

mutual

theorem Expr.alike_changed (permits : K.Permits c σ) (renames : σ.Renames depth σs) :
    ∀ e : Expr, K.Admits id (fun i => c.table[i]?) e.ids e.words →
      e.Alike K σs (e.changed c depth)
  | .literal _, _ => .literal
  | .grouping inner, given => .grouping (Expr.alike_changed permits renames inner given)
  | .unary _ _ inner, given =>
    .unary (permits.lines _) (Expr.alike_changed permits renames inner given)
  | .binary _ _ left right, given =>
    .binary (permits.lines _) (Expr.alike_changed permits renames left given.left)
      (Expr.alike_changed permits renames right given.right)
  | .logical _ left right, given =>
    .logical (Expr.alike_changed permits renames left given.left)
      (Expr.alike_changed permits renames right given.right)
  | .var r, given => .var (c.alike_reference permits renames r given)
  | .assign r inner, given =>
    have parts : K.Admits id (fun i => c.table[i]?) ([r.id] ++ inner.ids)
      ([r.name.text] ++ inner.words) := given
    .assign (c.alike_reference permits renames r parts.left)
      (Expr.alike_changed permits renames inner parts.right)
  | .call callee _ es, given =>
    .call (permits.lines _) (Expr.alike_changed permits renames callee given.left)
      (Expr.allAlike_changed permits renames es given.right)
  | .get inner _, given =>
    .get ⟨permits.lines _, rfl⟩ (Expr.alike_changed permits renames inner given)
  | .set left _ right, given =>
    .set ⟨permits.lines _, rfl⟩ (Expr.alike_changed permits renames left given.left)
      (Expr.alike_changed permits renames right given.right)
  | .self r, given => .self (c.alike_reference permits renames r given)
  | .super r _, given =>
    .super (c.alike_reference permits renames r given) ⟨permits.lines _, rfl⟩

theorem Expr.allAlike_changed (permits : K.Permits c σ) (renames : σ.Renames depth σs) :
    ∀ es : List Expr, K.Admits id (fun i => c.table[i]?) (Expr.idsAll es) (Expr.wordsAll es) →
      Expr.AllAlike K σs es (Expr.changedAll c depth es)
  | [], _ => .nil
  | e :: rest, given =>
    .cons (Expr.alike_changed permits renames e given.left)
      (Expr.allAlike_changed permits renames rest given.right)

end

theorem Expr.optionAlike_changed (permits : K.Permits c σ) (renames : σ.Renames depth σs) :
    ∀ e : Option Expr, K.Admits id (fun i => c.table[i]?) (Expr.idsOf e) (Expr.wordsOf e) →
      Option.Rel (Expr.Alike K σs) e (e.map (Expr.changed c depth))
  | none, _ => .none
  | some e, given => .some (e.alike_changed permits renames given)

end

mutual

theorem Stmt.alike_changed {K : Link} {c : Change} {σ : Renaming} (permits : K.Permits c σ) :
    ∀ {depth : Nat} {σs : List Renaming} (s : Stmt), σ.Renames depth σs →
      (depth = 0 → c.old ∉ s.titles) → K.Admits id (fun i => c.table[i]?) s.ids s.words →
        s.Alike K σs (s.changed c depth)
  | _, _, .expression e, renames, _, given => .expression (e.alike_changed permits renames given)
  | _, _, .print e, renames, _, given => .print (e.alike_changed permits renames given)
  | _, _, .varDecl name e, renames, _, given =>
    .varDecl (c.declared_declared permits renames name given.first)
      (Expr.optionAlike_changed permits renames e given.rest)
  | _, _, .block body, renames, _, given =>
    .block permits.same
      (Stmt.allAlike_changed permits body renames.inside (fun none => by cases none) given)
  | _, _, .ifElse condition consequent none, renames, apart, given =>
    .ifElse (condition.alike_changed permits renames given.left)
      (Stmt.alike_changed permits consequent renames apart given.right)
  | _, _, .ifElse condition consequent (some alternative), renames, apart, given =>
    .ifBoth (condition.alike_changed permits renames given.left)
      (Stmt.alike_changed permits consequent renames
        (fun here title => apart here (List.mem_append_left _ title)) given.right.left)
      (Stmt.alike_changed permits alternative renames
        (fun here title => apart here (List.mem_append_right _ title)) given.right.right)
  | _, _, .loop condition body step, renames, apart, given =>
    .loop (condition.alike_changed permits renames given.left)
      (Stmt.alike_changed permits body renames apart given.right.left)
      (Expr.optionAlike_changed permits renames step given.right.right)
  | _, _, .funDecl f, renames, apart, given => by
    have known : K.names f.name.text := by
      cases f
      exact given.first
    have declared := c.declared_title permits renames f.name known fun here same =>
      apart here (same ▸ List.mem_cons_self)
    exact .funDecl declared.text.symm (FunctionDecl.alike_changed permits f renames given)
  | _, _, .classDecl name none methods, renames, apart, given =>
    have declared := c.declared_title permits renames name given.first fun here same =>
      apart here (same ▸ List.mem_cons_self)
    .classDecl declared rfl .none
      (FunctionDecl.allAlike_changed permits methods (renames.ofMethod none) given.rest)
  | _, _, .classDecl name (some r) methods, renames, apart, given =>
    have declared := c.declared_title permits renames name given.first fun here same =>
      apart here (same ▸ List.mem_cons_self)
    have parts : K.Admits id (fun i => c.table[i]?) ([r.id] ++ FunctionDecl.idsAll methods)
      ([r.name.text] ++ FunctionDecl.wordsAll methods) := given.rest
    .classDecl declared rfl (.some (c.alike_reference permits renames r parts.left))
      (FunctionDecl.allAlike_changed permits methods (renames.ofMethod (some r)) parts.right)
  | _, _, .returning _ e, renames, _, given =>
    .returning (permits.lines _) (Expr.optionAlike_changed permits renames e given)
  | _, _, .jump _, _, _, _ => .jump

theorem Stmt.allAlike_changed {K : Link} {c : Change} {σ : Renaming} (permits : K.Permits c σ) :
    ∀ {depth : Nat} {σs : List Renaming} (body : List Stmt), σ.Renames depth σs →
      (depth = 0 → c.old ∉ Stmt.titlesAll body) →
      K.Admits id (fun i => c.table[i]?) (Stmt.idsAll body) (Stmt.wordsAll body) →
        Stmt.AllAlike K σs body (Stmt.changedAll c depth body)
  | _, _, [], _, _, _ => .nil
  | _, _, s :: rest, renames, apart, given =>
    .cons
      (Stmt.alike_changed permits s renames
        (fun here title => apart here (List.mem_append_left _ title)) given.left)
      (Stmt.allAlike_changed permits rest renames
        (fun here title => apart here (List.mem_append_right _ title)) given.right)

theorem FunctionDecl.alike_changed {K : Link} {c : Change} {σ : Renaming}
    (permits : K.Permits c σ) :
    ∀ {depth : Nat} {σs : List Renaming} (f : FunctionDecl), σ.Renames depth σs →
      K.Admits id (fun i => c.table[i]?) f.ids f.words → f.Alike K σs (f.changed c depth)
  | _, _, .mk name parameters body, renames, given => by
    have named : List.Forall₂ (Name.Declared K .same) parameters parameters :=
      List.forall₂_same.mpr fun parameter mem =>
        ⟨permits.lines _, rfl,
          given.rest.known _ (List.mem_append_left _ (List.mem_map_of_mem mem))⟩
    exact .mk ⟨permits.lines _, rfl, given.first⟩ permits.same named
      (Stmt.allAlike_changed permits body renames.inside (fun none => by cases none)
        given.rest.tail)

theorem FunctionDecl.allAlike_changed {K : Link} {c : Change} {σ : Renaming}
    (permits : K.Permits c σ) :
    ∀ {depth : Nat} {σs : List Renaming} (fs : List FunctionDecl), σ.Renames depth σs →
      K.Admits id (fun i => c.table[i]?) (FunctionDecl.idsAll fs) (FunctionDecl.wordsAll fs) →
        FunctionDecl.AllAlike K σs fs (FunctionDecl.changedAll c depth fs)
  | _, _, [], _, _ => .nil
  | _, _, f :: rest, renames, given =>
    .cons (FunctionDecl.alike_changed permits f renames given.left)
      (FunctionDecl.allAlike_changed permits rest renames given.right)

end

section

variable {K : Link} {c : Change} {σ : Renaming} {σs : List Renaming}

theorem Stmt.AllAlike.append {xs xs' ys ys' : List Stmt} (h : Stmt.AllAlike K σs xs xs')
    (h' : Stmt.AllAlike K σs ys ys') : Stmt.AllAlike K σs (xs ++ ys) (xs' ++ ys') := by
  induction xs generalizing xs' with
  | nil =>
    cases h
    exact h'
  | cons first rest ih =>
    cases h with
    | cons alike others => exact .cons alike (ih others)

theorem FunctionDecl.AllAlike.append {xs xs' ys ys' : List FunctionDecl}
    (h : FunctionDecl.AllAlike K σs xs xs') (h' : FunctionDecl.AllAlike K σs ys ys') :
    FunctionDecl.AllAlike K σs (xs ++ ys) (xs' ++ ys') := by
  induction xs generalizing xs' with
  | nil =>
    cases h
    exact h'
  | cons first rest ih =>
    cases h with
    | cons alike others => exact .cons alike (ih others)

end

mutual

theorem Stmt.Changes.alike {K : Link} {c : Change} {σ : Renaming} (permits : K.Permits c σ) :
    ∀ {σs : List Renaming} {frames : List Frame} {context : ScopeContext} {s : ScopeState}
      {stmt stmt' : Stmt}, Stmt.Changes c stmt stmt' → Renaming.Plain σs →
        Settles c.table frames (.statement stmt) context s →
          K.Admits id (fun i => c.table[i]?) stmt.ids stmt.words → stmt.Alike K σs stmt'
  | _, _, context, _, .block body, _, .declared mem same, plain, settles, given => by
    have inner := settles.block
    have adds := Stmt.adds_scopesAll context inner.names inner.clean
    have apart := Stmt.notMem_titlesAll adds.1 mem
    exact .block permits.renamed (Stmt.allAlike_changed permits body (.here σ plain)
      (fun _ => same ▸ apart) given)
  | _, _, _, _, _, _, .block h, plain, settles, given =>
    .block permits.same (h.alike permits plain.cons settles.block given)
  | _, _, _, _, .ifElse e _ none, _, .consequent h, plain, settles, given =>
    .ifElse (e.alike_self permits.moves plain given.left)
      (h.alike permits plain settles.consequent given.right)
  | _, _, _, _, .ifElse e _ (some t), _, .consequent h, plain, settles, given =>
    .ifBoth (e.alike_self permits.moves plain given.left)
      (h.alike permits plain settles.consequent given.right.left)
      (t.alike_self permits.moves plain given.right.right)
  | _, _, _, _, .ifElse e s (some _), _, .alternative h, plain, settles, given =>
    .ifBoth (e.alike_self permits.moves plain given.left)
      (s.alike_self permits.moves plain given.right.left)
      (h.alike permits plain settles.alternative given.right.right)
  | _, _, _, _, .loop e _ step, _, .loop h, plain, settles, given =>
    .loop (e.alike_self permits.moves plain given.left)
      (h.alike permits plain settles.body given.right.left)
      (Expr.optionAlike_self permits.moves plain step given.right.right)
  | _, _, _, _, .funDecl f, .funDecl f', .function h, plain, settles, given => by
    have alike := h.alike permits plain settles.function given
    exact .funDecl (by rw [plain.innermost]; rfl) alike
  | _, _, _, _, .classDecl name above _, _, @Stmt.Changes.method _ f f' _ _ before after h, plain,
      settles, given => by
    have parts := given.rest
    rw [Stmt.ids, FunctionDecl.idsAll_append, FunctionDecl.wordsAll_append] at parts
    have within := plain.ofMethod above
    have methods := (FunctionDecl.allAlike_self permits.moves before within parts.right.left).append
      (.cons (h.alike permits within (settles.method rfl) parts.right.right.left)
        (FunctionDecl.allAlike_self permits.moves after within parts.right.right.right))
    exact .classDecl (plain.innermost ▸ ⟨permits.lines _, rfl, given.first⟩) rfl
      (Stmt.superclassAlike_self permits.moves plain above parts.left) methods

theorem Stmt.AllChanges.alike {K : Link} {c : Change} {σ : Renaming} (permits : K.Permits c σ) :
    ∀ {σs : List Renaming} {frames : List Frame} {context : ScopeContext} {s : ScopeState}
      {body body' : List Stmt}, Stmt.AllChanges c body body' → Renaming.Plain σs →
        Settles c.table frames (.row body) context s →
          K.Admits id (fun i => c.table[i]?) (Stmt.idsAll body) (Stmt.wordsAll body) →
            Stmt.AllAlike K σs body body'
  | _, _, _, _, _, _, @Stmt.AllChanges.statement _ s s' before after h, plain, settles, given => by
    rw [Stmt.idsAll_append, Stmt.wordsAll_append] at given
    exact (Stmt.allAlike_self permits.moves before plain given.left).append
      (.cons (h.alike permits plain settles.statement given.right.left)
        (Stmt.allAlike_self permits.moves after plain given.right.right))

theorem FunctionDecl.Changes.alike {K : Link} {c : Change} {σ : Renaming}
    (permits : K.Permits c σ) :
    ∀ {σs : List Renaming} {frames : List Frame} {context : ScopeContext} {s : ScopeState}
      {f f' : FunctionDecl}, FunctionDecl.Changes c f f' → Renaming.Plain σs →
        Settles c.table frames (.function f) context s →
          K.Admits id (fun i => c.table[i]?) f.ids f.words → f.Alike K σs f'
  | _, _, context, _, .mk name parameters body, _, .parameter mem same, plain, settles, given => by
    have inner := settles.calling
    have adds := Stmt.adds_scopesAll context inner.names inner.clean
    have apart (title : c.old ∈ Stmt.titlesAll body) : False :=
      adds.2 _ (Stmt.titlesAll_subset body title) (same ▸ List.mem_map_of_mem mem)
    have named : List.Forall₂ (Name.Declared K σ) parameters (parameters.map c.name) :=
      List.forall₂_map_right_iff.mpr <| List.forall₂_same.mpr fun p mem =>
        c.declared_name permits p
          (given.rest.known _ (List.mem_append_left _ (List.mem_map_of_mem mem)))
    exact .mk ⟨permits.lines _, rfl, given.first⟩ permits.renamed named
      (Stmt.allAlike_changed permits body (.here σ plain) (fun _ => apart) given.rest.tail)
  | _, _, context, _, .mk name parameters body, _, .declared mem same, plain, settles, given => by
    have inner := settles.calling
    have adds := Stmt.adds_scopesAll context inner.names inner.clean
    have apart := Stmt.notMem_titlesAll adds.1 mem
    have introduced : c.old ∈ Stmt.introducedAll body :=
      List.mem_flatMap.mpr ⟨_, mem, same ▸ List.mem_cons_self⟩
    have named : List.Forall₂ (Name.Declared K σ) parameters parameters :=
      List.forall₂_same.mpr fun p mem => by
        refine c.declared_self permits p
          (given.rest.known _ (List.mem_append_left _ (List.mem_map_of_mem mem))) fun old => ?_
        exact adds.2 _ introduced (old ▸ List.mem_map_of_mem mem)
    exact .mk ⟨permits.lines _, rfl, given.first⟩ permits.renamed named
      (Stmt.allAlike_changed permits body (.here σ plain) (fun _ => same ▸ apart) given.rest.tail)
  | _, _, _, _, .mk name parameters body, _, .body h, plain, settles, given => by
    have named : List.Forall₂ (Name.Declared K .same) parameters parameters :=
      List.forall₂_same.mpr fun p mem =>
        ⟨permits.lines _, rfl,
          given.rest.known _ (List.mem_append_left _ (List.mem_map_of_mem mem))⟩
    exact .mk ⟨permits.lines _, rfl, given.first⟩ permits.same named
      (h.alike permits plain.cons settles.calling given.rest.tail)

end

end ScopeScript
