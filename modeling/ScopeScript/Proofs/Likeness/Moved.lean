import ScopeScript.Proofs.Likeness.Tree
import ScopeScript.Proofs.Syntax.Lines
import ScopeScript.Proofs.Syntax.Words

set_option autoImplicit false

namespace ScopeScript

structure Link.Admits (K : Link) (f : Nat → Nat) (d : Nat → Option Nat) (ids : List Nat)
    (words : List String) : Prop where
  linked : ∀ i ∈ ids, K.linked i (f i) (d i)
  known : ∀ word ∈ words, K.names word

structure Link.Moves (K : Link) (g : Nat → Nat) : Prop where
  lines : ∀ line, K.lines line (g line)
  renames : K.renames .same

section

variable {K : Link} {f g : Nat → Nat} {d : Nat → Option Nat} {σs : List Renaming}

namespace Link.Admits

variable {xs ys : List Nat} {us vs : List String} {word : String}

theorem left (h : K.Admits f d (xs ++ ys) (us ++ vs)) : K.Admits f d xs us :=
  ⟨fun i mem => h.linked i (List.mem_append_left ys mem),
    fun word mem => h.known word (List.mem_append_left vs mem)⟩

theorem right (h : K.Admits f d (xs ++ ys) (us ++ vs)) : K.Admits f d ys vs :=
  ⟨fun i mem => h.linked i (List.mem_append_right xs mem),
    fun word mem => h.known word (List.mem_append_right us mem)⟩

theorem first (h : K.Admits f d xs (word :: us)) : K.names word := h.known word List.mem_cons_self

theorem rest (h : K.Admits f d xs (word :: us)) : K.Admits f d xs us :=
  ⟨h.linked, fun word mem => h.known word (List.mem_cons_of_mem _ mem)⟩

theorem tail (h : K.Admits f d xs (us ++ vs)) : K.Admits f d xs vs :=
  ⟨h.linked, fun word mem => h.known word (List.mem_append_right us mem)⟩

end Link.Admits

theorem Name.alike_mapLine (moves : K.Moves g) (name : Name) : name.Alike K (name.mapLine g) :=
  ⟨moves.lines _, rfl⟩

theorem Name.declared_mapLine (moves : K.Moves g) (name : Name) (known : K.names name.text) :
    name.Declared K .same (name.mapLine g) :=
  ⟨moves.lines _, rfl, known⟩

theorem Reference.alike_moved (moves : K.Moves g) (plain : Renaming.Plain σs) (r : Reference)
    (given : K.Admits f d [r.id] [r.name.text]) : r.Alike K σs ((r.mapLine g).mapId f) := by
  refine ⟨⟨_, given.linked r.id List.mem_cons_self, ?_⟩, moves.lines _, given.first⟩
  rw [plain.reached]
  rfl

mutual

theorem Expr.alike_moved (moves : K.Moves g) (plain : Renaming.Plain σs) :
    ∀ e : Expr, K.Admits f d e.ids e.words → e.Alike K σs ((e.mapLines g).mapIds f)
  | .literal _, _ => .literal
  | .grouping inner, given => .grouping (Expr.alike_moved moves plain inner given)
  | .unary _ _ inner, given => .unary (moves.lines _) (Expr.alike_moved moves plain inner given)
  | .binary _ _ left right, given =>
    .binary (moves.lines _) (Expr.alike_moved moves plain left given.left)
      (Expr.alike_moved moves plain right given.right)
  | .logical _ left right, given =>
    .logical (Expr.alike_moved moves plain left given.left)
      (Expr.alike_moved moves plain right given.right)
  | .var r, given => .var (r.alike_moved moves plain given)
  | .assign r inner, given =>
    have parts : K.Admits f d ([r.id] ++ inner.ids) ([r.name.text] ++ inner.words) := given
    .assign (r.alike_moved moves plain parts.left) (Expr.alike_moved moves plain inner parts.right)
  | .call callee _ es, given =>
    .call (moves.lines _) (Expr.alike_moved moves plain callee given.left)
      (Expr.allAlike_moved moves plain es given.right)
  | .get inner name, given =>
    .get (name.alike_mapLine moves) (Expr.alike_moved moves plain inner given)
  | .set left name right, given =>
    .set (name.alike_mapLine moves) (Expr.alike_moved moves plain left given.left)
      (Expr.alike_moved moves plain right given.right)
  | .self r, given => .self (r.alike_moved moves plain given)
  | .super r name, given => .super (r.alike_moved moves plain given) (name.alike_mapLine moves)

theorem Expr.allAlike_moved (moves : K.Moves g) (plain : Renaming.Plain σs) :
    ∀ es : List Expr, K.Admits f d (Expr.idsAll es) (Expr.wordsAll es) →
      Expr.AllAlike K σs es (Expr.mapIdsAll f (Expr.mapLinesAll g es))
  | [], _ => .nil
  | e :: rest, given =>
    .cons (Expr.alike_moved moves plain e given.left)
      (Expr.allAlike_moved moves plain rest given.right)

end

theorem Expr.optionAlike_moved (moves : K.Moves g) (plain : Renaming.Plain σs) :
    ∀ e : Option Expr, K.Admits f d (Expr.idsOf e) (Expr.wordsOf e) →
      Option.Rel (Expr.Alike K σs) e ((e.map (Expr.mapLines g)).map (Expr.mapIds f))
  | none, _ => .none
  | some e, given => .some (e.alike_moved moves plain given)

theorem Renaming.Plain.ofMethod (plain : Plain σs) (above : Option Reference) :
    Plain (Renaming.ofMethod above σs) := by
  unfold Renaming.ofMethod
  split
  · exact plain.cons.cons
  · exact plain.cons

end

mutual

theorem Stmt.alike_moved {K : Link} {f g : Nat → Nat} {d : Nat → Option Nat}
    (moves : K.Moves g) :
    ∀ {σs : List Renaming} (s : Stmt), Renaming.Plain σs → K.Admits f d s.ids s.words →
      s.Alike K σs ((s.mapLines g).mapIds f)
  | _, .expression e, plain, given => .expression (e.alike_moved moves plain given)
  | _, .print e, plain, given => .print (e.alike_moved moves plain given)
  | _, .varDecl name e, plain, given =>
    .varDecl (plain.innermost ▸ name.declared_mapLine moves given.first)
      (Expr.optionAlike_moved moves plain e given.rest)
  | _, .block body, plain, given =>
    .block moves.renames (Stmt.allAlike_moved moves body plain.cons given)
  | _, .ifElse condition consequent none, plain, given =>
    .ifElse (condition.alike_moved moves plain given.left)
      (Stmt.alike_moved moves consequent plain given.right)
  | _, .ifElse condition consequent (some alternative), plain, given =>
    .ifBoth (condition.alike_moved moves plain given.left)
      (Stmt.alike_moved moves consequent plain given.right.left)
      (Stmt.alike_moved moves alternative plain given.right.right)
  | _, .loop condition body step, plain, given =>
    .loop (condition.alike_moved moves plain given.left)
      (Stmt.alike_moved moves body plain given.right.left)
      (Expr.optionAlike_moved moves plain step given.right.right)
  | _, .funDecl f, plain, given =>
    .funDecl (by rw [plain.innermost]; rfl) (FunctionDecl.alike_moved moves f plain given)
  | _, .classDecl name none methods, plain, given =>
    .classDecl (plain.innermost ▸ name.declared_mapLine moves given.first) rfl .none
      (FunctionDecl.allAlike_moved moves methods (plain.ofMethod none) given.rest)
  | _, .classDecl name (some r) methods, plain, given =>
    have parts : K.Admits f d ([r.id] ++ FunctionDecl.idsAll methods)
      ([r.name.text] ++ FunctionDecl.wordsAll methods) := given.rest
    .classDecl (plain.innermost ▸ name.declared_mapLine moves given.first) rfl
      (.some (r.alike_moved moves plain parts.left))
      (FunctionDecl.allAlike_moved moves methods (plain.ofMethod (some r)) parts.right)
  | _, .returning _ e, plain, given =>
    .returning (moves.lines _) (Expr.optionAlike_moved moves plain e given)
  | _, .jump _, _, _ => .jump

theorem Stmt.allAlike_moved {K : Link} {f g : Nat → Nat} {d : Nat → Option Nat}
    (moves : K.Moves g) :
    ∀ {σs : List Renaming} (body : List Stmt), Renaming.Plain σs →
      K.Admits f d (Stmt.idsAll body) (Stmt.wordsAll body) →
      Stmt.AllAlike K σs body (Stmt.mapIdsAll f (Stmt.mapLinesAll g body))
  | _, [], _, _ => .nil
  | _, s :: rest, plain, given =>
    .cons (Stmt.alike_moved moves s plain given.left)
      (Stmt.allAlike_moved moves rest plain given.right)

theorem FunctionDecl.alike_moved {K : Link} {f g : Nat → Nat} {d : Nat → Option Nat}
    (moves : K.Moves g) :
    ∀ {σs : List Renaming} (h : FunctionDecl), Renaming.Plain σs → K.Admits f d h.ids h.words →
      h.Alike K σs ((h.mapLines g).mapIds f)
  | _, .mk name parameters body, plain, given => by
    have named : List.Forall₂ (Name.Declared K .same) parameters
        (parameters.map (Name.mapLine g)) :=
      List.forall₂_map_right_iff.mpr <| List.forall₂_same.mpr fun parameter mem =>
        parameter.declared_mapLine moves <| given.rest.known _ <|
          List.mem_append_left _ (List.mem_map_of_mem mem)
    exact .mk (name.declared_mapLine moves given.first) moves.renames named
      (Stmt.allAlike_moved moves body plain.cons given.rest.tail)

theorem FunctionDecl.allAlike_moved {K : Link} {f g : Nat → Nat} {d : Nat → Option Nat}
    (moves : K.Moves g) :
    ∀ {σs : List Renaming} (hs : List FunctionDecl), Renaming.Plain σs →
      K.Admits f d (FunctionDecl.idsAll hs) (FunctionDecl.wordsAll hs) →
      FunctionDecl.AllAlike K σs hs (FunctionDecl.mapIdsAll f (FunctionDecl.mapLinesAll g hs))
  | _, [], _, _ => .nil
  | _, h :: rest, plain, given =>
    .cons (FunctionDecl.alike_moved moves h plain given.left)
      (FunctionDecl.allAlike_moved moves rest plain given.right)

end

-- What is not changed at all.

section

variable {K : Link} {d : Nat → Option Nat} {σs : List Renaming}

theorem Expr.alike_self (moves : K.Moves id) (plain : Renaming.Plain σs) (e : Expr)
    (given : K.Admits id d e.ids e.words) : e.Alike K σs e := by
  have alike := e.alike_moved moves plain given
  rwa [e.mapLines_id, e.mapIds_id] at alike

theorem Stmt.superclassAlike_self (moves : K.Moves id) (plain : Renaming.Plain σs)
    (above : Option Reference)
    (given : K.Admits id d (above.map Reference.id).toList
      (above.map fun above => above.name.text).toList) :
    Option.Rel (Reference.Alike K σs) above above := by
  cases above with
  | none => exact .none
  | some r => exact .some (r.alike_moved moves plain given)

theorem Expr.optionAlike_self (moves : K.Moves id) (plain : Renaming.Plain σs) (e : Option Expr)
    (given : K.Admits id d (Expr.idsOf e) (Expr.wordsOf e)) :
    Option.Rel (Expr.Alike K σs) e e := by
  cases e with
  | none => exact .none
  | some e => exact .some (e.alike_self moves plain given)

theorem Stmt.alike_self (moves : K.Moves id) (s : Stmt) (plain : Renaming.Plain σs)
    (given : K.Admits id d s.ids s.words) : s.Alike K σs s := by
  have alike := s.alike_moved moves plain given
  rwa [s.mapLines_id, s.mapIds_id] at alike

theorem Stmt.allAlike_self (moves : K.Moves id) (body : List Stmt) (plain : Renaming.Plain σs)
    (given : K.Admits id d (Stmt.idsAll body) (Stmt.wordsAll body)) :
    Stmt.AllAlike K σs body body := by
  have alike := Stmt.allAlike_moved moves body plain given
  rwa [Stmt.mapLinesAll_id, Stmt.mapIdsAll_id] at alike

theorem FunctionDecl.allAlike_self (moves : K.Moves id) (fs : List FunctionDecl)
    (plain : Renaming.Plain σs)
    (given : K.Admits id d (FunctionDecl.idsAll fs) (FunctionDecl.wordsAll fs)) :
    FunctionDecl.AllAlike K σs fs fs := by
  have alike := FunctionDecl.allAlike_moved moves fs plain given
  rwa [FunctionDecl.mapLinesAll_id, FunctionDecl.mapIdsAll_id] at alike

end

def Link.Levels (K : Link) (g g' : Nat → Nat) : Prop :=
  ∀ {line line' : Nat}, K.lines line line' → g' line' = g line

section

variable {K : Link} {g g' : Nat → Nat} {σs : List Renaming}

theorem Name.Alike.form (levels : K.Levels g g') {n n' : Name} (h : n.Alike K n') :
    n'.mapLine g' = n.mapLine g := by
  simp [Name.mapLine, h.text, levels h.line]

theorem Name.Declared.form (levels : K.Levels g g') {n n' : Name} (h : n.Declared K .same n') :
    n'.mapLine g' = n.mapLine g := by
  simp [Name.mapLine, h.text, levels h.line]

theorem Reference.Alike.form (levels : K.Levels g g') (plain : Renaming.Plain σs)
    {r r' : Reference} (h : r.Alike K σs r') :
    (r'.mapLine g').mapId (fun _ => 0) = (r.mapLine g).mapId fun _ => 0 := by
  obtain ⟨d, -, text⟩ := h.linked
  rw [plain.reached] at text
  simp [Reference.mapLine, Reference.mapId, Name.mapLine, text, levels h.line]

mutual

theorem Expr.Alike.form (levels : K.Levels g g') (plain : Renaming.Plain σs) :
    ∀ {e e' : Expr}, e.Alike K σs e' →
      (e'.mapLines g').mapIds (fun _ => 0) = (e.mapLines g).mapIds fun _ => 0
  | _, _, .literal => rfl
  | _, _, .grouping h => by
    simp only [Expr.mapLines, Expr.mapIds, h.form levels plain]
  | _, _, .unary line h => by
    simp only [Expr.mapLines, Expr.mapIds, levels line, h.form levels plain]
  | _, _, .binary line h h' => by
    simp only [Expr.mapLines, Expr.mapIds, levels line, h.form levels plain, h'.form levels plain]
  | _, _, .logical h h' => by
    simp only [Expr.mapLines, Expr.mapIds, h.form levels plain, h'.form levels plain]
  | _, _, .var r | _, _, .self r => by
    simp only [Expr.mapLines, Expr.mapIds, r.form levels plain]
  | _, _, .assign r h => by
    simp only [Expr.mapLines, Expr.mapIds, r.form levels plain, h.form levels plain]
  | _, _, .call line h hs => by
    simp only [Expr.mapLines, Expr.mapIds, levels line, h.form levels plain, hs.form levels plain]
  | _, _, .get name h => by
    simp only [Expr.mapLines, Expr.mapIds, name.form levels, h.form levels plain]
  | _, _, .set name h h' => by
    simp only [Expr.mapLines, Expr.mapIds, name.form levels, h.form levels plain,
      h'.form levels plain]
  | _, _, .super r name => by
    simp only [Expr.mapLines, Expr.mapIds, r.form levels plain, name.form levels]

theorem Expr.AllAlike.form (levels : K.Levels g g') (plain : Renaming.Plain σs) :
    ∀ {es es' : List Expr}, Expr.AllAlike K σs es es' →
      Expr.mapIdsAll (fun _ => 0) (Expr.mapLinesAll g' es') =
        Expr.mapIdsAll (fun _ => 0) (Expr.mapLinesAll g es)
  | _, _, .nil => rfl
  | _, _, .cons h hs => by
    simp only [Expr.mapLinesAll, Expr.mapIdsAll, h.form levels plain, hs.form levels plain]

end

theorem Expr.optionAlike_form (levels : K.Levels g g') (plain : Renaming.Plain σs)
    {e e' : Option Expr} (h : Option.Rel (Expr.Alike K σs) e e') :
    (e'.map (Expr.mapLines g')).map (Expr.mapIds fun _ => 0) =
      (e.map (Expr.mapLines g)).map (Expr.mapIds fun _ => 0) := by
  cases h with
  | none => rfl
  | some h => simp only [Option.map_some, h.form levels plain]

theorem Reference.optionAlike_form (levels : K.Levels g g') (plain : Renaming.Plain σs)
    {r r' : Option Reference} (h : Option.Rel (Reference.Alike K σs) r r') :
    (r'.map (Reference.mapLine g')).map (Reference.mapId fun _ => 0) =
      (r.map (Reference.mapLine g)).map (Reference.mapId fun _ => 0) := by
  cases h with
  | none => rfl
  | some h => simp only [Option.map_some, h.form levels plain]

theorem Name.declaredAll_form (levels : K.Levels g g') {names names' : List Name}
    (h : List.Forall₂ (Name.Declared K .same) names names') :
    names'.map (Name.mapLine g') = names.map (Name.mapLine g) := by
  induction h with
  | nil => rfl
  | cons first _ ih => simp only [List.map_cons, first.form levels, ih]

end

mutual

theorem Stmt.Alike.form {K : Link} {g g' : Nat → Nat} (levels : K.Levels g g')
    (fixed : K.Plain) :
    ∀ {σs : List Renaming} {s s' : Stmt}, Renaming.Plain σs → s.Alike K σs s' →
      (s'.mapLines g').mapIds (fun _ => 0) = (s.mapLines g).mapIds fun _ => 0
  | _, _, _, plain, .expression h | _, _, _, plain, .print h => by
    simp only [Stmt.mapLines, Stmt.mapIds, h.form levels plain]
  | _, _, _, plain, .varDecl name h => by
    rw [plain.innermost] at name
    simp only [Stmt.mapLines, Stmt.mapIds, name.form levels, Expr.optionAlike_form levels plain h]
  | _, _, _, plain, .block known h => by
    obtain rfl := fixed _ known
    simp only [Stmt.mapLines, Stmt.mapIds, h.form levels fixed plain.cons]
  | _, _, _, plain, .ifElse h h' => by
    simp only [Stmt.mapLines, Stmt.mapIds, h.form levels plain, h'.form levels fixed plain]
  | _, _, _, plain, .ifBoth h h' h'' => by
    simp only [Stmt.mapLines, Stmt.mapIds, h.form levels plain, h'.form levels fixed plain,
      h''.form levels fixed plain]
  | _, _, _, plain, .loop h h' step => by
    simp only [Stmt.mapLines, Stmt.mapIds, h.form levels plain, h'.form levels fixed plain,
      Expr.optionAlike_form levels plain step]
  | _, _, _, plain, .funDecl _ h => by
    simp only [Stmt.mapLines, Stmt.mapIds, h.form levels fixed plain]
  | _, _, _, plain, .classDecl name _ above h => by
    rw [plain.innermost] at name
    simp only [Stmt.mapLines, Stmt.mapIds, name.form levels,
      Reference.optionAlike_form levels plain above, h.form levels fixed (plain.ofMethod _)]
  | _, _, _, plain, .returning line h => by
    simp only [Stmt.mapLines, Stmt.mapIds, levels line, Expr.optionAlike_form levels plain h]
  | _, _, _, _, .jump => rfl

theorem Stmt.AllAlike.form {K : Link} {g g' : Nat → Nat} (levels : K.Levels g g')
    (fixed : K.Plain) :
    ∀ {σs : List Renaming} {body body' : List Stmt}, Renaming.Plain σs →
      Stmt.AllAlike K σs body body' →
      Stmt.mapIdsAll (fun _ => 0) (Stmt.mapLinesAll g' body') =
        Stmt.mapIdsAll (fun _ => 0) (Stmt.mapLinesAll g body)
  | _, _, _, _, .nil => rfl
  | _, _, _, plain, .cons h hs => by
    simp only [Stmt.mapLinesAll, Stmt.mapIdsAll, h.form levels fixed plain,
      hs.form levels fixed plain]

theorem FunctionDecl.Alike.form {K : Link} {g g' : Nat → Nat} (levels : K.Levels g g')
    (fixed : K.Plain) :
    ∀ {σs : List Renaming} {d d' : FunctionDecl}, Renaming.Plain σs → d.Alike K σs d' →
      (d'.mapLines g').mapIds (fun _ => 0) = (d.mapLines g).mapIds fun _ => 0
  | _, _, _, plain, .mk name known parameters h => by
    obtain rfl := fixed _ known
    simp only [FunctionDecl.mapLines, FunctionDecl.mapIds, name.form levels,
      Name.declaredAll_form levels parameters, h.form levels fixed plain.cons]

theorem FunctionDecl.AllAlike.form {K : Link} {g g' : Nat → Nat} (levels : K.Levels g g')
    (fixed : K.Plain) :
    ∀ {σs : List Renaming} {ds ds' : List FunctionDecl}, Renaming.Plain σs →
      FunctionDecl.AllAlike K σs ds ds' →
      FunctionDecl.mapIdsAll (fun _ => 0) (FunctionDecl.mapLinesAll g' ds') =
        FunctionDecl.mapIdsAll (fun _ => 0) (FunctionDecl.mapLinesAll g ds)
  | _, _, _, _, .nil => rfl
  | _, _, _, plain, .cons h hs => by
    simp only [FunctionDecl.mapLinesAll, FunctionDecl.mapIdsAll, h.form levels fixed plain,
      hs.form levels fixed plain]

end

end ScopeScript
