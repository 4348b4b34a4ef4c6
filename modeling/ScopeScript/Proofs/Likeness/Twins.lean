import ScopeScript.Proofs.Likeness.Moved
import ScopeScript.Proofs.Parsing.Uniformity
import ScopeScript.Proofs.Scope.Walk

set_option autoImplicit false

namespace ScopeScript

def Expr.form (g : Nat → Nat) (e : Expr) : Expr := (e.mapLines g).anonymous

mutual

theorem Expr.mapIds_mapLines (g f : Nat → Nat) :
    ∀ e : Expr, (e.mapLines g).mapIds f = (e.mapIds f).mapLines g
  | .literal _ | .var _ | .self _ | .super .. => rfl
  | .grouping inner | .unary _ _ inner | .assign _ inner | .get inner _ => by
    simp only [Expr.mapLines, Expr.mapIds, Expr.mapIds_mapLines g f inner]
    try rfl
  | .binary _ _ left right | .logical _ left right | .set left _ right => by
    simp only [Expr.mapLines, Expr.mapIds, Expr.mapIds_mapLines g f left,
      Expr.mapIds_mapLines g f right]
  | .call callee _ arguments => by
    simp only [Expr.mapLines, Expr.mapIds, Expr.mapIds_mapLines g f callee,
      Expr.mapIdsAll_mapLinesAll g f arguments]

theorem Expr.mapIdsAll_mapLinesAll (g f : Nat → Nat) :
    ∀ es : List Expr,
      Expr.mapIdsAll f (Expr.mapLinesAll g es) = Expr.mapLinesAll g (Expr.mapIdsAll f es)
  | [] => rfl
  | e :: rest => by
    simp only [Expr.mapLinesAll, Expr.mapIdsAll, Expr.mapIds_mapLines g f e,
      Expr.mapIdsAll_mapLinesAll g f rest]

end

theorem Expr.form_of_anonymous {g : Nat → Nat} {e e' : Expr} (same : e.anonymous = e'.anonymous) :
    e.form g = e'.form g := by
  unfold Expr.form Expr.anonymous at *
  rw [Expr.mapIds_mapLines, Expr.mapIds_mapLines, same]

def Link.twins (g : Nat → Nat) (related : Nat → Nat → Prop) : Link where
  lines a b := g a = g b
  renames σ := σ = .same
  linked i j _ := related i j
  names _ := True

/--
The expressions are written with the same words, and each reference of the one is as far from its
variable as that of the other.
-/
def Expr.Twins (g : Nat → Nat) (table table' : Resolution) (e e' : Expr) : Prop :=
  e.Alike (.twins g fun i j => table[i]? = table'[j]?) [] e'

theorem Expr.twins_self (g : Nat → Nat) (table : Resolution) (e : Expr) :
    e.Twins g table table e :=
  e.alike_self (d := fun _ => none) ⟨fun _ => rfl, rfl⟩ Renaming.plain_nil
    ⟨fun _ _ => rfl, fun _ _ => trivial⟩

theorem Name.alike_of_form {g : Nat → Nat} {related : Nat → Nat → Prop} {n n' : Name}
    (same : n.mapLine g = n'.mapLine g) : n.Alike (.twins g related) n' := by
  simp only [Name.mapLine, Name.mk.injEq] at same
  exact ⟨same.2, same.1.symm⟩

theorem Reference.alike_of_form {g : Nat → Nat} {related : Nat → Nat → Prop} {r r' : Reference}
    (same : r.name.mapLine g = r'.name.mapLine g) (linked : related r.id r'.id) :
    r.Alike (.twins g related) [] r' := by
  simp only [Name.mapLine, Name.mk.injEq] at same
  exact ⟨⟨none, linked, same.1.symm⟩, same.2, trivial⟩

mutual

theorem Expr.alike_of_form {g : Nat → Nat} : ∀ {e e' : Expr}, e.form g = e'.form g →
    e.Alike (.twins g fun _ _ => True) [] e'
  | .literal value, e', same => by
    cases e' <;> simp [Expr.form, Expr.anonymous, Expr.mapLines, Expr.mapIds] at same
    exact same ▸ .literal
  | .grouping inner, e', same => by
    cases e' <;> simp [Expr.form, Expr.anonymous, Expr.mapLines, Expr.mapIds] at same
    exact .grouping (Expr.alike_of_form same)
  | .unary op line operand, e', same => by
    cases e' <;> simp [Expr.form, Expr.anonymous, Expr.mapLines, Expr.mapIds] at same
    obtain ⟨rfl, line, same⟩ := same
    exact .unary line (Expr.alike_of_form same)
  | .binary op line left right, e', same => by
    cases e' <;> simp [Expr.form, Expr.anonymous, Expr.mapLines, Expr.mapIds] at same
    obtain ⟨rfl, line, first, second⟩ := same
    exact .binary line (Expr.alike_of_form first) (Expr.alike_of_form second)
  | .logical op left right, e', same => by
    cases e' <;> simp [Expr.form, Expr.anonymous, Expr.mapLines, Expr.mapIds] at same
    obtain ⟨rfl, first, second⟩ := same
    exact .logical (Expr.alike_of_form first) (Expr.alike_of_form second)
  | .var r, e', same => by
    cases e' <;> simp [Expr.form, Expr.anonymous, Expr.mapLines, Expr.mapIds, Reference.mapId,
      Reference.mapLine] at same
    exact .var (Reference.alike_of_form same trivial)
  | .assign r value, e', same => by
    cases e' <;> simp [Expr.form, Expr.anonymous, Expr.mapLines, Expr.mapIds, Reference.mapId,
      Reference.mapLine] at same
    exact .assign (Reference.alike_of_form same.1 trivial) (Expr.alike_of_form same.2)
  | .call callee line arguments, e', same => by
    cases e' <;> simp [Expr.form, Expr.anonymous, Expr.mapLines, Expr.mapIds] at same
    obtain ⟨first, line, rest⟩ := same
    exact .call line (Expr.alike_of_form first) (Expr.allAlike_of_form rest)
  | .get object name, e', same => by
    cases e' <;> simp [Expr.form, Expr.anonymous, Expr.mapLines, Expr.mapIds] at same
    exact .get (Name.alike_of_form same.2) (Expr.alike_of_form same.1)
  | .set object name value, e', same => by
    cases e' <;> simp [Expr.form, Expr.anonymous, Expr.mapLines, Expr.mapIds] at same
    obtain ⟨first, name, second⟩ := same
    exact .set (Name.alike_of_form name) (Expr.alike_of_form first) (Expr.alike_of_form second)
  | .self r, e', same => by
    cases e' <;> simp [Expr.form, Expr.anonymous, Expr.mapLines, Expr.mapIds, Reference.mapId,
      Reference.mapLine] at same
    exact .self (Reference.alike_of_form same trivial)
  | .super r method, e', same => by
    cases e' <;> simp [Expr.form, Expr.anonymous, Expr.mapLines, Expr.mapIds, Reference.mapId,
      Reference.mapLine] at same
    exact .super (Reference.alike_of_form same.1 trivial) (Name.alike_of_form same.2)

theorem Expr.allAlike_of_form {g : Nat → Nat} : ∀ {es es' : List Expr},
    Expr.mapIdsAll (fun _ => 0) (Expr.mapLinesAll g es) =
      Expr.mapIdsAll (fun _ => 0) (Expr.mapLinesAll g es') →
    Expr.AllAlike (.twins g fun _ _ => True) [] es es'
  | [], es', same => by
    cases es' with
    | nil => exact .nil
    | cons e' rest' => cases same
  | e :: rest, es', same => by
    cases es' with
    | nil => cases same
    | cons e' rest' =>
      simp only [Expr.mapLinesAll, Expr.mapIdsAll, List.cons.injEq] at same
      exact .cons (Expr.alike_of_form same.1) (Expr.allAlike_of_form same.2)

end

-- What the resolver notes.

structure ScopeState.Level (g : Nat → Nat) (s s' : ScopeState) : Prop where
  scopes : s.scopes = s'.scopes
  faults : s.faults.map (Diagnostic.mapLine g) = s'.faults.map (Diagnostic.mapLine g)

namespace ScopeState.Level

variable {g : Nat → Nat} {related : Nat → Nat → Prop} {s s' : ScopeState} {r r' : Reference}

theorem text (alike : r.Alike (.twins g related) [] r') : r'.name.text = r.name.text := by
  obtain ⟨d, -, text⟩ := alike.linked
  rwa [Renaming.plain_nil.reached, Renaming.same_apply] at text

theorem note (h : s.Level g s') (alike : r.Alike (.twins g related) [] r') (fault : ScopeFault) :
    (s.note r.name fault).Level g (s'.note r'.name fault) := by
  have line : g r.name.line = g r'.name.line := alike.line
  refine ⟨h.scopes, ?_⟩
  simp [ScopeState.note, Diagnostic.mapLine, Place.mapLine, h.faults, line, text alike]

theorem resolve (h : s.Level g s') (r r' : Reference) : (s.resolve r).Level g (s'.resolve r') := by
  refine ⟨?_, ?_⟩
  · rw [scopes_resolve, scopes_resolve, h.scopes]
  · rw [faults_resolve, faults_resolve, h.faults]

theorem use (h : s.Level g s') (alike : r.Alike (.twins g related) [] r') :
    (s.use r).Level g (s'.use r') := by
  have pending : s'.isPending r'.name.text = s.isPending r.name.text := by
    rw [isPending, isPending, h.scopes, text alike]
  unfold ScopeState.use
  rw [pending]
  cases s.isPending r.name.text with
  | false => exact h.resolve r r'
  | true => exact (h.note alike _).resolve r r'

end ScopeState.Level

mutual

theorem Expr.Alike.level {g : Nat → Nat} {related : Nat → Nat → Prop} (context : ScopeContext) :
    ∀ {e e' : Expr} {s s' : ScopeState}, e.Alike (.twins g related) [] e' → s.Level g s' →
      (e.scopes context s).Level g (e'.scopes context s')
  | _, _, _, _, .literal, h => h
  | _, _, _, _, .grouping inner, h | _, _, _, _, .unary _ inner, h | _, _, _, _, .get _ inner, h =>
    inner.level context h
  | _, _, _, _, .binary _ left right, h | _, _, _, _, .logical left right, h =>
    right.level context (left.level context h)
  | _, _, _, _, .set _ object value, h => object.level context (value.level context h)
  | _, _, _, _, .var r, h => h.use r
  | _, _, _, _, .assign _ value, h => (value.level context h).resolve _ _
  | _, _, _, _, .call _ callee arguments, h => arguments.level context (callee.level context h)
  | _, _, _, _, .self r, h => by
    unfold Expr.scopes
    cases context.owner with
    | outside => exact h.note r _
    | base | derived => exact h.resolve _ _
  | _, _, _, _, .super r _, h => by
    unfold Expr.scopes
    cases context.owner with
    | outside | base => exact h.note r _
    | derived => exact h.resolve _ _

theorem Expr.AllAlike.level {g : Nat → Nat} {related : Nat → Nat → Prop} (context : ScopeContext) :
    ∀ {es es' : List Expr} {s s' : ScopeState}, Expr.AllAlike (.twins g related) [] es es' →
      s.Level g s' → (Expr.scopesAll context es s).Level g (Expr.scopesAll context es' s')
  | _, _, _, _, .nil, h => h
  | _, _, _, _, .cons first rest, h => rest.level context (first.level context h)

end

-- What the resolver enters.

theorem ScopeState.getElem?_resolve_self {s : ScopeState} {r : Reference}
    (fresh : s.resolution[r.id]? = none) :
    (s.resolve r).resolution[r.id]? = s.distance? r.name.text := by
  unfold resolve
  cases s.distance? r.name.text with
  | none => exact fresh
  | some distance => simp

structure ScopeState.Meets (s : ScopeState) (ids : List Nat) : Prop where
  distinct : ids.Nodup
  fresh : ∀ i ∈ ids, s.resolution[i]? = none

def ScopeState.Records (s : ScopeState) (table : Resolution) (ids : List Nat) : Prop :=
  ∀ i ∈ ids, table[i]? = s.resolution[i]?

namespace ScopeState

variable {context : ScopeContext} {s s' : ScopeState} {table : Resolution} {ids xs ys : List Nat}

theorem Meets.comm (h : s.Meets (xs ++ ys)) : s.Meets (ys ++ xs) :=
  ⟨List.perm_append_comm.nodup_iff.mp h.distinct, fun i mem =>
    h.fresh i (List.mem_append.mpr (List.mem_append.mp mem).symm)⟩

theorem Meets.left (h : s.Meets (xs ++ ys)) : s.Meets xs :=
  ⟨(List.nodup_append.mp h.distinct).1, fun i mem => h.fresh i (List.mem_append_left _ mem)⟩

theorem Meets.apart (h : s.Meets (xs ++ ys)) : ∀ i ∈ xs, i ∉ ys := fun i first second =>
  (List.nodup_append.mp h.distinct).2.2 i first i second rfl

theorem Meets.behind (h : s.Meets (xs ++ ys))
    (kept : ∀ i, i ∉ xs → s'.resolution[i]? = s.resolution[i]?) : s'.Meets ys :=
  ⟨h.comm.left.distinct, fun i mem =>
    (kept i (h.comm.apart i mem)).trans (h.fresh i (List.mem_append_right _ mem))⟩

theorem Records.left (h : s.Records table (xs ++ ys)) : s.Records table xs :=
  fun i mem => h i (List.mem_append_left _ mem)

theorem Records.right (h : s.Records table (xs ++ ys)) : s.Records table ys :=
  fun i mem => h i (List.mem_append_right _ mem)

theorem Records.before (h : s'.Records table xs) (apart : ∀ i ∈ xs, i ∉ ys)
    (kept : ∀ i, i ∉ ys → s'.resolution[i]? = s.resolution[i]?) : s.Records table xs :=
  fun i mem => (h i mem).trans (kept i (apart i mem))

end ScopeState

section

variable {context : ScopeContext} {s s' : ScopeState} {table : Resolution} {xs ys : List Nat}

theorem Expr.scopes_congr (e e' : Expr) (same : s.scopes = s'.scopes) :
    (e.scopes context s).scopes = (e'.scopes context s').scopes := by
  rw [e.scopes_scopes, e'.scopes_scopes, same]

theorem Expr.meets_behind (e : Expr) (h : s.Meets (e.ids ++ ys)) : (e.scopes context s).Meets ys :=
  h.behind fun _ outside => e.getElem?_scopes context s outside

theorem Expr.records_before (e : Expr) (h : (e.scopes context s).Records table xs)
    (apart : ∀ i ∈ xs, i ∉ e.ids) : s.Records table xs :=
  h.before apart fun _ outside => e.getElem?_scopes context s outside

end

structure ScopeState.Beside (table table' : Resolution) (ids ids' : List Nat)
    (s s' t t' : ScopeState) : Prop where
  scopes : s.scopes = s'.scopes
  meets : s.Meets ids
  meets' : s'.Meets ids'
  recorded : t.Records table ids
  recorded' : t'.Records table' ids'

section

variable {table table' : Resolution} {xs ys xs' ys' : List Nat} {s s' t t' u u' : ScopeState}

namespace ScopeState.Beside

theorem swap (h : Beside table table' (xs ++ ys) (xs' ++ ys') s s' t t') :
    Beside table table' (ys ++ xs) (ys' ++ xs') s s' t t' where
  scopes := h.scopes
  meets := h.meets.comm
  meets' := h.meets'.comm
  recorded i mem := h.recorded i (List.mem_append.mpr (List.mem_append.mp mem).symm)
  recorded' i mem := h.recorded' i (List.mem_append.mpr (List.mem_append.mp mem).symm)

theorem of_resolution (h : Beside table table' xs xs' s s' t t')
    (same : t.resolution = u.resolution) (same' : t'.resolution = u'.resolution) :
    Beside table table' xs xs' s s' u u' where
  scopes := h.scopes
  meets := h.meets
  meets' := h.meets'
  recorded i mem := same ▸ h.recorded i mem
  recorded' i mem := same' ▸ h.recorded' i mem

-- Each part of the walk enters nothing but the references of its own.
theorem split (h : Beside table table' (xs ++ ys) (xs' ++ ys') s s' t t')
    (scopes : u.scopes = u'.scopes)
    (first : ∀ i, i ∉ xs → u.resolution[i]? = s.resolution[i]?)
    (first' : ∀ i, i ∉ xs' → u'.resolution[i]? = s'.resolution[i]?)
    (second : ∀ i, i ∉ ys → t.resolution[i]? = u.resolution[i]?)
    (second' : ∀ i, i ∉ ys' → t'.resolution[i]? = u'.resolution[i]?) :
    Beside table table' xs xs' s s' u u' ∧ Beside table table' ys ys' u u' t t' := by
  constructor
  · exact ⟨h.scopes, h.meets.left, h.meets'.left, h.recorded.left.before h.meets.apart second,
      h.recorded'.left.before h.meets'.apart second'⟩
  · exact ⟨scopes, h.meets.behind first, h.meets'.behind first', h.recorded.right,
      h.recorded'.right⟩

variable {context : ScopeContext}

theorem exprs (e e' f f' : Expr) (h : Beside table table' (e.ids ++ f.ids) (e'.ids ++ f'.ids) s s'
      (f.scopes context (e.scopes context s)) (f'.scopes context (e'.scopes context s'))) :
    Beside table table' e.ids e'.ids s s' (e.scopes context s) (e'.scopes context s') ∧
      Beside table table' f.ids f'.ids (e.scopes context s) (e'.scopes context s')
        (f.scopes context (e.scopes context s)) (f'.scopes context (e'.scopes context s')) :=
  h.split (e.scopes_congr e' h.scopes) (fun _ => e.getElem?_scopes context s)
    (fun _ => e'.getElem?_scopes context s') (fun _ => f.getElem?_scopes context _)
    (fun _ => f'.getElem?_scopes context _)

theorem list (e e' : Expr) (es es' : List Expr)
    (h : Beside table table' (e.ids ++ Expr.idsAll es) (e'.ids ++ Expr.idsAll es') s s'
      (Expr.scopesAll context es (e.scopes context s))
      (Expr.scopesAll context es' (e'.scopes context s'))) :
    Beside table table' e.ids e'.ids s s' (e.scopes context s) (e'.scopes context s') ∧
      Beside table table' (Expr.idsAll es) (Expr.idsAll es') (e.scopes context s)
        (e'.scopes context s') (Expr.scopesAll context es (e.scopes context s))
        (Expr.scopesAll context es' (e'.scopes context s')) :=
  h.split (e.scopes_congr e' h.scopes) (fun _ => e.getElem?_scopes context s)
    (fun _ => e'.getElem?_scopes context s') (fun _ => Expr.getElem?_scopesAll context es _)
    (fun _ => Expr.getElem?_scopesAll context es' _)

theorem assigned (r r' : Reference) (e e' : Expr)
    (h : Beside table table' ([r.id] ++ e.ids) ([r'.id] ++ e'.ids) s s'
      ((e.scopes context s).resolve r) ((e'.scopes context s').resolve r')) :
    Beside table table' e.ids e'.ids s s' (e.scopes context s) (e'.scopes context s') ∧
      Beside table table' [r.id] [r'.id] (e.scopes context s) (e'.scopes context s')
        ((e.scopes context s).resolve r) ((e'.scopes context s').resolve r') :=
  h.swap.split (e.scopes_congr e' h.scopes) (fun _ => e.getElem?_scopes context s)
    (fun _ => e'.getElem?_scopes context s')
    (fun _ outside => getElem?_resolve _ (by simpa using outside))
    (fun _ outside => getElem?_resolve _ (by simpa using outside))

variable {g : Nat → Nat} {related : Nat → Nat → Prop} {r r' : Reference}

theorem resolved (h : Beside table table' [r.id] [r'.id] s s' (s.resolve r) (s'.resolve r'))
    (alike : r.Alike (.twins g related) [] r') :
    r.Alike (.twins g fun i j => table[i]? = table'[j]?) [] r' := by
  have text := Level.text alike
  have same : table[r.id]? = table'[r'.id]? := by
    rw [h.recorded _ (by simp), h.recorded' _ (by simp),
      getElem?_resolve_self (h.meets.fresh _ (by simp)),
      getElem?_resolve_self (h.meets'.fresh _ (by simp)), distance?, distance?, h.scopes, text]
  exact ⟨⟨none, same, text⟩, alike.line, trivial⟩

theorem unresolved (h : Beside table table' [r.id] [r'.id] s s' t t')
    (kept : t.resolution = s.resolution) (kept' : t'.resolution = s'.resolution)
    (alike : r.Alike (.twins g related) [] r') :
    r.Alike (.twins g fun i j => table[i]? = table'[j]?) [] r' := by
  have same : table[r.id]? = table'[r'.id]? := by
    rw [h.recorded _ (by simp), h.recorded' _ (by simp), kept, kept', h.meets.fresh _ (by simp),
      h.meets'.fresh _ (by simp)]
  exact ⟨⟨none, same, Level.text alike⟩, alike.line, trivial⟩

end ScopeState.Beside

end

mutual

theorem Expr.Alike.twins {g : Nat → Nat} {related : Nat → Nat → Prop} {table table' : Resolution}
    (context : ScopeContext) : ∀ {e e' : Expr} {s s' : ScopeState},
      e.Alike (.twins g related) [] e' → ScopeState.Beside table table' e.ids e'.ids s s'
        (e.scopes context s) (e'.scopes context s') → e.Twins g table table' e'
  | _, _, _, _, .literal, _ => .literal
  | _, _, _, _, .grouping inner, h => .grouping (inner.twins context h)
  | _, _, _, _, .unary line inner, h => .unary line (inner.twins context h)
  | _, _, _, _, .get name inner, h => .get ⟨name.line, name.text⟩ (inner.twins context h)
  | .binary _ _ e f, .binary _ _ e' f', _, _, .binary line left right, h =>
    have ⟨first, second⟩ := ScopeState.Beside.exprs e e' f f' h
    .binary line (left.twins context first) (right.twins context second)
  | .logical _ e f, .logical _ e' f', _, _, .logical left right, h =>
    have ⟨first, second⟩ := ScopeState.Beside.exprs e e' f f' h
    .logical (left.twins context first) (right.twins context second)
  | .set o _ v, .set o' _ v', _, _, .set name object value, h =>
    have ⟨first, second⟩ := ScopeState.Beside.exprs v v' o o' (ScopeState.Beside.swap h)
    .set ⟨name.line, name.text⟩ (object.twins context second) (value.twins context first)
  | .var r, .var r', s, s', .var alike, h =>
    .var ((h.of_resolution (s.resolution_use r) (s'.resolution_use r')).resolved alike)
  | .assign r v, .assign r' v', _, _, .assign alike value, h =>
    have ⟨first, second⟩ := ScopeState.Beside.assigned r r' v v' h
    .assign (second.resolved alike) (value.twins context first)
  | .call e _ es, .call e' _ es', _, _, .call line callee arguments, h =>
    have ⟨first, second⟩ := ScopeState.Beside.list e e' es es' h
    .call line (callee.twins context first) (arguments.twins context second)
  | _, _, _, _, .self alike, h => by
    unfold Expr.scopes at h
    cases owner : context.owner with
    | outside =>
      rw [owner] at h
      exact .self (h.unresolved rfl rfl alike)
    | base | derived =>
      rw [owner] at h
      exact .self (h.resolved alike)
  | _, _, _, _, .super alike method, h => by
    unfold Expr.scopes at h
    cases owner : context.owner with
    | outside | base =>
      rw [owner] at h
      exact .super (h.unresolved rfl rfl alike) ⟨method.line, method.text⟩
    | derived =>
      rw [owner] at h
      exact .super (h.resolved alike) ⟨method.line, method.text⟩

theorem Expr.AllAlike.twins {g : Nat → Nat} {related : Nat → Nat → Prop} {table table' : Resolution}
    (context : ScopeContext) : ∀ {es es' : List Expr} {s s' : ScopeState},
      Expr.AllAlike (.twins g related) [] es es' →
        ScopeState.Beside table table' (Expr.idsAll es) (Expr.idsAll es') s s'
          (Expr.scopesAll context es s) (Expr.scopesAll context es' s') →
        Expr.AllAlike (.twins g fun i j => table[i]? = table'[j]?) [] es es'
  | _, _, _, _, .nil, _ => .nil
  | e :: es, e' :: es', _, _, .cons first rest, h =>
    have ⟨one, others⟩ := ScopeState.Beside.list e e' es es' h
    .cons (first.twins context one) (rest.twins context others)

end

end ScopeScript
