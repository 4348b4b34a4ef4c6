import ScopeScript.Proofs.Execution.Updates

set_option autoImplicit false

namespace ScopeScript

def Expr.Entered (context : ScopeContext) (scopes : List (Bindings Status)) (table : Resolution)
    (e : Expr) : Prop :=
  ∃ s : ScopeState, s.scopes = scopes ∧ s.Meets e.ids ∧ (e.scopes context s).Records table e.ids

theorem Expr.twins_of_entered {g : Nat → Nat} {context : ScopeContext}
    {scopes : List (Bindings Status)} {table table' : Resolution} {e e' : Expr}
    (same : e.form g = e'.form g) (entered : e.Entered context scopes table)
    (entered' : e'.Entered context scopes table') : e.Twins g table table' e' := by
  obtain ⟨s, rfl, meets, recorded⟩ := entered
  obtain ⟨s', scopes, meets', recorded'⟩ := entered'
  exact (Expr.alike_of_form same).twins context ⟨scopes.symm, meets, meets', recorded, recorded'⟩

theorem Expr.entered_both {context : ScopeContext} {e e' : Expr} {s : ScopeState}
    (meets : s.Meets (e.ids ++ e'.ids)) {table : Resolution}
    (walked : (e'.scopes context (e.scopes context s)).resolution = table) :
    e.Entered context s.scopes table ∧ e'.Entered context s.scopes table := by
  subst walked
  refine ⟨⟨s, rfl, meets.left, e'.records_before (fun _ _ => rfl) meets.apart⟩, ?_⟩
  exact ⟨e.scopes context s, e.scopes_scopes context s, e.meets_behind meets, fun _ _ => rfl⟩

namespace Target

variable {context : ScopeContext} {s : ScopeState}

theorem ids_write (t : Target) (value : Expr) : (t.write value).ids = t.read.ids ++ value.ids := by
  cases t <;> rfl

theorem resolution_write (t : Target) (value : Expr) :
    ((t.write value).scopes context s).resolution =
      (t.read.scopes context (value.scopes context s)).resolution := by
  cases t with
  | named r => exact (ScopeState.resolution_use _ r).symm
  | property object name => rfl

end Target

namespace Update

variable {u u' : Update} {context : ScopeContext} {scopes : List (Bindings Status)}
  {table : Resolution}

theorem ids_tree (u : Update) :
    u.tree.ids = u.target.read.ids ++ (u.current.read.ids ++ u.value.ids) :=
  u.target.ids_write _

theorem ids_grouped (u : Update) : u.grouped.tree.ids = u.tree.ids := by
  rw [ids_tree, ids_tree]
  rfl

theorem scopes_grouped (u : Update) (context : ScopeContext) (s : ScopeState) :
    u.grouped.tree.scopes context s = u.tree.scopes context s := by
  obtain ⟨op, line, target, current, value⟩ := u
  cases target <;> rfl

theorem entered_grouped :
    u.grouped.tree.Entered context scopes table ↔ u.tree.Entered context scopes table := by
  simp only [Expr.Entered, ids_grouped, scopes_grouped]

theorem twins_current {g : Nat → Nat} (same : u.target.read.form g = u.current.read.form g)
    (entered : u.tree.Entered context scopes table) :
    u.target.read.Twins g table table u.current.read := by
  obtain ⟨s, -, meets, recorded⟩ := entered
  rw [ids_tree] at meets recorded
  have recorded : ∀ i ∈ u.target.read.ids ++ (u.current.read.ids ++ u.value.ids), table[i]? =
      (u.target.read.scopes context
        ((Expr.binary u.op u.line u.current.read u.value).scopes context s)).resolution[i]? := by
    intro i mem
    rw [← u.target.resolution_write]
    exact recorded i mem
  have value := u.target.read.records_before (ScopeState.Records.right recorded) meets.comm.apart
  exact (Expr.alike_of_form same).twins context {
    scopes := (Expr.binary u.op u.line u.current.read u.value).scopes_scopes context s
    meets := Expr.meets_behind _ meets.comm
    meets' := meets.comm.left.left
    recorded := ScopeState.Records.left recorded
    recorded' := u.value.records_before value.left meets.comm.left.apart }

theorem level {g : Nat → Nat} (same : u.tree.form g = u'.tree.form g) {s s' : ScopeState}
    (h : s.Level g s') :
    (u.tree.scopes context s).Level g (u'.grouped.tree.scopes context s') := by
  rw [scopes_grouped]
  exact (Expr.alike_of_form same).level context h

end Update

end ScopeScript
