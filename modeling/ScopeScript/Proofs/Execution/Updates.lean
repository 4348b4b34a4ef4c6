import ScopeScript.Proofs.Likeness.TwinRuns

set_option autoImplicit false

namespace ScopeScript

open Run

inductive Target where
  | named (reference : Reference)
  | property (object : Expr) (name : Name)

namespace Target

def read : Target → Expr
  | named r => .var r
  | property object name => .get object name

def write : Target → Expr → Expr
  | named r, value => .assign r value
  | property object name, value => .set object name value

end Target

structure Update where
  op : BinaryOp
  line : Nat
  target : Target
  current : Target
  value : Expr

namespace Update

def tree (u : Update) : Expr :=
  u.target.write (.binary u.op u.line u.current.read u.value)

def grouped (u : Update) : Update := { u with value := .grouping u.value }

end Update

namespace Run

-- Reading and writing a target.

def receiver (line : Nat) (fault : RuntimeFault) : Value → Run Instance
  | .instance i => pure i
  | _ => stop line fault

theorem Keeps.receiver (line : Nat) (fault : RuntimeFault) (value : Value) :
    Keeps (receiver line fault value) := by
  cases value with
  | «instance» => exact .pure
  | nil | bool | number | string | function | native | «class» => exact .stop

theorem Parallel.receiver {g : Nat → Nat} {R : Resolution} {line line' : Nat}
    (level : g line = g line') (fault : RuntimeFault) (value : Value) :
    Parallel g R (receiver line fault value) (receiver line' fault value) := by
  cases value with
  | «instance» => exact .refl _
  | nil | bool | number | string | function | native | «class» => exact .stop level _

end Run

namespace Target

def load (n : Nat) : Target → Run Value
  | named r => lookUp r
  | property object name => do
    let i ← receiver name.line .propertyOfNonInstance (← evaluate n object)
    Run.property i name

def store (n : Nat) (value : Run Value) : Target → Run Value
  | named r => do
    let value ← value
    assign r value
    return value
  | property object name => do
    let i ← receiver name.line .fieldOfNonInstance (← evaluate n object)
    let value ← value
    modifyStore fun s => s.setField i name.text value
    return value

theorem evaluate_read (n : Nat) (t : Target) : evaluate (n + 1) t.read = t.load n := by
  cases t with
  | named r => rfl
  | property object name =>
    refine congrArg (evaluate n object >>= ·) (funext fun value => ?_)
    cases value <;> rfl

theorem evaluate_write (n : Nat) (t : Target) (value : Expr) :
    evaluate (n + 1) (t.write value) = t.store n (evaluate n value) := by
  cases t with
  | named r => rfl
  | property object name =>
    refine congrArg (evaluate n object >>= ·) (funext fun value => ?_)
    cases value <;> rfl

theorem amounts_load (t : Target) : Amounts (evaluate · t.read) (t.load ·) := by
  simpa only [evaluate_read] using amounts_evaluate t.read

theorem amounts_write (t : Target) (value : Expr) :
    Amounts (evaluate · (t.write value)) fun n => t.store n (evaluate n value) := by
  simpa only [evaluate_write] using amounts_evaluate (t.write value)

theorem amounts_store {p q : Nat → Run Value} (same : Amounts p q) (t : Target) :
    Amounts (fun n => t.store n (p n)) fun n => t.store n (q n) := by
  cases t with
  | named r => exact same.bind fun value => .const _
  | property object name =>
    exact (Amounts.refl (deepening_evaluate object)).bind fun found =>
      (Amounts.const _).bind fun i => same.bind fun value => .const _

variable {g : Nat → Nat} {R : Resolution} {t t' : Target}

theorem parallel_load (twins : t.read.Twins g R R t'.read) (n : Nat) :
    Parallel g R (t.load n) (t'.load n) := by
  rw [← evaluate_read, ← evaluate_read]
  exact parallel_evaluate (n + 1) twins

theorem keeps_load (t : Target) (n : Nat) : Keeps (t.load n) := by
  rw [← evaluate_read]
  exact keeps_evaluate (n + 1) t.read

theorem parallel_store (twins : t.read.Twins g R R t'.read) {p p' : Run Value} (keeps : Keeps p)
    (same : Parallel g R p p') (n : Nat) : Parallel g R (t.store n p) (t'.store n p') := by
  cases t with
  | named r =>
    cases t' with
    | property => cases twins
    | named r' =>
      cases twins with
      | var alike =>
        exact same.bind keeps fun value => (Parallel.assign alike value).bind .assign
          fun _ => .refl _
  | property object name =>
    cases t' with
    | named => cases twins
    | property object' name' =>
      cases twins with
      | get alike inner =>
        refine (parallel_evaluate n inner).bind (keeps_evaluate n object) fun found => ?_
        refine Parallel.bind (.receiver _ _ _) (.receiver alike.line _ _) fun i => ?_
        rw [alike.text]
        exact same.bind keeps fun _ => .refl _

end Target

namespace Update

def run (n : Nat) (u : Update) : Run Value :=
  u.target.store n do
    let a ← u.current.load n
    let b ← evaluate n u.value
    ofOperation u.line (u.op.apply a b)

theorem amounts_tree (u : Update) : Amounts (evaluate · u.tree) (run · u) := by
  refine (u.target.amounts_write _).trans (u.target.amounts_store ?_)
  exact (amounts_evaluate _).trans <| u.current.amounts_load.bind fun a =>
    (Amounts.refl (deepening_evaluate u.value)).bind fun b => .const _

theorem amounts_grouped (u : Update) : Amounts (run · u.grouped) (run · u) :=
  u.target.amounts_store <| (Amounts.refl u.current.amounts_load.deepening').bind fun a =>
    (amounts_grouping u.value).bind fun b => .const (ofOperation u.line (u.op.apply a b))

theorem amounts_grouped_tree (u : Update) :
    Amounts (evaluate · u.grouped.tree) (evaluate · u.tree) :=
  (u.grouped.amounts_tree.trans u.amounts_grouped).trans u.amounts_tree.symm

theorem keeps_operation (u : Update) (n : Nat) : Keeps (do
    let a ← u.current.load n
    let b ← evaluate n u.value
    ofOperation u.line (u.op.apply a b)) :=
  (u.current.keeps_load n).bind fun _ => (keeps_evaluate n u.value).bind fun _ =>
    closedRuns_keeps.ofOperation _ _

variable {g : Nat → Nat} {R : Resolution} {u u' : Update}

theorem parallel_run (twins : u.target.read.Twins g R R u'.target.read)
    (twins' : u.current.read.Twins g R R u'.current.read) (same : u'.op = u.op)
    (level : g u.line = g u'.line) (value : u.value.Twins g R R u'.value) (n : Nat) :
    Parallel g R (u.run n) (u'.run n) := by
  refine Target.parallel_store twins (u.keeps_operation n) ?_ n
  refine (Target.parallel_load twins' n).bind (u.current.keeps_load n) fun a => ?_
  refine (parallel_evaluate n value).bind (keeps_evaluate n u.value) fun b => ?_
  rw [same]
  exact .ofOperation level _

end Update

def Target.update (n : Nat) (op : BinaryOp) (line : Nat) (value : Expr) : Target → Run Value
  | named r => do
    let old ← lookUp r
    let operand ← evaluate n value
    let result ← ofOperation line (op.apply old operand)
    assign r result
    return result
  | property object name => do
    let i ← receiver name.line .fieldOfNonInstance (← evaluate n object)
    let j ← receiver name.line .propertyOfNonInstance (← evaluate n object)
    let old ← Run.property j name
    let operand ← evaluate n value
    let result ← ofOperation line (op.apply old operand)
    modifyStore fun s => s.setField i name.text result
    return result

theorem Target.update_eq_run (n : Nat) (op : BinaryOp) (line : Nat) (value : Expr) (t : Target) :
    t.update n op line value = Update.run n ⟨op, line, t, t, value⟩ := by
  cases t <;> simp [update, Update.run, store, load, bind_assoc]

namespace Run

variable {α : Type} {g : Nat → Nat} {m : Machine} {p q q' : Nat → Run α}

def EndAlike (g : Nat → Nat) (m : Machine) (p q : Nat → Run α) : Prop :=
  ∀ r, (∃ out, Ends p m out ∧ relined g out = r) ↔ ∃ out, Ends q m out ∧ relined g out = r

namespace EndAlike

theorem of_amounts (same : Amounts p q) : EndAlike g m p q := fun _ =>
  exists_congr fun out => and_congr_left fun _ => same.ends m out

theorem trans (first : EndAlike g m p q) (second : EndAlike g m q q') : EndAlike g m p q' :=
  fun out => (first out).trans (second out)

theorem ends_parallel (parallel : ∀ n, Parallel g m.resolution (p n) (q n)) {out : Outcome α}
    (ends : Ends p m out) : ∃ out', Ends q m out' ∧ relined g out' = relined g out := by
  obtain ⟨n, rfl⟩ := ends.reached
  have same := parallel n m rfl
  refine ⟨q n m, ⟨⟨n, rfl⟩, fun m' exhausted => ?_⟩, same.symm⟩
  rw [exhausted] at same
  exact ends.decided m' (relined_eq_exhausted.mp same)

theorem of_parallel (parallel : ∀ n, Parallel g m.resolution (p n) (q n)) : EndAlike g m p q := by
  refine fun r => ⟨?_, ?_⟩
  · rintro ⟨out, ends, rfl⟩
    exact ends_parallel parallel ends
  · rintro ⟨out, ends, rfl⟩
    exact ends_parallel (fun n m known => (parallel n m known).symm) ends

theorem ends_iff (h : EndAlike id m p q) (r : Outcome α) : Ends p m r ↔ Ends q m r := by
  simpa only [relined_id, exists_eq_right] using h r

end EndAlike

end Run

namespace Update

variable {g : Nat → Nat} {m : Machine} {u u' : Update}

theorem endAlike (twins : u.tree.Twins g m.resolution m.resolution u'.tree) :
    EndAlike g m (evaluate · u.tree) (evaluate · u'.grouped.tree) :=
  (EndAlike.of_parallel fun n => parallel_evaluate n twins).trans
    (.of_amounts u'.amounts_grouped_tree.symm)

theorem ends_tree_iff (copied : u.target.read.Twins id m.resolution m.resolution u.current.read)
    (r : Outcome Value) :
    Ends (evaluate · u.tree) m r ↔ Ends (u.target.update · u.op u.line u.value) m r := by
  simp only [Target.update_eq_run]
  have same : EndAlike id m (run · ⟨u.op, u.line, u.target, u.target, u.value⟩) (run · u) :=
    .of_parallel (parallel_run (Expr.twins_self _ _ _) copied rfl rfl (Expr.twins_self _ _ _))
  rw [u.amounts_tree.ends m r, same.ends_iff r]

end Update

end ScopeScript
