import ScopeScript.Evaluation
import ScopeScript.Proofs.Scope.Occurrence

set_option autoImplicit false

namespace ScopeScript

inductive Task where
  | program (body : List Stmt)
  | execute (s : Stmt)
  | executeAll (body : List Stmt)
  | iterate (condition : Expr) (body : Stmt) (step : Option Expr)
  | evaluate (e : Expr)
  | evaluateAll (es : List Expr)
  | call (callee : Value) (line : Nat) (arguments : List Value)
  | apply (f : Closure) (arguments : List Value)

structure Point where
  depth : Nat
  task : Task
  machine : Machine

/-- The first point has to run the second one, which comes next. -/
inductive Begins : Point → Point → Prop
  | programHead {n s rest m} : Begins ⟨n, .program (s :: rest), m⟩ ⟨n, .execute s, m⟩
  | programTail {n s m completion m' rest} : Run.execute n s m = .ok completion m' →
      Begins ⟨n, .program (s :: rest), m⟩ ⟨n, .program rest, m'⟩
  | expression {n e m} : Begins ⟨n + 1, .execute (.expression e), m⟩ ⟨n, .evaluate e, m⟩
  | print {n e m} : Begins ⟨n + 1, .execute (.print e), m⟩ ⟨n, .evaluate e, m⟩
  | initial {n name e m} : Begins ⟨n + 1, .execute (.varDecl name (some e)), m⟩ ⟨n, .evaluate e, m⟩
  | block {m env m' n body} : Run.newScope m = .ok env m' →
      Begins ⟨n + 1, .execute (.block body), m⟩
        ⟨n, .executeAll body, { m' with environment := env }⟩
  | choice {n e s alternative m} :
      Begins ⟨n + 1, .execute (.ifElse e s alternative), m⟩ ⟨n, .evaluate e, m⟩
  | consequent {n e m value m' s alternative} : Run.evaluate n e m = .ok value m' →
      value.isTruthy = true →
      Begins ⟨n + 1, .execute (.ifElse e s alternative), m⟩ ⟨n, .execute s, m'⟩
  | alternative {n e m value m' s alternative} : Run.evaluate n e m = .ok value m' →
      value.isTruthy = false →
      Begins ⟨n + 1, .execute (.ifElse e s (some alternative)), m⟩ ⟨n, .execute alternative, m'⟩
  | loop {n e s step m} :
      Begins ⟨n + 1, .execute (.loop e s step), m⟩ ⟨n, .iterate e s step, m⟩
  | returned {n line e m} :
      Begins ⟨n + 1, .execute (.returning line (some e)), m⟩ ⟨n, .evaluate e, m⟩
  | head {n s rest m} : Begins ⟨n + 1, .executeAll (s :: rest), m⟩ ⟨n, .execute s, m⟩
  | tail {n s m m' rest} : Run.execute n s m = .ok .normal m' →
      Begins ⟨n + 1, .executeAll (s :: rest), m⟩ ⟨n, .executeAll rest, m'⟩
  | test {n e s step m} :
      Begins ⟨n + 1, .iterate e s step, m⟩ ⟨n, .evaluate e, m⟩
  | body {n e m value m₁ s step} : Run.evaluate n e m = .ok value m₁ → value.isTruthy = true →
      Begins ⟨n + 1, .iterate e s step, m⟩ ⟨n, .execute s, m₁⟩
  | step {n e m value m₁ s completion m₂ step} :
      Run.evaluate n e m = .ok value m₁ → value.isTruthy = true →
      Run.execute n s m₁ = .ok completion m₂ →
      completion = .normal ∨ completion = .jumped .next →
      Begins ⟨n + 1, .iterate e s (some step), m⟩ ⟨n, .evaluate step, m₂⟩
  | again {n e m value m₁ s completion m₂} :
      Run.evaluate n e m = .ok value m₁ → value.isTruthy = true →
      Run.execute n s m₁ = .ok completion m₂ →
      completion = .normal ∨ completion = .jumped .next →
      Begins ⟨n + 1, .iterate e s none, m⟩ ⟨n, .iterate e s none, m₂⟩
  | againStepped {n e m value m₁ s completion m₂ step stepped m'} :
      Run.evaluate n e m = .ok value m₁ → value.isTruthy = true →
      Run.execute n s m₁ = .ok completion m₂ →
      completion = .normal ∨ completion = .jumped .next →
      Run.evaluate n step m₂ = .ok stepped m' →
      Begins ⟨n + 1, .iterate e s (some step), m⟩ ⟨n, .iterate e s (some step), m'⟩
  | grouping {n e m} : Begins ⟨n + 1, .evaluate (.grouping e), m⟩ ⟨n, .evaluate e, m⟩
  | operand {n op line e m} : Begins ⟨n + 1, .evaluate (.unary op line e), m⟩ ⟨n, .evaluate e, m⟩
  | left {n op line e right m} :
      Begins ⟨n + 1, .evaluate (.binary op line e right), m⟩ ⟨n, .evaluate e, m⟩
  | right {n e m value m' op line right} : Run.evaluate n e m = .ok value m' →
      Begins ⟨n + 1, .evaluate (.binary op line e right), m⟩ ⟨n, .evaluate right, m'⟩
  | decision {n op e right m} :
      Begins ⟨n + 1, .evaluate (.logical op e right), m⟩ ⟨n, .evaluate e, m⟩
  | undecided {n e m value m' op right} : Run.evaluate n e m = .ok value m' →
      value.isTruthy = (op == .and) →
      Begins ⟨n + 1, .evaluate (.logical op e right), m⟩ ⟨n, .evaluate right, m'⟩
  | assigned {n r e m} : Begins ⟨n + 1, .evaluate (.assign r e), m⟩ ⟨n, .evaluate e, m⟩
  | callee {n e line es m} : Begins ⟨n + 1, .evaluate (.call e line es), m⟩ ⟨n, .evaluate e, m⟩
  | arguments {n e m value m' line es} : Run.evaluate n e m = .ok value m' →
      Begins ⟨n + 1, .evaluate (.call e line es), m⟩ ⟨n, .evaluateAll es, m'⟩
  | called {n e m value m₁ es arguments m' line} :
      Run.evaluate n e m = .ok value m₁ → Run.evaluateAll n es m₁ = .ok arguments m' →
      Begins ⟨n + 1, .evaluate (.call e line es), m⟩ ⟨n, .call value line arguments, m'⟩
  | owner {n e name m} : Begins ⟨n + 1, .evaluate (.get e name), m⟩ ⟨n, .evaluate e, m⟩
  | target {n e name e' m} : Begins ⟨n + 1, .evaluate (.set e name e'), m⟩ ⟨n, .evaluate e, m⟩
  | content {n e m i m' name e'} : Run.evaluate n e m = .ok (.instance i) m' →
      Begins ⟨n + 1, .evaluate (.set e name e'), m⟩ ⟨n, .evaluate e', m'⟩
  | first {n e es m} : Begins ⟨n + 1, .evaluateAll (e :: es), m⟩ ⟨n, .evaluate e, m⟩
  | others {n e m value m' es} : Run.evaluate n e m = .ok value m' →
      Begins ⟨n + 1, .evaluateAll (e :: es), m⟩ ⟨n, .evaluateAll es, m'⟩
  | function {n f line arguments m} : f.arity = arguments.length →
      Begins ⟨n + 1, .call (.function f) line arguments, m⟩ ⟨n, .apply f arguments, m⟩
  | initializer {init c m i m₁ f m' n line arguments} :
      c.arity = arguments.length → c.method? "init" = some init →
      Run.onStore (fun s => s.newInstance c) m = .ok i m₁ → Run.bind init i m₁ = .ok f m' →
      Begins ⟨n + 1, .call (.class c) line arguments, m⟩ ⟨n, .apply f arguments, m'⟩
  | applied {f arguments m env m' n} : Run.activation f arguments m = .ok env m' →
      Begins ⟨n + 1, .apply f arguments, m⟩
        ⟨n, .executeAll f.declaration.body, { m' with environment := env }⟩

inductive Opens : Point → Nat → Site → Prop
  | block {n body m} : Opens ⟨n + 1, .execute (.block body), m⟩ m.store.scopes.size (.block body)
  | call {n f arguments m} :
      Opens ⟨n + 1, .apply f arguments, m⟩ m.store.scopes.size (.call f.declaration)
  | property {n e m i m' method name} : Run.evaluate n e m = .ok (.instance i) m' →
      m'.store.field? i name.text = none → i.ofClass.method? name.text = some method →
      Opens ⟨n + 1, .evaluate (.get e name), m⟩ m'.store.scopes.size
        (.receiver method.declaration)
  | inherited {distance method n r name m c i} : m.resolution[r.id]? = some distance →
      m.store.getAt? m.environment distance "super" = some (.class c) →
      m.store.getAt? m.environment (distance - 1) "this" = some (.instance i) →
      c.method? name.text = some method →
      Opens ⟨n + 1, .evaluate (.super r name), m⟩ m.store.scopes.size
        (.receiver method.declaration)
  | initializer {init n c line arguments m} :
      c.arity = arguments.length → c.method? "init" = some init →
      Opens ⟨n + 1, .call (.class c) line arguments, m⟩ m.store.scopes.size
        (.receiver init.declaration)
  | superclass {r m c m' n name methods} : Run.superclass r m = .ok c m' →
      Opens ⟨n + 1, .execute (.classDecl name (some r) methods), m⟩ m.store.scopes.size
        (.superclass r)

/-- The point looks the reference up, for this use, before it does anything else. -/
inductive Reads : Point → Reference → Use → Prop
  | read {n r m} : Reads ⟨n + 1, .evaluate (.var r), m⟩ r .read
  | self {n r m} : Reads ⟨n + 1, .evaluate (.self r), m⟩ r .self
  | super {n r name m} : Reads ⟨n + 1, .evaluate (.super r name), m⟩ r .super
  | superclass {n name r methods m} :
      Reads ⟨n + 1, .execute (.classDecl name (some r) methods), m⟩ r .read

/-- The points at which a run comes along, its start included. -/
inductive Reaches (p : Point) : Point → Prop
  | refl : Reaches p p
  | next {q q' : Point} : Reaches p q → Begins q q' → Reaches p q'

namespace Reaches

variable {p q q' : Point}

theorem trans (first : Reaches p q) (second : Reaches q q') : Reaches p q' := by
  induction second with
  | refl => exact first
  | next _ begins ih => exact ih.next begins

theorem of_begins (begins : Begins p q) (later : Reaches q q') : Reaches p q' :=
  (Reaches.refl.next begins).trans later

end Reaches

def Task.IsStatement : Task → Prop
  | .execute _ | .executeAll _ => True
  | _ => False

def Task.IsIterate : Task → Prop
  | .iterate .. => True
  | _ => False

inductive Encloses (p : Point) : Point → Prop
  | refl : Encloses p p
  | next {q q' : Point} : Encloses p q → Begins q q' → q.task.IsStatement → q'.task.IsStatement →
      Encloses p q'

namespace Point

def size (p : Point) : Nat :=
  match p.task with
  | .program body => p.depth + body.length + 1
  | _ => p.depth

end Point

theorem Begins.size_lt {p q : Point} (h : Begins p q) : q.size < p.size := by
  cases h <;> simp only [Point.size, List.length_cons] <;> omega

theorem Begins.induction {motive : Point → Prop}
    (point : ∀ p, (∀ q, Begins p q → motive q) → motive p) : ∀ p, motive p := by
  intro p
  induction size : p.size using Nat.strongRecOn generalizing p with
  | ind _ ih => exact point p fun q begins => ih q.size (size ▸ begins.size_lt) q rfl

end ScopeScript
