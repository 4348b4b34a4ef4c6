import ScopeScript.Proofs.Execution.ControlFlow
import ScopeScript.Proofs.Sessions.Lifetime

set_option autoImplicit false

namespace ScopeScript

open Run

/--
The jump comes out of the body of the loop through statements alone, so that there is no other loop
and no function in between, and the loop goes on as the jump says.
-/
inductive Absorbs : Point → Point → Jump → Prop
  | intro {n : Nat} {condition : Expr} {body : Stmt} {step : Option Expr}
      {before start after : Machine} {value : Value} {jump : Point} {kind : Jump} :
      evaluate n condition before = .ok value start → value.isTruthy = true →
      Encloses ⟨n, .execute body, start⟩ jump →
      execute n body start = .ok (.jumped kind) after →
      iterate (n + 1) condition body step before = afterJump n condition body step kind after →
      Absorbs ⟨n + 1, .iterate condition body step, before⟩ jump kind

namespace History

structure Contained (h : History) : Prop where
  enclosed : ∀ body ∈ h.accepted, Stmt.AllEnclosed false false body
  top : ∀ n s rest m completion m', h.Visits ⟨n, .program (s :: rest), m⟩ →
    Run.execute n s m = .ok completion m' → completion = .normal
  called : ∀ n f arguments m env m₁ completion m₂, h.Visits ⟨n + 1, .apply f arguments, m⟩ →
    activation f arguments m = .ok env m₁ →
    executeAll n f.declaration.body { m₁ with environment := env } = .ok completion m₂ →
    ∀ kind, completion ≠ .jumped kind
  looped : ∀ n condition body step m completion m',
    h.Visits ⟨n, .iterate condition body step, m⟩ →
    iterate n condition body step m = .ok completion m' → ∀ kind, completion ≠ .jumped kind
  absorbed : ∀ n kind m, h.Visits ⟨n + 1, .execute (.jump kind), m⟩ →
    ∃ loop, h.Visits loop ∧ Absorbs loop ⟨n + 1, .execute (.jump kind), m⟩ kind

variable {h : History}

theorem Consistent.top (consistent : h.Consistent) {n : Nat} {s : Stmt} {rest : List Stmt}
    {m m' : Machine} {completion : Completion} (visited : h.Visits ⟨n, .program (s :: rest), m⟩)
    (ran : Run.execute n s m = .ok completion m') : completion = .normal := by
  obtain ⟨S, v, -, covered, ⟨sound, -, mirrors, knows, enclosed⟩, -⟩ := consistent.fits visited
  have fits : Point.Fits S .topLevel ⟨n, .execute s, m⟩ :=
    ⟨sound, mirrors, knows.left, enclosed.1⟩
  have stable := Point.stable_of_covered ⟨n, .execute s, m⟩ fun q later =>
    covered q (.of_begins .programHead later)
  have ends := ((stable.finishes fits).ok ran).2.1
  cases completion with
  | normal => rfl
  | returned value => cases ends.1
  | jumped kind => cases ends

theorem Consistent.called (consistent : h.Consistent) {n : Nat} {f : Closure}
    {arguments : List Value} {m m₁ m₂ : Machine} {env : Environment} {completion : Completion}
    (visited : h.Visits ⟨n + 1, .apply f arguments, m⟩)
    (ran : activation f arguments m = .ok env m₁)
    (ran₁ : executeAll n f.declaration.body { m₁ with environment := env } = .ok completion m₂)
    (kind : Jump) : completion ≠ .jumped kind := by
  obtain ⟨S, v, -, covered, fits, -⟩ := consistent.fits visited
  obtain ⟨frames, -, inner⟩ := fits.applied (covered _ .refl)
  have stable := Point.stable_of_covered _ fun q later =>
    covered q (.of_begins (.applied ran) later)
  have ends := ((stable.finishes (inner ran)).ok ran₁).2
  rintro rfl
  cases ends

theorem Consistent.looped (consistent : h.Consistent) {n : Nat} {condition : Expr} {body : Stmt}
    {step : Option Expr} {m m' : Machine} {completion : Completion}
    (visited : h.Visits ⟨n, .iterate condition body step, m⟩)
    (ran : iterate n condition body step m = .ok completion m') (kind : Jump) :
    completion ≠ .jumped kind := by
  obtain ⟨S, v, -, covered, fits, -⟩ := consistent.fits visited
  have ends := (((Point.stable_of_covered _ covered).finishes fits).ok ran).2
  rintro rfl
  cases ends

theorem Consistent.absorbed (consistent : h.Consistent) {n : Nat} {kind : Jump} {m : Machine}
    (visited : h.Visits ⟨n + 1, .execute (.jump kind), m⟩) :
    ∃ loop, h.Visits loop ∧ Absorbs loop ⟨n + 1, .execute (.jump kind), m⟩ kind := by
  obtain ⟨S, v, -, -, fits, around⟩ := consistent.fits visited
  obtain ⟨loop, start, reached, iterates, begins, encloses⟩ := around fits.2.2.2
  have completes : Point.Completes ⟨n + 1, .execute (.jump kind), m⟩ (.jumped kind) m := rfl
  have handed := encloses.completes_jumped completes
  refine ⟨loop, reached, ?_⟩
  cases begins with
  | body tested holds =>
    exact .intro tested holds encloses handed (iterate_of_jumped tested holds handed)
  | test | step | again | againStepped => exact False.elim handed
  | _ => exact False.elim iterates

/-- In every history every signal of control is taken by what it is meant for. -/
theorem Arises.contained (arises : h.Arises) : h.Contained where
  enclosed := arises.consistent.enclosed
  top _ _ _ _ _ _ visited ran := arises.consistent.top visited ran
  called _ _ _ _ _ _ _ _ visited ran ran₁ := arises.consistent.called visited ran ran₁
  looped _ _ _ _ _ _ _ visited ran := arises.consistent.looped visited ran
  absorbed _ _ _ visited := arises.consistent.absorbed visited

def isLeftAtOnce : List (List Stmt) → Bool
  | [[.loop (.literal (.bool true)) (.jump .leave) none]] => true
  | _ => false

theorem accepted_only_loop :
    [.loop (.literal (.bool true)) (.jump .leave) none] ∈ (only "while(true)break;").accepted := by
  have shape : isLeftAtOnce (only "while(true)break;").accepted = true := by decide +kernel
  unfold isLeftAtOnce at shape
  split at shape
  next accepted => exact accepted ▸ List.mem_cons_self
  · cases shape

theorem Arises.contained_loop : ∃ (h : History) (m : Machine), h.Arises ∧
    h.Visits ⟨1, .execute (.jump .leave), m⟩ ∧ h.Contained := by
  have arises := (arises_only "while(true)break;").execute 3 accepted_only_loop
  have start : Reaches ⟨3, .program [.loop (.literal (.bool true)) (.jump .leave) none],
      (only "while(true)break;").session.machine⟩ _ := .refl
  have visited := visits_execute (((start.next .programHead).next .loop).next (.body rfl rfl))
  exact ⟨_, _, arises, visited, arises.contained⟩

end History

end ScopeScript
