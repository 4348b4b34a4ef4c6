import ScopeScript.Proofs.Syntax.Form

set_option autoImplicit false

namespace ScopeScript

/-- What opens a scope: a block, a call, a method that gets its receiver, or a derived class. -/
inductive Site where
  | block (body : List Stmt)
  | call (f : FunctionDecl)
  | receiver (method : FunctionDecl)
  | superclass (above : Reference)

structure Frame where
  site : Site
  names : List String

namespace Frame

def declare (names : List String) : List Frame → List Frame
  | [] => []
  | frame :: outer => ⟨frame.site, names ++ frame.names⟩ :: outer

def address? (frames : List Frame) (name : String) : Option Nat :=
  frames.findIdx? fun frame => decide (name ∈ frame.names)

@[simp]
theorem declare_nil (frames : List Frame) : declare [] frames = frames := by
  cases frames <;> rfl

theorem address?_cons (frame : Frame) (outer : List Frame) (name : String) :
    address? (frame :: outer) name =
      if name ∈ frame.names then some 0 else (address? outer name).map (· + 1) := by
  simp [address?, List.findIdx?_cons]

theorem address?_declare_of_notMem {names : List String} {name : String} (other : name ∉ names)
    (frames : List Frame) : address? (declare names frames) name = address? frames name := by
  cases frames with
  | nil => rfl
  | cons frame outer => simp [declare, address?_cons, other]

end Frame

inductive Use where
  | read
  | assigned
  | self
  | super
  deriving DecidableEq

def Use.keyword? : Use → Option String
  | .self => some "this"
  | .super => some "super"
  | .read | .assigned => none

/--
A reference where it stands. A fresh name is one that the innermost scope declares but does not bind
yet, since its value is still to be found.
-/
structure Occurrence where
  reference : Reference
  use : Use
  frames : List Frame
  fresh : Option String

namespace Occurrence

def name (o : Occurrence) : String := o.reference.name.text

def address? (o : Occurrence) : Option Nat :=
  Frame.address? (Frame.declare o.fresh.toList o.frames) o.name

structure Ready (o : Occurrence) : Prop where
  bound : o.use ≠ .assigned → o.frames ≠ [] → o.fresh ≠ some o.name
  spelled : ∀ word ∈ o.use.keyword?, o.name = word

theorem Ready.address?_eq {o : Occurrence} (h : o.Ready) (read : o.use ≠ .assigned) :
    o.address? = Frame.address? o.frames o.name := by
  unfold address?
  cases layers : o.frames with
  | nil => rfl
  | cons frame outer =>
    refine Frame.address?_declare_of_notMem (fun mem => ?_) _
    exact h.bound read (by simp [layers]) (Option.mem_toList.mp mem)

end Occurrence

mutual

def Expr.occurrences (frames : List Frame) (fresh : Option String) : Expr → List Occurrence
  | .literal _ => []
  | .grouping inner | .unary _ _ inner | .get inner _ => inner.occurrences frames fresh
  | .binary _ _ left right | .logical _ left right | .set left _ right =>
    left.occurrences frames fresh ++ right.occurrences frames fresh
  | .var reference => [⟨reference, .read, frames, fresh⟩]
  | .self reference => [⟨reference, .self, frames, fresh⟩]
  | .super reference _ => [⟨reference, .super, frames, fresh⟩]
  | .assign reference value =>
    ⟨reference, .assigned, frames, fresh⟩ :: value.occurrences frames fresh
  | .call callee _ arguments =>
    callee.occurrences frames fresh ++ Expr.occurrencesAll frames fresh arguments

def Expr.occurrencesAll (frames : List Frame) (fresh : Option String) :
    List Expr → List Occurrence
  | [] => []
  | e :: rest => e.occurrences frames fresh ++ Expr.occurrencesAll frames fresh rest

end

def Expr.occurrencesOf (frames : List Frame) (fresh : Option String) (e : Option Expr) :
    List Occurrence :=
  (e.map (Expr.occurrences frames fresh)).getD []

def Frame.ofClass (name : Name) (above : Option Reference) (frames : List Frame) : List Frame :=
  match above with
  | none => declare [name.text] frames
  | some reference => ⟨.superclass reference, ["super"]⟩ :: declare [name.text] frames

def Frame.ofMethod (f : FunctionDecl) (frames : List Frame) : List Frame :=
  ⟨.receiver f, ["this"]⟩ :: frames

def Frame.ofCall (f : FunctionDecl) (frames : List Frame) : List Frame :=
  ⟨.call f, f.parameters.map Name.text⟩ :: frames

def Frame.declareAll (body : List Stmt) (frames : List Frame) : List Frame :=
  body.foldl (fun frames s => declare s.declares frames) frames

theorem Frame.declareAll_cons (body : List Stmt) (frame : Frame) (frames : List Frame) :
    ∃ names, declareAll body (frame :: frames) = ⟨frame.site, names⟩ :: frames := by
  induction body generalizing frame with
  | nil => exact ⟨frame.names, rfl⟩
  | cons s rest ih => exact ih ⟨frame.site, s.declares ++ frame.names⟩

theorem Frame.declare_of_declares_eq_nil {s : Stmt} (h : s.declares = []) (frames : List Frame) :
    declare s.declares frames = frames := by
  rw [h, declare_nil]

mutual

def Stmt.occurrences (frames : List Frame) : Stmt → List Occurrence
  | .expression value | .print value => value.occurrences frames none
  | .varDecl name initial => Expr.occurrencesOf frames (some name.text) initial
  | .block body => Stmt.occurrencesAll (⟨.block body, []⟩ :: frames) body
  | .ifElse condition consequent none =>
    condition.occurrences frames none ++ consequent.occurrences frames
  | .ifElse condition consequent (some alternative) =>
    condition.occurrences frames none ++
      (consequent.occurrences frames ++ alternative.occurrences frames)
  | .loop condition body step =>
    condition.occurrences frames none ++
      (body.occurrences frames ++ Expr.occurrencesOf frames none step)
  | .funDecl f => f.occurrences (Frame.declare [f.name.text] frames)
  | .classDecl name above methods =>
    (above.map fun reference => ⟨reference, .read, frames, some name.text⟩).toList ++
      FunctionDecl.occurrencesAll (Frame.ofClass name above frames) methods
  | .returning _ value => Expr.occurrencesOf frames none value
  | .jump _ => []

def Stmt.occurrencesAll (frames : List Frame) : List Stmt → List Occurrence
  | [] => []
  | s :: rest =>
    s.occurrences frames ++ Stmt.occurrencesAll (Frame.declare s.declares frames) rest

def FunctionDecl.occurrences (frames : List Frame) : FunctionDecl → List Occurrence
  | .mk name parameters body =>
    Stmt.occurrencesAll (Frame.ofCall (.mk name parameters body) frames) body

def FunctionDecl.occurrencesAll (frames : List Frame) : List FunctionDecl → List Occurrence
  | [] => []
  | f :: rest =>
    f.occurrences (Frame.ofMethod f frames) ++ FunctionDecl.occurrencesAll frames rest

end

theorem FunctionDecl.occurrences_eq (frames : List Frame) (f : FunctionDecl) :
    f.occurrences frames = Stmt.occurrencesAll (Frame.ofCall f frames) f.body := by
  cases f
  rfl

end ScopeScript
