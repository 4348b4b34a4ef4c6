import ScopeScript.Syntax.Tree

set_option autoImplicit false

namespace ScopeScript

def Reference.mapId (f : Nat → Nat) (r : Reference) : Reference := ⟨f r.id, r.name⟩

mutual

def Expr.mapIds (f : Nat → Nat) : Expr → Expr
  | .literal value => .literal value
  | .grouping inner => .grouping (inner.mapIds f)
  | .unary op line operand => .unary op line (operand.mapIds f)
  | .binary op line left right => .binary op line (left.mapIds f) (right.mapIds f)
  | .logical op left right => .logical op (left.mapIds f) (right.mapIds f)
  | .var reference => .var (reference.mapId f)
  | .assign reference value => .assign (reference.mapId f) (value.mapIds f)
  | .call callee line arguments => .call (callee.mapIds f) line (Expr.mapIdsAll f arguments)
  | .get object name => .get (object.mapIds f) name
  | .set object name value => .set (object.mapIds f) name (value.mapIds f)
  | .self reference => .self (reference.mapId f)
  | .super reference method => .super (reference.mapId f) method

def Expr.mapIdsAll (f : Nat → Nat) : List Expr → List Expr
  | [] => []
  | e :: rest => e.mapIds f :: Expr.mapIdsAll f rest

end

mutual

def Stmt.mapIds (f : Nat → Nat) : Stmt → Stmt
  | .expression value => .expression (value.mapIds f)
  | .print value => .print (value.mapIds f)
  | .varDecl name initial => .varDecl name (initial.map (Expr.mapIds f))
  | .block body => .block (Stmt.mapIdsAll f body)
  | .ifElse condition consequent none =>
    .ifElse (condition.mapIds f) (consequent.mapIds f) none
  | .ifElse condition consequent (some alternative) =>
    .ifElse (condition.mapIds f) (consequent.mapIds f) (some (alternative.mapIds f))
  | .loop condition body step =>
    .loop (condition.mapIds f) (body.mapIds f) (step.map (Expr.mapIds f))
  | .funDecl declaration => .funDecl (declaration.mapIds f)
  | .classDecl name superclass methods =>
    .classDecl name (superclass.map (Reference.mapId f)) (FunctionDecl.mapIdsAll f methods)
  | .returning line value => .returning line (value.map (Expr.mapIds f))
  | .jump kind => .jump kind

def Stmt.mapIdsAll (f : Nat → Nat) : List Stmt → List Stmt
  | [] => []
  | s :: rest => s.mapIds f :: Stmt.mapIdsAll f rest

def FunctionDecl.mapIds (f : Nat → Nat) : FunctionDecl → FunctionDecl
  | .mk name parameters body => .mk name parameters (Stmt.mapIdsAll f body)

def FunctionDecl.mapIdsAll (f : Nat → Nat) : List FunctionDecl → List FunctionDecl
  | [] => []
  | g :: rest => g.mapIds f :: FunctionDecl.mapIdsAll f rest

end

mutual

def Expr.ids : Expr → List Nat
  | .literal _ => []
  | .grouping inner => inner.ids
  | .unary _ _ operand => operand.ids
  | .binary _ _ left right => left.ids ++ right.ids
  | .logical _ left right => left.ids ++ right.ids
  | .var reference => [reference.id]
  | .assign reference value => reference.id :: value.ids
  | .call callee _ arguments => callee.ids ++ Expr.idsAll arguments
  | .get object _ => object.ids
  | .set object _ value => object.ids ++ value.ids
  | .self reference => [reference.id]
  | .super reference _ => [reference.id]

def Expr.idsAll : List Expr → List Nat
  | [] => []
  | e :: rest => e.ids ++ Expr.idsAll rest

end

def Expr.idsOf (e : Option Expr) : List Nat :=
  (e.map Expr.ids).getD []

mutual

def Stmt.ids : Stmt → List Nat
  | .expression value => value.ids
  | .print value => value.ids
  | .varDecl _ initial => Expr.idsOf initial
  | .block body => Stmt.idsAll body
  | .ifElse condition consequent none => condition.ids ++ consequent.ids
  | .ifElse condition consequent (some alternative) =>
    condition.ids ++ (consequent.ids ++ alternative.ids)
  | .loop condition body step => condition.ids ++ (body.ids ++ Expr.idsOf step)
  | .funDecl declaration => declaration.ids
  | .classDecl _ superclass methods =>
    (superclass.map Reference.id).toList ++ FunctionDecl.idsAll methods
  | .returning _ value => Expr.idsOf value
  | .jump _ => []

def Stmt.idsAll : List Stmt → List Nat
  | [] => []
  | s :: rest => s.ids ++ Stmt.idsAll rest

def FunctionDecl.ids : FunctionDecl → List Nat
  | .mk _ _ body => Stmt.idsAll body

def FunctionDecl.idsAll : List FunctionDecl → List Nat
  | [] => []
  | g :: rest => g.ids ++ FunctionDecl.idsAll rest

end

theorem Stmt.idsAll_append (left right : List Stmt) :
    Stmt.idsAll (left ++ right) = Stmt.idsAll left ++ Stmt.idsAll right := by
  induction left with
  | nil => rfl
  | cons s rest ih => simp [Stmt.idsAll, ih]

theorem FunctionDecl.idsAll_append (left right : List FunctionDecl) :
    FunctionDecl.idsAll (left ++ right) =
      FunctionDecl.idsAll left ++ FunctionDecl.idsAll right := by
  induction left with
  | nil => rfl
  | cons g rest ih => simp [FunctionDecl.idsAll, ih]

-- The anonymous form keeps everything of a tree but the numbers.
def Expr.anonymous (e : Expr) : Expr := e.mapIds fun _ => 0

def Expr.anonymousAll (es : List Expr) : List Expr := Expr.mapIdsAll (fun _ => 0) es

def Stmt.anonymous (s : Stmt) : Stmt := s.mapIds fun _ => 0

def Stmt.anonymousAll (body : List Stmt) : List Stmt := Stmt.mapIdsAll (fun _ => 0) body

def FunctionDecl.anonymous (f : FunctionDecl) : FunctionDecl := f.mapIds fun _ => 0

def FunctionDecl.anonymousAll (fs : List FunctionDecl) : List FunctionDecl :=
  FunctionDecl.mapIdsAll (fun _ => 0) fs

theorem Expr.mapIdsAll_eq_map (f : Nat → Nat) (es : List Expr) :
    Expr.mapIdsAll f es = es.map (Expr.mapIds f) := by
  induction es with
  | nil => rfl
  | cons e rest ih => simp [Expr.mapIdsAll, ih]

theorem Stmt.mapIdsAll_eq_map (f : Nat → Nat) (body : List Stmt) :
    Stmt.mapIdsAll f body = body.map (Stmt.mapIds f) := by
  induction body with
  | nil => rfl
  | cons s rest ih => simp [Stmt.mapIdsAll, ih]

@[simp]
theorem Reference.mapId_mapId (f g : Nat → Nat) (r : Reference) :
    (r.mapId g).mapId f = r.mapId (f ∘ g) := rfl

mutual

theorem Expr.mapIds_mapIds (f g : Nat → Nat) :
    ∀ e : Expr, (e.mapIds g).mapIds f = e.mapIds (f ∘ g)
  | .literal _ | .var _ | .self _ | .super .. => by simp [Expr.mapIds]
  | .grouping inner | .unary _ _ inner | .assign _ inner | .get inner _ => by
    simp [Expr.mapIds, Expr.mapIds_mapIds f g inner]
  | .binary _ _ left right | .logical _ left right | .set left _ right => by
    simp [Expr.mapIds, Expr.mapIds_mapIds f g left, Expr.mapIds_mapIds f g right]
  | .call callee _ arguments => by
    simp [Expr.mapIds, Expr.mapIds_mapIds f g callee, Expr.mapIdsAll_mapIdsAll f g arguments]

theorem Expr.mapIdsAll_mapIdsAll (f g : Nat → Nat) :
    ∀ es : List Expr, Expr.mapIdsAll f (Expr.mapIdsAll g es) = Expr.mapIdsAll (f ∘ g) es
  | [] => rfl
  | e :: rest => by
    simp [Expr.mapIdsAll, Expr.mapIds_mapIds f g e, Expr.mapIdsAll_mapIdsAll f g rest]

end

theorem Expr.map_mapIds_mapIds (f g : Nat → Nat) (e : Option Expr) :
    (e.map (Expr.mapIds g)).map (Expr.mapIds f) = e.map (Expr.mapIds (f ∘ g)) := by
  cases e <;> simp [Expr.mapIds_mapIds]

mutual

theorem Stmt.mapIds_mapIds (f g : Nat → Nat) :
    ∀ s : Stmt, (s.mapIds g).mapIds f = s.mapIds (f ∘ g)
  | .expression value | .print value => by simp [Stmt.mapIds, Expr.mapIds_mapIds]
  | .varDecl _ value | .returning _ value => by
    simp only [Stmt.mapIds, Expr.map_mapIds_mapIds]
  | .block body => by simp [Stmt.mapIds, Stmt.mapIdsAll_mapIdsAll f g body]
  | .ifElse condition consequent none => by
    simp [Stmt.mapIds, Expr.mapIds_mapIds, Stmt.mapIds_mapIds f g consequent]
  | .ifElse condition consequent (some alternative) => by
    simp [Stmt.mapIds, Expr.mapIds_mapIds, Stmt.mapIds_mapIds f g consequent,
      Stmt.mapIds_mapIds f g alternative]
  | .loop condition body step => by
    simp only [Stmt.mapIds, Expr.mapIds_mapIds, Stmt.mapIds_mapIds f g body,
      Expr.map_mapIds_mapIds]
  | .funDecl declaration => by
    simp [Stmt.mapIds, FunctionDecl.mapIds_mapIds f g declaration]
  | .classDecl _ superclass methods => by
    cases superclass <;> simp [Stmt.mapIds, FunctionDecl.mapIdsAll_mapIdsAll f g methods]
  | .jump _ => rfl

theorem Stmt.mapIdsAll_mapIdsAll (f g : Nat → Nat) :
    ∀ body : List Stmt, Stmt.mapIdsAll f (Stmt.mapIdsAll g body) = Stmt.mapIdsAll (f ∘ g) body
  | [] => rfl
  | s :: rest => by
    simp [Stmt.mapIdsAll, Stmt.mapIds_mapIds f g s, Stmt.mapIdsAll_mapIdsAll f g rest]

theorem FunctionDecl.mapIds_mapIds (f g : Nat → Nat) :
    ∀ d : FunctionDecl, (d.mapIds g).mapIds f = d.mapIds (f ∘ g)
  | .mk _ _ body => by simp [FunctionDecl.mapIds, Stmt.mapIdsAll_mapIdsAll f g body]

theorem FunctionDecl.mapIdsAll_mapIdsAll (f g : Nat → Nat) :
    ∀ ds : List FunctionDecl,
      FunctionDecl.mapIdsAll f (FunctionDecl.mapIdsAll g ds) = FunctionDecl.mapIdsAll (f ∘ g) ds
  | [] => rfl
  | d :: rest => by
    simp [FunctionDecl.mapIdsAll, FunctionDecl.mapIds_mapIds f g d,
      FunctionDecl.mapIdsAll_mapIdsAll f g rest]

end

mutual

theorem Expr.mapIds_congr {f g : Nat → Nat} :
    ∀ e : Expr, (∀ i ∈ e.ids, f i = g i) → e.mapIds f = e.mapIds g
  | .literal _, _ => rfl
  | .var r, agree | .self r, agree | .super r _, agree => by
    simp [Expr.mapIds, Reference.mapId, agree r.id (by simp [Expr.ids])]
  | .grouping inner, agree | .unary _ _ inner, agree | .get inner _, agree => by
    simp only [Expr.mapIds, Expr.mapIds_congr inner agree]
  | .assign r inner, agree => by
    simp only [Expr.ids, List.mem_cons] at agree
    simp only [Expr.mapIds, Reference.mapId, agree r.id (.inl rfl),
      Expr.mapIds_congr inner fun i h => agree i (.inr h)]
  | .binary _ _ left right, agree | .logical _ left right, agree | .set left _ right, agree => by
    simp only [Expr.ids, List.mem_append] at agree
    simp only [Expr.mapIds, Expr.mapIds_congr left fun i h => agree i (.inl h),
      Expr.mapIds_congr right fun i h => agree i (.inr h)]
  | .call callee _ arguments, agree => by
    simp only [Expr.ids, List.mem_append] at agree
    simp only [Expr.mapIds, Expr.mapIds_congr callee fun i h => agree i (.inl h),
      Expr.mapIdsAll_congr arguments fun i h => agree i (.inr h)]

theorem Expr.mapIdsAll_congr {f g : Nat → Nat} :
    ∀ es : List Expr, (∀ i ∈ Expr.idsAll es, f i = g i) → Expr.mapIdsAll f es = Expr.mapIdsAll g es
  | [], _ => rfl
  | e :: rest, agree => by
    simp only [Expr.idsAll, List.mem_append] at agree
    simp only [Expr.mapIdsAll, Expr.mapIds_congr e fun i h => agree i (.inl h),
      Expr.mapIdsAll_congr rest fun i h => agree i (.inr h)]

end

theorem Expr.map_mapIds_congr {f g : Nat → Nat} (e : Option Expr)
    (agree : ∀ i ∈ Expr.idsOf e, f i = g i) : e.map (Expr.mapIds f) = e.map (Expr.mapIds g) := by
  cases e with
  | none => rfl
  | some e => simp only [Option.map_some, Expr.mapIds_congr e agree]

mutual

theorem Stmt.mapIds_congr {f g : Nat → Nat} :
    ∀ s : Stmt, (∀ i ∈ s.ids, f i = g i) → s.mapIds f = s.mapIds g
  | .expression value, agree | .print value, agree => by
    simp only [Stmt.mapIds, Expr.mapIds_congr value agree]
  | .varDecl _ value, agree | .returning _ value, agree => by
    simp only [Stmt.mapIds, Expr.map_mapIds_congr value agree]
  | .block body, agree => by
    simp only [Stmt.mapIds, Stmt.mapIdsAll_congr body agree]
  | .ifElse condition consequent none, agree => by
    simp only [Stmt.ids, List.mem_append] at agree
    simp only [Stmt.mapIds, Expr.mapIds_congr condition fun i h => agree i (.inl h),
      Stmt.mapIds_congr consequent fun i h => agree i (.inr h)]
  | .ifElse condition consequent (some alternative), agree => by
    simp only [Stmt.ids, List.mem_append] at agree
    simp only [Stmt.mapIds, Expr.mapIds_congr condition fun i h => agree i (.inl h),
      Stmt.mapIds_congr consequent fun i h => agree i (.inr (.inl h)),
      Stmt.mapIds_congr alternative fun i h => agree i (.inr (.inr h))]
  | .loop condition body step, agree => by
    simp only [Stmt.ids, List.mem_append] at agree
    simp only [Stmt.mapIds, Expr.mapIds_congr condition fun i h => agree i (.inl h),
      Stmt.mapIds_congr body fun i h => agree i (.inr (.inl h)),
      Expr.map_mapIds_congr step fun i h => agree i (.inr (.inr h))]
  | .funDecl declaration, agree => by
    simp only [Stmt.mapIds, FunctionDecl.mapIds_congr declaration agree]
  | .classDecl _ none methods, agree => by
    simp only [Stmt.mapIds, Option.map_none, FunctionDecl.mapIdsAll_congr methods agree]
  | .classDecl _ (some r) methods, agree => by
    simp only [Stmt.ids, Option.map_some, Option.toList_some, List.cons_append, List.nil_append,
      List.mem_cons] at agree
    simp only [Stmt.mapIds, Option.map_some, Reference.mapId, agree r.id (.inl rfl),
      FunctionDecl.mapIdsAll_congr methods fun i h => agree i (.inr h)]
  | .jump _, _ => rfl

theorem Stmt.mapIdsAll_congr {f g : Nat → Nat} :
    ∀ body : List Stmt, (∀ i ∈ Stmt.idsAll body, f i = g i) →
      Stmt.mapIdsAll f body = Stmt.mapIdsAll g body
  | [], _ => rfl
  | s :: rest, agree => by
    simp only [Stmt.idsAll, List.mem_append] at agree
    simp only [Stmt.mapIdsAll, Stmt.mapIds_congr s fun i h => agree i (.inl h),
      Stmt.mapIdsAll_congr rest fun i h => agree i (.inr h)]

theorem FunctionDecl.mapIds_congr {f g : Nat → Nat} :
    ∀ d : FunctionDecl, (∀ i ∈ d.ids, f i = g i) → d.mapIds f = d.mapIds g
  | .mk _ _ body, agree => by
    simp only [FunctionDecl.mapIds, Stmt.mapIdsAll_congr body agree]

theorem FunctionDecl.mapIdsAll_congr {f g : Nat → Nat} :
    ∀ ds : List FunctionDecl, (∀ i ∈ FunctionDecl.idsAll ds, f i = g i) →
      FunctionDecl.mapIdsAll f ds = FunctionDecl.mapIdsAll g ds
  | [], _ => rfl
  | d :: rest, agree => by
    simp only [FunctionDecl.idsAll, List.mem_append] at agree
    simp only [FunctionDecl.mapIdsAll, FunctionDecl.mapIds_congr d fun i h => agree i (.inl h),
      FunctionDecl.mapIdsAll_congr rest fun i h => agree i (.inr h)]

end

@[simp]
theorem mapId_id (r : Reference) : r.mapId id = r := rfl

mutual

theorem Expr.mapIds_id : ∀ e : Expr, e.mapIds id = e
  | .literal _ | .var _ | .self _ | .super .. => by simp [Expr.mapIds]
  | .grouping inner | .unary _ _ inner | .assign _ inner | .get inner _ => by
    simp [Expr.mapIds, Expr.mapIds_id inner]
  | .binary _ _ left right | .logical _ left right | .set left _ right => by
    simp [Expr.mapIds, Expr.mapIds_id left, Expr.mapIds_id right]
  | .call callee _ arguments => by
    simp [Expr.mapIds, Expr.mapIds_id callee, Expr.mapIdsAll_id arguments]

theorem Expr.mapIdsAll_id : ∀ es : List Expr, Expr.mapIdsAll id es = es
  | [] => rfl
  | e :: rest => by simp [Expr.mapIdsAll, Expr.mapIds_id e, Expr.mapIdsAll_id rest]

end

theorem Expr.map_mapIds_id (e : Option Expr) : e.map (Expr.mapIds id) = e := by
  cases e <;> simp [Expr.mapIds_id]

mutual

theorem Stmt.mapIds_id : ∀ s : Stmt, s.mapIds id = s
  | .expression value | .print value => by simp [Stmt.mapIds, Expr.mapIds_id]
  | .varDecl _ value | .returning _ value => by simp only [Stmt.mapIds, Expr.map_mapIds_id]
  | .block body => by simp [Stmt.mapIds, Stmt.mapIdsAll_id body]
  | .ifElse condition consequent none => by
    simp [Stmt.mapIds, Expr.mapIds_id, Stmt.mapIds_id consequent]
  | .ifElse condition consequent (some alternative) => by
    simp [Stmt.mapIds, Expr.mapIds_id, Stmt.mapIds_id consequent, Stmt.mapIds_id alternative]
  | .loop condition body step => by
    simp only [Stmt.mapIds, Expr.mapIds_id, Stmt.mapIds_id body, Expr.map_mapIds_id]
  | .funDecl declaration => by simp [Stmt.mapIds, FunctionDecl.mapIds_id declaration]
  | .classDecl _ superclass methods => by
    cases superclass <;> simp [Stmt.mapIds, FunctionDecl.mapIdsAll_id methods]
  | .jump _ => rfl

theorem Stmt.mapIdsAll_id : ∀ body : List Stmt, Stmt.mapIdsAll id body = body
  | [] => rfl
  | s :: rest => by simp [Stmt.mapIdsAll, Stmt.mapIds_id s, Stmt.mapIdsAll_id rest]

theorem FunctionDecl.mapIds_id : ∀ d : FunctionDecl, d.mapIds id = d
  | .mk _ _ body => by simp [FunctionDecl.mapIds, Stmt.mapIdsAll_id body]

theorem FunctionDecl.mapIdsAll_id : ∀ ds : List FunctionDecl, FunctionDecl.mapIdsAll id ds = ds
  | [] => rfl
  | d :: rest => by
    simp [FunctionDecl.mapIdsAll, FunctionDecl.mapIds_id d, FunctionDecl.mapIdsAll_id rest]

end

mutual

theorem Expr.anonymous_renumber :
    ∀ (e : Expr) (next : Nat), (e.renumber next).1.anonymous = e.anonymous
  | .literal _, _ | .var _, _ | .self _, _ | .super .., _ => rfl
  | .grouping inner, next | .unary _ _ inner, next | .get inner _, next => by
    have same := Expr.anonymous_renumber inner next
    simp only [Expr.anonymous] at same
    simp [Expr.anonymous, Expr.renumber, Expr.mapIds, same]
  | .assign _ inner, next => by
    have same := Expr.anonymous_renumber inner (next + 1)
    simp only [Expr.anonymous] at same
    simp [Expr.anonymous, Expr.renumber, Expr.mapIds, Reference.mapId, same]
  | .binary _ _ left right, next | .logical _ left right, next | .set left _ right, next => by
    have first := Expr.anonymous_renumber left next
    have second := Expr.anonymous_renumber right (left.renumber next).2
    simp only [Expr.anonymous] at first second
    simp [Expr.anonymous, Expr.renumber, Expr.mapIds, first, second]
  | .call callee _ arguments, next => by
    have first := Expr.anonymous_renumber callee next
    have second := Expr.anonymous_renumberAll arguments (callee.renumber next).2
    simp only [Expr.anonymous] at first
    simp [Expr.anonymous, Expr.renumber, Expr.mapIds, first, second]

theorem Expr.anonymous_renumberAll :
    ∀ (es : List Expr) (next : Nat),
      Expr.mapIdsAll (fun _ => 0) (Expr.renumberAll next es).1 = Expr.mapIdsAll (fun _ => 0) es
  | [], _ => rfl
  | e :: rest, next => by
    have first := Expr.anonymous_renumber e next
    have second := Expr.anonymous_renumberAll rest (e.renumber next).2
    simp only [Expr.anonymous] at first
    simp [Expr.renumberAll, Expr.mapIdsAll, first, second]

end

theorem Expr.eq_var_of_anonymous_eq {e : Expr} {r : Reference}
    (same : e.anonymous = (Expr.var r).anonymous) : ∃ r', e = .var r' ∧ r'.name = r.name := by
  cases e <;> simp [Expr.anonymous, Expr.mapIds, Reference.mapId] at same
  exact ⟨_, rfl, same⟩

theorem Expr.eq_get_of_anonymous_eq {e object : Expr} {name : Name}
    (same : e.anonymous = (Expr.get object name).anonymous) :
    ∃ object', e = .get object' name ∧ object'.anonymous = object.anonymous := by
  cases e <;> simp [Expr.anonymous, Expr.mapIds] at same
  obtain ⟨same, rfl⟩ := same
  exact ⟨_, rfl, same⟩

end ScopeScript
