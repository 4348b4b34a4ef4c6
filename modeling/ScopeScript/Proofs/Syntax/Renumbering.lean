import ScopeScript.Proofs.Syntax.Numbers

set_option autoImplicit false

namespace ScopeScript

mutual

theorem Expr.ids_mapIds (f : Nat → Nat) : ∀ e : Expr, (e.mapIds f).ids = e.ids.map f
  | .literal _ | .var _ | .self _ | .super .. => rfl
  | .grouping inner | .unary _ _ inner | .get inner _ => Expr.ids_mapIds f inner
  | .assign _ inner => by simp [Expr.mapIds, Expr.ids, Reference.mapId, Expr.ids_mapIds f inner]
  | .binary _ _ left right | .logical _ left right | .set left _ right => by
    simp [Expr.mapIds, Expr.ids, Expr.ids_mapIds f left, Expr.ids_mapIds f right]
  | .call callee _ arguments => by
    simp [Expr.mapIds, Expr.ids, Expr.ids_mapIds f callee, Expr.idsAll_mapIdsAll f arguments]

theorem Expr.idsAll_mapIdsAll (f : Nat → Nat) :
    ∀ es : List Expr, Expr.idsAll (Expr.mapIdsAll f es) = (Expr.idsAll es).map f
  | [] => rfl
  | e :: rest => by
    simp [Expr.mapIdsAll, Expr.idsAll, Expr.ids_mapIds f e, Expr.idsAll_mapIdsAll f rest]

end

theorem Expr.idsOf_map_mapIds (f : Nat → Nat) (e : Option Expr) :
    Expr.idsOf (e.map (Expr.mapIds f)) = (Expr.idsOf e).map f := by
  cases e with
  | none => rfl
  | some e => exact e.ids_mapIds f

mutual

theorem Stmt.ids_mapIds (f : Nat → Nat) : ∀ s : Stmt, (s.mapIds f).ids = s.ids.map f
  | .expression e | .print e => Expr.ids_mapIds f e
  | .varDecl _ e | .returning _ e => Expr.idsOf_map_mapIds f e
  | .block body => Stmt.idsAll_mapIdsAll f body
  | .ifElse condition consequent none => by
    simp [Stmt.mapIds, Stmt.ids, Expr.ids_mapIds, Stmt.ids_mapIds f consequent]
  | .ifElse condition consequent (some alternative) => by
    simp [Stmt.mapIds, Stmt.ids, Expr.ids_mapIds, Stmt.ids_mapIds f consequent,
      Stmt.ids_mapIds f alternative]
  | .loop condition body step => by
    simp [Stmt.mapIds, Stmt.ids, Expr.ids_mapIds, Stmt.ids_mapIds f body, Expr.idsOf_map_mapIds]
  | .funDecl declaration => FunctionDecl.ids_mapIds f declaration
  | .classDecl _ above methods => by
    cases above <;>
      simp [Stmt.mapIds, Stmt.ids, Reference.mapId, FunctionDecl.idsAll_mapIdsAll f methods]
  | .jump _ => rfl

theorem Stmt.idsAll_mapIdsAll (f : Nat → Nat) :
    ∀ body : List Stmt, Stmt.idsAll (Stmt.mapIdsAll f body) = (Stmt.idsAll body).map f
  | [] => rfl
  | s :: rest => by
    simp [Stmt.mapIdsAll, Stmt.idsAll, Stmt.ids_mapIds f s, Stmt.idsAll_mapIdsAll f rest]

theorem FunctionDecl.ids_mapIds (f : Nat → Nat) :
    ∀ d : FunctionDecl, (d.mapIds f).ids = d.ids.map f
  | .mk _ _ body => Stmt.idsAll_mapIdsAll f body

theorem FunctionDecl.idsAll_mapIdsAll (f : Nat → Nat) :
    ∀ ds : List FunctionDecl,
      FunctionDecl.idsAll (FunctionDecl.mapIdsAll f ds) = (FunctionDecl.idsAll ds).map f
  | [] => rfl
  | d :: rest => by
    simp [FunctionDecl.mapIdsAll, FunctionDecl.idsAll, FunctionDecl.ids_mapIds f d,
      FunctionDecl.idsAll_mapIdsAll f rest]

end

def Renumbering.join (xs : List Nat) (f g : Nat → Nat) (i : Nat) : Nat :=
  if i ∈ xs then f i else g i

namespace Renumbering

variable {xs ys : List Nat} {f g : Nat → Nat}

theorem join_left : ∀ i ∈ xs, f i = join xs f g i := by
  intro i mem
  simp [join, mem]

theorem join_right (distinct : (xs ++ ys).Nodup) : ∀ i ∈ ys, g i = join xs f g i := by
  intro i mem
  have apart : i ∉ xs := fun mem' => (List.nodup_append.mp distinct).2.2 i mem' i mem rfl
  simp [join, apart]

end Renumbering

open Renumbering

mutual

theorem Expr.exists_mapIds : ∀ e e' : Expr, e.ids.Nodup → e'.anonymous = e.anonymous →
    ∃ f, e' = e.mapIds f
  | .literal value, e', _, same => by
    cases e' <;> simp [Expr.anonymous, Expr.mapIds] at same
    exact ⟨id, by simp [Expr.mapIds, same]⟩
  | .grouping inner, e', distinct, same => by
    cases e' <;> simp [Expr.anonymous, Expr.mapIds] at same
    obtain ⟨f, rfl⟩ := Expr.exists_mapIds inner _ distinct same
    exact ⟨f, rfl⟩
  | .unary op line inner, e', distinct, same => by
    cases e' <;> simp [Expr.anonymous, Expr.mapIds] at same
    obtain ⟨rfl, rfl, same⟩ := same
    obtain ⟨f, rfl⟩ := Expr.exists_mapIds inner _ distinct same
    exact ⟨f, rfl⟩
  | .get inner name, e', distinct, same => by
    cases e' <;> simp [Expr.anonymous, Expr.mapIds] at same
    obtain ⟨same, rfl⟩ := same
    obtain ⟨f, rfl⟩ := Expr.exists_mapIds inner _ distinct same
    exact ⟨f, rfl⟩
  | .binary op line left right, e', distinct, same => by
    cases e' <;> simp [Expr.anonymous, Expr.mapIds] at same
    obtain ⟨rfl, rfl, first, second⟩ := same
    obtain ⟨f, rfl⟩ := Expr.exists_mapIds left _ (List.nodup_append.mp distinct).1 first
    obtain ⟨g, rfl⟩ := Expr.exists_mapIds right _ (List.nodup_append.mp distinct).2.1 second
    refine ⟨join left.ids f g, ?_⟩
    rw [Expr.mapIds, left.mapIds_congr join_left, right.mapIds_congr (join_right distinct)]
  | .logical op left right, e', distinct, same => by
    cases e' <;> simp [Expr.anonymous, Expr.mapIds] at same
    obtain ⟨rfl, first, second⟩ := same
    obtain ⟨f, rfl⟩ := Expr.exists_mapIds left _ (List.nodup_append.mp distinct).1 first
    obtain ⟨g, rfl⟩ := Expr.exists_mapIds right _ (List.nodup_append.mp distinct).2.1 second
    refine ⟨join left.ids f g, ?_⟩
    rw [Expr.mapIds, left.mapIds_congr join_left, right.mapIds_congr (join_right distinct)]
  | .set left name right, e', distinct, same => by
    cases e' <;> simp [Expr.anonymous, Expr.mapIds] at same
    obtain ⟨first, rfl, second⟩ := same
    obtain ⟨f, rfl⟩ := Expr.exists_mapIds left _ (List.nodup_append.mp distinct).1 first
    obtain ⟨g, rfl⟩ := Expr.exists_mapIds right _ (List.nodup_append.mp distinct).2.1 second
    refine ⟨join left.ids f g, ?_⟩
    rw [Expr.mapIds, left.mapIds_congr join_left, right.mapIds_congr (join_right distinct)]
  | .var r, e', _, same => by
    cases e' <;> simp [Expr.anonymous, Expr.mapIds, Reference.mapId] at same
    next r' => exact ⟨fun _ => r'.id, by simp [Expr.mapIds, Reference.mapId, ← same]⟩
  | .self r, e', _, same => by
    cases e' <;> simp [Expr.anonymous, Expr.mapIds, Reference.mapId] at same
    next r' => exact ⟨fun _ => r'.id, by simp [Expr.mapIds, Reference.mapId, ← same]⟩
  | .super r name, e', _, same => by
    cases e' <;> simp [Expr.anonymous, Expr.mapIds, Reference.mapId] at same
    next r' _ =>
      obtain ⟨same, rfl⟩ := same
      exact ⟨fun _ => r'.id, by simp [Expr.mapIds, Reference.mapId, ← same]⟩
  | .assign r inner, e', distinct, same => by
    cases e' <;> simp [Expr.anonymous, Expr.mapIds, Reference.mapId] at same
    next r' _ =>
      obtain ⟨same, inner'⟩ := same
      have split : ([r.id] ++ inner.ids).Nodup := distinct
      obtain ⟨f, rfl⟩ := Expr.exists_mapIds inner _ (List.nodup_append.mp split).2.1 inner'
      refine ⟨join [r.id] (fun _ => r'.id) f, ?_⟩
      rw [Expr.mapIds, inner.mapIds_congr (join_right (f := fun _ => r'.id) split)]
      simp [Reference.mapId, join, ← same]
  | .call callee line es, e', distinct, same => by
    cases e' <;> simp [Expr.anonymous, Expr.mapIds] at same
    obtain ⟨first, rfl, second⟩ := same
    obtain ⟨f, rfl⟩ := Expr.exists_mapIds callee _ (List.nodup_append.mp distinct).1 first
    obtain ⟨g, rfl⟩ := Expr.exists_mapIdsAll es _ (List.nodup_append.mp distinct).2.1 second
    refine ⟨join callee.ids f g, ?_⟩
    rw [Expr.mapIds, callee.mapIds_congr join_left,
      Expr.mapIdsAll_congr es (join_right distinct)]

theorem Expr.exists_mapIdsAll : ∀ es es' : List Expr, (Expr.idsAll es).Nodup →
    Expr.anonymousAll es' = Expr.anonymousAll es → ∃ f, es' = Expr.mapIdsAll f es
  | [], es', _, same => by
    cases es' <;> simp [Expr.anonymousAll, Expr.mapIdsAll] at same
    exact ⟨id, rfl⟩
  | e :: rest, es', distinct, same => by
    cases es' <;> simp [Expr.anonymousAll, Expr.mapIdsAll] at same
    obtain ⟨first, second⟩ := same
    obtain ⟨f, rfl⟩ := Expr.exists_mapIds e _ (List.nodup_append.mp distinct).1 first
    obtain ⟨g, rfl⟩ := Expr.exists_mapIdsAll rest _ (List.nodup_append.mp distinct).2.1 second
    refine ⟨join e.ids f g, ?_⟩
    rw [Expr.mapIdsAll, e.mapIds_congr join_left,
      Expr.mapIdsAll_congr rest (join_right distinct)]

end

theorem Expr.exists_map_mapIds : ∀ e e' : Option Expr, (Expr.idsOf e).Nodup →
    e'.map (Expr.mapIds fun _ => 0) = e.map (Expr.mapIds fun _ => 0) →
    ∃ f, e' = e.map (Expr.mapIds f)
  | none, e', _, same => by
    cases e' <;> simp at same
    exact ⟨id, rfl⟩
  | some e, e', distinct, same => by
    cases e' <;> simp at same
    obtain ⟨f, rfl⟩ := Expr.exists_mapIds e _ distinct same
    exact ⟨f, rfl⟩

mutual

theorem Stmt.exists_mapIds : ∀ s s' : Stmt, s.ids.Nodup → s'.anonymous = s.anonymous →
    ∃ f, s' = s.mapIds f
  | .expression e, s', distinct, same | .print e, s', distinct, same => by
    rcases s' with _ | _ | _ | _ | ⟨_, _, _ | _⟩ | _ | _ | _ | _ | _ <;>
      simp [Stmt.anonymous, Stmt.mapIds] at same
    obtain ⟨f, rfl⟩ := Expr.exists_mapIds e _ distinct same
    exact ⟨f, rfl⟩
  | .varDecl name initial, s', distinct, same => by
    rcases s' with _ | _ | _ | _ | ⟨_, _, _ | _⟩ | _ | _ | _ | _ | _ <;>
      simp [Stmt.anonymous, Stmt.mapIds] at same
    obtain ⟨rfl, same⟩ := same
    obtain ⟨f, rfl⟩ := Expr.exists_map_mapIds initial _ distinct same
    exact ⟨f, rfl⟩
  | .block body, s', distinct, same => by
    rcases s' with _ | _ | _ | _ | ⟨_, _, _ | _⟩ | _ | _ | _ | _ | _ <;>
      simp [Stmt.anonymous, Stmt.mapIds] at same
    obtain ⟨f, rfl⟩ := Stmt.exists_mapIdsAll body _ distinct same
    exact ⟨f, rfl⟩
  | .ifElse condition consequent none, s', distinct, same => by
    rcases s' with _ | _ | _ | _ | ⟨_, _, _ | _⟩ | _ | _ | _ | _ | _ <;>
      simp [Stmt.anonymous, Stmt.mapIds] at same
    obtain ⟨first, second⟩ := same
    obtain ⟨f, rfl⟩ := Expr.exists_mapIds condition _ (List.nodup_append.mp distinct).1 first
    obtain ⟨g, rfl⟩ := Stmt.exists_mapIds consequent _ (List.nodup_append.mp distinct).2.1 second
    refine ⟨join condition.ids f g, ?_⟩
    rw [Stmt.mapIds, condition.mapIds_congr join_left,
      consequent.mapIds_congr (join_right distinct)]
  | .ifElse condition consequent (some alternative), s', distinct, same => by
    rcases s' with _ | _ | _ | _ | ⟨_, _, _ | _⟩ | _ | _ | _ | _ | _ <;>
      simp [Stmt.anonymous, Stmt.mapIds] at same
    obtain ⟨first, second, third⟩ := same
    have branches := (List.nodup_append.mp distinct).2.1
    obtain ⟨f, rfl⟩ := Expr.exists_mapIds condition _ (List.nodup_append.mp distinct).1 first
    obtain ⟨g, rfl⟩ := Stmt.exists_mapIds consequent _ (List.nodup_append.mp branches).1 second
    obtain ⟨h, rfl⟩ := Stmt.exists_mapIds alternative _ (List.nodup_append.mp branches).2.1 third
    refine ⟨join condition.ids f (join consequent.ids g h), ?_⟩
    rw [Stmt.mapIds, condition.mapIds_congr join_left,
      consequent.mapIds_congr fun i mem => (join_left i mem).trans
        (join_right distinct i (List.mem_append_left _ mem)),
      alternative.mapIds_congr fun i mem => (join_right branches i mem).trans
        (join_right distinct i (List.mem_append_right _ mem))]
  | .loop condition body step, s', distinct, same => by
    rcases s' with _ | _ | _ | _ | ⟨_, _, _ | _⟩ | _ | _ | _ | _ | _ <;>
      simp [Stmt.anonymous, Stmt.mapIds] at same
    obtain ⟨first, second, third⟩ := same
    have parts := (List.nodup_append.mp distinct).2.1
    obtain ⟨f, rfl⟩ := Expr.exists_mapIds condition _ (List.nodup_append.mp distinct).1 first
    obtain ⟨g, rfl⟩ := Stmt.exists_mapIds body _ (List.nodup_append.mp parts).1 second
    obtain ⟨h, rfl⟩ := Expr.exists_map_mapIds step _ (List.nodup_append.mp parts).2.1 third
    refine ⟨join condition.ids f (join body.ids g h), ?_⟩
    rw [Stmt.mapIds, condition.mapIds_congr join_left,
      body.mapIds_congr fun i mem => (join_left i mem).trans
        (join_right distinct i (List.mem_append_left _ mem)),
      Expr.map_mapIds_congr step fun i mem => (join_right parts i mem).trans
        (join_right distinct i (List.mem_append_right _ mem))]
  | .funDecl declaration, s', distinct, same => by
    rcases s' with _ | _ | _ | _ | ⟨_, _, _ | _⟩ | _ | _ | _ | _ | _ <;>
      simp [Stmt.anonymous, Stmt.mapIds] at same
    obtain ⟨f, rfl⟩ := FunctionDecl.exists_mapIds declaration _ distinct same
    exact ⟨f, rfl⟩
  | .classDecl name none methods, s', distinct, same => by
    rcases s' with _ | _ | _ | _ | ⟨_, _, _ | _⟩ | _ | _ | ⟨_, _ | _, _⟩ | _ | _ <;>
      simp [Stmt.anonymous, Stmt.mapIds] at same
    obtain ⟨rfl, same⟩ := same
    obtain ⟨f, rfl⟩ := FunctionDecl.exists_mapIdsAll methods _ distinct same
    exact ⟨f, rfl⟩
  | .classDecl name (some r) methods, s', distinct, same => by
    rcases s' with _ | _ | _ | _ | ⟨_, _, _ | _⟩ | _ | _ | ⟨_, _ | r', _⟩ | _ | _ <;>
      simp [Stmt.anonymous, Stmt.mapIds, Reference.mapId] at same
    obtain ⟨rfl, same, methods'⟩ := same
    have split : ([r.id] ++ FunctionDecl.idsAll methods).Nodup := distinct
    obtain ⟨f, rfl⟩ :=
      FunctionDecl.exists_mapIdsAll methods _ (List.nodup_append.mp split).2.1 methods'
    refine ⟨join [r.id] (fun _ => r'.id) f, ?_⟩
    rw [Stmt.mapIds, FunctionDecl.mapIdsAll_congr methods
      (join_right (f := fun _ => r'.id) split)]
    simp [Reference.mapId, join, ← same]
  | .returning line value, s', distinct, same => by
    rcases s' with _ | _ | _ | _ | ⟨_, _, _ | _⟩ | _ | _ | _ | _ | _ <;>
      simp [Stmt.anonymous, Stmt.mapIds] at same
    obtain ⟨rfl, same⟩ := same
    obtain ⟨f, rfl⟩ := Expr.exists_map_mapIds value _ distinct same
    exact ⟨f, rfl⟩
  | .jump kind, s', _, same => by
    rcases s' with _ | _ | _ | _ | ⟨_, _, _ | _⟩ | _ | _ | _ | _ | _ <;>
      simp [Stmt.anonymous, Stmt.mapIds] at same
    exact ⟨id, by simp [Stmt.mapIds, same]⟩

theorem Stmt.exists_mapIdsAll : ∀ body body' : List Stmt, (Stmt.idsAll body).Nodup →
    Stmt.anonymousAll body' = Stmt.anonymousAll body → ∃ f, body' = Stmt.mapIdsAll f body
  | [], body', _, same => by
    cases body' <;> simp [Stmt.anonymousAll, Stmt.mapIdsAll] at same
    exact ⟨id, rfl⟩
  | s :: rest, body', distinct, same => by
    cases body' <;> simp [Stmt.anonymousAll, Stmt.mapIdsAll] at same
    obtain ⟨first, second⟩ := same
    obtain ⟨f, rfl⟩ := Stmt.exists_mapIds s _ (List.nodup_append.mp distinct).1 first
    obtain ⟨g, rfl⟩ := Stmt.exists_mapIdsAll rest _ (List.nodup_append.mp distinct).2.1 second
    refine ⟨join s.ids f g, ?_⟩
    rw [Stmt.mapIdsAll, s.mapIds_congr join_left,
      Stmt.mapIdsAll_congr rest (join_right distinct)]

theorem FunctionDecl.exists_mapIds : ∀ d d' : FunctionDecl, d.ids.Nodup →
    d'.anonymous = d.anonymous → ∃ f, d' = d.mapIds f
  | .mk name parameters body, .mk name' parameters' body', distinct, same => by
    simp [FunctionDecl.anonymous, FunctionDecl.mapIds] at same
    obtain ⟨rfl, rfl, same⟩ := same
    obtain ⟨f, rfl⟩ := Stmt.exists_mapIdsAll body _ distinct same
    exact ⟨f, rfl⟩

theorem FunctionDecl.exists_mapIdsAll : ∀ ds ds' : List FunctionDecl,
    (FunctionDecl.idsAll ds).Nodup →
    FunctionDecl.anonymousAll ds' = FunctionDecl.anonymousAll ds →
    ∃ f, ds' = FunctionDecl.mapIdsAll f ds
  | [], ds', _, same => by
    cases ds' <;> simp [FunctionDecl.anonymousAll, FunctionDecl.mapIdsAll] at same
    exact ⟨id, rfl⟩
  | d :: rest, ds', distinct, same => by
    cases ds' <;> simp [FunctionDecl.anonymousAll, FunctionDecl.mapIdsAll] at same
    obtain ⟨first, second⟩ := same
    obtain ⟨f, rfl⟩ := FunctionDecl.exists_mapIds d _ (List.nodup_append.mp distinct).1 first
    obtain ⟨g, rfl⟩ :=
      FunctionDecl.exists_mapIdsAll rest _ (List.nodup_append.mp distinct).2.1 second
    refine ⟨join d.ids f g, ?_⟩
    rw [FunctionDecl.mapIdsAll, d.mapIds_congr join_left,
      FunctionDecl.mapIdsAll_congr rest (join_right distinct)]

end

end ScopeScript
