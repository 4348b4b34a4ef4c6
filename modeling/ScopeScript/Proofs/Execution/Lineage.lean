import Mathlib.Data.List.Induction
import ScopeScript.Evaluation

set_option autoImplicit false

namespace ScopeScript

namespace Class

def superclass? (c : Class) : Option Class :=
  match c.above with
  | [] => none
  | own :: above => some ⟨own, above⟩

inductive Descends (c : Class) : Class → Prop
  | refl : Descends c c
  | next {d e : Class} : Descends c d → d.superclass? = some e → Descends c e

inductive Finds (name : String) : Class → Class → Method → Prop
  | own {c : Class} {method : Method} :
      c.own.methods.get? name = some method → Finds name c c method
  | above {c d owner : Class} {method : Method} :
      c.own.methods.get? name = none → c.superclass? = some d → Finds name d owner method →
      Finds name c owner method

variable {c d e owner : Class} {name : String} {method : Method}

theorem Descends.trans (first : c.Descends d) (second : d.Descends e) : c.Descends e := by
  induction second with
  | refl => exact first
  | next _ above ih => exact ih.next above

theorem Descends.above (above : c.superclass? = some d) (rest : d.Descends e) : c.Descends e :=
  (Descends.refl.next above).trans rest

theorem Descends.cases_above (h : c.Descends e) :
    e = c ∨ ∃ d, c.superclass? = some d ∧ d.Descends e := by
  induction h with
  | refl => exact .inl rfl
  | next _ above ih =>
    rcases ih with rfl | ⟨d, first, rest⟩
    · exact .inr ⟨_, above, .refl⟩
    · exact .inr ⟨d, first, rest.next above⟩

theorem method?_eq (c : Class) (name : String) :
    c.method? name = (c.own.methods.get? name).or (c.superclass?.bind fun d => d.method? name) := by
  obtain ⟨own, above⟩ := c
  unfold method? layers
  cases here : own.methods.get? name <;> cases above <;>
    simp [superclass?, here]

theorem Finds.descends (h : Finds name c owner method) : c.Descends owner := by
  induction h with
  | own => exact .refl
  | above _ above _ ih => exact ih.above above

theorem Finds.own_eq (h : Finds name c owner method) :
    owner.own.methods.get? name = some method := by
  induction h with
  | own found => exact found
  | above _ _ _ ih => exact ih

theorem method?_eq_some_iff :
    c.method? name = some method ↔ ∃ owner, Finds name c owner method := by
  obtain ⟨own, above⟩ := c
  induction above generalizing own with
  | nil =>
    rw [method?_eq]
    constructor
    · intro found
      exact ⟨_, .own (by simpa [superclass?] using found)⟩
    · rintro ⟨owner, finds⟩
      cases finds with
      | own found => simp [found]
      | above _ above _ => cases above
  | cons next rest ih =>
    rw [method?_eq]
    cases here : own.methods.get? name with
    | some other =>
      rw [Option.some_or, Option.some.injEq]
      constructor
      · rintro rfl
        exact ⟨_, .own here⟩
      · rintro ⟨owner, finds⟩
        cases finds with
        | own found => exact Option.some.inj (here.symm.trans found)
        | above missing => cases here.symm.trans missing
    | none =>
      have upwards : (superclass? ⟨own, next :: rest⟩).bind (fun d => d.method? name) =
          method? ⟨next, rest⟩ name := rfl
      rw [upwards, Option.none_or, ih next]
      constructor
      · rintro ⟨owner, finds⟩
        exact ⟨owner, .above here rfl finds⟩
      · rintro ⟨owner, finds⟩
        cases finds with
        | own found => cases here.symm.trans found
        | above _ above finds =>
          cases above
          exact ⟨owner, finds⟩

theorem method?_eq_none_iff :
    c.method? name = none ↔ ∀ d, c.Descends d → d.own.methods.get? name = none := by
  obtain ⟨own, above⟩ := c
  induction above generalizing own with
  | nil =>
    rw [method?_eq]
    constructor
    · intro missing d descends
      rcases descends.cases_above with rfl | ⟨d, above, -⟩
      · simpa [superclass?] using missing
      · cases above
    · intro missing
      simpa [superclass?] using missing _ .refl
  | cons next rest ih =>
    have upwards : (superclass? ⟨own, next :: rest⟩).bind (fun d => d.method? name) =
        method? ⟨next, rest⟩ name := rfl
    rw [method?_eq, upwards, Option.or_eq_none_iff, ih next]
    constructor
    · rintro ⟨here, missing⟩ d descends
      rcases descends.cases_above with rfl | ⟨_, ⟨⟩, descends⟩
      · exact here
      · exact missing d descends
    · intro missing
      exact ⟨missing _ .refl, fun d descends => missing d (descends.above rfl)⟩

end Class

theorem Run.get?_methodTable {declarations : List FunctionDecl} {env : Environment} {name : String}
    {method : Method} :
    (methodTable declarations env).get? name = some method ↔
      ∃ before f after, declarations = before ++ f :: after ∧ f.name.text = name ∧
        (∀ g ∈ after, g.name.text ≠ name) ∧ method = ⟨f, env⟩ := by
  induction declarations using List.reverseRecOn with
  | nil => simp [methodTable, Bindings.ofList]
  | append_singleton rest last ih =>
    have table : methodTable (rest ++ [last]) env =
        (methodTable rest env).insert last.name.text ⟨last, env⟩ := by
      simp [methodTable, Bindings.ofList]
    -- Where the last declaration stands if the list is split at one of them.
    have cut {before after : List FunctionDecl} {f : FunctionDecl}
        (split : rest ++ [last] = before ++ f :: after) :
        after = [] ∧ rest = before ∧ last = f ∨
          ∃ inside, after = inside ++ [last] ∧ rest = before ++ f :: inside := by
      cases after using List.reverseRecOn with
      | nil =>
        obtain ⟨same, ⟨⟩⟩ := List.append_inj' split rfl
        exact .inl ⟨rfl, same, rfl⟩
      | append_singleton inside g =>
        rw [← List.cons_append, ← List.append_assoc] at split
        obtain ⟨same, ⟨⟩⟩ := List.append_inj' split rfl
        exact .inr ⟨inside, rfl, same⟩
    rw [table, Bindings.get?_insert]
    split
    next same =>
      constructor
      · rintro ⟨⟩
        exact ⟨rest, last, [], rfl, same, by simp, rfl⟩
      · rintro ⟨before, f, after, split, named, others, rfl⟩
        rcases cut split with ⟨rfl, rfl, rfl⟩ | ⟨inside, rfl, -⟩
        · rfl
        · exact absurd same (others last (by simp))
    next other =>
      rw [ih]
      constructor
      · rintro ⟨before, f, after, rfl, named, others, rfl⟩
        refine ⟨before, f, after ++ [last], by simp, named, fun g mem => ?_, rfl⟩
        rcases List.mem_append.mp mem with inside | behind
        · exact others g inside
        · exact List.mem_singleton.mp behind ▸ other
      · rintro ⟨before, f, after, split, named, others, rfl⟩
        rcases cut split with ⟨rfl, rfl, rfl⟩ | ⟨inside, rfl, rfl⟩
        · exact absurd named other
        · exact ⟨before, f, inside, rfl, named, fun g mem => others g (by simp [mem]), rfl⟩

end ScopeScript
