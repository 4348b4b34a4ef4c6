import ScopeScript.Evaluation

set_option autoImplicit false

namespace ScopeScript

structure Store.Grows (s s' : Store) : Prop where
  scopes : s.scopes.size ≤ s'.scopes.size
  objects : s.objects.size ≤ s'.objects.size
  bound : ∀ address name, (s.lookup address name).isSome → (s'.lookup address name).isSome

namespace Store.Grows

theorem refl (s : Store) : s.Grows s := ⟨Nat.le_refl _, Nat.le_refl _, fun _ _ => id⟩

theorem trans {s s₁ s₂ : Store} (first : s.Grows s₁) (second : s₁.Grows s₂) : s.Grows s₂ :=
  ⟨Nat.le_trans first.scopes second.scopes, Nat.le_trans first.objects second.objects,
    fun address name found => second.bound address name (first.bound address name found)⟩

end Store.Grows

namespace Store

theorem grows_bindAt (s : Store) (address : Nat) (name : String) (value : Value) :
    s.Grows (s.bindAt address name value) := by
  refine ⟨by simp [bindAt], by simp [bindAt], fun other key found => ?_⟩
  rw [lookup_bindAt]
  split
  · rfl
  · exact found

theorem size_define (s : Store) (env : Environment) (name : String) (value : Value) :
    (s.define env name value).scopes.size = s.scopes.size := by
  simp [define, bindAt]

theorem grows_define (s : Store) (env : Environment) (name : String) (value : Value) :
    s.Grows (s.define env name value) :=
  s.grows_bindAt env.innermost name value

theorem grows_enclose (s : Store) (env : Environment) : s.Grows (s.enclose env).2 :=
  ⟨by simp [enclose], by simp [enclose], fun address name found => by rwa [lookup_enclose]⟩

theorem grows_newInstance (s : Store) (c : Class) : s.Grows (s.newInstance c).2 :=
  ⟨by simp [newInstance], by simp [newInstance], fun _ _ => id⟩

theorem grows_setField (s : Store) (i : Instance) (name : String) (value : Value) :
    s.Grows (s.setField i name value) :=
  ⟨by simp [setField], by simp [setField], fun _ _ => id⟩

theorem grows_newIdentity (s : Store) : s.Grows s.newIdentity.2 :=
  ⟨Nat.le_refl _, Nat.le_refl _, fun _ _ => id⟩

theorem lookup_eq_none {s : Store} {address : Nat} (outside : s.scopes.size ≤ address)
    (name : String) : s.lookup address name = none := by
  rw [lookup, Array.getElem?_eq_none outside, Option.bind_none]

theorem lookup_initial (address : Nat) (name : String) : initial.lookup address name = none := by
  cases address <;> rfl

theorem field?_newInstance {s : Store} {c : Class} {i : Instance} {name : String} {value : Value}
    (found : (s.newInstance c).2.field? i name = some value) : s.field? i name = some value := by
  simp only [field?, newInstance, Array.getElem?_push] at found ⊢
  split at found
  · simp at found
  · exact found

theorem field?_setField {s : Store} {i other : Instance} {name key : String} {value value' : Value}
    (found : (s.setField i name value).field? other key = some value') :
    value' = value ∨ s.field? other key = some value' := by
  simp only [field?, setField, Array.getElem?_modify] at found
  by_cases same : i.address = other.address
  · rw [if_pos same] at found
    cases fields : s.objects[other.address]? with
    | none => simp [fields] at found
    | some b =>
      simp only [fields, Option.map_some, Option.bind_some, Bindings.get?_insert] at found
      split at found
      · exact .inl (Option.some.inj found).symm
      · exact .inr (by simpa [field?, fields] using found)
  · rw [if_neg same] at found
    exact .inr found

def defineAll (s : Store) (env : Environment) (bindings : List (Name × Value)) : Store :=
  bindings.foldl (fun s binding => s.define env binding.1.text binding.2) s

theorem grows_defineAll (env : Environment) (bindings : List (Name × Value)) (s : Store) :
    s.Grows (s.defineAll env bindings) := by
  induction bindings generalizing s with
  | nil => exact .refl s
  | cons binding rest ih => exact (s.grows_define env _ _).trans (ih _)

end Store

end ScopeScript
