import ScopeScript.Proofs.Execution.Footprint

set_option autoImplicit false

namespace ScopeScript

namespace Store

def Dedicated (s : Store) (address : Nat) : Prop :=
  address ≠ Environment.root.innermost ∧
    ((s.lookup address "this").isSome ∨ (s.lookup address "super").isSome)

def Only (s : Store) (address : Nat) (word : String) (value : Value) : Prop :=
  ∀ name, s.lookup address name = if name = word then some value else none

/--
From `s` to `s'` nothing is lost, and the scopes of receivers and superclasses stay as they are.
-/
structure Steady (s s' : Store) : Prop where
  scopes : s.scopes.size ≤ s'.scopes.size
  objects : s.objects.size ≤ s'.objects.size
  same : ∀ address, s.Dedicated address → ∀ name, s'.lookup address name = s.lookup address name
  back : ∀ address, address < s.scopes.size → s'.Dedicated address → s.Dedicated address

variable {s s₁ s₂ : Store} {address : Nat} {name word : String} {value : Value}

theorem lt_size_of_lookup (found : s.lookup address name = some value) :
    address < s.scopes.size := by
  apply Nat.lt_of_not_le
  intro outside
  rw [lookup_eq_none outside] at found
  cases found

theorem Dedicated.lt_size (h : s.Dedicated address) : address < s.scopes.size := by
  obtain ⟨-, found | found⟩ := h <;>
    exact lt_size_of_lookup (Option.eq_some_of_isSome found)

theorem Dedicated.of_lookup (inner : address ≠ Environment.root.innermost)
    (reserved : word = "this" ∨ word = "super") (found : s.lookup address word = some value) :
    s.Dedicated address := by
  refine ⟨inner, ?_⟩
  rcases reserved with rfl | rfl
  · exact .inl (by simp [found])
  · exact .inr (by simp [found])

theorem Only.self (h : s.Only address word value) : s.lookup address word = some value := by
  simp [h word]

theorem Only.eq_of_lookup {other : Value} (h : s.Only address word value)
    (found : s.lookup address name = some other) : name = word ∧ other = value := by
  rw [h name] at found
  split at found
  next same => exact ⟨same, (Option.some.inj found).symm⟩
  · cases found

namespace Steady

theorem refl (s : Store) : s.Steady s :=
  ⟨Nat.le_refl _, Nat.le_refl _, fun _ _ _ => rfl, fun _ _ => id⟩

theorem of_eq (same : s₁ = s) : s.Steady s₁ := same ▸ .refl s

theorem of_same (scopes : s.scopes.size ≤ s₁.scopes.size)
    (objects : s.objects.size ≤ s₁.objects.size)
    (same : ∀ address, address < s.scopes.size → ∀ name,
      s₁.lookup address name = s.lookup address name) :
    s.Steady s₁ := by
  refine ⟨scopes, objects, fun address dedicated => same address dedicated.lt_size, ?_⟩
  intro address inside dedicated
  simpa only [Dedicated, same address inside] using dedicated

theorem dedicated (h : s.Steady s₁) (dedicated : s.Dedicated address) : s₁.Dedicated address := by
  simpa only [Dedicated, h.same address dedicated] using dedicated

theorem trans (first : s.Steady s₁) (second : s₁.Steady s₂) : s.Steady s₂ where
  scopes := Nat.le_trans first.scopes second.scopes
  objects := Nat.le_trans first.objects second.objects
  same address dedicated name := by
    rw [second.same address (first.dedicated dedicated), first.same address dedicated]
  back address inside dedicated :=
    first.back address inside
      (second.back address (Nat.lt_of_lt_of_le inside first.scopes) dedicated)

theorem lookup_back (h : s.Steady s₁) (inside : address < s.scopes.size)
    (inner : address ≠ Environment.root.innermost) (reserved : word = "this" ∨ word = "super")
    (found : s₁.lookup address word = some value) : s.lookup address word = some value := by
  have dedicated := h.back address inside (.of_lookup inner reserved found)
  rwa [← h.same address dedicated word]

theorem only (h : s.Steady s₁) (inner : address ≠ Environment.root.innermost)
    (reserved : word = "this" ∨ word = "super") (only : s.Only address word value) :
    s₁.Only address word value := by
  intro name
  rw [h.same address (.of_lookup inner reserved only.self)]
  exact only name

theorem eq_of_only {value' : Value} (first : s₁.Steady s) (second : s₂.Steady s)
    (inner : address ≠ Environment.root.innermost) (reserved : word = "this" ∨ word = "super")
    (only : s₁.Only address word value) (found : s₂.lookup address word = some value') :
    value' = value := by
  have later := second.same address (.of_lookup inner reserved found) word
  exact ((first.only inner reserved only).eq_of_lookup (later.trans found)).2

end Steady

theorem steady_enclose (s : Store) (env : Environment) : s.Steady (s.enclose env).2 :=
  .of_same (s.grows_enclose env).scopes (s.grows_enclose env).objects
    fun _ _ _ => lookup_enclose s env _ _

theorem steady_newInstance (s : Store) (c : Class) : s.Steady (s.newInstance c).2 :=
  .of_same (s.grows_newInstance c).scopes (s.grows_newInstance c).objects fun _ _ _ => rfl

theorem steady_setField (s : Store) (i : Instance) (name : String) (value : Value) :
    s.Steady (s.setField i name value) :=
  .of_same (s.grows_setField i name value).scopes (s.grows_setField i name value).objects
    fun _ _ _ => rfl

theorem steady_newIdentity (s : Store) : s.Steady s.newIdentity.2 :=
  .of_same (Nat.le_refl _) (Nat.le_refl _) fun _ _ _ => rfl

def Writable (s : Store) (address : Nat) (name : String) : Prop :=
  address = Environment.root.innermost ∨
    ¬ s.Dedicated address ∧ name ≠ "this" ∧ name ≠ "super"

theorem Writable.not_dedicated (h : s.Writable address name) : ¬ s.Dedicated address := by
  rcases h with rfl | ⟨open', -⟩
  · exact fun dedicated => dedicated.1 rfl
  · exact open'

theorem dedicated_bindAt_iff (writable : s.Writable address name) (other : Nat) :
    (s.bindAt address name value).Dedicated other ↔ s.Dedicated other := by
  unfold Dedicated
  refine and_congr_right fun inner => ?_
  rw [lookup_bindAt, lookup_bindAt]
  rcases writable with rfl | ⟨-, notThis, notSuper⟩
  · simp [inner]
  · simp [notThis, notSuper]

theorem steady_bindAt (writable : s.Writable address name) (value : Value) :
    s.Steady (s.bindAt address name value) where
  scopes := (s.grows_bindAt address name value).scopes
  objects := (s.grows_bindAt address name value).objects
  same other dedicated key := by
    have apart : other ≠ address := fun same => writable.not_dedicated (same ▸ dedicated)
    simp [lookup_bindAt, apart]
  back other _ dedicated := (dedicated_bindAt_iff writable other).mp dedicated

theorem lookup_dedicate (s : Store) (env : Environment) (word : String) (value : Value)
    (address : Nat) (name : String) :
    ((s.enclose env).2.define (s.enclose env).1 word value).lookup address name =
      if address = s.scopes.size then (if name = word then some value else none)
      else s.lookup address name := by
  have inside : (s.enclose env).1.innermost < (s.enclose env).2.scopes.size := by
    simp [enclose]
  rw [lookup_define _ _ _ _ _ _ inside, lookup_enclose, innermost_enclose]
  by_cases here : address = s.scopes.size
  · subst here
    simp [eq_comm, lookup_eq_none]
  · simp [here]

theorem only_dedicate (s : Store) (env : Environment) (word : String) (value : Value) :
    ((s.enclose env).2.define (s.enclose env).1 word value).Only s.scopes.size word value :=
  fun name => by simp [lookup_dedicate]

theorem steady_dedicate (s : Store) (env : Environment) (word : String) (value : Value) :
    s.Steady ((s.enclose env).2.define (s.enclose env).1 word value) := by
  have grows := (s.grows_enclose env).trans
    ((s.enclose env).2.grows_define (s.enclose env).1 word value)
  refine .of_same grows.scopes grows.objects fun address inside name => ?_
  rw [lookup_dedicate, if_neg (Nat.ne_of_lt inside)]

end Store

end ScopeScript
