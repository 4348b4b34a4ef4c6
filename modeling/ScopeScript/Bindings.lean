set_option autoImplicit false

namespace ScopeScript

structure Bindings (α : Type) where
  entries : List (String × α)

namespace Bindings

variable {α : Type}

def empty : Bindings α := ⟨[]⟩

instance : EmptyCollection (Bindings α) := ⟨empty⟩

instance : Inhabited (Bindings α) := ⟨empty⟩

def lookup (name : String) : List (String × α) → Option α
  | [] => none
  | (key, value) :: rest => if key = name then some value else lookup name rest

def get? (b : Bindings α) (name : String) : Option α :=
  lookup name b.entries

def contains (b : Bindings α) (name : String) : Bool :=
  (b.get? name).isSome

def replace (name : String) (value : α) : List (String × α) → List (String × α)
  | [] => [(name, value)]
  | (key, old) :: rest =>
    if key = name then (name, value) :: rest else (key, old) :: replace name value rest

def insert (b : Bindings α) (name : String) (value : α) : Bindings α :=
  ⟨replace name value b.entries⟩

def ofList (pairs : List (String × α)) : Bindings α :=
  pairs.foldl (fun b pair => b.insert pair.1 pair.2) ∅

theorem lookup_replace (entries : List (String × α)) (name other : String) (value : α) :
    lookup other (replace name value entries) =
      if name = other then some value else lookup other entries := by
  induction entries with
  | nil => rfl
  | cons entry rest ih =>
    obtain ⟨key, old⟩ := entry
    by_cases same : key = name
    · subst same
      by_cases h : key = other <;> simp [replace, lookup, h]
    · by_cases h : key = other
      · subst h
        simp [replace, lookup, same, Ne.symm same]
      · simp [replace, lookup, same, h, ih]

@[simp]
theorem get?_empty (name : String) : (∅ : Bindings α).get? name = none := rfl

theorem get?_insert (b : Bindings α) (name other : String) (value : α) :
    (b.insert name value).get? other = if name = other then some value else b.get? other :=
  lookup_replace b.entries name other value

@[simp]
theorem get?_insert_self (b : Bindings α) (name : String) (value : α) :
    (b.insert name value).get? name = some value := by
  simp [get?_insert]

end Bindings

end ScopeScript
