import ScopeScript.Value

set_option autoImplicit false

namespace ScopeScript

structure Store where
  scopes : Array (Bindings Value)
  objects : Array (Bindings Value)
  identities : Nat

namespace Store

def initial : Store := ⟨#[∅], #[], 0⟩

def lookup (s : Store) (address : Nat) (name : String) : Option Value :=
  s.scopes[address]?.bind fun scope => scope.get? name

def bindAt (s : Store) (address : Nat) (name : String) (value : Value) : Store :=
  { s with scopes := s.scopes.modify address fun scope => scope.insert name value }

def enclose (s : Store) (env : Environment) : Environment × Store :=
  (⟨s.scopes.size, env.chain⟩, { s with scopes := s.scopes.push ∅ })

def define (s : Store) (env : Environment) (name : String) (value : Value) : Store :=
  s.bindAt env.innermost name value

def binder? (s : Store) (env : Environment) (name : String) : Option Nat :=
  env.chain.find? fun address => (s.lookup address name).isSome

def get? (s : Store) (env : Environment) (name : String) : Option Value :=
  env.chain.findSome? fun address => s.lookup address name

def assign? (s : Store) (env : Environment) (name : String) (value : Value) : Option Store :=
  (s.binder? env name).map fun address => s.bindAt address name value

def getAt? (s : Store) (env : Environment) (distance : Nat) (name : String) : Option Value :=
  s.lookup (env.ancestor distance).innermost name

def assignAt (s : Store) (env : Environment) (distance : Nat) (name : String) (value : Value) :
    Store :=
  s.bindAt (env.ancestor distance).innermost name value

def newInstance (s : Store) (c : Class) : Instance × Store :=
  (⟨s.objects.size, c⟩, { s with objects := s.objects.push ∅ })

def field? (s : Store) (i : Instance) (name : String) : Option Value :=
  s.objects[i.address]?.bind fun fields => fields.get? name

def setField (s : Store) (i : Instance) (name : String) (value : Value) : Store :=
  { s with objects := s.objects.modify i.address fun fields => fields.insert name value }

def newIdentity (s : Store) : Nat × Store :=
  (s.identities, { s with identities := s.identities + 1 })

theorem lookup_bindAt (s : Store) (address other : Nat) (name : String) (value : Value)
    (key : String) :
    (s.bindAt address name value).lookup other key =
      if other = address ∧ address < s.scopes.size ∧ name = key then some value
      else s.lookup other key := by
  unfold bindAt lookup
  simp only [Array.getElem?_modify]
  by_cases same : address = other
  · subst same
    by_cases inside : address < s.scopes.size
    · by_cases h : name = key <;> simp [inside, h, Bindings.get?_insert]
    · simp [inside]
  · simp [same, Ne.symm same]

theorem lookup_define (s : Store) (env : Environment) (name key : String) (value : Value)
    (address : Nat) (inside : env.innermost < s.scopes.size) :
    (s.define env name value).lookup address key =
      if address = env.innermost ∧ name = key then some value else s.lookup address key := by
  simp [define, lookup_bindAt, inside]

theorem lookup_enclose (s : Store) (env : Environment) (address : Nat) (name : String) :
    (s.enclose env).2.lookup address name = s.lookup address name := by
  simp only [enclose, lookup, Array.getElem?_push]
  split
  next h => subst h; simp
  · rfl

theorem innermost_enclose (s : Store) (env : Environment) :
    (s.enclose env).1.innermost = s.scopes.size := rfl

def undefined (name : Name) : Diagnostic :=
  .runtime name.line (.undefinedVariable name.text)

def read (s : Store) (env : Environment) (name : Name) : Except Diagnostic Value :=
  match s.get? env name.text with
  | some value => .ok value
  | none => .error (undefined name)

def readAt (s : Store) (env : Environment) (distance : Nat) (name : Name) :
    Except Diagnostic Value :=
  match s.getAt? env distance name.text with
  | some value => .ok value
  | none => .error (undefined name)

def write (s : Store) (env : Environment) (name : Name) (value : Value) :
    Except Diagnostic Store :=
  match s.assign? env name.text value with
  | some s => .ok s
  | none => .error (undefined name)

end Store

end ScopeScript
