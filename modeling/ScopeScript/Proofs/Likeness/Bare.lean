import ScopeScript.Proofs.Likeness.Machines
import ScopeScript.Proofs.Likeness.Moved

set_option autoImplicit false

namespace ScopeScript

section

variable (g : Nat → Nat)

def FunctionDecl.bare (f : FunctionDecl) : FunctionDecl := (f.mapLines g).anonymous

def Closure.bare (f : Closure) : Closure := { f with declaration := f.declaration.bare g }

def Method.bare (f : Method) : Method := { f with declaration := f.declaration.bare g }

def ClassLayer.bare (c : ClassLayer) : ClassLayer :=
  { c with methods := ⟨c.methods.entries.map fun entry => (entry.1, entry.2.bare g)⟩ }

def Class.bare (c : Class) : Class := ⟨c.own.bare g, c.above.map (ClassLayer.bare g)⟩

def Instance.bare (i : Instance) : Instance := { i with ofClass := i.ofClass.bare g }

def Value.bare : Value → Value
  | .function f => .function (f.bare g)
  | .class c => .class (c.bare g)
  | .instance i => .instance (i.bare g)
  | value => value

end

theorem Value.bare_of_plain (g : Nat → Nat) {value : Value} (plain : value.Plain) :
    value.bare g = value := by
  cases value with
  | function | «class» | «instance» => exact plain.elim
  | _ => rfl

theorem map_eq_of_forall₂ {α β γ : Type} {R : α → β → Prop} {f : α → γ} {g : β → γ}
    {xs : List α} {ys : List β} (h : List.Forall₂ R xs ys) (agree : ∀ a b, R a b → g b = f a) :
    ys.map g = xs.map f := by
  induction h with
  | nil => rfl
  | cons first _ ih => rw [List.map_cons, List.map_cons, agree _ _ first, ih]

def World.Plain (ρ : World) : Prop := ∀ σ ∈ ρ, σ = .same

theorem Follows.plain {ρ : World} {chain : List Nat} {σs : List Renaming} (h : Follows ρ chain σs)
    (plain : ρ.Plain) : Renaming.Plain σs := by
  induction h with
  | root => exact Renaming.plain_nil
  | inner found _ ih =>
    obtain rfl := plain _ (List.mem_of_getElem? found)
    exact ih.cons

section

variable {K : Link} {ρ : World} {g g' : Nat → Nat}

theorem Closure.Alike.bare (levels : K.Levels g g') (fixed : K.Plain) (plain : ρ.Plain)
    {f f' : Closure} (h : f.Alike K ρ f') : f'.bare g' = f.bare g := by
  obtain ⟨σs, follows, alike⟩ := h.declaration
  have same : f'.declaration.bare g' = f.declaration.bare g :=
    alike.form levels fixed (follows.plain plain)
  rw [Closure.bare, Closure.bare, same, h.identity, h.environment, h.isInitializer]

theorem Method.Alike.bare (levels : K.Levels g g') (fixed : K.Plain) (plain : ρ.Plain)
    {f f' : Method} (h : f.Alike K ρ f') : f'.bare g' = f.bare g := by
  obtain ⟨σs, follows, alike⟩ := h.declaration
  have same : f'.declaration.bare g' = f.declaration.bare g :=
    alike.form levels fixed (follows.plain plain).cons
  rw [Method.bare, Method.bare, same, h.environment]

theorem ClassLayer.Alike.bare (levels : K.Levels g g') (fixed : K.Plain) (plain : ρ.Plain)
    {c c' : ClassLayer} (h : c.Alike K ρ c') : c'.bare g' = c.bare g := by
  have entries : c'.methods.entries.map (fun entry => (entry.1, entry.2.bare g')) =
      c.methods.entries.map fun entry => (entry.1, entry.2.bare g) :=
    map_eq_of_forall₂ h.methods fun _ _ entry => by
      rw [entry.1, entry.2.bare levels fixed plain]
  rw [ClassLayer.bare, ClassLayer.bare, entries, h.identity, h.name]

theorem Class.Alike.bare (levels : K.Levels g g') (fixed : K.Plain) (plain : ρ.Plain)
    {c c' : Class} (h : c.Alike K ρ c') : c'.bare g' = c.bare g := by
  have above : c'.above.map (ClassLayer.bare g') = c.above.map (ClassLayer.bare g) :=
    map_eq_of_forall₂ h.above fun _ _ layer => layer.bare levels fixed plain
  rw [Class.bare, Class.bare, h.own.bare levels fixed plain, above]

theorem Value.Alike.bare (levels : K.Levels g g') (fixed : K.Plain) (plain : ρ.Plain)
    {value value' : Value} (h : value.Alike K ρ value') : value'.bare g' = value.bare g := by
  cases h with
  | plain h => rw [Value.bare_of_plain g h, Value.bare_of_plain g' h]
  | function f => exact congrArg Value.function (f.bare levels fixed plain)
  | «class» c => exact congrArg Value.class (c.bare levels fixed plain)
  | «instance» i =>
    rw [Value.bare, Value.bare, Instance.bare, Instance.bare, i.address,
      i.ofClass.bare levels fixed plain]

theorem Value.optionAlike_bare (levels : K.Levels g g') (fixed : K.Plain) (plain : ρ.Plain)
    {value value' : Option Value} (h : Option.Rel (Value.Alike K ρ) value value') :
    value'.map (Value.bare g') = value.map (Value.bare g) := by
  cases h with
  | none => rfl
  | some alike => exact congrArg some (alike.bare levels fixed plain)

namespace Store.Alike

variable {s s' : Store}

theorem plain (h : s.Alike K ρ s') (fixed : K.Plain) : ρ.Plain :=
  fun σ mem => (h.renames σ mem).elim id (fixed σ)

theorem bare_lookup (levels : K.Levels g g') (fixed : K.Plain) (h : s.Alike K ρ s')
    (address : Nat) (name : String) :
    (s'.lookup address name).map (Value.bare g') = (s.lookup address name).map (Value.bare g) := by
  cases found : ρ[address]? with
  | some σ =>
    have alike := h.lookups address σ name found
    obtain rfl := h.plain fixed σ (List.mem_of_getElem? found)
    exact Value.optionAlike_bare levels fixed (h.plain fixed) alike
  | none =>
    have outside := List.getElem?_eq_none_iff.mp found
    rw [Store.lookup_eq_none (Nat.le_trans (Nat.le_of_eq h.scopes) outside),
      Store.lookup_eq_none (Nat.le_trans (Nat.le_of_eq h.scopes') outside), Option.map_none,
      Option.map_none]

theorem bare_field? (levels : K.Levels g g') (fixed : K.Plain) (h : s.Alike K ρ s')
    (i : Instance) (name : String) :
    (s'.field? i name).map (Value.bare g') = (s.field? i name).map (Value.bare g) :=
  Value.optionAlike_bare levels fixed (h.plain fixed) (h.fields i i name rfl)

end Store.Alike

end

end ScopeScript
