import ScopeScript.Proofs.Parsing.Derivation

set_option autoImplicit false

namespace ScopeScript

namespace Parser

variable {α β : Type}

theorem bind_ok {p : Parser α} {f : α → Parser β} {c c' : Cursor} {b : β}
    (h : (p >>= f) c = .ok b c') : ∃ a c₁, p c = .ok a c₁ ∧ f a c₁ = .ok b c' := by
  change EStateM.bind p f c = _ at h
  unfold EStateM.bind at h
  cases step : p c with
  | ok a c₁ => exact ⟨a, c₁, rfl, by simpa [step] using h⟩
  | error d c₁ => simp [step] at h

theorem bind_of_ok {p : Parser α} {f : α → Parser β} {c c₁ : Cursor} {a : α}
    (h : p c = .ok a c₁) : (p >>= f) c = f a c₁ := by
  change EStateM.bind p f c = _
  simp [EStateM.bind, h]

def Yields (p : Parser α) (R : α → List Token → List Token → Prop) : Prop :=
  ∀ c a c', p c = .ok a c' → c'.faults = [] →
    c.faults = [] ∧ ∃ used, c.rest = used ++ c'.rest ∧ R a used c'.rest

namespace Yields

variable {p : Parser α} {f : α → Parser β}

theorem mono {R R' : α → List Token → List Token → Prop} (h : Yields p R)
    (weaker : ∀ a used rest, R a used rest → R' a used rest) : Yields p R' := by
  intro c a c' done clean
  obtain ⟨before, used, split, described⟩ := h c a c' done clean
  exact ⟨before, used, split, weaker _ _ _ described⟩

theorem bind {Q : α → List Token → List Token → Prop} {R : β → List Token → List Token → Prop}
    (first : Yields p Q)
    (second : ∀ a, Yields (f a) fun b used rest =>
      ∀ before, Q a before (used ++ rest) → R b (before ++ used) rest) :
    Yields (p >>= f) R := by
  intro c b c' done clean
  obtain ⟨a, c₁, ran, went⟩ := bind_ok done
  obtain ⟨middle, used, split, described⟩ := second a c₁ b c' went clean
  obtain ⟨start, before, split', described'⟩ := first c a c₁ ran middle
  rw [split] at described' split'
  exact ⟨start, before ++ used, by simpa using split', described before described'⟩

theorem pure {R : α → List Token → List Token → Prop} {a : α} (h : ∀ rest, R a [] rest) :
    Yields (Pure.pure a) R := by
  intro c a' c' done clean
  cases done
  exact ⟨clean, [], rfl, h _⟩

theorem fail {R : α → List Token → List Token → Prop} (what : Expectation) :
    Yields (Parser.fail what) R := by
  intro c a c' done
  cases done

theorem take? {f : Kind → Option α} :
    Yields (Parser.take? f) fun found used rest =>
      match found with
      | none => used = [] ∧ ∀ t ∈ rest.head?, f t.kind = none
      | some (a, t) => used = [t] ∧ f t.kind = some a := by
  intro c found c' done clean
  unfold Parser.take? at done
  split at done
  next h =>
    cases done
    exact ⟨clean, [], rfl, rfl, by simp [h]⟩
  next t rest h =>
    split at done
    next a meant =>
      cases done
      exact ⟨clean, [t], by simp [h], rfl, meant⟩
    next meant =>
      cases done
      exact ⟨clean, [], rfl, rfl, by simp [h, meant]⟩

theorem accept (kind : Kind) :
    Yields (Parser.accept kind) fun found used rest =>
      match found with
      | true => ∃ t, used = [t] ∧ t.kind = kind
      | false => used = [] ∧ ∀ t ∈ rest.head?, t.kind ≠ kind := by
  intro c found c' done clean
  unfold Parser.accept at done
  split at done
  next h =>
    cases done
    exact ⟨clean, [], rfl, rfl, by simp [h]⟩
  next t rest h =>
    split at done
    next same =>
      cases done
      exact ⟨clean, [t], by simp [h], t, rfl, same⟩
    next other =>
      cases done
      exact ⟨clean, [], rfl, rfl, by simp [h, other]⟩

theorem expect (kind : Kind) (what : Expectation) :
    Yields (Parser.expect kind what) fun t used _ => used = [t] ∧ t.kind = kind := by
  intro c t c' done clean
  unfold Parser.expect at done
  split at done
  · cases done
  next t rest h =>
    split at done
    next same =>
      cases done
      exact ⟨clean, [t], by simp [h], rfl, same⟩
    · cases done

theorem expectName (what : Expectation) :
    Yields (Parser.expectName what) fun name used _ =>
      ∃ t : Token, used = [t] ∧ t.Identifier ∧ name = t.name := by
  refine (expect .identifier what).bind fun t => .pure ?_
  rintro rest before ⟨rfl, identifier⟩
  exact ⟨t, rfl, identifier, rfl⟩

theorem isNext (kind : Kind) : Yields (Parser.isNext kind) fun _ used _ => used = [] := by
  intro c found c' done clean
  cases done
  exact ⟨clean, [], rfl, rfl⟩

theorem atEnd : Yields Parser.atEnd fun found used rest => used = [] ∧ found = rest.isEmpty := by
  intro c found c' done clean
  cases done
  exact ⟨clean, [], rfl, rfl, rfl⟩

theorem note {R : Unit → List Token → List Token → Prop} (place : Place) (fault : SyntaxFault) :
    Yields (Parser.note place fault) R := by
  intro c u c' done clean
  cases done
  simp at clean

theorem noteHere {R : Unit → List Token → List Token → Prop} (fault : SyntaxFault) :
    Yields (Parser.noteHere fault) R := by
  intro c
  exact note c.place fault c

theorem reference (name : Name) :
    Yields (Parser.reference name) fun r used _ => used = [] ∧ r.name = name := by
  intro c r c' done clean
  cases done
  exact ⟨clean, [], rfl, rfl, rfl⟩

theorem copy (e : Expr) :
    Yields (Parser.copy e) fun e' used _ => used = [] ∧ e'.anonymous = e.anonymous := by
  intro c e' c' done clean
  cases done
  exact ⟨clean, [], rfl, rfl, Expr.anonymous_renumber _ _⟩

theorem recovering {s : Parser Stmt} {R : Stmt → List Token → List Token → Prop}
    (h : Yields s R) :
    Yields (Parser.recovering s) fun found used rest => ∃ s', found = some s' ∧ R s' used rest := by
  intro c found c' done clean
  unfold Parser.recovering at done
  cases step : s c with
  | ok s' c₁ =>
    simp only [step] at done
    cases done
    obtain ⟨before, used, split, described⟩ := h _ _ _ step clean
    exact ⟨before, used, split, s', rfl, described⟩
  | error d c₁ =>
    simp only [step] at done
    cases done
    simp at clean

end Yields

/-- In front of `ts` and then `rest` the step uses `ts`, and its result satisfies `Q`. -/
def Reads (p : Parser α) (ts rest : List Token) (Q : α → Prop) : Prop :=
  ∀ c, c.rest = ts ++ rest →
    ∃ a next, p c = .ok a { c with rest := rest, nextId := next } ∧ Q a

namespace Reads

variable {p : Parser α} {f : α → Parser β} {ts us rest : List Token}

theorem mono {Q Q' : α → Prop} (h : Reads p ts rest Q) (weaker : ∀ a, Q a → Q' a) :
    Reads p ts rest Q' := by
  intro c ahead
  obtain ⟨a, next, ran, described⟩ := h c ahead
  exact ⟨a, next, ran, weaker a described⟩

theorem bind {Q : α → Prop} {R : β → Prop} (first : Reads p ts (us ++ rest) Q)
    (second : ∀ a, Q a → Reads (f a) us rest R) : Reads (p >>= f) (ts ++ us) rest R := by
  intro c ahead
  obtain ⟨a, next, ran, described⟩ := first c (by simpa using ahead)
  obtain ⟨b, next', ran', described'⟩ :=
    second a described { c with rest := us ++ rest, nextId := next } rfl
  exact ⟨b, next', by rw [bind_of_ok ran, ran'], described'⟩

theorem bind_nil {Q : α → Prop} {R : β → Prop} (first : Reads p [] (us ++ rest) Q)
    (second : ∀ a, Q a → Reads (f a) us rest R) : Reads (p >>= f) us rest R :=
  first.bind second

theorem bind_last {Q : α → Prop} {R : β → Prop} (first : Reads p [] rest Q)
    (second : ∀ a, Q a → Reads (f a) [] rest R) : Reads (p >>= f) [] rest R :=
  first.bind second

theorem bind_cons {t : Token} {Q : α → Prop} {R : β → Prop}
    (first : Reads p [t] (us ++ rest) Q) (second : ∀ a, Q a → Reads (f a) us rest R) :
    Reads (p >>= f) (t :: us) rest R :=
  first.bind second

theorem pure {Q : α → Prop} {a : α} (h : Q a) : Reads (Pure.pure a) [] rest Q :=
  fun c ahead => ⟨a, c.nextId, by cases c; cases ahead; rfl, h⟩

theorem take?_some {f : Kind → Option α} {t : Token} {a : α} (meant : f t.kind = some a) :
    Reads (Parser.take? f) [t] rest (· = some (a, t)) := by
  intro c ahead
  exact ⟨_, c.nextId, by simp [Parser.take?, ahead, meant], rfl⟩

theorem take?_none {f : Kind → Option α} (meant : ∀ t ∈ rest.head?, f t.kind = none) :
    Reads (Parser.take? f) [] rest (· = none) := by
  rintro ⟨unread, endLine, nextId, faults⟩ ahead
  simp only [List.nil_append] at ahead
  subst ahead
  refine ⟨_, nextId, ?_, rfl⟩
  cases unread with
  | nil => rfl
  | cons t unread => simp [Parser.take?, meant t rfl]

theorem accept_true {kind : Kind} {t : Token} (same : t.kind = kind) :
    Reads (Parser.accept kind) [t] rest (· = true) := by
  intro c ahead
  exact ⟨_, c.nextId, by simp [Parser.accept, ahead, same], rfl⟩

theorem accept_false {kind : Kind} (other : ∀ t ∈ rest.head?, t.kind ≠ kind) :
    Reads (Parser.accept kind) [] rest (· = false) := by
  rintro ⟨unread, endLine, nextId, faults⟩ ahead
  simp only [List.nil_append] at ahead
  subst ahead
  refine ⟨_, nextId, ?_, rfl⟩
  cases unread with
  | nil => rfl
  | cons t unread => simp [Parser.accept, other t rfl]

theorem expect {kind : Kind} {what : Expectation} {t : Token} (same : t.kind = kind) :
    Reads (Parser.expect kind what) [t] rest (· = t) := by
  intro c ahead
  exact ⟨_, c.nextId, by simp [Parser.expect, ahead, same], rfl⟩

theorem expectName {what : Expectation} {t : Token} (identifier : t.Identifier) :
    Reads (Parser.expectName what) [t] rest (· = t.name) :=
  (expect identifier).bind_cons fun _ same => .pure (by rw [same]; rfl)

theorem isNext_true {kind : Kind} {t : Token} (same : t.kind = kind) :
    Reads (Parser.isNext kind) [] (t :: rest) (· = true) := by
  rintro ⟨_, endLine, nextId, faults⟩ rfl
  exact ⟨_, nextId, rfl, by simpa using same⟩

theorem isNext_false {kind : Kind} (other : ∀ t ∈ rest.head?, t.kind ≠ kind) :
    Reads (Parser.isNext kind) [] rest (· = false) := by
  rintro ⟨unread, endLine, nextId, faults⟩ ahead
  simp only [List.nil_append] at ahead
  subst ahead
  refine ⟨_, nextId, rfl, ?_⟩
  cases unread with
  | nil => rfl
  | cons t unread => simpa using other

theorem atEnd : Reads Parser.atEnd [] rest (· = rest.isEmpty) := by
  rintro ⟨_, endLine, nextId, faults⟩ rfl
  exact ⟨_, nextId, rfl, rfl⟩

theorem reference (name : Name) : Reads (Parser.reference name) [] rest (·.name = name) := by
  rintro ⟨_, endLine, nextId, faults⟩ rfl
  exact ⟨_, _, rfl, rfl⟩

theorem copy (e : Expr) :
    Reads (Parser.copy e) [] rest fun e' => e'.anonymous = e.anonymous := by
  rintro ⟨_, endLine, nextId, faults⟩ rfl
  exact ⟨_, _, rfl, Expr.anonymous_renumber _ _⟩

theorem recovering {s : Parser Stmt} {Q : Stmt → Prop} (h : Reads s ts rest Q) :
    Reads (Parser.recovering s) ts rest fun found => ∃ s', found = some s' ∧ Q s' := by
  intro c ahead
  obtain ⟨s', next, ran, described⟩ := h c ahead
  exact ⟨_, next, by simp [Parser.recovering, ran], s', rfl, described⟩

end Reads

def Becomes (p : Parser α) (ts rest : List Token) (Q : Parser α → Prop) : Prop :=
  ∀ c, c.rest = ts ++ rest →
    ∃ q next, p c = q { c with rest := rest, nextId := next } ∧ Q q

namespace Becomes

variable {p : Parser α} {ts us rest : List Token} {Q : Parser α → Prop}

theorem refl (h : Q p) : Becomes p [] rest Q := by
  rintro ⟨_, endLine, nextId, faults⟩ rfl
  exact ⟨p, nextId, rfl, h⟩

theorem trans {R : Parser α → Prop} (first : Becomes p ts (us ++ rest) Q)
    (second : ∀ q, Q q → Becomes q us rest R) : Becomes p (ts ++ us) rest R := by
  intro c ahead
  obtain ⟨q, next, ran, described⟩ := first c (by simpa using ahead)
  obtain ⟨q', next', ran', described'⟩ :=
    second q described { c with rest := us ++ rest, nextId := next } rfl
  exact ⟨q', next', ran.trans ran', described'⟩

theorem reads {R : α → Prop} (first : Becomes p ts (us ++ rest) Q)
    (second : ∀ q, Q q → Reads q us rest R) : Reads p (ts ++ us) rest R := by
  intro c ahead
  obtain ⟨q, next, ran, described⟩ := first c (by simpa using ahead)
  obtain ⟨a, next', ran', described'⟩ :=
    second q described { c with rest := us ++ rest, nextId := next } rfl
  exact ⟨a, next', ran.trans ran', described'⟩

theorem reads_nil {R : α → Prop} (first : Becomes p ts rest Q)
    (second : ∀ q, Q q → Reads q [] rest R) : Reads p ts rest R := by
  have joined : Reads p (ts ++ []) rest R := reads first second
  simpa using joined

theorem bind {β : Type} {p : Parser β} {f : β → Parser α} {R : β → Prop}
    (first : Reads p ts (us ++ rest) R) (second : ∀ b, R b → Becomes (f b) us rest Q) :
    Becomes (p >>= f) (ts ++ us) rest Q := by
  intro c ahead
  obtain ⟨b, next, ran, described⟩ := first c (by simpa using ahead)
  obtain ⟨q, next', ran', described'⟩ :=
    second b described { c with rest := us ++ rest, nextId := next } rfl
  exact ⟨q, next', by rw [bind_of_ok ran, ran'], described'⟩

theorem bind_cons {β : Type} {p : Parser β} {f : β → Parser α} {R : β → Prop} {t : Token}
    (first : Reads p [t] (us ++ rest) R) (second : ∀ b, R b → Becomes (f b) us rest Q) :
    Becomes (p >>= f) (t :: us) rest Q :=
  Becomes.bind first second

theorem bind_last {β : Type} {p : Parser β} {f : β → Parser α} {R : β → Prop} {t : Token}
    (first : Reads p [t] rest R) (second : ∀ b, R b → Becomes (f b) [] rest Q) :
    Becomes (p >>= f) [t] rest Q :=
  Becomes.bind first second

theorem bind_nil {β : Type} {p : Parser β} {f : β → Parser α} {R : β → Prop}
    (first : Reads p [] (us ++ rest) R) (second : ∀ b, R b → Becomes (f b) us rest Q) :
    Becomes (p >>= f) us rest Q :=
  Becomes.bind first second

end Becomes

end Parser

end ScopeScript
