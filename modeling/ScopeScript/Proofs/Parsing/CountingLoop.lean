import ScopeScript.Proofs.Execution.CountingLoop
import ScopeScript.Proofs.Parsing.Lookahead
import ScopeScript.Proofs.Parsing.StatementSoundness
import ScopeScript.Proofs.Scope.Reports

set_option autoImplicit false

namespace ScopeScript

open Run

namespace CountingLoop

/-- The words of a loop. A first clause that is left out leaves its semicolon. -/
inductive Written : List Token → CountingLoop → Prop
  | direct {w open' first stop close : Token} {cs ss us : List Token} {condition step : Option Expr}
      {isOpen : Bool} {body : Stmt} :
    w.Word .for → open'.Mark .leftParen → first.Mark .semicolon →
    Derives cs (.optional condition) → stop.Mark .semicolon → Derives ss (.optional step) →
    close.Mark .rightParen → Derives us (.statement isOpen body) →
    Written (w :: open' :: first :: (cs ++ stop :: (ss ++ close :: us)))
      ⟨none, condition, step, body⟩
  | started {w open' stop close : Token} {is cs ss us : List Token} {first : Opening}
      {condition step : Option Expr} {isOpen : Bool} {body : Stmt} :
    w.Word .for → open'.Mark .leftParen → Derives is (.initial first.statement) →
    Derives cs (.optional condition) → stop.Mark .semicolon → Derives ss (.optional step) →
    close.Mark .rightParen → Derives us (.statement isOpen body) →
    Written (w :: open' :: (is ++ (cs ++ stop :: (ss ++ close :: us))))
      ⟨some first, condition, step, body⟩

theorem exists_declaration {ts : List Token} {s : Stmt} (h : Derives ts (.variable s)) :
    ∃ name value, s = .varDecl name value := by
  cases h
  case unset => exact ⟨_, none, rfl⟩
  case set e _ _ _ _ => exact ⟨_, some e, rfl⟩

theorem exists_opening {ts : List Token} {s : Stmt} (h : Derives ts (.initial s)) :
    ∃ first : Opening, s = first.statement := by
  cases h
  case initialExpression e _ _ => exact ⟨.expression e, rfl⟩
  case initialVariable declared =>
    obtain ⟨name, value, rfl⟩ := exists_declaration declared
    exact ⟨.declaration name value, rfl⟩

theorem exists_written {w : Token} {ts : List Token} {isOpen : Bool} {s : Stmt}
    (h : Derives (w :: ts) (.statement isOpen s)) (word : w.Word .for) :
    ∃ l : CountingLoop, Written (w :: ts) l ∧ s = l.tree := by
  generalize text : w :: ts = words at h ⊢
  cases h
  case forLoop word opens marks c stops st closes b =>
    exact ⟨_, .direct word opens marks c stops st closes b, rfl⟩
  case forLoopFrom word opens initial c stops st closes b =>
    obtain ⟨first, rfl⟩ := exists_opening initial
    exact ⟨_, .started word opens initial c stops st closes b, rfl⟩
  case expression derived stops =>
    obtain ⟨t, us, rfl, starts⟩ := derived.exists_cons id
    cases text
    have leads := starts.not_lead.1
    rw [word] at leads
    cases leads
  case nested derived =>
    obtain ⟨t, us, rfl, starts⟩ := derived.exists_cons id
    cases text
    cases word.symm.trans starts
  case print other _ _ | branch other _ _ _ _ | branches other _ _ _ _ _ _
    | whileLoop other _ _ _ _ | returning other _ _ | leave other _ | next other _ =>
    cases text
    cases word.symm.trans other

end CountingLoop

-- The scopes of a loop.

theorem scopes_statement {ts : List Token} {p : Phrase} (h : Derives ts p) :
    ∀ {isOpen : Bool} {s : Stmt}, p = .statement isOpen s →
      ∀ (context : ScopeContext) (st : ScopeState), (s.scopes context st).scopes = st.scopes := by
  induction h <;> rintro isOpen s ⟨⟩ context st
  case expression e _ _ _ | print e _ _ _ _ => exact e.scopes_scopes context st
  case nested body _ _ => exact (Stmt.sameOuter_scopesAll body context st.enter).leave
  case branch c _ _ _ _ _ _ _ ih => exact (ih rfl context _).trans (c.scopes_scopes context st)
  case branches c _ _ _ _ _ _ _ _ _ _ ih ih' =>
    exact ((ih' rfl context _).trans (ih rfl context _)).trans (c.scopes_scopes context st)
  case whileLoop c _ _ _ _ _ _ _ ih => exact (ih rfl context _).trans (c.scopes_scopes context st)
  case forLoop c step _ _ _ _ _ _ _ _ _ _ _ ih =>
    have tested := (c.getD (.literal (.bool true))).scopes_scopes context st
    exact (Expr.scopes_scopes? context step _).trans ((ih rfl context _).trans tested)
  case forLoopFrom => exact (Stmt.sameOuter_scopesAll _ context st.enter).leave
  case returning w _ _ e _ _ _ _ =>
    have checked := st.scopes_checkReturn context w.line e.isSome
    exact (Expr.scopes_scopes? context e _).trans checked
  case leave | next => rfl

namespace CountingLoop

variable {l : CountingLoop}

def scopes (l : CountingLoop) (context : ScopeContext) (st : ScopeState) : ScopeState :=
  let iteration (st : ScopeState) : ScopeState :=
    Expr.scopes? context l.step (l.body.scopes context (Expr.scopes? context l.condition st))
  match l.initial with
  | none => iteration st
  | some first => (iteration (first.statement.scopes context st.enter)).leave

theorem scopes_tree (context : ScopeContext) (st : ScopeState) :
    l.tree.scopes context st = l.scopes context st := by
  obtain ⟨initial, condition, step, body⟩ := l
  cases initial <;> cases condition <;> rfl

theorem Written.body_scopes {ts : List Token} (written : Written ts l) (context : ScopeContext)
    (st : ScopeState) : (l.body.scopes context st).scopes = st.scopes := by
  cases written with
  | direct _ _ _ _ _ _ _ derived | started _ _ _ _ _ _ _ derived =>
    exact scopes_statement derived rfl context st

theorem Written.scopes {ts : List Token} (written : Written ts l) (context : ScopeContext)
    (st : ScopeState) : (l.scopes context st).scopes = st.scopes := by
  rw [← scopes_tree]
  cases written with
  | direct word opens marks c stops step closes derived =>
    exact scopes_statement (.forLoop word opens marks c stops step closes derived) rfl context st
  | started word opens initial c stops step closes derived =>
    exact scopes_statement (.forLoopFrom word opens initial c stops step closes derived)
      rfl context st

theorem Repeats.ne_jumped {env : Environment} {m : Machine} {r : Outcome Completion}
    (h : l.Repeats env m r) (kind : Jump) (m' : Machine) : r ≠ .ok (.jumped kind) m' := by
  induction h with
  | untested | finished | failed | returned | left | unstepped => exact nofun
  | again _ _ _ _ ih => exact ih

theorem Runs.ne_jumped {m : Machine} {r : Outcome Completion} (h : l.Runs m r) (kind : Jump)
    (m' : Machine) : r ≠ .ok (.jumped kind) m' := by
  cases h with
  | repeats _ repeats => exact repeats.ne_jumped kind m'
  | unbegun => exact nofun
  | @begun m₁ _ _ _ r _ _ _ repeats =>
    intro same
    cases r with
    | error halt m₂ => cases same
    | ok completion m₂ =>
      cases same
      exact repeats.ne_jumped kind m₂ rfl

/--
What a statement means that is read from the words of a counting loop. It runs as the clauses say.
Afterwards the scope of its first clause is gone, from the environment as well as from the walk.
-/
structure Meaning (l : CountingLoop) (s : Stmt) : Prop where
  runs : ∀ m r, Ends (execute · s) m r ↔ l.Runs m r
  determined : ∀ m r r', l.Runs m r → l.Runs m r' → r = r'
  contained : ∀ m r, Ends (execute · s) m r → ∀ kind m', r ≠ .ok (.jumped kind) m'
  restored : ∀ m r, Ends (execute · s) m r → (ending r).environment = m.environment
  fresh : ∀ m : Machine, (∀ address ∈ m.environment.chain, address < m.store.scopes.size) →
    (m.store.enclose m.environment).1.innermost ∉ m.environment.chain ∧
      ∀ name, (m.store.enclose m.environment).2.lookup m.store.scopes.size name = none
  walked : ∀ context st, s.scopes context st = l.scopes context st
  level : ∀ context st, (l.body.scopes context st).scopes = st.scopes
  hidden : ∀ context st, (s.scopes context st).scopes = st.scopes

theorem Written.meaning {ts : List Token} (written : Written ts l) : l.Meaning l.tree where
  runs _ _ := ends_tree_iff
  determined _ _ _ h h' :=
    (ends_tree_iff.mpr h).unique (deepening_execute l.tree) (ends_tree_iff.mpr h')
  contained _ _ h := (ends_tree_iff.mp h).ne_jumped
  restored m r h := by
    obtain ⟨n, ran⟩ := h.reached
    exact ran ▸ (keeps_execute n l.tree m).environment
  fresh m inside := by
    refine ⟨fun visible => Nat.lt_irrefl _ (inside _ visible), fun name => ?_⟩
    rw [Store.lookup_enclose]
    exact Store.lookup_eq_none (Nat.le_refl _) name
  walked := scopes_tree
  level := written.body_scopes
  hidden context st := by
    rw [scopes_tree]
    exact written.scopes context st

end CountingLoop

/-- A statement that is read from `for` on is a counting loop, and has the meaning of one. -/
theorem Parser.statement_for {n : Nat} {inLoop : Bool} {c c' : Cursor} {w : Token}
    {ts : List Token} {s : Stmt} (read : Parser.statement n inLoop c = .ok s c')
    (clean : c'.faults = []) (begins : c.rest = w :: ts) (word : w.Word .for) :
    ∃ (l : CountingLoop) (used : List Token), c.rest = used ++ c'.rest ∧
      CountingLoop.Written used l ∧ l.Meaning s := by
  obtain ⟨-, used, split, isOpen, derived, -, -⟩ :=
    (statements_sound n).statement inLoop c s c' read clean
  obtain ⟨t, us, rfl, -⟩ := derived.exists_cons id
  have first : w = t := (List.cons.inj (begins.symm.trans split)).1
  subst first
  obtain ⟨l, written, rfl⟩ := CountingLoop.exists_written derived word
  exact ⟨l, _, split, written, written.meaning⟩

def countingWords : List Token :=
  [⟨.keyword .for, "for", 1⟩, ⟨.punctuator .leftParen, "(", 1⟩, ⟨.keyword .var, "var", 1⟩,
    ⟨.identifier, "i", 1⟩, ⟨.punctuator .semicolon, ";", 1⟩, ⟨.identifier, "i", 1⟩,
    ⟨.punctuator .semicolon, ";", 1⟩, ⟨.identifier, "i", 1⟩, ⟨.punctuator .rightParen, ")", 1⟩,
    ⟨.keyword .continue, "continue", 1⟩, ⟨.punctuator .semicolon, ";", 1⟩]

def Parser.readsAll {α : Type} : EStateM.Result Diagnostic Cursor α → Bool
  | .ok _ c => c.rest.isEmpty && c.faults.isEmpty
  | .error .. => false

theorem Parser.statement_for_continue : ∃ (s : Stmt) (c : Cursor) (l : CountingLoop),
    Parser.statement 64 false (.start countingWords 0) = .ok s c ∧
      CountingLoop.Written countingWords l ∧ l.Meaning s := by
  have whole : readsAll (Parser.statement 64 false (.start countingWords 0)) = true := by
    decide +kernel
  cases read : Parser.statement 64 false (.start countingWords 0) with
  | error fault c =>
    rw [read] at whole
    cases whole
  | ok s c =>
    rw [read] at whole
    have ⟨ended, clean⟩ : c.rest = [] ∧ c.faults = [] := by simpa [readsAll] using whole
    obtain ⟨l, used, split, written, meant⟩ := Parser.statement_for read clean rfl rfl
    rw [ended, List.append_nil] at split
    have text : countingWords = used := split
    exact ⟨s, c, l, rfl, text ▸ written, meant⟩

end ScopeScript
