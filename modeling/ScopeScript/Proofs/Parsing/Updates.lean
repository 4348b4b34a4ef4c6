import ScopeScript.Proofs.Parsing.Numbering
import ScopeScript.Proofs.Parsing.StatementCompleteness
import ScopeScript.Proofs.Parsing.Uniformity
import ScopeScript.Proofs.Scope.Updates

set_option autoImplicit false

namespace ScopeScript

open Run

-- The same words on other lines.

theorem Expr.anonymous_moved (k : Nat) (g : Nat → Nat) (e : Expr) :
    (e.moved k g).anonymous = e.form g :=
  Expr.mapIds_mapIds _ _ _

theorem Derives.relined {g : Nat → Nat} {ts ts' : List Token} {e : Expr}
    (derived : Derives ts (.expression e)) (arity : e.WithinArity)
    (same : ts'.map (Token.mapLine g) = ts.map (Token.mapLine g)) :
    ∃ e', Derives ts' (.expression e') ∧ e'.WithinArity ∧ e'.form g = e.form g := by
  let stop : Token := ⟨.punctuator .semicolon, ";", 0⟩
  let before (ts : List Token) : Cursor := ⟨ts ++ [stop], 0, 0, []⟩
  have level : (before ts').moved 0 g = (before ts).moved 0 g := by
    simp [before, Cursor.moved, same]
  have closed : Closed [stop] := .cons (Kind.closes_of_eq (p := .semicolon) rfl (by simp)) []
  obtain ⟨a, next, ran, read⟩ :=
    derived.complete (32 * ts.length) [stop] (Nat.le_refl _) closed arity (before ts) rfl
  -- The two readings are moved to the same one.
  have moved := Parser.expression_moves (k := 0) (g := g) (32 * ts.length) (before ts')
  rw [level, Parser.expression_moves (k := 0) (g := g) (32 * ts.length) (before ts), ran] at moved
  cases ran' : Parser.expression (32 * ts.length) (before ts') with
  | error d c' =>
    rw [ran'] at moved
    cases moved
  | ok e' c' =>
    rw [ran'] at moved
    simp only [Parser.movedResult, EStateM.Result.ok.injEq] at moved
    obtain ⟨tree, cursor⟩ := moved
    have clean : c'.faults = [] := by
      simpa [before, Cursor.moved] using congrArg Cursor.faults cursor
    have rest : c'.rest.length = [stop].length := by
      simpa [Cursor.moved] using (congrArg (fun c => c.rest.length) cursor).symm
    obtain ⟨-, used, split, derived', arity'⟩ :=
      (Parser.expressions_sound _).expression _ _ _ ran' clean
    obtain ⟨rfl, -⟩ := List.append_inj' (split : ts' ++ [stop] = used ++ c'.rest) rest.symm
    refine ⟨e', derived', arity', ?_⟩
    rw [← Expr.anonymous_moved 0, ← tree, Expr.anonymous_moved, Expr.form_of_anonymous read]

-- Targets.

namespace Derives

variable {ts : List Token} {e : Expr}

theorem level_of_call (derived : Derives ts (.call e)) (l : Level) : Derives ts (.level l e) := by
  have factor : Derives ts (.level .factor e) := .operand (l := .factor) (.called derived)
  have term : Derives ts (.level .term e) := .operand (l := .term) factor
  have comparison : Derives ts (.level .comparison e) := .operand (l := .comparison) term
  have equality : Derives ts (.level .equality e) := .operand (l := .equality) comparison
  have and : Derives ts (.level .and e) := .operand (l := .and) equality
  cases l with
  | or => exact .operand (l := .or) and
  | and => exact and
  | equality => exact equality
  | comparison => exact comparison
  | term => exact term
  | factor => exact factor

theorem operand_of_call (derived : Derives ts (.call e)) (l : Level) :
    Derives ts (l.operand e) := by
  cases l with
  | or => exact derived.level_of_call .and
  | and => exact derived.level_of_call .equality
  | equality => exact derived.level_of_call .comparison
  | comparison => exact derived.level_of_call .term
  | term => exact derived.level_of_call .factor
  | factor => exact .called derived

theorem loosest {l : Level} (derived : Derives ts (.level l e)) : Derives ts (.level .or e) := by
  have equality (h : Derives ts (.level .equality e)) : Derives ts (.level .or e) :=
    .operand (l := .or) (.operand (l := .and) h)
  have term (h : Derives ts (.level .term e)) : Derives ts (.level .or e) :=
    equality (.operand (l := .equality) (.operand (l := .comparison) h))
  cases l with
  | or => exact derived
  | and => exact .operand (l := .or) derived
  | equality => exact equality derived
  | comparison => exact equality (.operand (l := .equality) derived)
  | term => exact term derived
  | factor => exact term (.operand (l := .term) derived)

end Derives

namespace Target

inductive Written : List Token → Target → Prop
  | named {t : Token} {r : Reference} : t.Identifier → r.name = t.name → Written [t] (.named r)
  | property {ts : List Token} {dot t : Token} {object : Expr} :
    Derives ts (.call object) → dot.Mark .dot → t.Identifier →
    Written (ts ++ [dot, t]) (.property object t.name)

variable {ts us : List Token} {t : Target} {op : BinaryOp} {sign : Token} {v : Expr}

theorem Written.call (written : Written ts t) : Derives ts (.call t.read) := by
  cases written with
  | named identifier named => exact .primary (.variableName identifier named)
  | property object dot identifier => exact .property object dot identifier

theorem Written.assign (written : Written ts t) (equals : sign.Mark .equal)
    (derived : Derives us (.expression v)) :
    Derives (ts ++ sign :: us) (.expression (t.write v)) := by
  cases written with
  | named identifier named => exact .assignName identifier equals derived named
  | property object dot identifier =>
    rw [List.append_assoc]
    exact .assignProperty object dot identifier equals derived

theorem Written.compound (written : Written ts t) (compound : CompoundSign sign.kind op)
    (derived : Derives us (.expression v)) :
    Derives (ts ++ sign :: us) (.expression (Update.tree ⟨op, sign.line, t, t, v⟩)) := by
  cases written with
  | named identifier named => exact .updateName identifier compound derived named named
  | property object dot identifier =>
    rw [List.append_assoc]
    exact .updateProperty object dot identifier compound derived rfl

theorem Written.step (written : Written ts t) (step : StepSign sign.kind op) :
    Derives (ts ++ [sign])
      (.expression (Update.tree ⟨op, sign.line, t, t, .literal (.number 1)⟩)) := by
  cases written with
  | named identifier named => exact .stepName identifier step named named
  | property object dot identifier =>
    rw [List.append_assoc]
    exact .stepProperty object dot identifier step rfl

theorem Written.relined {g : Nat → Nat} {ts' : List Token} (written : Written ts t)
    (arity : t.read.WithinArity) (same : ts'.map (Token.mapLine g) = ts.map (Token.mapLine g)) :
    ∃ t', Written ts' t' ∧ t'.read.WithinArity ∧ t'.read.form g = t.read.form g := by
  obtain ⟨e', derived, arity', form⟩ :=
    (Derives.plain (written.call.level_of_call .or)).relined arity same
  cases t with
  | named r =>
    cases e' with
    | var r' =>
      cases derived with
      | plain derived =>
        obtain ⟨t, rfl, identifier, named⟩ := derived.name_of_level
        exact ⟨.named r', .named identifier named, arity', form⟩
    | _ => simp [Expr.form, Expr.anonymous, Expr.mapLines, Expr.mapIds, read] at form
  | property object name =>
    cases e' with
    | get object' name' =>
      cases derived with
      | plain derived =>
        obtain ⟨us, dot, t, rfl, object, dots, identifier, rfl⟩ := derived.property_of_level
        exact ⟨.property object' t.name, .property object dots identifier, arity', form⟩
    | _ => simp [Expr.form, Expr.anonymous, Expr.mapLines, Expr.mapIds, read] at form

end Target

-- The parts of what is read.

theorem Target.exists_read {e : Expr} {t : Target} (same : e.anonymous = t.read.anonymous) :
    ∃ t' : Target, e = t'.read := by
  cases t with
  | named r =>
    obtain ⟨r', rfl, -⟩ := Expr.eq_var_of_anonymous_eq same
    exact ⟨.named r', rfl⟩
  | property object name =>
    obtain ⟨object', rfl, -⟩ := Expr.eq_get_of_anonymous_eq same
    exact ⟨.property object' name, rfl⟩

theorem Target.exists_write {e v : Expr} {t : Target}
    (same : e.anonymous = (t.write v).anonymous) :
    ∃ (t' : Target) (v' : Expr), e = t'.write v' ∧ t'.read.anonymous = t.read.anonymous ∧
      v'.anonymous = v.anonymous := by
  cases t with
  | named r =>
    cases e <;> simp [Expr.anonymous, Expr.mapIds, write] at same
    exact ⟨.named _, _, rfl, congrArg Expr.var same.1, same.2⟩
  | property object name =>
    cases e <;> simp [Expr.anonymous, Expr.mapIds, write] at same
    obtain ⟨object, rfl, value⟩ := same
    exact ⟨.property _ _, _, rfl, congrArg (Expr.get · _) object, value⟩

theorem Target.form_write {g : Nat → Nat} {t t' : Target} {v v' : Expr}
    (target : t.read.form g = t'.read.form g) (value : v.form g = v'.form g) :
    (t.write v).form g = (t'.write v').form g := by
  cases t <;> cases t' <;>
    simp [Expr.form, Expr.anonymous, Expr.mapLines, Expr.mapIds, read, write] at target value ⊢
  all_goals simp [target, value]

namespace Update

structure Renumbers (u u' : Update) : Prop where
  op : u.op = u'.op
  line : u.line = u'.line
  target : u.target.read.anonymous = u'.target.read.anonymous
  current : u.current.read.anonymous = u'.current.read.anonymous
  value : u.value.anonymous = u'.value.anonymous

theorem exists_tree {e : Expr} {u : Update} (same : e.anonymous = u.tree.anonymous) :
    ∃ u' : Update, e = u'.tree ∧ u'.Renumbers u := by
  obtain ⟨t, v, rfl, target, inner⟩ := Target.exists_write same
  cases v <;> simp [Expr.anonymous, Expr.mapIds] at inner
  obtain ⟨rfl, rfl, left, right⟩ := inner
  obtain ⟨c, rfl⟩ := Target.exists_read left
  exact ⟨⟨_, _, t, c, _⟩, rfl, rfl, rfl, target, left, right⟩

theorem exists_grouped {e : Expr} {u : Update} (same : e.anonymous = u.grouped.tree.anonymous) :
    ∃ u' : Update, e = u'.grouped.tree ∧ u'.Renumbers u := by
  obtain ⟨⟨op, line, t, c, v⟩, rfl, parts⟩ := exists_tree same
  have value := parts.value
  cases v <;> simp [Expr.anonymous, Expr.mapIds, grouped] at value
  exact ⟨⟨op, line, t, c, _⟩, rfl, parts.op, parts.line, parts.target, parts.current, value⟩

theorem form_tree {g : Nat → Nat} {u u' : Update} (op : u.op = u'.op) (line : g u.line = g u'.line)
    (target : u.target.read.form g = u'.target.read.form g)
    (current : u.current.read.form g = u'.current.read.form g)
    (value : u.value.form g = u'.value.form g) : u.tree.form g = u'.tree.form g := by
  refine Target.form_write target ?_
  simp only [Expr.form, Expr.anonymous, Expr.mapLines, Expr.mapIds] at current value ⊢
  rw [op, line, current, value]

theorem Renumbers.form {g : Nat → Nat} {u u' : Update} (h : u.Renumbers u') :
    u.tree.form g = u'.tree.form g :=
  form_tree h.op (congrArg g h.line) (Expr.form_of_anonymous h.target)
    (Expr.form_of_anonymous h.current) (Expr.form_of_anonymous h.value)

-- The words of an update.

/-- A sign for an operator and the assignment behind the words of the target, before those of the
value. If they count up or down by one, the value has no words. -/
inductive Abbreviated (op : BinaryOp) (line : Nat) (ts : List Token) :
    List Token → Expr → List Token → Prop
  | compound {sign : Token} {us : List Token} {v : Expr} :
    CompoundSign sign.kind op → sign.line = line → Derives us (.expression v) → v.WithinArity →
    Abbreviated op line ts us v (ts ++ sign :: us)
  | step {sign one : Token} :
    StepSign sign.kind op → sign.line = line → one.kind = .number 1 →
    Abbreviated op line ts [one] (.literal (.number 1)) (ts ++ [sign])

/-- The words `target = target op (value)`, on any lines between which `g` makes no difference. -/
inductive WrittenOut (g : Nat → Nat) (op : BinaryOp) (line : Nat) (ts us : List Token) :
    List Token → Prop
  | mk {l : Level} {ts₁ ts₂ us' : List Token} {equals sign opens closes : Token} :
    ts₁.map (Token.mapLine g) = ts.map (Token.mapLine g) → equals.Mark .equal →
    ts₂.map (Token.mapLine g) = ts.map (Token.mapLine g) → l.Joins sign.kind (.binary op) →
    g sign.line = g line → opens.Mark .leftParen →
    us'.map (Token.mapLine g) = us.map (Token.mapLine g) → closes.Mark .rightParen →
    WrittenOut g op line ts us (ts₁ ++ equals :: (ts₂ ++ sign :: opens :: (us' ++ [closes])))

variable {g : Nat → Nat} {op : BinaryOp} {line : Nat} {ts us words : List Token} {t : Target}
  {v : Expr}

theorem Abbreviated.value (h : Abbreviated op line ts us v words) :
    Derives us (.expression v) ∧ v.WithinArity := by
  cases h with
  | compound _ _ derived arity => exact ⟨derived, arity⟩
  | step _ _ one =>
    have word := LiteralWord.number 1
    rw [← one] at word
    exact ⟨.plain (Derives.level_of_call (.primary (.literal word)) .or), trivial⟩

theorem Abbreviated.derives (h : Abbreviated op line ts us v words)
    (written : Target.Written ts t) :
    Derives words (.expression (Update.tree ⟨op, line, t, t, v⟩)) := by
  cases h with
  | compound sign on derived _ => exact on ▸ written.compound sign derived
  | step sign on _ => exact on ▸ written.step sign

theorem withinArity_tree {u : Update} (target : u.target.read.WithinArity)
    (current : u.current.read.WithinArity) (value : u.value.WithinArity) :
    u.tree.WithinArity := by
  obtain ⟨op, line, t, c, v⟩ := u
  cases t with
  | named r => exact ⟨current, value⟩
  | property object name => exact ⟨target, current, value⟩

theorem WrittenOut.derives (h : WrittenOut g op line ts us words) (written : Target.Written ts t)
    (arity : t.read.WithinArity) (derived : Derives us (.expression v))
    (arity' : v.WithinArity) :
    ∃ u : Update, Derives words (.expression u.grouped.tree) ∧ u.grouped.tree.WithinArity ∧
      u.tree.form g = (Update.tree ⟨op, line, t, t, v⟩).form g := by
  cases h with
  | @mk l ts₁ ts₂ us' equals sign opens closes same₁ sets same₂ joins level opening same closing =>
    obtain ⟨t₁, written₁, arity₁, form₁⟩ := written.relined arity same₁
    obtain ⟨t₂, written₂, arity₂, form₂⟩ := written.relined arity same₂
    obtain ⟨v', derived', arity', form'⟩ := derived.relined arity' same
    have group : Derives (opens :: (us' ++ [closes])) (.call (.grouping v')) :=
      .primary (.grouping opening derived' closing)
    have joined := Derives.join (written₂.call.level_of_call l) joins (group.operand_of_call l)
    exact ⟨⟨op, sign.line, t₁, t₂, v'⟩, written₁.assign sets (.plain joined.loosest),
      withinArity_tree arity₁ arity₂ arity', form_tree rfl level form₁ form₂ form'⟩

/--
The first update is an abbreviation of the second one, in which the value has parentheses. Both have
the same form and get the same distances and the same faults. From one machine they end in the same
ways, and those are the ways of the update that evaluates its object twice.
-/
structure Abbreviates (g : Nat → Nat) (u u' : Update) : Prop where
  form : u.tree.form g = u'.tree.form g
  noted : ∀ context s s', s.Level g s' →
    (u.tree.scopes context s).Level g (u'.grouped.tree.scopes context s')
  copied : ∀ context scopes table, u.tree.Entered context scopes table →
    u.target.read.Twins id table table u.current.read
  entered : ∀ context scopes table table', u.tree.Entered context scopes table →
    u'.grouped.tree.Entered context scopes table' → u.tree.Twins g table table' u'.tree
  together : ∀ context s table, s.Meets (u.tree.ids ++ u'.grouped.tree.ids) →
    (u'.grouped.tree.scopes context (u.tree.scopes context s)).resolution = table →
    u.tree.Entered context s.scopes table ∧ u'.grouped.tree.Entered context s.scopes table
  evaluated : ∀ context scopes m, u.tree.Entered context scopes m.resolution →
    u'.grouped.tree.Entered context scopes m.resolution →
    EndAlike g m (evaluate · u.tree) (evaluate · u'.grouped.tree)
  twice : ∀ context scopes m, u.tree.Entered context scopes m.resolution → ∀ r,
    Ends (evaluate · u.tree) m r ↔ Ends (u.target.update · u.op u.line u.value) m r

theorem Abbreviates.of_form {u u' : Update} (form : u.tree.form g = u'.tree.form g)
    (copied : u.target.read.anonymous = u.current.read.anonymous) : u.Abbreviates g u' where
  form := form
  noted _ _ _ h := level form h
  copied _ _ _ entered := twins_current (Expr.form_of_anonymous copied) entered
  entered _ _ _ _ entered entered' :=
    Expr.twins_of_entered form entered (entered_grouped.mp entered')
  together _ _ _ meets walked := Expr.entered_both meets walked
  evaluated _ _ _ entered entered' :=
    endAlike (Expr.twins_of_entered form entered (entered_grouped.mp entered'))
  twice _ _ _ entered := ends_tree_iff (twins_current (Expr.form_of_anonymous copied) entered)

end Update

namespace Parser

variable {e : Expr} {words rest : List Token} {n : Nat} {c : Cursor}

theorem expression_reads (derived : Derives words (.expression e)) (arity : e.WithinArity)
    (deep : 32 * words.length ≤ n) (closed : Closed rest) (ahead : c.rest = words ++ rest) :
    ∃ e' next, expression n c = .ok e' { c with rest := rest, nextId := next } ∧
      e'.anonymous = e.anonymous ∧ Fresh c.nextId next e'.ids := by
  obtain ⟨e', next, ran, read⟩ := derived.complete n rest deep closed arity c ahead
  exact ⟨e', next, ran, read, (expression_numbers n c).2 _ _ ran⟩

/-- An update is read as the plain assignment that it stands for. -/
theorem expression_update {g : Nat → Nat} {op : BinaryOp} {line : Nat} {t : Target} {v : Expr}
    {ts us words words' rest rest' : List Token} {n n' : Nat} {c c' : Cursor}
    (written : Target.Written ts t) (arity : t.read.WithinArity)
    (short : Update.Abbreviated op line ts us v words)
    (long : Update.WrittenOut g op line ts us words')
    (deep : 32 * words.length ≤ n) (closed : Closed rest) (ahead : c.rest = words ++ rest)
    (deep' : 32 * words'.length ≤ n') (closed' : Closed rest')
    (ahead' : c'.rest = words' ++ rest') :
    ∃ (u u' : Update) (next next' : Nat),
      expression n c = .ok u.tree { c with rest := rest, nextId := next } ∧
      expression n' c' = .ok u'.grouped.tree { c' with rest := rest', nextId := next' } ∧
      u.Renumbers ⟨op, line, t, t, v⟩ ∧ Fresh c.nextId next u.tree.ids ∧
      Fresh c'.nextId next' u'.grouped.tree.ids ∧ u.Abbreviates g u' := by
  obtain ⟨derived, within⟩ := short.value
  obtain ⟨e, next, ran, read, fresh⟩ := expression_reads (short.derives written)
    (Update.withinArity_tree arity arity within) deep closed ahead
  obtain ⟨u, rfl, parts⟩ := Update.exists_tree read
  obtain ⟨w, derived', within', form⟩ := long.derives written arity derived within
  obtain ⟨e', next', ran', read', fresh'⟩ := expression_reads derived' within' deep' closed' ahead'
  obtain ⟨u', rfl, parts'⟩ := Update.exists_grouped read'
  have same : u.tree.form g = u'.tree.form g := parts.form.trans (form.symm.trans parts'.form.symm)
  exact ⟨u, u', next, next', ran, ran', parts, fresh, fresh',
    .of_form same (parts.target.trans parts.current.symm)⟩

end Parser

def propertyWords (line : Nat) : List Token :=
  [⟨.identifier, "f", line⟩, ⟨.punctuator .leftParen, "(", line⟩,
    ⟨.punctuator .rightParen, ")", line⟩, ⟨.punctuator .dot, ".", line⟩, ⟨.identifier, "n", line⟩]

def shortUpdate : List Token :=
  propertyWords 1 ++ ⟨.punctuator .plusEqual, "+=", 1⟩ :: [⟨.identifier, "x", 1⟩]

def longUpdate : List Token :=
  propertyWords 2 ++ ⟨.punctuator .equal, "=", 2⟩ :: (propertyWords 2 ++
    ⟨.punctuator .plus, "+", 2⟩ :: ⟨.punctuator .leftParen, "(", 2⟩ ::
      ([⟨.identifier, "x", 2⟩] ++ [⟨.punctuator .rightParen, ")", 2⟩]))

def semicolon : Token := ⟨.punctuator .semicolon, ";", 2⟩

theorem Parser.expression_update_call : ∃ (u u' : Update) (next next' : Nat),
    Parser.expression 512 ⟨shortUpdate ++ [semicolon], 2, 0, []⟩ =
      .ok u.tree ⟨[semicolon], 2, next, []⟩ ∧
    Parser.expression 512 ⟨longUpdate ++ [semicolon], 2, 100, []⟩ =
      .ok u'.grouped.tree ⟨[semicolon], 2, next', []⟩ ∧
    Fresh 0 next u.tree.ids ∧ Fresh 100 next' u'.grouped.tree.ids ∧
    u.Abbreviates (fun _ => 0) u' := by
  have call : Derives ([⟨.identifier, "f", 1⟩] ++
      [⟨.punctuator .leftParen, "(", 1⟩, ⟨.punctuator .rightParen, ")", 1⟩])
      (.call (.call (.var ⟨0, ⟨"f", 1⟩⟩) 1 [])) :=
    .callEmpty (.primary (.variableName rfl rfl)) rfl rfl
  have written : Target.Written (propertyWords 1)
      (.property (.call (.var ⟨0, ⟨"f", 1⟩⟩) 1 []) ⟨"n", 1⟩) := .property call rfl rfl
  have value : Derives [⟨.identifier, "x", 1⟩] (.expression (.var ⟨0, ⟨"x", 1⟩⟩)) :=
    .plain (Derives.level_of_call (.primary (.variableName rfl rfl)) .or)
  have short : Update.Abbreviated .add 1 (propertyWords 1) [⟨.identifier, "x", 1⟩]
      (.var ⟨0, ⟨"x", 1⟩⟩) shortUpdate := .compound .add rfl value trivial
  have long : Update.WrittenOut (fun _ => 0) .add 1 (propertyWords 1) [⟨.identifier, "x", 1⟩]
      longUpdate := .mk (l := .term) rfl rfl rfl .add rfl rfl rfl rfl
  have closed : Closed [semicolon] := .cons (Kind.closes_of_eq (p := .semicolon) rfl (by simp)) []
  have ahead (ts : List Token) (i : Nat) :
      (⟨ts ++ [semicolon], 2, i, []⟩ : Cursor).rest = ts ++ [semicolon] := rfl
  have deep : 32 * shortUpdate.length ≤ 512 := by decide
  have deep' : 32 * longUpdate.length ≤ 512 := by decide
  obtain ⟨u, u', next, next', ran, ran', -, fresh, fresh', abbreviates⟩ :=
    Parser.expression_update written ⟨trivial, by simp, trivial⟩ short long deep closed
      (ahead shortUpdate 0) deep' closed (ahead longUpdate 100)
  exact ⟨u, u', next, next', ran, ran', fresh, fresh', abbreviates⟩

end ScopeScript
