import ScopeScript.Proofs.Parsing.Faults
import ScopeScript.Proofs.Parsing.StatementCompleteness

set_option autoImplicit false

namespace ScopeScript

open ScopeScript.Parser

namespace Parser

variable {α β : Type} {p : Parser α} {f : α → Parser β} {ts us rest : List Token}
  {what : Expectation}

-- Steps that stop.

def Stops (p : Parser α) (ts : List Token) (t : Token) (us : List Token) (what : Expectation) :
    Prop :=
  ∀ c, c.rest = ts ++ t :: us → ∃ next,
    p c = .error (.syntactic t.place (.expected what)) { c with rest := t :: us, nextId := next }

namespace Stops

variable {t : Token}

theorem bind (h : Stops p ts t us what) : Stops (p >>= f) ts t us what := by
  intro c ahead
  obtain ⟨next, ran⟩ := h c ahead
  exact ⟨next, bind_of_error ran⟩

theorem behind {vs : List Token} {Q : α → Prop} (first : Reads p ts (vs ++ t :: us) Q)
    (second : ∀ a, Q a → Stops (f a) vs t us what) : Stops (p >>= f) (ts ++ vs) t us what := by
  intro c ahead
  obtain ⟨a, next, ran, described⟩ := first c (by simpa using ahead)
  obtain ⟨next', ran'⟩ :=
    second a described { c with rest := vs ++ t :: us, nextId := next } rfl
  exact ⟨next', by rw [bind_of_ok ran, ran']⟩

theorem behind_cons {vs : List Token} {v : Token} {Q : α → Prop}
    (first : Reads p [v] (vs ++ t :: us) Q) (second : ∀ a, Q a → Stops (f a) vs t us what) :
    Stops (p >>= f) (v :: vs) t us what :=
  behind first second

theorem behind_nil {vs : List Token} {Q : α → Prop} (first : Reads p [] (vs ++ t :: us) Q)
    (second : ∀ a, Q a → Stops (f a) vs t us what) : Stops (p >>= f) vs t us what :=
  behind first second

theorem expect {kind : Kind} (other : t.kind ≠ kind) :
    Stops (Parser.expect kind what) [] t us what := by
  rintro ⟨_, endLine, nextId, faults⟩ rfl
  exact ⟨nextId, by simp [Parser.expect, other, Parser.fail, Cursor.place]⟩

end Stops

def resumption : List Token → List Token
  | [] => []
  | t :: rest =>
    if t.kind = .punctuator .semicolon then rest
    else if startsStatement t.kind then t :: rest
    else resumption rest

theorem resume_semicolon {t : Token} (stops : t.Mark .semicolon) (rest : List Token) :
    resume t rest = rest := by
  cases rest with
  | nil => rfl
  | cons u rest => rw [resume, if_pos (.inl stops)]

theorem resume_eq {t : Token} (other : t.kind ≠ .punctuator .semicolon) (rest : List Token) :
    resume t rest = resumption rest := by
  induction rest generalizing t with
  | nil => rfl
  | cons u rest ih =>
    rw [resume, resumption]
    by_cases starts : startsStatement u.kind = true
    · have other' : u.kind ≠ .punctuator .semicolon := by
        intro same
        rw [same] at starts
        cases starts
      rw [if_pos (.inr starts), if_neg other', if_pos starts]
    · rw [if_neg (not_or.mpr ⟨other, starts⟩), if_neg starts]
      split
      next stops => exact resume_semicolon stops rest
      next other' => exact ih other'

theorem length_resumption_le (ts : List Token) : (resumption ts).length ≤ ts.length := by
  induction ts with
  | nil => exact Nat.le_refl 0
  | cons t rest ih =>
    rw [resumption]
    split
    · exact Nat.le_succ _
    split
    · exact Nat.le_refl _
    · exact Nat.le_succ_of_le ih

theorem Stops.recovering {s : Parser Stmt} {t : Token} (h : Stops s ts t us what)
    (other : t.kind ≠ .punctuator .semicolon) {c : Cursor} (ahead : c.rest = ts ++ t :: us) :
    ∃ next, Parser.recovering s c = .ok none { c with
      rest := resumption us
      nextId := next
      faults := c.faults ++ [.syntactic t.place (.expected what)] } := by
  obtain ⟨next, ran⟩ := h c ahead
  exact ⟨next, by simp [Parser.recovering, ran, synchronize, resume_eq other]⟩

-- What is reported.

theorem reports_program_nil {m : Nat} {c : Cursor} (none : c.rest = []) :
    reports (program (m + 1)) c = c.faults := by
  have ran : program (m + 1) c = .ok [] c := by
    have ended : atEnd c = .ok true c := by simp [atEnd, none]
    exact bind_of_ok ended
  rw [reports, ran]

theorem reports_program {m : Nat} {c c' : Cursor} {found : Option Stmt} (some_word : c.rest ≠ [])
    (ran : declaration m false c = .ok found c') :
    reports (program (m + 1)) c = reports (program m) c' := by
  have whole : program (m + 1) c =
      (program m >>= fun rest => pure (found.toList ++ rest) : Parser (List Stmt)) c' := by
    have more : atEnd c = .ok false c := by simp [atEnd, some_word]
    exact (bind_of_ok more).trans (bind_of_ok ran)
  unfold reports
  rw [whole]
  cases went : program m c' with
  | ok rest c'' => rw [bind_of_ok went]; rfl
  | error fault c'' => rw [bind_of_error went]

end Parser

-- Gaps.

def Stmt.ending? : Stmt → Option Expectation
  | .varDecl .. => some .variableEnd
  | .print _ => some .printEnd
  | .expression _ => some .expressionEnd
  | _ => none

def Unclosed (what : Expectation) (ts : List Token) : Prop :=
  ∃ (stop : Token) (s : Stmt), stop.Mark .semicolon ∧ Derives (ts ++ [stop]) (.declaration s) ∧
    s.WithinArity ∧ s.ending? = some what

/--
A missing semicolon: what has to stand there, the word that stands there, and those behind it.
-/
structure Gap where
  what : Expectation
  word : Token
  behind : List Token

def Gap.fault (gap : Gap) : Diagnostic := .syntactic gap.word.place (.expected gap.what)

def Gap.passed (gap : Gap) (c : Cursor) (next : Nat) : Cursor :=
  { c with
    rest := resumption gap.behind
    nextId := next
    faults := c.faults ++ [gap.fault] }

/-- The words of statements one behind another, with some semicolons missing. Behind each of these
gaps another statement starts with a keyword. -/
inductive Lacking : List Token → List Gap → Prop where
  | nil : Lacking [] []
  | whole {ts us : List Token} {s : Stmt} {gaps : List Gap} :
    Derives ts (.declaration s) → s.Accepted false → Lacking us gaps → Lacking (ts ++ us) gaps
  | gap {what : Expectation} {ts us : List Token} {t : Token} {gaps : List Gap} :
    Unclosed what ts → startsStatement t.kind = true → Lacking (t :: us) gaps →
    Lacking (ts ++ t :: us) (⟨what, t, us⟩ :: gaps)

-- Reading up to a gap.

section

variable {what : Expectation} {ts us : List Token} {t : Token} {m : Nat}

theorem closed_of_startsStatement (starts : startsStatement t.kind = true) (us : List Token) :
    Closed (t :: us) :=
  .cons (.inr (.inr (.inr starts))) us

theorem ne_punctuator_of_startsStatement {k : Kind} (starts : startsStatement k = true)
    (p : Punctuator) : k ≠ .punctuator p := by
  rintro rfl
  cases starts

theorem stops_varDeclaration_unset {name : Token} (identifier : name.Identifier)
    (starts : startsStatement t.kind = true) :
    Stops (varDeclaration m) [name] t us .variableEnd := by
  have other := ne_punctuator_of_startsStatement starts
  refine Stops.behind_cons (.expectName identifier) fun _ _ => ?_
  refine Stops.behind_nil (.accept_false (by simpa using other _)) ?_
  rintro _ rfl
  refine Stops.behind_nil (.pure rfl) fun _ _ => ?_
  exact (Stops.expect (other _)).bind

theorem stops_varDeclaration_set {name sign : Token} {e : Expr} (identifier : name.Identifier)
    (equals : sign.Mark .equal) (h : Derives ts (.expression e)) (arity : e.WithinArity)
    (deep : 32 * ts.length ≤ m) (starts : startsStatement t.kind = true) :
    Stops (varDeclaration m) (name :: sign :: ts) t us .variableEnd := by
  refine Stops.behind_cons (.expectName identifier) fun _ _ => ?_
  refine Stops.behind_cons (.accept_true equals) ?_
  rintro _ rfl
  rw [← List.append_nil ts]
  refine Stops.behind (h.complete m _ deep (closed_of_startsStatement starts us) arity)
    fun _ _ => ?_
  refine Stops.behind_nil (.pure rfl) fun _ _ => ?_
  exact (Stops.expect (ne_punctuator_of_startsStatement starts _)).bind

theorem stops_expression {α : Type} {f : Expr → Parser α} {e : Expr}
    (h : Derives ts (.expression e)) (arity : e.WithinArity) (deep : 32 * ts.length ≤ m)
    (starts : startsStatement t.kind = true)
    (stops : ∀ e', Stops (f e') [] t us what) : Stops (expression m >>= f) ts t us what := by
  rw [← List.append_nil ts]
  exact Stops.behind (h.complete m _ deep (closed_of_startsStatement starts us) arity)
    fun e' _ => stops e'

theorem unclosed_append_eq (words : List Token) {stop stop' : Token}
    (whole : ts ++ [stop] = words ++ [stop']) : ts = words :=
  (List.append_inj' whole rfl).1

theorem Unclosed.stops (h : Unclosed what ts) (starts : startsStatement t.kind = true)
    (deep : 32 * (ts.length + 1) ≤ m) {c : Cursor} (ahead : c.rest = ts ++ t :: us) :
    ∃ next, declaration (m + 1) false c = .ok none ((Gap.mk what t us).passed c next) := by
  obtain ⟨stop, s, stops, derived, arity, ends⟩ := h
  have other := ne_punctuator_of_startsStatement starts
  refine Stops.recovering ?_ (other _) ahead
  generalize whole : ts ++ [stop] = words at derived
  cases derived with
  | @variableDecl w _ _ word inner =>
    have lead : declarationLead? w.kind = some .varDecl := by rw [word]; rfl
    cases inner with
    | @unset name _ identifier _ =>
      obtain rfl := unclosed_append_eq [w, name] whole
      obtain rfl := Option.some.inj ends
      refine Stops.behind_cons (.take?_some lead) ?_
      rintro _ rfl
      exact stops_varDeclaration_unset identifier starts
    | @set name sign _ inside _ identifier equals derived _ =>
      obtain rfl := unclosed_append_eq (w :: name :: sign :: inside) whole
      obtain rfl := Option.some.inj ends
      simp only [List.length_cons] at deep
      refine Stops.behind_cons (.take?_some lead) ?_
      rintro _ rfl
      exact stops_varDeclaration_set identifier equals derived (arity _ rfl) (by omega) starts
  | stated inner =>
    obtain ⟨m, rfl⟩ : ∃ m', m = m' + 1 := ⟨m - 1, by omega⟩
    cases inner with
    | @print w _ inside _ word derived _ =>
      obtain rfl := unclosed_append_eq (w :: inside) whole
      obtain rfl := Option.some.inj ends
      simp only [List.length_cons] at deep
      refine Stops.behind_nil (.take?_none (by simp [word, declarationLead?])) ?_
      rintro _ rfl
      refine Stops.behind_cons (.take?_some (show lead? w.kind = some .print by rw [word]; rfl)) ?_
      rintro _ rfl
      exact stops_expression derived arity (by omega) starts fun _ => (Stops.expect (other _)).bind
    | expression derived _ =>
      obtain rfl := unclosed_append_eq _ whole
      obtain rfl := Option.some.inj ends
      obtain ⟨first, more, rfl, start⟩ := derived.exists_cons id
      refine Stops.behind_nil (.take?_none (by simpa using start.not_lead.2)) ?_
      rintro _ rfl
      refine Stops.behind_nil (.take?_none (by simpa using start.not_lead.1)) ?_
      rintro _ rfl
      exact stops_expression derived arity (by omega) starts fun _ => (Stops.expect (other _)).bind
    | _ => cases ends
  | _ => cases ends

end

-- Programs.

theorem Lacking.unclaimed {ts : List Token} {gaps : List Gap} (h : Lacking ts gaps) :
    Unclaimed true ts := by
  have apart {t : Token} (start : ¬t.kind.EndsDeclaration) : ¬t.Word .else :=
    fun same => start (.inr same)
  intro _ first head
  cases h with
  | nil => cases head
  | whole derived =>
    obtain ⟨t, more, rfl, start⟩ := derived.exists_cons id
    obtain rfl := Option.some.inj head
    exact apart start
  | @gap _ ts _ t _ missing starts =>
    obtain ⟨stop, s, -, derived, -, -⟩ := missing
    cases ts with
    | nil =>
      obtain rfl := Option.some.inj head
      intro same
      rw [same] at starts
      cases starts
    | cons u more =>
      obtain ⟨t, more', whole, start⟩ := derived.exists_cons id
      obtain ⟨rfl, -⟩ := List.cons.inj whole
      obtain rfl := Option.some.inj head
      exact apart start

section

variable {ts us : List Token} {m : Nat} {c : Cursor}

theorem reports_whole {s : Stmt} (derived : Derives ts (.declaration s))
    (accepted : s.Accepted false) (unclaimed : Unclaimed true us)
    (deep : 32 * (ts.length + 1) ≤ m + 1) (ahead : c.rest = ts ++ us) :
    ∃ next, reports (program (m + 1)) c =
      reports (program m) { c with rest := us, nextId := next } := by
  obtain ⟨found, next, ran, -⟩ := derived.complete m false us (by omega) unclaimed accepted c ahead
  have some_word := derived.length_pos id
  refine ⟨next, reports_program ?_ ran⟩
  rw [ahead]
  exact List.append_ne_nil_of_left_ne_nil (List.ne_nil_of_length_pos some_word) us

theorem reports_gap {what : Expectation} {t : Token} (missing : Unclosed what ts)
    (starts : startsStatement t.kind = true) (deep : 32 * (ts.length + 1) + 1 ≤ m)
    (ahead : c.rest = ts ++ t :: us) :
    ∃ next, reports (program (m + 1)) c =
      reports (program m) ((Gap.mk what t us).passed c next) := by
  obtain ⟨m, rfl⟩ : ∃ m', m = m' + 1 := ⟨m - 1, by omega⟩
  obtain ⟨next, ran⟩ := missing.stops (m := m) starts (by omega) ahead
  refine ⟨next, reports_program ?_ ran⟩
  simp [ahead]

end

/--
Behind each of the first `n` gaps, the place where reading resumes is in front of statements that
lack just the later semicolons.
-/
def Resumes : Nat → List Gap → Prop
  | 0, _ | _ + 1, [] => True
  | n + 1, gap :: later => Lacking (resumption gap.behind) later ∧ Resumes n later

theorem reports_lacking {ts : List Token} {gaps : List Gap} (lacking : Lacking ts gaps) {n m : Nat}
    (resumes : Resumes n gaps) {c : Cursor} (deep : 32 * (ts.length + 1) ≤ m)
    (ahead : c.rest = ts) :
    (gaps.length ≤ n → reports (program m) c = c.faults ++ gaps.map Gap.fault) ∧
      c.faults ++ (gaps.take (n + 1)).map Gap.fault <+: reports (program m) c := by
  -- What is read next is shorter, also where reading resumes inside of the rest.
  induction size : ts.length using Nat.strongRecOn generalizing ts gaps n m c with
  | ind size ih =>
  subst size
  obtain ⟨m, rfl⟩ : ∃ m', m = m' + 1 := ⟨m - 1, by omega⟩
  cases lacking with
  | nil =>
    rw [reports_program_nil ahead]
    simp
  | @whole ts us s _ derived accepted rest =>
    have some_word := derived.length_pos id
    rw [List.length_append] at deep
    obtain ⟨next, same⟩ := reports_whole (m := m) derived accepted rest.unclaimed (by omega) ahead
    rw [same]
    exact ih us.length (by rw [List.length_append]; omega) rest resumes (by omega) rfl rfl
  | @gap what ts us t later missing starts rest =>
    rw [List.length_append, List.length_cons] at deep
    obtain ⟨next, same⟩ := reports_gap (m := m) missing starts (by omega) ahead
    have shorter := length_resumption_le us
    rw [same]
    cases n with
    | zero =>
      refine ⟨by simp, ?_⟩
      rw [List.take_succ_cons, List.take_zero]
      exact (program_adds m).reports ((Gap.mk what t us).passed c next)
    | succ n =>
      obtain ⟨here, others⟩ := resumes
      obtain ⟨all, first⟩ := ih (resumption us).length
        (by rw [List.length_append, List.length_cons]; omega) here others
        (show 32 * ((resumption us).length + 1) ≤ m by omega)
        (c := (Gap.mk what t us).passed c next) rfl rfl
      rw [Gap.passed, List.append_assoc] at all first
      exact ⟨fun few => all (Nat.le_of_succ_le_succ few), first⟩

-- Where reading resumes.

def Kind.Inside (k : Kind) : Prop := k ≠ .punctuator .semicolon ∧ startsStatement k = false

def Phrase.Inside : Phrase → Prop
  | .expression _ | .level .. | .unary _ | .call _ | .primary _ | .arguments _ => True
  | _ => False

theorem Kind.inside_punctuator {k : Kind} {p : Punctuator} (same : k = .punctuator p)
    (other : p ≠ .semicolon) : k.Inside := by
  subst same
  exact ⟨by simpa using other, rfl⟩

theorem Kind.inside_identifier {k : Kind} (same : k = .identifier) : k.Inside := by
  subst same
  exact ⟨by simp, rfl⟩

theorem Level.Joins.inside {l : Level} {k : Kind} {op : Infix} (h : l.Joins k op) : k.Inside := by
  cases h <;> exact ⟨by simp, rfl⟩

theorem UnarySign.inside {k : Kind} {op : UnaryOp} (h : UnarySign k op) : k.Inside := by
  cases h <;> exact ⟨by simp, rfl⟩

theorem CompoundSign.inside {k : Kind} {op : BinaryOp} (h : CompoundSign k op) : k.Inside := by
  cases h <;> exact ⟨by simp, rfl⟩

theorem StepSign.inside {k : Kind} {op : BinaryOp} (h : StepSign k op) : k.Inside := by
  cases h <;> exact ⟨by simp, rfl⟩

theorem LiteralWord.inside {k : Kind} {l : Literal} (h : LiteralWord k l) : k.Inside := by
  cases h <;> exact ⟨by simp, rfl⟩

theorem Level.inside_operand (l : Level) (e : Expr) : (l.operand e).Inside := by
  cases l <;> trivial

theorem Derives.inside {ts : List Token} {p : Phrase} (h : Derives ts p) (part : p.Inside) :
    ∀ t ∈ ts, t.kind.Inside := by
  have dot {t : Token} (mark : t.Mark .dot) : t.kind.Inside :=
    Kind.inside_punctuator mark (by decide)
  have name {t : Token} (identifier : t.Identifier) : t.kind.Inside :=
    Kind.inside_identifier identifier
  have left {t : Token} (mark : t.Mark .leftParen) : t.kind.Inside :=
    Kind.inside_punctuator mark (by decide)
  have right {t : Token} (mark : t.Mark .rightParen) : t.kind.Inside :=
    Kind.inside_punctuator mark (by decide)
  have equal {t : Token} (mark : t.Mark .equal) : t.kind.Inside :=
    Kind.inside_punctuator mark (by decide)
  induction h with
  | assignName identifier equals _ _ ih =>
    simpa [name identifier, equal equals] using ih trivial
  | updateName identifier sign _ _ _ ih =>
    simpa [name identifier, sign.inside] using ih trivial
  | stepName identifier sign => simp [name identifier, sign.inside]
  | assignProperty _ dots identifier equals _ ih ih' =>
    simpa [or_imp, forall_and, dot dots, name identifier, equal equals] using
      ⟨ih trivial, ih' trivial⟩
  | updateProperty _ dots identifier sign _ _ ih ih' =>
    simpa [or_imp, forall_and, dot dots, name identifier, sign.inside]
      using ⟨ih trivial, ih' trivial⟩
  | stepProperty _ dots identifier sign _ ih =>
    simpa [or_imp, forall_and, dot dots, name identifier, sign.inside] using ih trivial
  | plain _ ih | called _ ih | primary _ ih | lastArgument _ ih => exact ih trivial
  | @operand l _ e _ ih => exact ih (l.inside_operand e)
  | @join l _ _ _ _ _ b _ joins _ ih ih' =>
    simpa [or_imp, forall_and, joins.inside] using ⟨ih trivial, ih' (l.inside_operand b)⟩
  | unary sign _ ih =>
    simpa [sign.inside] using ih trivial
  | callEmpty _ opens closes ih =>
    simpa [or_imp, forall_and, left opens, right closes] using ih trivial
  | callWith _ opens _ closes ih ih' =>
    simpa [or_imp, forall_and, left opens, right closes] using ⟨ih trivial, ih' trivial⟩
  | property _ dots identifier ih =>
    simpa [or_imp, forall_and, dot dots, name identifier] using ih trivial
  | @moreArguments t _ _ _ _ _ separates _ ih ih' =>
    have comma : t.kind.Inside := Kind.inside_punctuator separates (by decide)
    simpa [or_imp, forall_and, comma] using ⟨ih trivial, ih' trivial⟩
  | literal word => simpa using word.inside
  | variableName identifier => simp [name identifier]
  | @this t _ word =>
    have inside : t.kind.Inside := by rw [word]; exact ⟨by simp, rfl⟩
    simp [inside]
  | @super t _ _ _ word dots identifier =>
    have inside : t.kind.Inside := by rw [word]; exact ⟨by simp, rfl⟩
    simp [inside, dot dots, name identifier]
  | grouping opens _ closes ih =>
    simpa [or_imp, forall_and, left opens, right closes] using ih trivial
  | _ => cases part

theorem resumption_append {ts : List Token} (inside : ∀ t ∈ ts, t.kind.Inside)
    (rest : List Token) : resumption (ts ++ rest) = resumption rest := by
  induction ts with
  | nil => rfl
  | cons t ts ih =>
    obtain ⟨⟨other, no_start⟩, others⟩ := List.forall_mem_cons.mp inside
    rw [List.cons_append, resumption, if_neg other, no_start, if_neg (by decide), ih others]

theorem resumption_closed {ts : List Token} {stop : Token} (inside : ∀ t ∈ ts, t.kind.Inside)
    (stops : stop.Mark .semicolon) (rest : List Token) :
    resumption (ts ++ [stop] ++ rest) = rest := by
  rw [List.append_assoc, resumption_append inside, List.singleton_append, resumption, if_pos stops]

theorem resumption_kept {w : Token} {ts : List Token} {s : Stmt}
    (derived : Derives (w :: ts) (.declaration s)) (starts : startsStatement w.kind = true)
    (kept : s.ending? ≠ none) (rest : List Token) : resumption (ts ++ rest) = rest := by
  generalize whole : w :: ts = words at derived
  cases derived with
  | variableDecl _ inner =>
    obtain ⟨rfl, rfl⟩ := List.cons.inj whole
    cases inner with
    | @unset name _ identifier stops =>
      have inside : ∀ t ∈ [name], t.kind.Inside := by
        simpa using Kind.inside_identifier identifier
      exact resumption_closed inside stops rest
    | @set name sign _ us _ identifier equals derived stops =>
      have inside : ∀ t ∈ name :: sign :: us, t.kind.Inside := by
        have equal : sign.kind.Inside := Kind.inside_punctuator equals (by decide)
        simpa [Kind.inside_identifier identifier, equal] using derived.inside trivial
      exact resumption_closed inside stops rest
  | stated inner =>
    cases inner with
    | print _ derived stops =>
      obtain ⟨rfl, rfl⟩ := List.cons.inj whole
      exact resumption_closed (derived.inside trivial) stops rest
    | expression derived =>
      obtain ⟨first, more, rfl, -⟩ := derived.exists_cons id
      obtain ⟨rfl, -⟩ := List.cons.inj whole
      have inside := derived.inside trivial w List.mem_cons_self
      rw [inside.2] at starts
      cases starts
    | _ => exact absurd rfl kept
  | _ => exact absurd rfl kept

/--
Behind each gap a declaration of a variable or a `print` has its own semicolon, and the statements
behind it lack just the later ones.
-/
inductive Spaced : List Gap → Prop where
  | nil : Spaced []
  | gap {what : Expectation} {t : Token} {ts us : List Token} {s : Stmt} {gaps : List Gap} :
    startsStatement t.kind = true → Derives (t :: ts) (.declaration s) → s.ending? ≠ none →
    Lacking us gaps → Spaced gaps → Spaced (⟨what, t, ts ++ us⟩ :: gaps)

theorem Spaced.resumes {gaps : List Gap} (spaced : Spaced gaps) : Resumes gaps.length gaps := by
  induction spaced with
  | nil => trivial
  | @gap _ _ _ us _ _ starts derived kept lacking _ ih =>
    have behind := resumption_kept derived starts kept us
    exact ⟨behind.symm ▸ lacking, ih⟩

theorem resumption_condition {l r : Token} {ts : List Token} {e : Expr} (opens : l.Mark .leftParen)
    (derived : Derives ts (.expression e)) (closes : r.Mark .rightParen) (rest : List Token) :
    resumption (l :: (ts ++ r :: rest)) = resumption rest := by
  have inside : ∀ t ∈ l :: (ts ++ [r]), t.kind.Inside := by
    have left : l.kind.Inside := Kind.inside_punctuator opens (by decide)
    have right : r.kind.Inside := Kind.inside_punctuator closes (by decide)
    simpa [or_imp, forall_and, left, right] using derived.inside trivial
  simpa using resumption_append inside rest

-- The faults of a program.

/--
Of statements with some semicolons missing, the first fault is at the word behind the first gap. As
long as reading resumes in front of statements that lack just the later semicolons, the next fault
is at the word behind the next gap, and if it does so behind each gap there are no other faults. It
does where each gap is in front of a declaration of a variable or a `print` with a semicolon.
-/
theorem faults_of_missing_semicolons {words : List Token} {stop : Token} {gaps : List Gap}
    (inner : ∀ t ∈ words, t.kind ≠ .eof) (ends : stop.kind = .eof) (lacking : Lacking words gaps)
    (n : Nat) (resumes : Resumes n gaps) (firstId : Nat) :
    (gaps.length ≤ n → (parse (words ++ [stop]) firstId).faults = gaps.map Gap.fault) ∧
      (gaps.take (n + 1)).map Gap.fault <+: (parse (words ++ [stop]) firstId).faults ∧
      (Spaced gaps → (parse (words ++ [stop]) firstId).faults = gaps.map Gap.fault) := by
  have before : (words ++ [stop]).takeWhile (fun t => t.kind != .eof) = words := by
    rw [List.takeWhile_append_of_pos (by simpa using inner)]
    simp [ends]
  have deep : 32 * (words.length + 1) ≤ depthFor (words ++ [stop]).length := by
    rw [depthFor, List.length_append]
    omega
  have reported {n : Nat} (resumes : Resumes n gaps) :=
    reports_lacking lacking resumes (c := Cursor.start (words ++ [stop]) firstId) deep before
  rw [faults_parse]
  obtain ⟨all, first⟩ := reported resumes
  exact ⟨all, first, fun spaced => (reported spaced.resumes).1 (Nat.le_refl _)⟩

theorem derives_name {t : Token} (identifier : t.Identifier) :
    Derives [t] (.expression (.var ⟨0, t.name⟩)) :=
  .plain (.operand (.operand (.operand (.operand (.operand (.operand (.called (.primary
    (.variableName identifier rfl)))))))))

theorem unclosed_variable {w name sign : Token} {t : Token} (word : w.Word .var)
    (identifier : name.Identifier) (equals : sign.Mark .equal) (value : t.Identifier) :
    Unclosed .variableEnd [w, name, sign, t] :=
  ⟨⟨.punctuator .semicolon, ";", t.line⟩, _, rfl,
    .variableDecl word (.set identifier equals (derives_name value) rfl),
      by rintro _ ⟨⟩; trivial, rfl⟩

theorem unclosed_print {w t : Token} (word : w.Word .print) (value : t.Identifier) :
    Unclosed .printEnd [w, t] :=
  ⟨⟨.punctuator .semicolon, ";", t.line⟩, _, rfl, .stated (.print word (derives_name value) rfl),
    trivial, rfl⟩

/-- `var a = b var c; print c if (a) print b;`: reading resumes behind `var c;`, and at the second
`print`. -/
theorem faults_of_missing_semicolons_two :
    let name (text : String) : Token := ⟨.identifier, text, 1⟩
    let word (k : Keyword) : Token := ⟨.keyword k, k.spelling, 1⟩
    let mark (p : Punctuator) : Token := ⟨.punctuator p, String.ofList p.spelling, 1⟩
    let words : List Token := [word .var, name "a", mark .equal, name "b", word .var, name "c",
      mark .semicolon, word .print, name "c", word .if, mark .leftParen, name "a",
      mark .rightParen, word .print, name "b", mark .semicolon]
    let stop : Token := ⟨.eof, "", 1⟩
    let gaps : List Gap := [⟨.variableEnd, word .var, words.drop 5⟩,
      ⟨.printEnd, word .if, words.drop 10⟩]
    (∀ t ∈ words, t.kind ≠ .eof) ∧ stop.kind = .eof ∧ Lacking words gaps ∧ Resumes 2 gaps ∧
      (parse (words ++ [stop]) 0).faults = [
        .syntactic ⟨1, some "var"⟩ (.expected .variableEnd),
        .syntactic ⟨1, some "if"⟩ (.expected .printEnd)] := by
  intro name word mark words stop gaps
  have inner : ∀ t ∈ words, t.kind ≠ .eof := by decide
  have variableRead : Derives [word .var, name "c", mark .semicolon]
      (.declaration (.varDecl ⟨"c", 1⟩ none)) :=
    .variableDecl rfl (.unset rfl rfl)
  have printRead : Derives [word .print, name "b", mark .semicolon]
      (.statement false (.print (.var ⟨0, "b", 1⟩))) :=
    .print rfl (derives_name rfl) rfl
  have branchRead : Derives (words.drop 9) (.declaration _) :=
    .stated (.branch rfl rfl (derives_name rfl) rfl printRead)
  have printAccepted : (Stmt.print (.var ⟨0, "b", 1⟩)).Accepted false :=
    ⟨by simp [Stmt.WithinArity, Expr.WithinArity], by simp [Stmt.Enclosed]⟩
  have variableAccepted : (Stmt.varDecl ⟨"c", 1⟩ none).Accepted false :=
    ⟨by simp [Stmt.WithinArity, Expr.OptionWithinArity], by simp [Stmt.Enclosed]⟩
  have branchAccepted : (Stmt.ifElse (.var ⟨0, "a", 1⟩) (.print (.var ⟨0, "b", 1⟩)) none).Accepted
      false :=
    ⟨by simp [Stmt.WithinArity, Expr.WithinArity], by simp [Stmt.Enclosed]⟩
  have last : Lacking (words.drop 9) [] := .whole branchRead branchAccepted .nil
  have second : Lacking (words.drop 7) (gaps.drop 1) :=
    .gap (unclosed_print (t := name "c") rfl rfl) rfl last
  have lacking : Lacking words gaps :=
    .gap (unclosed_variable (t := name "b") rfl rfl rfl rfl) rfl
      (.whole variableRead variableAccepted second)
  have resumes : Resumes 2 gaps := by
    refine ⟨?_, ?_, trivial⟩
    · have behind := resumption_kept variableRead rfl (by simp [Stmt.ending?]) (words.drop 7)
      exact behind ▸ second
    · have behind := resumption_condition (l := mark .leftParen) (r := mark .rightParen) rfl
        (derives_name (t := name "a") rfl) rfl (words.drop 13)
      refine behind ▸ ?_
      exact .whole (.stated printRead) printAccepted .nil
  exact ⟨inner, rfl, lacking, resumes,
    (faults_of_missing_semicolons inner rfl lacking 2 resumes 0).1 (by decide)⟩

/--
Not each gap has its own fault and no other. In `var a = b var c = d print e;` the second gap is
passed over, since the first fault is at its statement. In `print a while (b) break;` reading
resumes at `break`, which is no longer in its loop.
-/
theorem missing_semicolons_not_one_each :
    let name (text : String) : Token := ⟨.identifier, text, 1⟩
    let word (k : Keyword) : Token := ⟨.keyword k, k.spelling, 1⟩
    let mark (p : Punctuator) : Token := ⟨.punctuator p, String.ofList p.spelling, 1⟩
    let stop : Token := ⟨.eof, "", 1⟩
    let adjacent : List Token := [word .var, name "a", mark .equal, name "b", word .var, name "c",
      mark .equal, name "d", word .print, name "e", mark .semicolon]
    let inLoop : List Token := [word .print, name "a", word .while, mark .leftParen, name "b",
      mark .rightParen, word .break, mark .semicolon]
    (Lacking adjacent [⟨.variableEnd, word .var, adjacent.drop 5⟩,
        ⟨.variableEnd, word .print, adjacent.drop 9⟩] ∧
      (parse (adjacent ++ [stop]) 0).faults =
        [.syntactic ⟨1, some "var"⟩ (.expected .variableEnd)]) ∧
    Lacking inLoop [⟨.printEnd, word .while, inLoop.drop 3⟩] ∧
      (parse (inLoop ++ [stop]) 0).faults = [
        .syntactic ⟨1, some "while"⟩ (.expected .printEnd),
        .syntactic ⟨1, some "break"⟩ (.outsideLoop .leave)] := by
  intro name word mark stop adjacent inLoop
  have printRead : Derives [word .print, name "e", mark .semicolon]
      (.declaration (.print (.var ⟨0, "e", 1⟩))) :=
    .stated (.print rfl (derives_name rfl) rfl)
  have printAccepted : (Stmt.print (.var ⟨0, "e", 1⟩)).Accepted false :=
    ⟨by simp [Stmt.WithinArity, Expr.WithinArity], by simp [Stmt.Enclosed]⟩
  have loopRead : Derives (inLoop.drop 2) (.declaration _) :=
    .stated (.whileLoop rfl rfl (derives_name rfl) rfl (.leave rfl rfl))
  have loopAccepted : (Stmt.loop (.var ⟨0, "b", 1⟩) (.jump .leave) none).Accepted false :=
    ⟨by simp [Stmt.WithinArity, Expr.WithinArity, Expr.OptionWithinArity], by simp [Stmt.Enclosed]⟩
  refine ⟨⟨?_, by decide +kernel⟩, ?_, by decide +kernel⟩
  · have last : Lacking (adjacent.drop 8) [] := .whole printRead printAccepted .nil
    exact .gap (unclosed_variable (t := name "b") rfl rfl rfl rfl) rfl
      (.gap (unclosed_variable (t := name "d") rfl rfl rfl rfl) rfl last)
  · exact .gap (unclosed_print (t := name "a") rfl rfl) rfl (.whole loopRead loopAccepted .nil)

end ScopeScript
