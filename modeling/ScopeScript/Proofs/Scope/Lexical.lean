import ScopeScript.Proofs.Scope.Walk

set_option autoImplicit false

/-!
The table of the resolver, read off the text.

A part of a program stands inside frames: the scopes around it, the innermost first, each with the
names that are declared in it before that part. Main statement: a reference has an entry just if one
of its frames has the name, and the entry counts the frames inside the innermost one that does
(`resolution_eq_lexical`). This holds of every tree, also of one that no text is read as.
-/

namespace ScopeScript

inductive Part where
  | row (body : List Stmt)
  | statement (stmt : Stmt)
  | function (f : FunctionDecl)
  | expression (e : Expr)

/-- The parts of a program, each with the frames inside which it stands. -/
inductive Stands (program : List Stmt) : List Frame → Part → Prop
  | program : Stands program [] (.row program)
  | statement {frames before stmt after} :
    Stands program frames (.row (before ++ stmt :: after)) →
      Stands program (Frame.declare (Stmt.introducedAll before) frames) (.statement stmt)
  | expression {frames e} :
    Stands program frames (.statement (.expression e)) → Stands program frames (.expression e)
  | print {frames e} :
    Stands program frames (.statement (.print e)) → Stands program frames (.expression e)
  -- A variable counts as declared in its own initializer.
  | initial {frames name e} :
    Stands program frames (.statement (.varDecl name (some e))) →
      Stands program (Frame.declare [name.text] frames) (.expression e)
  | block {frames body} :
    Stands program frames (.statement (.block body)) →
      Stands program (⟨.block body, []⟩ :: frames) (.row body)
  | test {frames condition consequent alternative} :
    Stands program frames (.statement (.ifElse condition consequent alternative)) →
      Stands program frames (.expression condition)
  | consequent {frames condition consequent alternative} :
    Stands program frames (.statement (.ifElse condition consequent alternative)) →
      Stands program frames (.statement consequent)
  | alternative {frames condition consequent alternative} :
    Stands program frames (.statement (.ifElse condition consequent (some alternative))) →
      Stands program (Frame.declare consequent.introduced frames) (.statement alternative)
  | condition {frames condition body step} :
    Stands program frames (.statement (.loop condition body step)) →
      Stands program frames (.expression condition)
  | body {frames condition body step} :
    Stands program frames (.statement (.loop condition body step)) →
      Stands program frames (.statement body)
  | step {frames condition body step} :
    Stands program frames (.statement (.loop condition body (some step))) →
      Stands program (Frame.declare body.introduced frames) (.expression step)
  -- Functions and classes count as declared in themselves.
  | function {frames f} :
    Stands program frames (.statement (.funDecl f)) →
      Stands program (Frame.declare [f.name.text] frames) (.function f)
  | method {frames name above before f after} :
    Stands program frames (.statement (.classDecl name above (before ++ f :: after))) →
      Stands program (Frame.ofMethod f (Frame.ofClass name above frames)) (.function f)
  | result {frames line e} :
    Stands program frames (.statement (.returning line (some e))) →
      Stands program frames (.expression e)
  | calling {frames f} :
    Stands program frames (.function f) →
      Stands program (Frame.ofCall f frames) (.row f.body)

inductive Occurs (program : List Stmt) : List Frame → Reference → Prop
  | expression {frames e r} :
    Stands program frames (.expression e) → r ∈ e.references → Occurs program frames r
  | superclass {frames name above methods} :
    Stands program frames (.statement (.classDecl name (some above) methods)) →
      Occurs program (Frame.declare [name.text] frames) above

-- The walk at a part of the program.

def Part.ids : Part → List Nat
  | .row body => Stmt.idsAll body
  | .statement stmt => stmt.ids
  | .function f => f.ids
  | .expression e => e.ids

def Part.scopes (context : ScopeContext) : Part → ScopeState → ScopeState
  | .row body, s => Stmt.scopesAll context body s
  | .statement stmt, s => stmt.scopes context s
  | .function f, s => f.scopes context s
  | .expression e, s => e.scopes context s

/-- The walk comes to a part inside its frames, finds no violation in it, and what it enters for the
part stands in the table in the end. -/
structure Settles (table : Resolution) (frames : List Frame) (part : Part) (context : ScopeContext)
    (s : ScopeState) : Prop where
  names : Names s.scopes frames
  free : Unentered s part.ids
  clean : (part.scopes context s).faults = []
  final : ∀ i ∈ part.ids, table[i]? = (part.scopes context s).resolution[i]?

theorem Settles.inner {table : Resolution} {frames inside : List Frame} {whole part : Part}
    {context context' : ScopeContext} {s s' : ScopeState}
    (h : Settles table frames whole context s) (before after : List Nat)
    (numbers : whole.ids.Perm (before ++ (part.ids ++ after)))
    (names : Names s'.scopes inside)
    (first : ∀ i ∉ before, s'.resolution[i]? = s.resolution[i]?)
    (last : ∀ i ∉ after, (whole.scopes context s).resolution[i]? =
      (part.scopes context' s').resolution[i]?)
    (noted : (part.scopes context' s').Extends (whole.scopes context s)) :
    Settles table inside part context' s' := by
  have distinct := numbers.nodup_iff.mp h.free.distinct
  obtain ⟨-, rest, apart⟩ := List.nodup_append.mp distinct
  obtain ⟨own, -, apart'⟩ := List.nodup_append.mp rest
  have mem {i : Nat} (mem : i ∈ part.ids) : i ∈ whole.ids := numbers.mem_iff.mpr (by simp [mem])
  refine ⟨names, ⟨own, fun i inside => ?_⟩, noted.clean h.clean, fun i inside => ?_⟩
  · rw [first i fun early => apart i early i (by simp [inside]) rfl]
    exact h.free.none i (mem inside)
  · rw [h.final i (mem inside)]
    exact last i fun late => apart' i inside i late rfl

section

variable {program : List Stmt} {table : Resolution} {frames : List Frame} {context : ScopeContext}
  {s : ScopeState}

theorem Settles.statement {before after : List Stmt} {stmt : Stmt}
    (h : Settles table frames (.row (before ++ stmt :: after)) context s) :
    Settles table (Frame.declare (Stmt.introducedAll before) frames) (.statement stmt) context
      (Stmt.scopesAll context before s) := by
  have whole : Part.scopes context (.row (before ++ stmt :: after)) s =
      Stmt.scopesAll context after (stmt.scopes context (Stmt.scopesAll context before s)) :=
    Stmt.scopesAll_append context before (stmt :: after) s
  refine h.inner (Stmt.idsAll before) (Stmt.idsAll after) ?_
    (Stmt.names_scopesAll before context h.names)
    (fun i => Stmt.getElem?_scopesAll before context s) (fun i outside => ?_) ?_
  · simp [Part.ids, Stmt.idsAll_append, Stmt.idsAll]
  · rw [whole]
    exact Stmt.getElem?_scopesAll after context _ outside
  · rw [whole]
    exact Stmt.extends_scopesAll context after _

theorem Settles.only {whole part : Part} (h : Settles table frames whole context s)
    (numbers : part.ids = whole.ids) (walk : part.scopes context s = whole.scopes context s) :
    Settles table frames part context s :=
  ⟨h.names, numbers ▸ h.free, walk ▸ h.clean, fun i inside => walk ▸ h.final i (numbers ▸ inside)⟩

theorem Settles.initial {name : Name} {e : Expr}
    (h : Settles table frames (.statement (.varDecl name (some e))) context s) :
    Settles table (Frame.declare [name.text] frames) (.expression e) context (s.declare name) := by
  refine h.inner [] [] ?_ (h.names.declare name) (by simp) (fun i _ => ?_) ?_
  · simp [Part.ids, Stmt.ids, Expr.idsOf]
  · simp [Part.scopes, Stmt.scopes, Expr.scopes?]
  · simp [Part.scopes, Stmt.scopes, Expr.scopes?, ScopeState.Extends]

theorem Settles.block {body : List Stmt}
    (h : Settles table frames (.statement (.block body)) context s) :
    Settles table (⟨.block body, []⟩ :: frames) (.row body) context s.enter :=
  h.inner [] [] (by simp [Part.ids, Stmt.ids]) (h.names.enter _)
    (by simp [ScopeState.enter]) (fun _ _ => rfl) (.refl _)

theorem Settles.test {condition : Expr} {consequent : Stmt} {alternative : Option Stmt}
    (h : Settles table frames (.statement (.ifElse condition consequent alternative)) context s) :
    Settles table frames (.expression condition) context s := by
  cases alternative with
  | none =>
    exact h.inner [] consequent.ids (by simp [Part.ids, Stmt.ids]) h.names
      (by simp) (fun i => Stmt.getElem?_scopes consequent context _)
      (Stmt.extends_scopes context consequent _)
  | some alternative =>
    refine h.inner [] (consequent.ids ++ alternative.ids)
      (by simp [Part.ids, Stmt.ids]) h.names (by simp) (fun i outside => ?_)
      ((Stmt.extends_scopes context consequent _).trans
        (Stmt.extends_scopes context alternative _))
    simp only [List.mem_append, not_or] at outside
    exact (Stmt.getElem?_scopes alternative context _ outside.2).trans
      (Stmt.getElem?_scopes consequent context _ outside.1)

theorem Settles.consequent {condition : Expr} {consequent : Stmt} {alternative : Option Stmt}
    (h : Settles table frames (.statement (.ifElse condition consequent alternative)) context s) :
    Settles table frames (.statement consequent) context (condition.scopes context s) := by
  have names := (condition.scopes_scopes context s).symm ▸ h.names
  have first := fun i => condition.getElem?_scopes context s (i := i)
  cases alternative with
  | none =>
    exact h.inner condition.ids [] (by simp [Part.ids, Stmt.ids]) names
      first (fun _ _ => rfl) (.refl _)
  | some alternative =>
    exact h.inner condition.ids alternative.ids
      (by simp [Part.ids, Stmt.ids]) names first
      (fun i => Stmt.getElem?_scopes alternative context _)
      (Stmt.extends_scopes context alternative _)

theorem Settles.alternative {condition : Expr} {consequent alternative : Stmt}
    (h : Settles table frames (.statement (.ifElse condition consequent (some alternative)))
      context s) :
    Settles table (Frame.declare consequent.introduced frames) (.statement alternative) context
      (consequent.scopes context (condition.scopes context s)) := by
  have names := (condition.scopes_scopes context s).symm ▸ h.names
  refine h.inner (condition.ids ++ consequent.ids) []
    (by simp [Part.ids, Stmt.ids]) (Stmt.names_scopes consequent context names)
    (fun i outside => ?_) (fun _ _ => rfl) (.refl _)
  simp only [List.mem_append, not_or] at outside
  exact (Stmt.getElem?_scopes consequent context _ outside.2).trans
    (condition.getElem?_scopes context s outside.1)

theorem Settles.condition {condition : Expr} {body : Stmt} {step : Option Expr}
    (h : Settles table frames (.statement (.loop condition body step)) context s) :
    Settles table frames (.expression condition) context s := by
  refine h.inner [] (body.ids ++ Expr.idsOf step)
    (by simp [Part.ids, Stmt.ids]) h.names (by simp) (fun i outside => ?_)
    ((Stmt.extends_scopes context body _).trans (Expr.extends_scopes? context step _))
  simp only [List.mem_append, not_or] at outside
  exact (Expr.getElem?_scopes? context step _ outside.2).trans
    (Stmt.getElem?_scopes body context _ outside.1)

theorem Settles.body {condition : Expr} {body : Stmt} {step : Option Expr}
    (h : Settles table frames (.statement (.loop condition body step)) context s) :
    Settles table frames (.statement body) context (condition.scopes context s) :=
  h.inner condition.ids (Expr.idsOf step) (by simp [Part.ids, Stmt.ids])
    ((condition.scopes_scopes context s).symm ▸ h.names)
    (fun i => condition.getElem?_scopes context s)
    (fun i => Expr.getElem?_scopes? context step _) (Expr.extends_scopes? context step _)

theorem Settles.step {condition step : Expr} {body : Stmt}
    (h : Settles table frames (.statement (.loop condition body (some step))) context s) :
    Settles table (Frame.declare body.introduced frames) (.expression step) context
      (body.scopes context (condition.scopes context s)) := by
  have names := (condition.scopes_scopes context s).symm ▸ h.names
  refine h.inner (condition.ids ++ body.ids) []
    (by simp [Part.ids, Stmt.ids, Expr.idsOf]) (Stmt.names_scopes body context names)
    (fun i outside => ?_) (fun _ _ => rfl) (.refl _)
  simp only [List.mem_append, not_or] at outside
  exact (Stmt.getElem?_scopes body context _ outside.2).trans
    (condition.getElem?_scopes context s outside.1)

theorem Settles.function {f : FunctionDecl}
    (h : Settles table frames (.statement (.funDecl f)) context s) :
    Settles table (Frame.declare [f.name.text] frames) (.function f)
      { context with function := .function } ((s.declare f.name).define f.name) :=
  h.inner [] [] (by simp [Part.ids, Stmt.ids]) (h.names.define f.name)
    (by simp) (fun _ _ => rfl) (.refl _)

theorem Settles.method {name : Name} {above : Option Reference} {before after : List FunctionDecl}
    {f : FunctionDecl} {inside : ScopeContext}
    (within : inside = { context with owner := .of above })
    (h : Settles table frames (.statement (.classDecl name above (before ++ f :: after)))
      context s) :
    Settles table (Frame.ofMethod f (Frame.ofClass name above frames)) (.function f)
      { inside with function := .ofMethod f }
      (FunctionDecl.scopesAll inside before (s.enterClass name above)) := by
  let walked : ScopeState := FunctionDecl.scopesAll inside after
    (f.scopes { inside with function := .ofMethod f }
      (FunctionDecl.scopesAll inside before (s.enterClass name above)))
  have whole : (Stmt.classDecl name above (before ++ f :: after)).scopes context s =
      walked.leaveClass above := by
    subst within
    rw [Stmt.scopes, FunctionDecl.scopesAll_append]
    rfl
  have same : (walked.leaveClass above).resolution = walked.resolution := by
    cases above <;> rfl
  refine h.inner ((above.map Reference.id).toList ++ FunctionDecl.idsAll before)
    (FunctionDecl.idsAll after) ?_
    (FunctionDecl.names_scopesAll before inside (h.names.enterClass name above f))
    (fun i outside => ?_) (fun i outside => ?_) ?_
  · simp [Part.ids, Stmt.ids, FunctionDecl.idsAll_append, FunctionDecl.idsAll]
  · simp only [List.mem_append, not_or] at outside
    exact (FunctionDecl.getElem?_scopesAll before inside _ outside.2).trans
      (s.getElem?_enterClass name outside.1)
  · rw [Part.scopes, whole, same]
    exact FunctionDecl.getElem?_scopesAll after inside _ outside
  · rw [ScopeState.Extends, Part.scopes, whole, ScopeState.faults_leaveClass]
    exact FunctionDecl.extends_scopesAll inside after _

theorem Settles.result {line : Nat} {e : Expr}
    (h : Settles table frames (.statement (.returning line (some e))) context s) :
    Settles table frames (.expression e) context (s.checkReturn context line true) := by
  refine h.inner [] [] ?_ ?_ (fun i _ => ?_) (fun _ _ => rfl) (.refl _)
  · simp [Part.ids, Stmt.ids, Expr.idsOf]
  · rw [ScopeState.scopes_checkReturn]
    exact h.names
  · rw [ScopeState.resolution_checkReturn]

theorem Settles.calling {f : FunctionDecl} (h : Settles table frames (.function f) context s) :
    Settles table (Frame.ofCall f frames) (.row f.body) context
      (s.enterFunction f.parameters) := by
  cases f with
  | mk name parameters body =>
    exact h.inner [] [] (by simp [Part.ids, FunctionDecl.ids, FunctionDecl.body])
      (h.names.enterFunction (.mk name parameters body)) (by simp [FunctionDecl.parameters])
      (fun _ _ => rfl) (.refl _)

theorem Stands.settles {part : Part} (stands : Stands program frames part)
    (whole : ∃ context s, Settles table [] (.row program) context s) :
    ∃ context s, Settles table frames part context s := by
  induction stands with
  | program => exact whole
  | statement _ ih =>
    obtain ⟨context, s, h⟩ := ih
    exact ⟨_, _, h.statement⟩
  | expression _ ih | print _ ih =>
    obtain ⟨context, s, h⟩ := ih
    exact ⟨_, _, h.only rfl rfl⟩
  | initial _ ih =>
    obtain ⟨context, s, h⟩ := ih
    exact ⟨_, _, h.initial⟩
  | block _ ih =>
    obtain ⟨context, s, h⟩ := ih
    exact ⟨_, _, h.block⟩
  | test _ ih =>
    obtain ⟨context, s, h⟩ := ih
    exact ⟨_, _, h.test⟩
  | consequent _ ih =>
    obtain ⟨context, s, h⟩ := ih
    exact ⟨_, _, h.consequent⟩
  | alternative _ ih =>
    obtain ⟨context, s, h⟩ := ih
    exact ⟨_, _, h.alternative⟩
  | condition _ ih =>
    obtain ⟨context, s, h⟩ := ih
    exact ⟨_, _, h.condition⟩
  | body _ ih =>
    obtain ⟨context, s, h⟩ := ih
    exact ⟨_, _, h.body⟩
  | step _ ih =>
    obtain ⟨context, s, h⟩ := ih
    exact ⟨_, _, h.step⟩
  | function _ ih =>
    obtain ⟨context, s, h⟩ := ih
    exact ⟨_, _, h.function⟩
  | method _ ih =>
    obtain ⟨context, s, h⟩ := ih
    exact ⟨_, _, h.method rfl⟩
  | result _ ih =>
    obtain ⟨context, s, h⟩ := ih
    exact ⟨_, _, h.result⟩
  | calling _ ih =>
    obtain ⟨context, s, h⟩ := ih
    exact ⟨_, _, h.calling⟩

theorem Settles.superclass {name : Name} {above : Reference} {methods : List FunctionDecl}
    (h : Settles table frames (.statement (.classDecl name (some above) methods)) context s) :
    table[above.id]? = Frame.address? (Frame.declare [name.text] frames) above.name.text := by
  have distinct : above.id ∉ FunctionDecl.idsAll methods :=
    (List.nodup_cons.mp h.free.distinct).1
  have inside : above.id ∈ (Part.statement (.classDecl name (some above) methods)).ids :=
    List.mem_cons_self
  have free : Unentered ((s.declare name).define name) [above.id] :=
    ⟨by simp, by simpa using h.free.none _ inside⟩
  have entered := enters_resolve (h.names.define name) free above (by simp)
  -- The class is known at the reference, the scope of `super` is not entered yet.
  have whole : (s.enterClass name (some above)).resolution[above.id]? =
      (((s.declare name).define name).resolve above).resolution[above.id]? := by
    simp only [ScopeState.enterClass, ScopeState.resolution_mark, ScopeState.enter,
      ScopeState.resolution_use]
    split
    · rw [ScopeState.resolution_note_resolve]
    · rfl
  rw [h.final _ inside, Part.scopes, Stmt.scopes, ← entered.2, ← whole]
  exact FunctionDecl.getElem?_scopesAll methods _ _ distinct

end

-- Every number of a program is that of a reference with a place.

section

variable {program : List Stmt} {i : Nat}

def Numbered (program : List Stmt) (i : Nat) : Prop :=
  ∃ frames r, Occurs program frames r ∧ r.id = i

theorem Stands.numbered_expression {frames : List Frame} {e : Expr}
    (stands : Stands program frames (.expression e)) (mem : i ∈ e.ids) : Numbered program i := by
  rw [← Expr.map_id_references, List.mem_map] at mem
  obtain ⟨r, inside, rfl⟩ := mem
  exact ⟨frames, r, .expression stands inside, rfl⟩

mutual

theorem Stmt.numbered : ∀ (stmt : Stmt) {frames : List Frame},
    Stands program frames (.statement stmt) → i ∈ stmt.ids → Numbered program i
  | .expression _, _, stands, mem => stands.expression.numbered_expression mem
  | .print _, _, stands, mem => stands.print.numbered_expression mem
  | .varDecl _ (some _), _, stands, mem => stands.initial.numbered_expression mem
  | .block body, _, stands, mem => Stmt.numberedAll [] body stands.block mem
  | .ifElse _ consequent none, _, stands, mem => by
    rcases List.mem_append.mp mem with mem | mem
    · exact stands.test.numbered_expression mem
    · exact Stmt.numbered consequent stands.consequent mem
  | .ifElse _ consequent (some alternative), _, stands, mem => by
    simp only [Stmt.ids, List.mem_append] at mem
    rcases mem with mem | mem | mem
    · exact stands.test.numbered_expression mem
    · exact Stmt.numbered consequent stands.consequent mem
    · exact Stmt.numbered alternative stands.alternative mem
  | .loop _ body none, _, stands, mem => by
    simp only [Stmt.ids, List.mem_append] at mem
    rcases mem with mem | mem | mem
    · exact stands.condition.numbered_expression mem
    · exact Stmt.numbered body stands.body mem
    · simp [Expr.idsOf] at mem
  | .loop _ body (some _), _, stands, mem => by
    simp only [Stmt.ids, List.mem_append] at mem
    rcases mem with mem | mem | mem
    · exact stands.condition.numbered_expression mem
    · exact Stmt.numbered body stands.body mem
    · exact stands.step.numbered_expression mem
  | .funDecl f, _, stands, mem => FunctionDecl.numbered f stands.function mem
  | .classDecl name above methods, frames, stands, mem => by
    rcases List.mem_append.mp mem with mem | mem
    · cases above with
      | none => simp at mem
      | some above => exact ⟨_, above, .superclass stands, by simpa [eq_comm] using mem⟩
    · exact FunctionDecl.numberedAll [] methods stands mem
  | .returning _ (some _), _, stands, mem => stands.result.numbered_expression mem
  | .varDecl _ none, _, _, mem | .returning _ none, _, _, mem => by
    simp [Stmt.ids, Expr.idsOf] at mem
  | .jump _, _, _, mem => by simp [Stmt.ids] at mem

theorem Stmt.numberedAll : ∀ (before after : List Stmt) {frames : List Frame},
    Stands program frames (.row (before ++ after)) → i ∈ Stmt.idsAll after → Numbered program i
  | _, [], _, _, mem => by simp [Stmt.idsAll] at mem
  | before, stmt :: after, _, stands, mem => by
    rcases List.mem_append.mp mem with mem | mem
    · exact Stmt.numbered stmt stands.statement mem
    · exact Stmt.numberedAll (before ++ [stmt]) after (by simpa using stands) mem

theorem FunctionDecl.numbered : ∀ (f : FunctionDecl) {frames : List Frame},
    Stands program frames (.function f) → i ∈ f.ids → Numbered program i
  | .mk _ _ body, _, stands, mem => Stmt.numberedAll [] body stands.calling mem

theorem FunctionDecl.numberedAll {name : Name} {above : Option Reference} :
    ∀ (before after : List FunctionDecl) {frames : List Frame},
      Stands program frames (.statement (.classDecl name above (before ++ after))) →
        i ∈ FunctionDecl.idsAll after → Numbered program i
  | _, [], _, _, mem => by simp [FunctionDecl.idsAll] at mem
  | before, f :: after, _, stands, mem => by
    rcases List.mem_append.mp mem with mem | mem
    · exact FunctionDecl.numbered f stands.method mem
    · exact FunctionDecl.numberedAll (before ++ [f]) after (by simpa using stands) mem

end

end

theorem Frame.address?_eq_some_iff {frames : List Frame} {name : String} {d : Nat} :
    address? frames name = some d ↔
      ∃ inside frame outside, frames = inside ++ frame :: outside ∧ inside.length = d ∧
        name ∈ frame.names ∧ ∀ nearer ∈ inside, name ∉ nearer.names := by
  induction frames generalizing d with
  | nil => simp [address?]
  | cons frame outer ih =>
    rw [address?_cons]
    by_cases here : name ∈ frame.names
    · rw [if_pos here]
      constructor
      · rintro ⟨⟩
        exact ⟨[], frame, outer, rfl, rfl, here, by simp⟩
      · rintro ⟨inside, found, outside, split, rfl, -, nearer⟩
        cases inside with
        | nil => rfl
        | cons first rest =>
          obtain ⟨rfl, -⟩ := List.cons.inj split
          exact absurd here (nearer frame List.mem_cons_self)
    · rw [if_neg here, Option.map_eq_some_iff]
      constructor
      · rintro ⟨d, found, rfl⟩
        obtain ⟨inside, innermost, outside, rfl, rfl, mem, nearer⟩ := ih.mp found
        exact ⟨frame :: inside, innermost, outside, rfl, rfl, mem, by simpa [here] using nearer⟩
      · rintro ⟨inside, found, outside, split, rfl, mem, nearer⟩
        cases inside with
        | nil =>
          obtain ⟨rfl, -⟩ := List.cons.inj split
          exact absurd mem here
        | cons first rest =>
          obtain ⟨-, rfl⟩ := List.cons.inj split
          refine ⟨rest.length, ih.mpr ⟨rest, found, outside, rfl, rfl, mem, fun f inside => ?_⟩,
            rfl⟩
          exact nearer f (List.mem_cons_of_mem first inside)

theorem Frame.isSome_address?_iff {frames : List Frame} {name : String} :
    (address? frames name).isSome ↔ ∃ frame ∈ frames, name ∈ frame.names := by
  simp [address?]

theorem settles_of_resolve {program : List Stmt} {table : Resolution}
    (distinct : (Stmt.idsAll program).Nodup) (resolved : resolve program = .ok table) :
    Settles table [] (.row program) .topLevel .initial ∧
      ∀ i, i ∉ Stmt.idsAll program → table[i]? = none := by
  unfold resolve at resolved
  by_cases clean : (Stmt.scopesAll .topLevel program .initial).faults = []
  · simp only [clean, List.isEmpty_nil, if_true, Except.ok.injEq] at resolved
    subst resolved
    refine ⟨⟨.nil, ⟨distinct, fun i _ => by simp [ScopeState.initial]⟩, clean, fun _ _ => rfl⟩,
      fun i outside => ?_⟩
    rw [Stmt.getElem?_scopesAll program .topLevel .initial outside]
    simp [ScopeState.initial]
  · simp [clean] at resolved

theorem Stands.ids_subset {program : List Stmt} {frames : List Frame} {part : Part}
    (stands : Stands program frames part) : part.ids ⊆ Stmt.idsAll program := by
  induction stands with
  | program => exact List.Subset.refl _
  | statement _ ih =>
    refine List.Subset.trans ?_ ih
    simp only [Part.ids, Stmt.idsAll_append, Stmt.idsAll]
    intro i mem
    simp [mem]
  | method _ ih =>
    refine List.Subset.trans ?_ ih
    simp only [Part.ids, Stmt.ids, FunctionDecl.idsAll_append, FunctionDecl.idsAll]
    intro i mem
    simp [mem]
  | @calling _ f _ ih =>
    cases f
    exact ih
  | @test _ _ _ alternative _ ih | @consequent _ _ _ alternative _ ih =>
    cases alternative <;> simp_all [Part.ids, Stmt.ids]
  | expression _ ih | print _ ih | initial _ ih | block _ ih | alternative _ ih | condition _ ih
  | body _ ih | step _ ih | function _ ih | result _ ih =>
    simp_all [Part.ids, Stmt.ids, Expr.idsOf]

theorem Occurs.address {program : List Stmt} {table : Resolution} {frames : List Frame}
    {r : Reference} (occurs : Occurs program frames r)
    (whole : Settles table [] (.row program) .topLevel .initial) :
    r.id ∈ Stmt.idsAll program ∧ table[r.id]? = Frame.address? frames r.name.text := by
  cases occurs with
  | @expression _ e _ stands mem =>
    obtain ⟨context, s, settles⟩ := stands.settles ⟨_, _, whole⟩
    obtain ⟨inside, entered⟩ := e.enters_scopes settles.names settles.free settles.clean r mem
    exact ⟨stands.ids_subset inside, (settles.final r.id inside).trans entered⟩
  | superclass stands =>
    obtain ⟨context, s, settles⟩ := stands.settles ⟨_, _, whole⟩
    exact ⟨stands.ids_subset List.mem_cons_self, settles.superclass⟩

/--
The resolver computes lexical addresses, in any program whose references have different numbers. An
entry stands for the innermost scope that declares the name before the reference.
-/
theorem resolution_eq_lexical {program : List Stmt} {table : Resolution}
    (distinct : (Stmt.idsAll program).Nodup) (resolved : resolve program = .ok table) :
    (∀ frames r, Occurs program frames r →
      (r.id ∈ table ↔ ∃ frame ∈ frames, r.name.text ∈ frame.names) ∧
      ∀ d, table[r.id]? = some d ↔
        ∃ inside frame outside, frames = inside ++ frame :: outside ∧ inside.length = d ∧
          r.name.text ∈ frame.names ∧ ∀ nearer ∈ inside, r.name.text ∉ nearer.names) ∧
    (∀ i, i ∈ Stmt.idsAll program ↔ ∃ frames r, Occurs program frames r ∧ r.id = i) ∧
    ∀ i ∈ table, ∃ frames r, Occurs program frames r ∧ r.id = i := by
  obtain ⟨whole, others⟩ := settles_of_resolve distinct resolved
  have occurs (i : Nat) (mem : i ∈ Stmt.idsAll program) :
      ∃ frames r, Occurs program frames r ∧ r.id = i :=
    Stmt.numberedAll [] program .program mem
  refine ⟨fun frames r place => ?_, fun i => ⟨occurs i, ?_⟩, fun i entered => occurs i ?_⟩
  · obtain ⟨-, address⟩ := place.address whole
    refine ⟨?_, fun d => by rw [address, Frame.address?_eq_some_iff]⟩
    rw [Std.TreeMap.mem_iff_isSome_getElem?, address, Frame.isSome_address?_iff]
  · rintro ⟨frames, r, place, rfl⟩
    exact (place.address whole).1
  · rw [Std.TreeMap.mem_iff_isSome_getElem?] at entered
    by_contra outside
    simp [others i outside] at entered

def superMethod : FunctionDecl :=
  .mk ⟨"m", 2⟩ [⟨"p", 2⟩]
    [.expression (.assign ⟨1, ⟨"p", 2⟩⟩ (.self ⟨2, ⟨"this", 2⟩⟩)),
      .expression (.super ⟨3, ⟨"super", 2⟩⟩ ⟨"m", 2⟩)]

def derivedInBlock : List Stmt :=
  [.block [.classDecl ⟨"A", 1⟩ none [],
    .classDecl ⟨"B", 2⟩ (some ⟨0, ⟨"A", 2⟩⟩) [superMethod]]]

theorem resolution_eq_lexical_super :
    (Stmt.idsAll derivedInBlock).Nodup ∧
      ∃ table, resolve derivedInBlock = .ok table ∧ table[3]? = some 2 := by
  have distinct : (Stmt.idsAll derivedInBlock).Nodup := by decide
  obtain ⟨table, resolved⟩ : ∃ table, resolve derivedInBlock = .ok table := ⟨_, rfl⟩
  have block : Stands derivedInBlock [] (.statement _) := @Stands.statement _ _ [] _ _ .program
  have derived := @Stands.statement _ _ [_] _ _ block.block
  have body := (@Stands.method _ _ _ _ [] _ _ derived).calling
  have last := @Stands.statement _ _ [_] _ _ body
  have occurs := Occurs.expression last.expression List.mem_cons_self
  have address := ((resolution_eq_lexical distinct resolved).1 _ _ occurs).2 2
  exact ⟨distinct, table, resolved, address.mpr ⟨[_, _], _, _, rfl, rfl, by simp, by decide⟩⟩

end ScopeScript
