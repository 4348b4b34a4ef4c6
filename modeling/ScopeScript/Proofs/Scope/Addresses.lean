import ScopeScript.Proofs.Scope.Occurrence
import ScopeScript.Proofs.Scope.Violations

set_option autoImplicit false

namespace ScopeScript

def Tracks : List (Bindings Status) → List Frame → Option String → Prop
  | [], [], _ => True
  | scope :: scopes, frame :: frames, fresh =>
    (∀ name, scope.get? name = if fresh = some name then some .declared
      else if name ∈ frame.names then some .defined else none) ∧ Tracks scopes frames none
  | _, _, _ => False

namespace Tracks

variable {s : ScopeState} {frames : List Frame} {frame : Frame} {fresh : Option String}

theorem distance?_eq (h : Tracks s.scopes frames fresh) (name : String) :
    s.distance? name = Frame.address? (Frame.declare fresh.toList frames) name := by
  unfold ScopeState.distance?
  generalize s.scopes = scopes at h
  induction scopes, frames, fresh using Tracks.induct with
  | case1 => rfl
  | case2 scope scopes frame frames fresh ih =>
    obtain ⟨names, outer⟩ := h
    have inner : scope.contains name = decide (name ∈ fresh.toList ++ frame.names) := by
      unfold Bindings.contains
      rw [names name]
      cases fresh with
      | none => by_cases mem : name ∈ frame.names <;> simp [mem]
      | some other =>
        by_cases same : other = name
        · simp [same]
        · by_cases mem : name ∈ frame.names <;> simp [same, Ne.symm same, mem]
    have others := ih outer
    simp only [Option.toList_none, Frame.declare_nil] at others
    rw [List.findIdx?_cons, inner, others, Frame.declare, Frame.address?_cons]
    by_cases mem : name ∈ fresh.toList ++ frame.names <;> simp [mem]
  | case3 => simp_all [Tracks]

theorem fresh_ne_of_not_isPending (h : Tracks s.scopes frames fresh) {name : String}
    (done : s.isPending name = false) (inside : frames ≠ []) : fresh ≠ some name := by
  rintro rfl
  unfold ScopeState.isPending at done
  cases layers : s.scopes with
  | nil =>
    cases frames with
    | nil => exact inside rfl
    | cons frame frames => simp [layers, Tracks] at h
  | cons scope scopes =>
    cases frames with
    | nil => exact inside rfl
    | cons frame frames =>
      rw [layers] at h
      simp [layers, h.1 name] at done

theorem enter (h : Tracks s.scopes frames none) (site : Site) :
    Tracks s.enter.scopes (⟨site, []⟩ :: frames) none :=
  ⟨fun name => by simp, h⟩

theorem leave (h : Tracks s.scopes (frame :: frames) none) : Tracks s.leave.scopes frames none := by
  unfold ScopeState.leave
  cases layers : s.scopes with
  | nil => simp [layers, Tracks] at h
  | cons scope scopes =>
    rw [layers] at h
    exact h.2

theorem same_names (frame' : Frame) (h : Tracks s.scopes (frame :: frames) none)
    (same : ∀ name, name ∈ frame'.names ↔ name ∈ frame.names) :
    Tracks s.scopes (frame' :: frames) none := by
  cases layers : s.scopes with
  | nil => simp [layers, Tracks] at h
  | cons scope scopes =>
    rw [layers] at h
    refine ⟨fun name => ?_, h.2⟩
    rw [h.1 name]
    simp [same name]

theorem mark_defined (h : Tracks s.scopes frames fresh) {name : String}
    (only : ∀ other ∈ fresh, other = name) :
    Tracks (s.mark name .defined).scopes (Frame.declare [name] frames) none := by
  unfold ScopeState.mark
  cases layers : s.scopes with
  | nil =>
    cases frames with
    | nil => simp [Tracks, Frame.declare, layers]
    | cons frame frames => simp [layers, Tracks] at h
  | cons scope scopes =>
    cases frames with
    | nil => simp [layers, Tracks] at h
    | cons frame frames =>
      rw [layers] at h
      refine ⟨fun other => ?_, h.2⟩
      rw [Bindings.get?_insert, h.1 other]
      by_cases same : name = other
      · simp [same]
      · have old : fresh ≠ some other := fun found => same (only other found).symm
        simp [same, Ne.symm same, old]

theorem declare (h : Tracks s.scopes frames none) {name : Name}
    (clean : (s.declare name).faults = []) :
    Tracks (s.declare name).scopes frames (some name.text) := by
  unfold ScopeState.declare at clean ⊢
  cases layers : s.scopes with
  | nil =>
    cases frames with
    | nil => simp [Tracks, layers]
    | cons frame frames => simp [layers, Tracks] at h
  | cons scope scopes =>
    simp only [layers] at clean ⊢
    split at clean
    · exact absurd clean (s.note_faults_ne_nil _ _)
    next new =>
      cases frames with
      | nil => simp [layers, Tracks] at h
      | cons frame frames =>
        rw [layers] at h
        simp only [new, ScopeState.mark, layers]
        refine ⟨fun other => ?_, h.2⟩
        rw [Bindings.get?_insert, h.1 other]
        by_cases same : name.text = other <;> simp [same]

theorem define (name : Name) (h : Tracks s.scopes frames none)
    (clean : (s.declare name).faults = []) :
    Tracks ((s.declare name).define name).scopes (Frame.declare [name.text] frames) none :=
  (h.declare clean).mark_defined (by simp)

theorem enterFunction (h : Tracks s.scopes frames none) {parameters : List Name}
    (clean : (s.enterFunction parameters).faults = []) (site : Site) :
    Tracks (s.enterFunction parameters).scopes (⟨site, parameters.map Name.text⟩ :: frames)
      none := by
  have fold (parameters : List Name) : ∀ (s : ScopeState) (names : List String),
      Tracks s.scopes (⟨site, names⟩ :: frames) none →
      (parameters.foldl (fun s name => (s.declare name).define name) s).faults = [] →
      Tracks (parameters.foldl (fun s name => (s.declare name).define name) s).scopes
        (⟨site, parameters.map Name.text ++ names⟩ :: frames) none := by
    induction parameters with
    | nil => exact fun s names h _ => h
    | cons name rest ih =>
      intro s names h clean
      have later : ((s.declare name).define name).Extends
          (rest.foldl (fun s name => (s.declare name).define name)
            ((s.declare name).define name)) :=
        ScopeState.extends_foldl _ _
      have new : (s.declare name).faults = [] := by
        simpa using later.clean clean
      refine (ih _ _ (h.define name new) clean).same_names _ fun other => ?_
      simp [or_left_comm]
  have whole := fold parameters s.enter [] (h.enter site) clean
  rw [List.append_nil] at whole
  exact whole

end Tracks

-- What a part of the walk enters in the table.

structure Unentered (s : ScopeState) (ids : List Nat) : Prop where
  distinct : ids.Nodup
  none : ∀ i ∈ ids, s.resolution[i]? = Option.none

structure Resolves (s s' : ScopeState) (ids : List Nat) (occurrences : List Occurrence) : Prop where
  others : ∀ i, i ∉ ids → s'.resolution[i]? = s.resolution[i]?
  own : ∀ o ∈ occurrences,
    o.reference.id ∈ ids ∧ s'.resolution[o.reference.id]? = o.address? ∧ o.Ready

namespace Unentered

variable {s s' : ScopeState} {xs ys : List Nat} {os : List Occurrence}

theorem left (h : Unentered s (xs ++ ys)) : Unentered s xs :=
  ⟨(List.nodup_append.mp h.distinct).1, fun i mem => h.none i (List.mem_append_left ys mem)⟩

theorem right (h : Unentered s (xs ++ ys)) (before : Resolves s s' xs os) : Unentered s' ys := by
  obtain ⟨-, distinct, apart⟩ := List.nodup_append.mp h.distinct
  refine ⟨distinct, fun i mem => ?_⟩
  rw [before.others i fun mem' => apart i mem' i mem rfl]
  exact h.none i (List.mem_append_right xs mem)

theorem congr (h : Unentered s xs) (same : s'.resolution = s.resolution) : Unentered s' xs :=
  ⟨h.distinct, same ▸ h.none⟩

end Unentered

namespace Resolves

variable {s s₁ s₂ s' : ScopeState} {xs ys : List Nat} {os os' : List Occurrence}

theorem nil (same : s'.resolution = s.resolution) : Resolves s s' [] [] :=
  ⟨fun i _ => by rw [same], by simp⟩

theorem congr (h : Resolves s s₁ xs os) (same : s'.resolution = s.resolution)
    (same' : s₂.resolution = s₁.resolution) : Resolves s' s₂ xs os :=
  ⟨same ▸ same' ▸ h.others, same' ▸ h.own⟩

theorem append (first : Resolves s s₁ xs os) (second : Resolves s₁ s₂ ys os')
    (free : Unentered s (xs ++ ys)) : Resolves s s₂ (xs ++ ys) (os ++ os') := by
  obtain ⟨-, -, apart⟩ := List.nodup_append.mp free.distinct
  refine ⟨fun i outside => ?_, fun o mem => ?_⟩
  · simp only [List.mem_append, not_or] at outside
    rw [second.others i outside.2, first.others i outside.1]
  · rcases List.mem_append.mp mem with before | after
    · obtain ⟨inside, address, ready⟩ := first.own o before
      refine ⟨List.mem_append_left ys inside, ?_, ready⟩
      rw [second.others _ fun inside' => apart _ inside _ inside' rfl, address]
    · obtain ⟨inside, entered⟩ := second.own o after
      exact ⟨List.mem_append_right xs inside, entered⟩

theorem swap (h : Resolves s s' (xs ++ ys) (os ++ os')) : Resolves s s' (ys ++ xs) (os' ++ os) := by
  refine ⟨fun i outside => h.others i (by simpa [or_comm] using outside), fun o mem => ?_⟩
  obtain ⟨inside, entered⟩ := h.own o (by simpa [or_comm] using mem)
  exact ⟨by simpa [or_comm] using inside, entered⟩

end Resolves

theorem Unentered.swap {s : ScopeState} {xs ys : List Nat} (h : Unentered s (xs ++ ys)) :
    Unentered s (ys ++ xs) :=
  ⟨List.perm_append_comm.nodup_iff.mp h.distinct, fun i mem => h.none i (by
    simpa [or_comm] using mem)⟩

section

variable {frames : List Frame} {fresh : Option String} {s : ScopeState}

theorem resolves_resolve (tracks : Tracks s.scopes frames fresh) {r : Reference} {use : Use}
    (free : Unentered s [r.id]) (ready : (Occurrence.mk r use frames fresh).Ready) :
    Resolves s (s.resolve r) [r.id] [⟨r, use, frames, fresh⟩] := by
  have found := tracks.distance?_eq r.name.text
  unfold ScopeState.resolve
  cases distance : s.distance? r.name.text with
  | none =>
    refine ⟨fun _ _ => rfl, fun o mem => ?_⟩
    rw [List.mem_singleton.mp mem]
    refine ⟨by simp, ?_, ready⟩
    rw [free.none r.id (by simp), Occurrence.address?, Occurrence.name, ← found, distance]
  | some d =>
    refine ⟨fun i outside => ?_, fun o mem => ?_⟩
    · simp only [List.mem_singleton] at outside
      simp [Std.TreeMap.getElem?_insert, Ne.symm outside]
    · rw [List.mem_singleton.mp mem]
      refine ⟨by simp, ?_, ready⟩
      simp [Occurrence.address?, Occurrence.name, ← found, distance]

theorem resolves_use (tracks : Tracks s.scopes frames fresh) {r : Reference}
    (free : Unentered s [r.id]) (clean : (s.use r).faults = []) :
    (s.use r).scopes = s.scopes ∧ Resolves s (s.use r) [r.id] [⟨r, .read, frames, fresh⟩] := by
  unfold ScopeState.use at clean ⊢
  cases pending : s.isPending r.name.text with
  | true => simp [pending, ScopeState.note] at clean
  | false =>
    simp only [Bool.false_eq_true, if_false]
    have ready : (Occurrence.mk r .read frames fresh).Ready :=
      ⟨fun _ inside => tracks.fresh_ne_of_not_isPending pending inside, by simp [Use.keyword?]⟩
    exact ⟨s.scopes_resolve r, resolves_resolve tracks free ready⟩

def Ordinary (fresh : Option String) : Prop := ∀ name ∈ fresh, name ≠ "this" ∧ name ≠ "super"

-- A keyword is looked for without a check, but it is never fresh.
theorem resolves_keyword (use : Use) (tracks : Tracks s.scopes frames fresh)
    (ordinary : Ordinary fresh) {r : Reference} (keyword : use.keyword? = some r.name.text)
    (free : Unentered s [r.id]) :
    Resolves s (s.resolve r) [r.id] [⟨r, use, frames, fresh⟩] := by
  refine resolves_resolve tracks free ⟨fun _ _ found => ?_, fun word spelled => ?_⟩
  · obtain ⟨notThis, notSuper⟩ := ordinary _ found
    cases use <;> simp only [Use.keyword?, reduceCtorEq, Option.some.injEq] at keyword
    · exact notThis keyword.symm
    · exact notSuper keyword.symm
  · exact Option.some.inj (keyword.symm.trans spelled)

end

mutual

theorem Expr.resolves_scopes {frames : List Frame} {fresh : Option String}
    (ordinary : Ordinary fresh) {context : ScopeContext} :
    ∀ (e : Expr) {s : ScopeState}, Tracks s.scopes frames fresh → Unentered s e.ids →
      e.WellNamed → (e.scopes context s).faults = [] →
      (e.scopes context s).scopes = s.scopes ∧
        Resolves s (e.scopes context s) e.ids (e.occurrences frames fresh)
  | .literal _, _, _, _, _, _ => ⟨rfl, .nil rfl⟩
  | .grouping inner, _, tracks, free, named, clean
  | .unary _ _ inner, _, tracks, free, named, clean
  | .get inner _, _, tracks, free, named, clean =>
    Expr.resolves_scopes ordinary inner tracks free named clean
  | .binary _ _ left right, _, tracks, free, named, clean
  | .logical _ left right, _, tracks, free, named, clean => by
    have before := (right.extends_scopes context _).clean clean
    obtain ⟨same, first⟩ :=
      Expr.resolves_scopes ordinary left tracks free.left named.1 before
    obtain ⟨same', second⟩ :=
      Expr.resolves_scopes ordinary right (same ▸ tracks) (free.right first) named.2 clean
    exact ⟨same'.trans same, first.append second free⟩
  | .set object _ value, _, tracks, free, named, clean => by
    have before := (object.extends_scopes context _).clean clean
    obtain ⟨same, first⟩ :=
      Expr.resolves_scopes ordinary value tracks free.swap.left named.2 before
    obtain ⟨same', second⟩ :=
      Expr.resolves_scopes ordinary object (same ▸ tracks) (free.swap.right first) named.1 clean
    exact ⟨same'.trans same, (first.append second free.swap).swap⟩
  | .var r, _, tracks, free, _, clean => resolves_use tracks free clean
  | .assign r value, s, tracks, free, named, clean => by
    have swapped : Unentered s (value.ids ++ [r.id]) :=
      Unentered.swap (show Unentered s ([r.id] ++ value.ids) from free)
    have clean' : (value.scopes context s).faults = [] := by
      simpa [Expr.scopes] using clean
    obtain ⟨same, first⟩ :=
      Expr.resolves_scopes ordinary value tracks swapped.left named.2 clean'
    have second : Resolves _ ((value.scopes context s).resolve r) [r.id]
        [⟨r, .assigned, frames, fresh⟩] :=
      resolves_resolve (same ▸ tracks) (swapped.right first)
        ⟨fun read => absurd rfl read, by simp [Use.keyword?]⟩
    exact ⟨(ScopeState.scopes_resolve _ r).trans same, (first.append second swapped).swap⟩
  | .call callee _ arguments, _, tracks, free, named, clean => by
    have before := (Expr.extends_scopesAll context arguments _).clean clean
    obtain ⟨same, first⟩ :=
      Expr.resolves_scopes ordinary callee tracks free.left named.1 before
    obtain ⟨same', second⟩ :=
      Expr.resolves_scopesAll ordinary arguments (same ▸ tracks) (free.right first) named.2 clean
    exact ⟨same'.trans same, first.append second free⟩
  | .self r, s, tracks, free, named, clean => by
    have found := resolves_keyword .self tracks ordinary (by rw [Use.keyword?, named]) free
    unfold Expr.scopes at clean ⊢
    cases owner : context.owner with
    | outside => simp [owner, ScopeState.note] at clean
    | base | derived => exact ⟨s.scopes_resolve r, found⟩
  | .super r _, s, tracks, free, named, clean => by
    have found := resolves_keyword .super tracks ordinary (by rw [Use.keyword?, named]) free
    unfold Expr.scopes at clean ⊢
    cases owner : context.owner with
    | outside | base => simp [owner, ScopeState.note] at clean
    | derived => exact ⟨s.scopes_resolve r, found⟩

theorem Expr.resolves_scopesAll {frames : List Frame} {fresh : Option String}
    (ordinary : Ordinary fresh) {context : ScopeContext} :
    ∀ (es : List Expr) {s : ScopeState}, Tracks s.scopes frames fresh →
      Unentered s (Expr.idsAll es) → Expr.AllWellNamed es →
      (Expr.scopesAll context es s).faults = [] →
      (Expr.scopesAll context es s).scopes = s.scopes ∧
        Resolves s (Expr.scopesAll context es s) (Expr.idsAll es)
          (Expr.occurrencesAll frames fresh es)
  | [], _, _, _, _, _ => ⟨rfl, .nil rfl⟩
  | e :: rest, _, tracks, free, named, clean => by
    have before := (Expr.extends_scopesAll context rest _).clean clean
    obtain ⟨same, first⟩ := Expr.resolves_scopes ordinary e tracks free.left named.1 before
    obtain ⟨same', second⟩ :=
      Expr.resolves_scopesAll ordinary rest (same ▸ tracks) (free.right first) named.2 clean
    exact ⟨same'.trans same, first.append second free⟩

end

theorem Expr.resolves_scopes? {frames : List Frame} {fresh : Option String}
    (ordinary : Ordinary fresh) {context : ScopeContext} (e : Option Expr) {s : ScopeState}
    (tracks : Tracks s.scopes frames fresh) (free : Unentered s (Expr.idsOf e))
    (named : Expr.OptionWellNamed e) (clean : (Expr.scopes? context e s).faults = []) :
    (Expr.scopes? context e s).scopes = s.scopes ∧
      Resolves s (Expr.scopes? context e s) (Expr.idsOf e)
        (Expr.occurrencesOf frames fresh e) := by
  cases e with
  | none => exact ⟨rfl, .nil rfl⟩
  | some e => exact e.resolves_scopes ordinary tracks free (named e rfl) clean

theorem ordinary_none : Ordinary none := by simp [Ordinary]

theorem resolves_enterClass (site : Site) {frames : List Frame} {s : ScopeState} (name : Name)
    (above : Option Reference) (tracks : Tracks s.scopes frames none)
    (free : Unentered s (above.map Reference.id).toList)
    (clean : (s.enterClass name above).faults = []) :
    Tracks (s.enterClass name above).scopes
        (⟨site, ["this"]⟩ :: Frame.ofClass name above frames) none ∧
      Resolves s (s.enterClass name above) (above.map Reference.id).toList
        (above.map fun r => Occurrence.mk r .read frames (some name.text)).toList := by
  unfold ScopeState.enterClass at clean ⊢
  cases above with
  | none =>
    simp only [ScopeState.faults_mark, ScopeState.enter] at clean
    have named := tracks.define name (by simpa using clean)
    refine ⟨(named.enter site).mark_defined (by simp), .nil ?_⟩
    simp [ScopeState.enter]
  | some r =>
    simp only [ScopeState.faults_mark, ScopeState.enter] at clean
    by_cases itself : r.name.text = name.text
    · simp only [itself, if_true] at clean
      exact absurd ((ScopeState.extends_use _ r).clean clean) (ScopeState.note_faults_ne_nil _ _ _)
    · simp only [itself, if_false] at clean ⊢
      have before := (ScopeState.extends_use _ r).clean clean
      have named := tracks.define name (by simpa using before)
      obtain ⟨same, used⟩ := resolves_use named (r := r) (free.congr (by simp)) clean
      have outer : Tracks
          ((((s.declare name).define name).use r).enter.mark "super" .defined).scopes
          (⟨.superclass r, ["super"]⟩ :: Frame.declare [name.text] frames) none :=
        Tracks.mark_defined (Tracks.enter (same ▸ named) (.superclass r)) (by simp)
      refine ⟨(outer.enter site).mark_defined (by simp), ?_⟩
      -- At the reference the name of the class is declared, though nothing is bound to it yet.
      refine ⟨fun i outside => ?_, fun o mem => ?_⟩
      · simpa [ScopeState.enter] using used.others i outside
      · simp only [Option.map_some, Option.toList_some, List.mem_singleton] at mem
        subst mem
        obtain ⟨inside, address, -⟩ := used.own _ List.mem_cons_self
        have ready : (Occurrence.mk r .read frames (some name.text)).Ready :=
          ⟨fun _ _ found => itself (Option.some.inj found).symm, by simp [Use.keyword?]⟩
        refine ⟨inside, ?_, ready⟩
        simpa [ScopeState.enter, Occurrence.address?, Occurrence.name] using address

structure Walked (s s' : ScopeState) (frames : List Frame) (ids : List Nat)
    (occurrences : List Occurrence) : Prop where
  tracks : Tracks s'.scopes frames none
  resolves : Resolves s s' ids occurrences

theorem Walked.leave {s s' : ScopeState} {body : List Stmt} {frame : Frame} {frames : List Frame}
    {ids : List Nat} {os : List Occurrence}
    (h : Walked s s' (Frame.declareAll body (frame :: frames)) ids os) :
    Walked s s'.leave frames ids os := by
  obtain ⟨names, same⟩ := Frame.declareAll_cons body frame frames
  exact ⟨(same ▸ h.tracks).leave, h.resolves.congr rfl rfl⟩

mutual

theorem Stmt.walked_scopes : ∀ (stmt : Stmt) {context : ScopeContext} {frames : List Frame}
    {s : ScopeState}, Tracks s.scopes frames none → Unentered s stmt.ids → stmt.WellFormed →
    (stmt.scopes context s).faults = [] →
    Walked s (stmt.scopes context s) (Frame.declare stmt.declares frames) stmt.ids
      (stmt.occurrences frames)
  | .expression e, _, _, _, tracks, free, formed, clean
  | .print e, _, _, _, tracks, free, formed, clean => by
    obtain ⟨same, resolves⟩ := e.resolves_scopes ordinary_none tracks free formed clean
    refine ⟨?_, resolves⟩
    rw [Frame.declare_of_declares_eq_nil rfl]
    exact same ▸ tracks
  | .varDecl name initial, context, frames, s, tracks, free, formed, clean => by
    have clean' : (Expr.scopes? context initial (s.declare name)).faults = [] := by
      simpa [Stmt.scopes] using clean
    have before := (Expr.extends_scopes? context initial _).clean clean'
    have declared := tracks.declare before
    have ordinary : Ordinary (some name.text) := by
      rintro _ ⟨⟩
      exact formed.1
    obtain ⟨same, resolves⟩ := Expr.resolves_scopes? ordinary initial declared
      (free.congr (by simp)) formed.2 clean'
    refine ⟨?_, resolves.congr (by simp) (by simp [Stmt.scopes])⟩
    exact Tracks.mark_defined (same ▸ declared) (by simp)
  | .block body, context, frames, s, tracks, free, formed, clean => by
    have inside := Stmt.walked_scopesAll body (tracks.enter (.block body)) (free.congr rfl)
      formed clean
    refine ⟨?_, inside.leave.resolves.congr rfl rfl⟩
    rw [Frame.declare_of_declares_eq_nil rfl]
    exact inside.leave.tracks
  | .ifElse condition consequent none, context, frames, s, tracks, free, formed, clean => by
    have before := (Stmt.extends_scopes context consequent _).clean clean
    obtain ⟨same, first⟩ :=
      condition.resolves_scopes ordinary_none tracks free.left formed.1 before
    have second := Stmt.walked_scopes consequent (same ▸ tracks) (free.right first)
      formed.2.1 clean
    refine ⟨?_, first.append second.resolves free⟩
    rw [Frame.declare_of_declares_eq_nil rfl]
    exact Frame.declare_of_declares_eq_nil formed.2.2 frames ▸ second.tracks
  | .ifElse condition consequent (some alternative), context, frames, s, tracks, free, formed,
      clean => by
    have before := (Stmt.extends_scopes context alternative _).clean clean
    have start := (Stmt.extends_scopes context consequent _).clean before
    obtain ⟨same, first⟩ :=
      condition.resolves_scopes ordinary_none tracks free.left formed.1 start
    have rest := free.right first
    have second := Stmt.walked_scopes consequent (same ▸ tracks) rest.left
      formed.2.1.1 before
    have third := Stmt.walked_scopes alternative
      (Frame.declare_of_declares_eq_nil formed.2.1.2 frames ▸ second.tracks)
      (rest.right second.resolves) formed.2.2.1 clean
    refine ⟨?_, first.append (second.resolves.append third.resolves rest) free⟩
    rw [Frame.declare_of_declares_eq_nil rfl]
    exact Frame.declare_of_declares_eq_nil formed.2.2.2 frames ▸ third.tracks
  | .loop condition body step, context, frames, s, tracks, free, formed, clean => by
    have before := (Expr.extends_scopes? context step _).clean clean
    have start := (Stmt.extends_scopes context body _).clean before
    obtain ⟨same, first⟩ :=
      condition.resolves_scopes ordinary_none tracks free.left formed.1 start
    have rest := free.right first
    have second := Stmt.walked_scopes body (same ▸ tracks) rest.left formed.2.1.1 before
    have behind := Frame.declare_of_declares_eq_nil formed.2.1.2 frames ▸ second.tracks
    obtain ⟨same', third⟩ := Expr.resolves_scopes? ordinary_none step behind
      (rest.right second.resolves) formed.2.2 clean
    refine ⟨?_, first.append (second.resolves.append third rest) free⟩
    rw [Frame.declare_of_declares_eq_nil rfl]
    exact same' ▸ behind
  | .funDecl f, context, frames, s, tracks, free, formed, clean => by
    have before := (FunctionDecl.extends_scopes _ f _).clean clean
    have named := tracks.define f.name (by simpa using before)
    have inside := FunctionDecl.walked_scopes f named (free.congr (by simp)) formed clean
    exact ⟨inside.tracks, inside.resolves.congr (by simp) rfl⟩
  | .classDecl name above methods, context, frames, s, tracks, free, formed, clean => by
    have clean' : (FunctionDecl.scopesAll { context with owner := .of above } methods
        (s.enterClass name above)).faults = [] := by
      simpa only [Stmt.scopes, ScopeState.faults_leaveClass] using clean
    have before := (FunctionDecl.extends_scopesAll _ methods _).clean clean'
    -- One scope serves all methods, whichever of them it is taken for.
    obtain ⟨entered, first⟩ :=
      resolves_enterClass (.block []) name above tracks free.left before
    have second :=
      FunctionDecl.walked_scopesAll methods entered (free.right first) formed.2.2 clean'
    have both := first.append second.resolves free
    refine ⟨?_, both.congr rfl (by cases above <;> rfl)⟩
    cases above with
    | none => exact second.tracks.leave
    | some r => exact second.tracks.leave.leave
  | .returning line value, context, frames, s, tracks, free, formed, clean => by
    have before := (Expr.extends_scopes? context value _).clean clean
    have kept := ScopeState.checkReturn_eq_self before
    simp only [Stmt.scopes, kept] at clean ⊢
    obtain ⟨same, resolves⟩ :=
      Expr.resolves_scopes? ordinary_none value tracks free formed clean
    refine ⟨?_, resolves⟩
    rw [Frame.declare_of_declares_eq_nil rfl]
    exact same ▸ tracks
  | .jump _, _, frames, s, tracks, _, _, _ => by
    refine ⟨?_, .nil rfl⟩
    rw [Frame.declare_of_declares_eq_nil rfl]
    exact tracks

theorem Stmt.walked_scopesAll : ∀ (body : List Stmt) {context : ScopeContext}
    {frames : List Frame} {s : ScopeState}, Tracks s.scopes frames none →
    Unentered s (Stmt.idsAll body) → Stmt.AllWellFormed body →
    (Stmt.scopesAll context body s).faults = [] →
    Walked s (Stmt.scopesAll context body s) (Frame.declareAll body frames) (Stmt.idsAll body)
      (Stmt.occurrencesAll frames body)
  | [], _, _, _, tracks, _, _, _ => ⟨tracks, .nil rfl⟩
  | first :: rest, context, _, _, tracks, free, formed, clean => by
    have before := (Stmt.extends_scopesAll context rest _).clean clean
    have head := Stmt.walked_scopes first tracks free.left formed.1 before
    have tail := Stmt.walked_scopesAll rest head.tracks (free.right head.resolves) formed.2 clean
    exact ⟨tail.tracks, head.resolves.append tail.resolves free⟩

theorem FunctionDecl.walked_scopes : ∀ (f : FunctionDecl) {context : ScopeContext}
    {frames : List Frame} {s : ScopeState}, Tracks s.scopes frames none →
    Unentered s f.ids → f.WellFormed → (f.scopes context s).faults = [] →
    Walked s (f.scopes context s) frames f.ids (f.occurrences frames)
  | .mk name parameters body, context, frames, s, tracks, free, formed, clean => by
    have before := (Stmt.extends_scopesAll context body _).clean clean
    have entered := tracks.enterFunction before (.call (.mk name parameters body))
    have inside := Stmt.walked_scopesAll body entered (free.congr (by simp)) formed.2.2 clean
    exact ⟨inside.leave.tracks, inside.leave.resolves.congr (by simp) rfl⟩

theorem FunctionDecl.walked_scopesAll : ∀ (fs : List FunctionDecl) {context : ScopeContext}
    {site : Site} {frames : List Frame} {s : ScopeState},
    Tracks s.scopes (⟨site, ["this"]⟩ :: frames) none →
    Unentered s (FunctionDecl.idsAll fs) → FunctionDecl.AllWellFormed fs →
    (FunctionDecl.scopesAll context fs s).faults = [] →
    Walked s (FunctionDecl.scopesAll context fs s) (⟨site, ["this"]⟩ :: frames)
      (FunctionDecl.idsAll fs) (FunctionDecl.occurrencesAll frames fs)
  | [], _, _, _, _, tracks, _, _, _ => ⟨tracks, .nil rfl⟩
  | f :: rest, context, site, frames, _, tracks, free, formed, clean => by
    have before := (FunctionDecl.extends_scopesAll context rest _).clean clean
    have receiver := tracks.same_names ⟨.receiver f, ["this"]⟩ (by simp)
    have head := FunctionDecl.walked_scopes f receiver free.left formed.1 before
    have behind := head.tracks.same_names ⟨site, ["this"]⟩ (by simp)
    have tail := FunctionDecl.walked_scopesAll rest behind (free.right head.resolves) formed.2 clean
    exact ⟨tail.tracks, head.resolves.append tail.resolves free⟩

end

theorem resolves_of_resolve {body : List Stmt} {resolution : Resolution}
    (resolved : resolve body = .ok resolution) (distinct : (Stmt.idsAll body).Nodup)
    (formed : Stmt.AllWellFormed body) :
    (∀ i, i ∉ Stmt.idsAll body → resolution[i]? = none) ∧
      ∀ o ∈ Stmt.occurrencesAll [] body,
        o.reference.id ∈ Stmt.idsAll body ∧ resolution[o.reference.id]? = o.address? ∧ o.Ready := by
  unfold resolve at resolved
  by_cases clean : (Stmt.scopesAll .topLevel body .initial).faults = []
  · simp only [clean, List.isEmpty_nil, if_true, Except.ok.injEq] at resolved
    subst resolved
    have free : Unentered .initial (Stmt.idsAll body) :=
      ⟨distinct, fun i _ => by simp [ScopeState.initial]⟩
    have walked : Walked .initial (Stmt.scopesAll .topLevel body .initial)
        (Frame.declareAll body []) (Stmt.idsAll body) (Stmt.occurrencesAll [] body) :=
      Stmt.walked_scopesAll body (show Tracks ScopeState.initial.scopes [] none from trivial)
        free formed clean
    refine ⟨fun i outside => ?_, walked.resolves.own⟩
    rw [walked.resolves.others i outside]
    simp [ScopeState.initial]
  · simp [clean] at resolved

end ScopeScript
