import ScopeScript.Proofs.Parsing.Indexed
import ScopeScript.Proofs.Parsing.Outcome

set_option autoImplicit false

namespace ScopeScript

def Diagnostic.unwinding? : Diagnostic → Option Place
  | .syntactic place (.expected _) => some place
  | _ => none

namespace Indexed

variable {α β : Type} {words : List Token} {stop : Token} {s s' s'' : State}

structure Ended (words : List Token) (stop : Token) : Prop where
  last : stop.kind = .eof
  only : ∀ t ∈ words, t.kind ≠ .eof

def State.cursor (words : List Token) (stop : Token) (s : State) : Cursor where
  rest := words.drop s.current
  endLine := stop.line
  nextId := s.nextId
  faults := s.faults

def State.next (s : State) : State := { s with current := s.current + 1 }

inductive Holds (words : List Token) (stop : Token) (s : State) : Prop
  | last (isLast : s.current = words.length) (ahead : (s.cursor words stop).rest = [])
      (here : (words ++ [stop])[s.current]? = some stop)
  | word (t : Token) (within : s.current < words.length)
      (ahead : (s.cursor words stop).rest = t :: (s.next.cursor words stop).rest)
      (here : (words ++ [stop])[s.current]? = some t) (other : t.kind ≠ .eof)

theorem Ended.holds (ended : Ended words stop) (inside : s.current ≤ words.length) :
    Holds words stop s := by
  rcases Nat.eq_or_lt_of_le inside with isLast | within
  · exact .last isLast (by simp [State.cursor, isLast]) (by simp [isLast])
  · exact .word words[s.current] within (List.drop_eq_getElem_cons within)
      (by simp [List.getElem?_append, within]) (ended.only _ (List.getElem_mem within))

def Later (words : List Token) (i j : Nat) : Prop :=
  i < j ∨ i = words.length ∧ j = words.length

structure Onward (words : List Token) (stop : Token) (s s' : State) : Prop where
  forward : s.current ≤ s'.current
  inside : s'.current ≤ words.length
  loops : s'.loops = s.loops
  blamed : ∃ new, s'.blamed = s.blamed ++ new ∧ new.Pairwise (Later words) ∧
    (∀ i ∈ new, s.current ≤ i ∧ Later words i s'.current) ∧
    s'.faults.filterMap Diagnostic.unwinding? = s.faults.filterMap Diagnostic.unwinding? ++
      new.filterMap fun i => (words ++ [stop])[i]?.map Token.place

namespace Onward

theorem quiet (forward : s.current ≤ s'.current) (inside : s'.current ≤ words.length)
    (loops : s'.loops = s.loops) (blamed : s'.blamed = s.blamed)
    (faults : s'.faults.filterMap Diagnostic.unwinding? =
      s.faults.filterMap Diagnostic.unwinding?) : Onward words stop s s' :=
  ⟨forward, inside, loops, [], by simp [blamed, faults]⟩

theorem refl (inside : s.current ≤ words.length) : Onward words stop s s :=
  quiet (Nat.le_refl _) inside rfl rfl rfl

theorem trans (first : Onward words stop s s') (second : Onward words stop s' s'') :
    Onward words stop s s'' := by
  obtain ⟨old, split, ordered, before, places⟩ := first.blamed
  obtain ⟨new, split', ordered', before', places'⟩ := second.blamed
  have forward := first.forward
  have forward' := second.forward
  have inside := second.inside
  refine ⟨Nat.le_trans forward forward', inside, second.loops.trans first.loops, old ++ new,
    by simp [split, split'], List.pairwise_append.mpr ⟨ordered, ordered', fun i mem j mem' => ?_⟩,
    fun i mem => ?_, by simp [places, places']⟩
  · have := before i mem
    have := before' j mem'
    unfold Later at *
    omega
  · rcases List.mem_append.mp mem with mem | mem
    · have := before i mem
      unfold Later at *
      omega
    · have := before' i mem
      exact ⟨by omega, this.2⟩

end Onward

/-- A reading by position ends as the reading of what is left does, on at least `least` positions. A
fault is found at the position it ends on. -/
inductive Ends (words : List Token) (stop : Token) (least : Nat) (s : State) :
    EStateM.Result Stop State α → EStateM.Result Diagnostic Cursor α → Prop
  | ok (a : α) (s' : State) (onward : Onward words stop s s')
      (used : s.current + least ≤ s'.current) :
      Ends words stop least s (.ok a s') (.ok a (s'.cursor words stop))
  | error (what : Expectation) (s' : State) (onward : Onward words stop s s') :
      Ends words stop least s
        (.error (.fault (.syntactic (s'.cursor words stop).place (.expected what))) s')
        (.error (.syntactic (s'.cursor words stop).place (.expected what)) (s'.cursor words stop))

namespace Ends

variable {least m : Nat} {q : Reader α} {p : Parser α} {g : α → Reader β} {f : α → Parser β}

theorem behind {x : EStateM.Result Stop State β} {y : EStateM.Result Diagnostic Cursor β}
    (onward : Onward words stop s s') (used : s.current + least ≤ s'.current)
    (rest : Ends words stop (m - least) s' x y) : Ends words stop m s x y := by
  cases rest with
  | ok b s'' onward' used' => exact .ok b s'' (onward.trans onward') (by omega)
  | error what s'' onward' => exact .error what s'' (onward.trans onward')

theorem bind (first : Ends words stop least s (q s) (p (s.cursor words stop)))
    (second : ∀ a s', Onward words stop s s' → s.current + least ≤ s'.current →
      Ends words stop (m - least) s' (g a s') (f a (s'.cursor words stop))) :
    Ends words stop m s ((q >>= g) s) ((p >>= f) (s.cursor words stop)) := by
  change Ends words stop m s (EStateM.bind q g s) (EStateM.bind p f (s.cursor words stop))
  unfold EStateM.bind
  generalize q s = x at first
  generalize p (s.cursor words stop) = y at first
  cases first with
  | ok a s' onward used => exact (second a s' onward used).behind onward used
  | error what s' onward => exact .error what s' onward

end Ends

-- Single tokens.

section

variable {tokens : List Token} {t : Token}

theorem Onward.next (inside : s.current < words.length) : Onward words stop s s.next :=
  .quiet (Nat.le_succ _) inside rfl rfl rfl

theorem run_bind {q : Reader α} {g : α → Reader β} {a : α} (ran : q s = .ok a s') :
    (q >>= g) s = g a s' := by
  change EStateM.bind q g s = _
  simp [EStateM.bind, ran]

theorem run_peek (here : tokens[s.current]? = some t) :
    peek tokens s = .ok t s := by
  simp [peek, here]

theorem run_atEnd (here : tokens[s.current]? = some t) :
    atEnd tokens s = .ok (t.kind == .eof) s :=
  run_bind (run_peek here)

theorem run_isNext (kind : Kind) (here : tokens[s.current]? = some t) (other : t.kind ≠ .eof) :
    isNext tokens kind s = .ok (t.kind == kind) s := by
  unfold isNext
  rw [run_bind (run_atEnd here), beq_eq_false_iff_ne.mpr other]
  exact run_bind (run_peek here)

theorem run_isNext_last (ended : Ended words stop) (kind : Kind)
    (here : (words ++ [stop])[s.current]? = some stop) :
    isNext (words ++ [stop]) kind s = .ok false s := by
  unfold isNext
  rw [run_bind (run_atEnd here), ended.last]
  rfl

theorem run_previous (here : tokens[s.current - 1]? = some t) :
    previous tokens s = .ok t s := by
  simp [previous, here]

theorem run_advance (here : tokens[s.current]? = some t) (other : t.kind ≠ .eof) :
    advance tokens s = .ok t s.next := by
  unfold advance
  rw [run_bind (run_atEnd here), beq_eq_false_iff_ne.mpr other]
  exact run_previous (s := s.next) here

theorem run_advance_last (ended : Ended words stop)
    (here : (words ++ [stop])[s.current]? = some stop) :
    ∃ t, advance (words ++ [stop]) s = .ok t s := by
  have inside : s.current - 1 < (words ++ [stop]).length :=
    Nat.lt_of_le_of_lt (Nat.sub_le _ _) (List.getElem?_eq_some_iff.mp here).1
  refine ⟨(words ++ [stop])[s.current - 1], ?_⟩
  unfold advance
  rw [run_bind (run_atEnd here), ended.last]
  exact run_previous (List.getElem?_eq_getElem inside)

theorem Ends.bind_still {m : Nat} {q : Reader α} {p : Parser α} {g : α → Reader β}
    {f : α → Parser β} {a : α} (ran : q s = .ok a s)
    (ran' : p (s.cursor words stop) = .ok a (s.cursor words stop))
    (rest : Ends words stop m s (g a s) (f a (s.cursor words stop))) :
    Ends words stop m s ((q >>= g) s) ((p >>= f) (s.cursor words stop)) := by
  rwa [run_bind ran, Parser.bind_of_ok ran']

theorem Ends.bind_next {m : Nat} {q : Reader α} {p : Parser α} {g : α → Reader β}
    {f : α → Parser β} {a : α} (within : s.current < words.length) (ran : q s = .ok a s.next)
    (ran' : p (s.cursor words stop) = .ok a (s.next.cursor words stop))
    (rest : Ends words stop (m - 1) s.next (g a s.next) (f a (s.next.cursor words stop))) :
    Ends words stop m s ((q >>= g) s) ((p >>= f) (s.cursor words stop)) := by
  rw [run_bind ran, Parser.bind_of_ok ran']
  exact rest.behind (.next within) (Nat.le_refl _)

theorem Ended.place_cursor (ended : Ended words stop) (inside : s.current ≤ words.length) :
    ∃ t, (words ++ [stop])[s.current]? = some t ∧ (s.cursor words stop).place = t.place := by
  cases ended.holds inside with
  | last _ ahead here =>
    exact ⟨stop, here, by rw [Cursor.place, ahead, Token.place, if_pos ended.last]; rfl⟩
  | word t _ ahead here _ => exact ⟨t, here, by simp [Cursor.place, ahead]⟩

end

-- Rules.

def Tracks (words : List Token) (stop : Token) (k n rank least : Nat) (q : Reader α)
    (p : Parser α) : Prop :=
  ∀ s : State, s.loops = k → s.current ≤ words.length →
    32 * (words.length - s.current) + rank ≤ n →
    Ends words stop least s (q s) (p (s.cursor words stop))

namespace Tracks

variable {k n rank rank' least m : Nat} {q : Reader α} {p : Parser α} {g : α → Reader β}
  {f : α → Parser β} {what : Expectation} {kind : Kind}

theorem later (h : Tracks words stop k n rank least q p) (less : rank ≤ rank') :
    Tracks words stop k n rank' least q p :=
  fun s loops inside room => h s loops inside (by omega)

theorem succ (h : Tracks words stop k n rank least q p) :
    Tracks words stop k (n + 1) (rank + 1) least q p :=
  fun s loops inside room => h s loops inside (Nat.le_of_succ_le_succ room)

theorem bind (first : Tracks words stop k n rank least q p)
    (second : ∀ a, Tracks words stop k n (rank + 32 * least) (m - least) (g a) (f a)) :
    Tracks words stop k n rank m (q >>= g) (p >>= f) := by
  intro s loops inside room
  refine Ends.bind (first s loops inside room) fun a s' onward used => ?_
  have within := onward.inside
  exact second a s' (onward.loops.trans loops) within (by omega)

theorem exhausted (used : n < rank) : Tracks words stop k n rank least (throw .exhausted) p :=
  fun _ _ _ room => absurd room (by omega)

theorem pure {a : α} : Tracks words stop k n rank 0 (Pure.pure a) (Pure.pure a) :=
  fun s _ inside _ => .ok a s (.refl inside) (Nat.le_refl _)

theorem ite {b : Bool} {q' : Reader α} {p' : Parser α}
    (yes : Tracks words stop k n rank least q p) (no : Tracks words stop k n rank least q' p') :
    Tracks words stop k n rank least (if b then q else q') (if b then p else p') := by
  cases b with
  | true => exact yes
  | false => exact no

theorem fail (ended : Ended words stop) (what : Expectation) :
    Tracks words stop k n rank least (Indexed.fail (words ++ [stop]) what : Reader α)
      (Parser.fail what) := by
  intro s loops inside room
  obtain ⟨t, here, place⟩ := ended.place_cursor inside
  have ran : (Indexed.fail (words ++ [stop]) what : Reader α) s =
      .error (.fault (.syntactic (s.cursor words stop).place (.expected what))) s := by
    rw [place]
    exact run_bind (run_peek here)
  rw [ran]
  exact .error what s (.refl inside)

theorem isNext (ended : Ended words stop) :
    Tracks words stop k n rank 0 (Indexed.isNext (words ++ [stop]) kind) (Parser.isNext kind) := by
  intro s loops inside room
  have ran : Indexed.isNext (words ++ [stop]) kind s =
      .ok ((s.cursor words stop).rest.head?.any fun t => t.kind == kind) s := by
    cases ended.holds inside with
    | last _ ahead here => simp [run_isNext_last ended kind here, ahead]
    | word t _ ahead here other => simp [run_isNext kind here other, ahead]
  rw [ran]
  exact .ok _ s (.refl inside) (Nat.le_refl _)

theorem expect (ended : Ended words stop) :
    Tracks words stop k n rank 1 (Indexed.expect (words ++ [stop]) kind what)
      (Parser.expect kind what) := by
  intro s loops inside room
  unfold Indexed.expect Parser.expect
  cases ended.holds inside with
  | last _ ahead here =>
    rw [run_bind (run_isNext_last ended kind here), ahead]
    exact fail ended what s loops inside room
  | word t within ahead here other =>
    rw [run_bind (run_isNext kind here other), ahead]
    by_cases same : t.kind = kind
    · simp only [same, beq_self_eq_true, if_true]
      rw [run_advance here other]
      exact .ok t s.next (.next within) (Nat.le_refl _)
    · simp only [same, beq_eq_false_iff_ne.mpr same, Bool.false_eq_true, if_false]
      exact fail ended what s loops inside room

theorem expectName (ended : Ended words stop) :
    Tracks words stop k n rank 1 (Indexed.expectName (words ++ [stop]) what)
      (Parser.expectName what) :=
  (expect ended).bind fun _ => .pure

theorem room_next (within : s.current < words.length)
    (room : 32 * (words.length - s.current) + rank ≤ n) :
    32 * (words.length - s.next.current) + (rank + 32) ≤ n := by
  have shorter : words.length - s.next.current + 1 = words.length - s.current :=
    Nat.sub_add_cancel (Nat.sub_pos_of_lt within)
  omega

theorem take? {meaning : Kind → Option α} {g : Option (α × Token) → Reader β}
    {f : Option (α × Token) → Parser β} (ended : Ended words stop)
    (none : Tracks words stop k n rank m (g none) (f none))
    (some : ∀ a t, Tracks words stop k n (rank + 32) (m - 1) (g (some (a, t))) (f (some (a, t)))) :
    Tracks words stop k n rank m (Indexed.take? (words ++ [stop]) meaning >>= g)
      (Parser.take? meaning >>= f) := by
  intro s loops inside room
  cases ended.holds inside with
  | last _ ahead here =>
    refine .bind_still (a := .none) ?_ ?_ (none s loops inside room)
    · unfold Indexed.take?
      rw [run_bind (run_atEnd here), ended.last]
      rfl
    · simp only [Parser.take?, ahead]
  | word t within ahead here other =>
    have ran : Indexed.take? (words ++ [stop]) meaning s =
        (meaning t.kind).elim (.ok .none s) fun a => .ok (.some (a, t)) s.next := by
      unfold Indexed.take?
      rw [run_bind (run_atEnd here), beq_eq_false_iff_ne.mpr other]
      refine (run_bind (run_peek here)).trans ?_
      cases meaning t.kind with
      | none => rfl
      | some a => exact run_bind (run_advance here other)
    have ran' : Parser.take? meaning (s.cursor words stop) =
        (meaning t.kind).elim (.ok .none (s.cursor words stop))
          fun a => .ok (.some (a, t)) (s.next.cursor words stop) := by
      simp only [Parser.take?, ahead]
      cases meaning t.kind <;> rfl
    cases meant : meaning t.kind with
    | none =>
      exact .bind_still (by rw [ran, meant]; rfl) (by rw [ran', meant]; rfl)
        (none s loops inside room)
    | some a =>
      exact .bind_next within (by rw [ran, meant]; rfl) (by rw [ran', meant]; rfl)
        (some a t s.next loops within (room_next within room))

theorem accept {g : Bool → Reader β} {f : Bool → Parser β} (ended : Ended words stop)
    (yes : Tracks words stop k n (rank + 32) (m - 1) (g true) (f true))
    (no : Tracks words stop k n rank m (g false) (f false)) :
    Tracks words stop k n rank m (Indexed.accept (words ++ [stop]) kind >>= g)
      (Parser.accept kind >>= f) := by
  intro s loops inside room
  cases ended.holds inside with
  | last _ ahead here =>
    refine .bind_still ?_ ?_ (no s loops inside room)
    · exact run_bind (run_isNext_last ended kind here)
    · simp only [Parser.accept, ahead]
  | word t within ahead here other =>
    have ran := run_bind (g := fun found => if found = true then (do
      let _ ← advance (words ++ [stop])
      return true) else return false) (run_isNext kind here other)
    by_cases same : t.kind = kind
    · refine .bind_next within (ran.trans ?_) ?_ (yes s.next loops within (room_next within room))
      · rw [beq_iff_eq.mpr same]
        exact run_bind (run_advance here other)
      · simp only [Parser.accept, ahead, same, if_true]
        rfl
    · refine .bind_still (ran.trans ?_) ?_ (no s loops inside room)
      · rw [beq_eq_false_iff_ne.mpr same]
        rfl
      · simp only [Parser.accept, ahead, same, if_false]

theorem reference {name : Name} :
    Tracks words stop k n rank 0 (Indexed.reference name) (Parser.reference name) :=
  fun s _ inside _ => .ok (⟨s.nextId, name⟩ : Reference) { s with nextId := s.nextId + 1 }
    (.quiet (Nat.le_refl _) inside rfl rfl rfl) (Nat.le_refl _)

theorem copy {e : Expr} :
    Tracks words stop k n rank 0 (Indexed.copy e) (Parser.copy e) :=
  fun s _ inside _ => .ok (e.renumber s.nextId).1 { s with nextId := (e.renumber s.nextId).2 }
    (.quiet (Nat.le_refl _) inside rfl rfl rfl) (Nat.le_refl _)

theorem note {place : Place} {fault : SyntaxFault}
    (kept : (Diagnostic.syntactic place fault).unwinding? = none) :
    Tracks words stop k n rank 0 (Indexed.note place fault) (Parser.note place fault) :=
  fun s _ inside _ => .ok () { s with faults := s.faults ++ [.syntactic place fault] }
    (.quiet (Nat.le_refl _) inside rfl rfl (by simp [kept])) (Nat.le_refl _)

theorem noteHere {fault : SyntaxFault} (ended : Ended words stop)
    (kept : ∀ place, (Diagnostic.syntactic place fault).unwinding? = none) :
    Tracks words stop k n rank 0 (Indexed.noteHere (words ++ [stop]) fault)
      (Parser.noteHere fault) := by
  intro s loops inside room
  obtain ⟨t, here, place⟩ := ended.place_cursor inside
  unfold Indexed.noteHere Parser.noteHere
  rw [run_bind (run_peek here), place]
  exact note (kept t.place) s loops inside room

end Tracks

-- Recovery.

theorem Later.trans {i j l : Nat} (first : Later words i j) (second : Later words j l) :
    Later words i l := by
  unfold Later at *
  omega

theorem run_skip (ended : Ended words stop) {n : Nat} {before : Token}
    (inside : s.current ≤ words.length) (room : words.length - s.current < n)
    (read : (words ++ [stop])[s.current - 1]? = some before) :
    ∃ j, skip (words ++ [stop]) n s = .ok () { s with current := j } ∧ s.current ≤ j ∧
      j ≤ words.length ∧ (State.cursor words stop { s with current := j }).rest =
        Parser.resume before (s.cursor words stop).rest := by
  induction n generalizing s before with
  | zero => omega
  | succ n ih =>
    unfold skip
    cases ended.holds inside with
    | last _ ahead here =>
      refine ⟨s.current, ?_, Nat.le_refl _, inside, ahead.trans (by rw [ahead]; rfl)⟩
      rw [run_bind (run_atEnd here), ended.last]
      rfl
    | word t within ahead here other =>
      rw [run_bind (run_atEnd here), beq_eq_false_iff_ne.mpr other, ahead]
      simp only [Bool.false_eq_true, if_false, Parser.resume]
      rw [run_bind (run_previous read)]
      by_cases boundary : before.kind = .punctuator .semicolon
      · refine ⟨s.current, ?_, Nat.le_refl _, inside, by rw [if_pos (.inl boundary), ← ahead]⟩
        rw [beq_iff_eq.mpr boundary]
        rfl
      rw [beq_eq_false_iff_ne.mpr boundary]
      simp only [Bool.false_eq_true, if_false]
      rw [run_bind (run_peek here)]
      by_cases starts : Parser.startsStatement t.kind = true
      · refine ⟨s.current, ?_, Nat.le_refl _, inside, by rw [if_pos (.inr starts), ← ahead]⟩
        rw [if_pos starts]
        rfl
      rw [if_neg starts, run_bind (run_advance here other), if_neg (by simp [boundary, starts])]
      obtain ⟨j, ran, forward, inside', left⟩ := ih (s := s.next) within
        (by change words.length - (s.current + 1) < n; omega) here
      exact ⟨j, ran, Nat.le_of_succ_le forward, inside', left⟩

theorem run_synchronize (ended : Ended words stop) {n : Nat} (inside : s.current ≤ words.length)
    (room : words.length - s.current < n) :
    ∃ j, synchronize (words ++ [stop]) n s = .ok () { s with current := j } ∧
      Later words s.current j ∧ s.current ≤ j ∧ j ≤ words.length ∧
      (State.cursor words stop { s with current := j }).rest =
        Parser.synchronize (s.cursor words stop).rest := by
  unfold synchronize
  cases ended.holds inside with
  | last isLast ahead here =>
    obtain ⟨t, ran⟩ := run_advance_last ended here
    refine ⟨s.current, ?_, .inr ⟨isLast, isLast⟩, Nat.le_refl _, inside,
      ahead.trans (by rw [ahead]; rfl)⟩
    cases n with
    | zero => omega
    | succ n =>
      rw [run_bind ran]
      unfold skip
      rw [run_bind (run_atEnd here), ended.last]
      rfl
  | word t within ahead here other =>
    rw [run_bind (run_advance here other), ahead]
    obtain ⟨j, ran, forward, inside', left⟩ := run_skip (s := s.next) ended (n := n) within
      (by change words.length - (s.current + 1) < n; omega) here
    exact ⟨j, ran, .inl forward, Nat.le_of_succ_le forward, inside', left⟩

inductive Proceeds (words : List Token) (stop : Token) (s : State) :
    EStateM.Result Stop State α → EStateM.Result Diagnostic Cursor α → Prop
  | ok (a : α) (s' : State) (onward : Onward words stop s s')
      (used : s.current < words.length → s.current < s'.current) :
      Proceeds words stop s (.ok a s') (.ok a (s'.cursor words stop))

theorem Onward.blame {fault : Diagnostic} {t : Token} {j : Nat} (onward : Onward words stop s s')
    (here : (words ++ [stop])[s'.current]? = some t) (place : fault.unwinding? = some t.place)
    (behind : Later words s'.current j) (forward : s'.current ≤ j) (inside : j ≤ words.length) :
    Onward words stop s { s' with
      current := j
      faults := s'.faults ++ [fault]
      blamed := s'.blamed ++ [s'.current] } := by
  obtain ⟨new, split, ordered, before, places⟩ := onward.blamed
  refine ⟨Nat.le_trans onward.forward forward, inside, onward.loops, new ++ [s'.current],
    by simp [split], ?_, fun i mem => ?_, by simp [places, here, place]⟩
  · refine List.pairwise_append.mpr ⟨ordered, List.pairwise_singleton _ _, ?_⟩
    intro i mem i' mem'
    obtain rfl := List.mem_singleton.mp mem'
    exact (before i mem).2
  · rcases List.mem_append.mp mem with mem | mem
    · exact ⟨(before i mem).1, (before i mem).2.trans behind⟩
    · obtain rfl := List.mem_singleton.mp mem
      exact ⟨onward.forward, behind⟩

theorem Proceeds.recovering (ended : Ended words stop) {n : Nat} {q : Reader Stmt} {p : Parser Stmt}
    (room : words.length - s.current < n)
    (h : Ends words stop 1 s (q s) (p (s.cursor words stop))) :
    Proceeds words stop s (Indexed.recovering (words ++ [stop]) n q s)
      (Parser.recovering p (s.cursor words stop)) := by
  unfold Indexed.recovering Parser.recovering
  generalize q s = x at h
  generalize p (s.cursor words stop) = y at h
  cases h with
  | ok a s' onward used => exact .ok (some a) s' onward fun _ => used
  | error what s' onward =>
    have forward := onward.forward
    obtain ⟨t, here, place⟩ := ended.place_cursor onward.inside
    obtain ⟨j, ran, behind, forward', inside, left⟩ :=
      run_synchronize ended (s := { s' with
        faults := s'.faults ++ [.syntactic (s'.cursor words stop).place (.expected what)]
        blamed := s'.blamed ++ [s'.current] }) (n := n) onward.inside
        (by change words.length - s'.current < n; omega)
    change words.drop j = Parser.synchronize (s'.cursor words stop).rest at left
    change Later words s'.current j at behind
    simp only
    rw [run_bind ran, ← left]
    refine .ok none _ (onward.blame here (congrArg some place) behind forward' inside)
      fun within => ?_
    change s.current < j
    unfold Later at behind
    omega

theorem Proceeds.ends {x : EStateM.Result Stop State α} {y : EStateM.Result Diagnostic Cursor α}
    (h : Proceeds words stop s x y) (within : s.current < words.length) :
    Ends words stop 1 s x y := by
  cases h with
  | ok a s' onward used => exact .ok a s' onward (used within)

-- Loops.

namespace Tracks

variable {k n rank least : Nat} {q : Reader α} {p : Parser α}

theorem withLoops {enter : Nat → Nat} {leave : Nat → Nat → Nat}
    (h : Tracks words stop (enter k) n rank least q p) (back : leave k (enter k) = k) :
    Tracks words stop k n rank least (Indexed.withLoops enter leave q) p := by
  rintro s rfl inside room
  have ends := h { s with loops := enter s.loops } rfl inside room
  change Ends words stop least { s with loops := enter s.loops } _ (p (s.cursor words stop)) at ends
  unfold Indexed.withLoops
  generalize q { s with loops := enter s.loops } = x at ends
  generalize p (s.cursor words stop) = y at ends
  cases ends with
  | ok a s' onward used =>
    exact .ok a { s' with loops := leave s.loops s'.loops }
      ⟨onward.forward, onward.inside, (congrArg _ onward.loops).trans back, onward.blamed⟩ used
  | error what s' onward =>
    exact .error what { s' with loops := leave s.loops s'.loops }
      ⟨onward.forward, onward.inside, (congrArg _ onward.loops).trans back, onward.blamed⟩

theorem loopBody (h : Tracks words stop (k + 1) n rank least q p) :
    Tracks words stop k n rank least (Indexed.loopBody q) p :=
  withLoops h (Nat.add_sub_cancel k 1)

theorem outsideLoops (h : Tracks words stop 0 n rank least q p) :
    Tracks words stop k n rank least (Indexed.outsideLoops q) p :=
  withLoops h rfl

end Tracks

end Indexed

end ScopeScript
