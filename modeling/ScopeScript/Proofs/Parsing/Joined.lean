import ScopeScript.Proofs.Parsing.StatementCompleteness
import ScopeScript.Proofs.Parsing.StatementSoundness
import ScopeScript.Proofs.Parsing.Uniformity

set_option autoImplicit false

namespace ScopeScript

theorem Derives.declarations_append {ts us : List Token} {body body' : List Stmt}
    (first : Derives ts (.declarations body)) (second : Derives us (.declarations body')) :
    Derives (ts ++ us) (.declarations (body ++ body')) := by
  induction body generalizing ts with
  | nil =>
    cases first
    exact second
  | cons s rest ih =>
    cases first with
    | moreDeclarations here others =>
      rw [List.append_assoc]
      exact .moreDeclarations here (ih others)

theorem Stmt.AllAccepted.append {inLoop : Bool} {body body' : List Stmt}
    (first : Stmt.AllAccepted inLoop body) (second : Stmt.AllAccepted inLoop body') :
    Stmt.AllAccepted inLoop (body ++ body') := by
  induction body with
  | nil => exact second
  | cons s rest ih =>
    have others := ih ⟨first.arity.2, first.enclosed.2⟩
    exact .cons ⟨first.arity.1, first.enclosed.1⟩ others

theorem Stmt.anonymousAll_append (body body' : List Stmt) :
    Stmt.anonymousAll (body ++ body') = Stmt.anonymousAll body ++ Stmt.anonymousAll body' := by
  simp [Stmt.anonymousAll, Stmt.mapIdsAll_eq_map]

theorem parse_mapLine {g : Nat → Nat} {tokens : List Token} {firstId : Nat} {body : List Stmt}
    (ends : ∃ t ∈ tokens, t.kind = .eof) (read : (parse tokens firstId).result = .ok body) :
    (parse (tokens.map (Token.mapLine g)) firstId).result = .ok (Stmt.mapLinesAll g body) := by
  have moved := parse_moved 0 (g := g) tokens firstId (.inr ends)
  have trees : body.map (Stmt.moved 0 g) = Stmt.mapLinesAll g body := by
    rw [← Parser.moved_all]
    exact Stmt.mapIdsAll_id _
  rw [Nat.add_zero, read] at moved
  rw [moved, ← trees]
  rfl

theorem parse_joined {words tokens : List Token} {stop : Token} {low low' : Nat}
    {body body' : List Stmt} (inner : ∀ t ∈ words, t.kind ≠ .eof) (last : stop.kind = .eof)
    (read : (parse (words ++ [stop]) low).result = .ok body)
    (read' : (parse tokens low').result = .ok body') (firstId : Nat) :
    ∃ whole, (parse (words ++ tokens) firstId).result = .ok whole ∧
      Stmt.anonymousAll whole = Stmt.anonymousAll (body ++ body') := by
  have before (more : List Token) : (words ++ more).takeWhile (fun t => t.kind != .eof) =
      words ++ more.takeWhile (fun t => t.kind != .eof) :=
    List.takeWhile_append_of_pos (by simpa using inner)
  obtain ⟨derived, accepted⟩ := derives_of_parse read
  obtain ⟨derived', accepted'⟩ := derives_of_parse read'
  rw [before, List.takeWhile_cons_of_neg (by simp [last]), List.append_nil] at derived
  refine parse_of_derives firstId ?_ (accepted.append accepted')
  rw [before]
  exact derived.declarations_append derived'

end ScopeScript
