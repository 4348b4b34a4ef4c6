import Mathlib.Data.List.Nodup
import ScopeScript.Proofs.Likeness.Joined
import ScopeScript.Proofs.Parsing.Joined
import ScopeScript.Proofs.Scanning.Verbatim
import ScopeScript.Proofs.Sessions.Trails
import ScopeScript.Proofs.Syntax.Renumbering

set_option autoImplicit false

namespace ScopeScript

def Link.shifting (k : Nat) (pairs : Nat → Nat → Prop) (resolution : Resolution) : Link where
  lines line line' := line' = line ∨ line' = line + k
  renames σ := σ = .same
  linked i j d := pairs i j ∧ resolution[i]? = d
  names _ := True

section

variable {k : Nat} {pairs pairs' : Nat → Nat → Prop} {resolution : Resolution}

theorem Link.plain_shifting : (Link.shifting k pairs resolution).Plain := fun _ => id

theorem Link.levels_shifting : (Link.shifting k pairs resolution).Levels (· % k) (· % k) := by
  rintro line line' (rfl | rfl)
  · rfl
  · exact Nat.add_mod_right line k

theorem Link.resolves_shifting (oneToOne : ∀ {i j i' j'}, pairs i j → pairs i' j' →
    (i = i' ↔ j = j'))
    (table : Resolution) : (Link.shifting k pairs resolution).Resolves table :=
  Link.plain_shifting.resolves table (fun linked linked' => oneToOne linked.1 linked'.1)
    ⟨trivial, trivial⟩

theorem Stmt.allAlike_shifting {f g : Nat → Nat} (lines : ∀ line, g line = line ∨ g line = line + k)
    {body : List Stmt} (paired : ∀ i ∈ Stmt.idsAll body, pairs i (f i)) :
    Stmt.AllAlike (.shifting k pairs resolution) [] body
      (Stmt.mapIdsAll f (Stmt.mapLinesAll g body)) :=
  Stmt.allAlike_moved (d := fun i => resolution[i]?) ⟨lines, rfl⟩ body Renaming.plain_nil
    ⟨fun i mem => ⟨paired i mem, rfl⟩, fun _ _ => trivial⟩

theorem Stmt.allAlike_shifting_self {f : Nat → Nat} {body : List Stmt}
    (paired : ∀ i ∈ Stmt.idsAll body, pairs i (f i)) :
    Stmt.AllAlike (.shifting k pairs resolution) [] body (Stmt.mapIdsAll f body) := by
  have alike : Stmt.AllAlike (.shifting k pairs resolution) [] body
      (Stmt.mapIdsAll f (Stmt.mapLinesAll id body)) :=
    Stmt.allAlike_shifting (fun _ => .inl rfl) paired
  rwa [Stmt.mapLinesAll_id] at alike

end

namespace Session

theorem parse_eq_ok_iff {s : Session} {source : String} (plain : ¬MentionsImport source)
    {body : List Stmt} : (s.parse source).1 = .ok body ↔ scanFaults (scan source) = [] ∧
      (ScopeScript.parse (scannedTokens (scan source)) s.nextId).result = .ok body := by
  unfold parse
  rw [s.library.process_verbatim [] plain]
  simp only
  cases (ScopeScript.parse (scannedTokens (scan source)) s.nextId).result with
  | error errors => simp
  | ok statements =>
    by_cases clean : scanFaults (scan source) = [] <;> simp [clean]

theorem parse_joined {s s' : Session} {source more : String} (plain : ¬MentionsImport source)
    (plain' : ¬MentionsImport more) (closed : ¬EndsInComment source) {body body' : List Stmt}
    (read : (s.parse source).1 = .ok body) (read' : (s'.parse more).1 = .ok body') :
    ∃ whole, (s.parse (source ++ "\n" ++ more)).1 = .ok whole ∧
      Stmt.anonymousAll whole = Stmt.anonymousAll
        (body ++ Stmt.mapLinesAll (· + (lineBreaks source.toList + 1)) body') := by
  obtain ⟨clean, read⟩ := (parse_eq_ok_iff plain).mp read
  obtain ⟨clean', read'⟩ := (parse_eq_ok_iff plain').mp read'
  have none : ¬MentionsImport (source ++ "\n" ++ more) := by
    rw [mentionsImport_joined clean closed]
    exact not_or.mpr ⟨plain, plain'⟩
  rw [scannedTokens_scan] at read
  have ends : ∃ t ∈ scannedTokens (scan more), t.kind = .eof := by
    rw [scannedTokens_scan]
    exact ⟨_, List.mem_append_right _ List.mem_cons_self, rfl⟩
  have moved := parse_mapLine (g := (· + (lineBreaks source.toList + 1))) ends read'
  obtain ⟨whole, accepted, same⟩ := ScopeScript.parse_joined
    (fun t mem => kind_ne_eof_of_mem_wordsOf mem) rfl read moved s.nextId
  refine ⟨whole, (parse_eq_ok_iff none).mpr ⟨?_, ?_⟩, same⟩
  · rw [scanFaults_joined clean closed more, clean']
    rfl
  · rwa [scannedTokens_joined clean closed more]

theorem exists_parts {whole body later : List Stmt} (distinct : (Stmt.idsAll body).Nodup)
    (distinct' : (Stmt.idsAll later).Nodup)
    (same : Stmt.anonymousAll whole = Stmt.anonymousAll (body ++ later)) :
    ∃ f f', whole = Stmt.mapIdsAll f body ++ Stmt.mapIdsAll f' later := by
  rw [Stmt.anonymousAll_append, Stmt.anonymousAll, Stmt.mapIdsAll_eq_map,
    List.map_eq_append_iff] at same
  obtain ⟨first, second, rfl, here, there⟩ := same
  rw [← Stmt.mapIdsAll_eq_map] at here there
  obtain ⟨f, rfl⟩ := Stmt.exists_mapIdsAll body first distinct here
  obtain ⟨f', rfl⟩ := Stmt.exists_mapIdsAll later second distinct' there
  exact ⟨f, f', rfl⟩

def pairing (body : List Stmt) (f : Nat → Nat) (i j : Nat) : Prop :=
  i ∈ Stmt.idsAll body ∧ j = f i

theorem pairing_oneToOne {body : List Stmt} {f : Nat → Nat}
    (distinct : ((Stmt.idsAll body).map f).Nodup) {i j i' j' : Nat} (pair : pairing body f i j)
    (pair' : pairing body f i' j') : i = i' ↔ j = j' := by
  obtain ⟨mem, rfl⟩ := pair
  obtain ⟨mem', rfl⟩ := pair'
  exact ⟨congrArg f, List.inj_on_of_nodup_map distinct mem mem'⟩

theorem compile_joined {s s₁ t t₁ : Session} {source more : String} (tidy : s.Tidy)
    (tidy' : t.Tidy) (plain : ¬MentionsImport source) (plain' : ¬MentionsImport more)
    (closed : ¬EndsInComment source) {body body' : List Stmt}
    (accepted : s.compile source = (.ok body, s₁))
    (accepted' : t.compile more = (.ok body', t₁)) :
    let later := Stmt.mapLinesAll (· + (lineBreaks source.toList + 1)) body'
    ∃ whole s' f f', s.compile (source ++ "\n" ++ more) = (.ok whole, s') ∧
      whole = Stmt.mapIdsAll f body ++ Stmt.mapIdsAll f' later ∧
      (∀ i ∈ Stmt.idsAll body,
        s'.machine.resolution[f i]? = s₁.machine.resolution[i]?) ∧
      ∀ i ∈ Stmt.idsAll body',
        s'.machine.resolution[f' i]? = t₁.machine.resolution[i]? := by
  intro later
  obtain ⟨whole, read, same⟩ := parse_joined plain plain' closed (parse_of_compile accepted)
    (parse_of_compile accepted')
  obtain ⟨table, known, resolved, -⟩ := compile_eq_ok accepted
  obtain ⟨table', known', resolved', -⟩ := compile_eq_ok accepted'
  have numbers : Stmt.idsAll later = Stmt.idsAll body' := Stmt.idsAll_mapLinesAll _ body'
  obtain ⟨f, f', rfl⟩ := exists_parts known.fresh.distinct (numbers ▸ known'.fresh.distinct) same
  have fresh := (of_parse_eq_ok read).1
  have distinct := fresh.distinct
  have ids : Stmt.idsAll (Stmt.mapIdsAll f body) = (Stmt.idsAll body).map f :=
    Stmt.idsAll_mapIdsAll f body
  have ids' : Stmt.idsAll (Stmt.mapIdsAll f' later) = (Stmt.idsAll body').map f' := by
    rw [Stmt.idsAll_mapIdsAll, numbers]
  rw [Stmt.idsAll_append, ids, ids'] at distinct
  obtain ⟨here, there, -⟩ := List.nodup_append.mp distinct
  let k := lineBreaks source.toList + 1
  have alike : Stmt.AllAlike (.shifting k (pairing body f) table) [] body (Stmt.mapIdsAll f body) :=
    Stmt.allAlike_shifting_self fun i mem => ⟨mem, rfl⟩
  have alike' : Stmt.AllAlike (.shifting k (pairing body' f') table') [] body'
      (Stmt.mapIdsAll f' later) :=
    Stmt.allAlike_shifting (fun _ => .inr rfl) fun i mem => ⟨mem, rfl⟩
  obtain ⟨found, accepted'', entered, entered'⟩ := resolve_joined
    (Link.resolves_shifting (pairing_oneToOne here) ∅)
    (Link.resolves_shifting (pairing_oneToOne there) ∅) Link.plain_shifting Link.plain_shifting
    alike alike' fresh.distinct
    (fun linked => by rw [ids, linked.1.2]; exact List.mem_map_of_mem linked.1.1)
    (fun linked => by rw [ids', linked.1.2]; exact List.mem_map_of_mem linked.1.1)
    resolved resolved'
  have compiled := compile_of_parse read accepted''
  have recorded := tidy.recorded compiled accepted''
  rw [Stmt.idsAll_append, ids, ids'] at recorded
  refine ⟨_, _, f, f', compiled, rfl, fun i mem => ?_, fun i mem => ?_⟩
  · rw [recorded _ (List.mem_append_left _ (List.mem_map_of_mem mem)),
      tidy.recorded accepted resolved i mem]
    exact entered ⟨⟨mem, rfl⟩, rfl⟩
  · rw [recorded _ (List.mem_append_right _ (List.mem_map_of_mem mem)),
      tidy'.recorded accepted' resolved' i mem]
    exact entered' ⟨⟨mem, rfl⟩, rfl⟩

end Session

end ScopeScript
