import ScopeScript.Proofs.Sessions.Lifetime

set_option autoImplicit false

namespace ScopeScript

theorem Reads.occurrence {p : Point} {r : Reference} {use : Use} {S : Setting} {v : View}
    (reads : Reads p r use) (fits : p.Fits S v) :
    ∃ fresh, S.known ⟨r, use, v.frames, fresh⟩ ∧
      Mirrors S p.machine.store p.machine.environment.chain v.frames := by
  cases reads with
  | read | self | super => exact ⟨_, fits.2.2 _ List.mem_cons_self, fits.2.1⟩
  | superclass => exact ⟨_, fits.2.2.1 _ List.mem_cons_self, fits.2.1⟩

theorem Reads.ne_assigned {p : Point} {r : Reference} {use : Use} (reads : Reads p r use) :
    use ≠ .assigned := by
  cases reads <;> simp

/--
When a reference with a recorded distance is read, that many links out of the current environment is
a scope that binds its name. The scope was made for the site of the frame in which the text around
the reference declares the name, and no frame further inside declares it. So the value is found.
-/
theorem resolved_read_binds {h : History} (arises : h.Arises) {p : Point} (visited : h.Visits p)
    {r : Reference} {use : Use} (reads : Reads p r use) {distance : Nat}
    (resolved : p.machine.resolution[r.id]? = some distance) :
    ∃ o frame address value,
      h.Knows o ∧ o.reference = r ∧ o.use = use ∧ (∀ word ∈ use.keyword?, r.name.text = word) ∧
      Frame.address? o.frames r.name.text = some distance ∧ o.frames[distance]? = some frame ∧
      p.machine.environment.chain[distance]? = some address ∧
      (p.machine.environment.ancestor distance).innermost = address ∧
      h.Activates address frame.site ∧
      p.machine.store.lookup address r.name.text = some value ∧
      p.machine.store.readAt p.machine.environment distance r.name = .ok value := by
  obtain ⟨S, v, below, -, fits, -⟩ := arises.consistent.fits visited
  obtain ⟨fresh, known, mirrors⟩ := reads.occurrence fits
  obtain ⟨recorded, ready⟩ := fits.1.recorded _ known
  have lexical : Frame.address? v.frames r.name.text = some distance := by
    rw [← resolved, recorded, ready.address?_eq reads.ne_assigned]
    rfl
  obtain ⟨address, frame, value, link, framed, activated, found⟩ :=
    mirrors.bound_of_address? lexical
  have scope := Environment.innermost_ancestor link
  refine ⟨_, frame, address, value, below.known _ known, rfl, rfl, ready.spelled, lexical, framed,
    link, scope, below.activated _ _ activated, found, ?_⟩
  rw [Store.readAt, Store.getAt?, scope, found]

def isOwnRead (resolution : Resolution) : List (List Stmt) → Bool
  | [[.block [.varDecl _ none, .expression (.var r)]]] => resolution[r.id]? == some 0
  | _ => false

theorem accepted_only_block : ∃ name r,
    [.block [.varDecl name none, .expression (.var r)]] ∈ (History.only "{var a;a;}").accepted ∧
    (History.only "{var a;a;}").session.machine.resolution[r.id]? = some 0 := by
  have shape : isOwnRead (History.only "{var a;a;}").session.machine.resolution
      (History.only "{var a;a;}").accepted = true := by
    decide +kernel
  unfold isOwnRead at shape
  split at shape
  next name r accepted =>
    exact ⟨name, r, accepted ▸ List.mem_cons_self, by simpa using shape⟩
  · cases shape

theorem resolved_read_binds_block : ∃ (h : History) (p : Point) (r : Reference) (value : Value),
    h.Arises ∧ h.Visits p ∧ Reads p r .read ∧ p.machine.resolution[r.id]? = some 0 ∧
      p.machine.store.readAt p.machine.environment 0 r.name = .ok value := by
  obtain ⟨name, r, accepted, recorded⟩ := accepted_only_block
  have arises := (History.arises_only "{var a;a;}").execute 5 accepted
  have start : Reaches ⟨5, .program [.block [.varDecl name none, .expression (.var r)]],
      (History.only "{var a;a;}").session.machine⟩ _ := .refl
  have inside := (start.next .programHead).next (.block rfl)
  have visited := History.visits_execute (((inside.next (.tail rfl)).next .head).next .expression)
  obtain ⟨_, _, _, value, -, -, -, -, -, -, -, -, -, -, found⟩ :=
    resolved_read_binds arises visited .read recorded
  exact ⟨_, _, r, value, arises, visited, .read, recorded, found⟩

end ScopeScript
