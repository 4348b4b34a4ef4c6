import ScopeScript.Proofs.Importing.Unfolding

set_option autoImplicit false

namespace ScopeScript

open Replacement

/-- What an expansion gives back is what it has put in place. -/
structure Expansion.Shows (e : Expansion) (rs : List Replacement) : Prop where
  loads : e.loads = Replacement.loads rs
  result : e.result =
    if (faults rs).isEmpty then .ok (String.ofList (textAll rs)) else .error (faults rs)

theorem Expansion.Shows.result_of_mem {e : Expansion} {rs : List Replacement} {fault : Diagnostic}
    (h : e.Shows rs) (mem : fault ∈ faults rs) : e.result = .error (faults rs) := by
  rw [h.result, if_neg]
  simpa using List.ne_nil_of_mem mem

namespace Library

variable (library : Library)

def processAll : List String → List String → List Expansion
  | _, [] => []
  | seen, source :: rest =>
    library.process seen source :: processAll (library.process seen source).seen rest

inductive UnfoldsAll : List String → List String → List (List Replacement) → List String → Prop
  | nil {seen} : UnfoldsAll seen [] [] seen
  | cons {seen source rs between sources life seen'} :
    library.Unfolds seen 1 (segments source.toList) rs between →
      UnfoldsAll between sources life seen' →
        UnfoldsAll seen (source :: sources) (rs :: life) seen'

/-- The replacement is right for its directive, if these paths were imported before: the text of its
path with the directives in it replaced, but nothing for a path that was imported before. -/
structure Settles (seen : List String) (r : Replacement) : Prop where
  again : ∀ path ∈ r.path?, path ∈ seen → r = .repeated path
  first : ∀ path ∈ r.path?, path ∉ seen → ∀ text, library.load path = .ok text →
    ∃ inside seen', r = .included path inside ∧
      library.Unfolds (seen ++ [path]) 1 (segments text.toList) inside seen'
  failed : ∀ path ∈ r.path?, path ∉ seen → ∀ reason, library.load path = .error reason →
    ∃ line, r = .unreadable path (.importing line (.unreadable path reason))

def SettlesAll : List String → List Replacement → Prop
  | _, [] => True
  | seen, r :: rest => library.Settles seen r ∧ SettlesAll (seen ++ r.load?.toList) rest

variable {library} {seen seen' : List String}

theorem expand_shows (library : Library) (seen : List String) (source : String) :
    ∃ rs, library.Unfolds seen 1 (segments source.toList) rs (library.process seen source).seen ∧
      (library.process seen source).Shows rs ∧
      (library.expand library.depth source.toList ⟨seen, [], []⟩).1 = textAll rs := by
  obtain ⟨rs, unfolds, text, loads, faults⟩ :=
    performs_expand (Nat.le_refl library.depth) source.toList ⟨seen, [], []⟩
  refine ⟨rs, unfolds, ⟨loads, ?_⟩, text⟩
  unfold process
  simp only [text, faults, List.nil_append]

theorem process_shows (library : Library) (seen : List String) (source : String) :
    ∃ rs, library.Unfolds seen 1 (segments source.toList) rs (library.process seen source).seen ∧
      (library.process seen source).Shows rs := by
  obtain ⟨rs, unfolds, shows, -⟩ := library.expand_shows seen source
  exact ⟨rs, unfolds, shows⟩

theorem processAll_shows (library : Library) (sources : List String) : ∀ seen : List String,
    ∃ life seen', library.UnfoldsAll seen sources life seen' ∧
      List.Forall₂ Expansion.Shows (library.processAll seen sources) life := by
  induction sources with
  | nil => exact fun seen => ⟨[], seen, .nil, .nil⟩
  | cons source rest ih =>
    intro seen
    obtain ⟨rs, unfolds, shows⟩ := library.process_shows seen source
    obtain ⟨life, seen', unfoldsAll, showsAll⟩ := ih (library.process seen source).seen
    exact ⟨rs :: life, seen', .cons unfolds unfoldsAll, .cons shows showsAll⟩

theorem UnfoldsAll.unique {sources : List String} {life : List (List Replacement)}
    (h : library.UnfoldsAll seen sources life seen') :
    ∀ {life' : List (List Replacement)} {seen'' : List String},
      library.UnfoldsAll seen sources life' seen'' → life' = life ∧ seen'' = seen' := by
  induction h with
  | nil =>
    intro _ _ other
    cases other
    exact ⟨rfl, rfl⟩
  | cons unfolds _ ih =>
    intro _ _ other
    cases other with
    | cons unfolds' rest =>
    obtain ⟨rfl, rfl⟩ := unfolds.unique unfolds'
    obtain ⟨rfl, rfl⟩ := ih rest
    exact ⟨rfl, rfl⟩

-- The trail of a text, and of all texts.

theorem settles_of_path?_eq_none {r : Replacement} (none : r.path? = none) :
    library.Settles seen r := by
  constructor <;> simp [none]

theorem filterMap_load?_cons (r : Replacement) (trail : List Replacement) :
    (r :: trail).filterMap load? = r.load?.toList ++ trail.filterMap load? := by
  cases r <;> rfl

theorem SettlesAll.append {trail more : List Replacement} (h : library.SettlesAll seen trail)
    (h' : library.SettlesAll (seen ++ trail.filterMap load?) more) :
    library.SettlesAll seen (trail ++ more) := by
  induction trail generalizing seen with
  | nil => simpa using h'
  | cons r rest ih =>
    rw [filterMap_load?_cons, ← List.append_assoc] at h'
    exact ⟨h.1, ih h.2 h'⟩

theorem SettlesAll.front {trail more : List Replacement}
    (h : library.SettlesAll seen (trail ++ more)) : library.SettlesAll seen trail := by
  induction trail generalizing seen with
  | nil => trivial
  | cons r rest ih => exact ⟨h.1, ih h.2⟩

theorem SettlesAll.split {before behind : List Replacement} {r : Replacement}
    (h : library.SettlesAll seen (before ++ r :: behind)) :
    library.Settles (seen ++ before.filterMap load?) r := by
  induction before generalizing seen with
  | nil => simpa using h.1
  | cons first rest ih =>
    rw [filterMap_load?_cons, ← List.append_assoc]
    exact ih h.2

theorem Unfolds.settles {line : Nat} {segs : List Segment} {rs : List Replacement}
    (h : library.Unfolds seen line segs rs seen') : library.SettlesAll seen (trailAll rs) := by
  induction h with
  | nil => trivial
  | kept _ ih | malformed _ _ ih =>
    exact ⟨settles_of_path?_eq_none rfl, by simpa [load?] using ih⟩
  | repeated old _ ih =>
    refine ⟨⟨?_, ?_, ?_⟩, by simpa [load?] using ih⟩
    · rintro _ ⟨⟩ _
      rfl
    · rintro _ ⟨⟩ new
      exact absurd old new
    · rintro _ ⟨⟩ new
      exact absurd old new
  | unreadable new load _ ih =>
    refine ⟨⟨?_, ?_, ?_⟩, ih⟩
    · rintro _ ⟨⟩ old
      exact absurd old new
    · rintro _ ⟨⟩ _ text load'
      cases load.symm.trans load'
    · rintro _ ⟨⟩ _ reason load'
      obtain rfl := Except.error.inj (load.symm.trans load')
      exact ⟨_, rfl⟩
  | @included seen _ _ path _ _ inside _ _ _ _ new load unfolds _ inner ih =>
    have here : library.SettlesAll seen (trail (.included (String.ofList path) inside)) := by
      refine ⟨⟨?_, ?_, ?_⟩, inner⟩
      · rintro _ ⟨⟩ old
        exact absurd old new
      · rintro _ ⟨⟩ _ text load'
        obtain rfl := Except.ok.inj (load.symm.trans load')
        exact ⟨_, _, rfl, unfolds⟩
      · rintro _ ⟨⟩ _ reason load'
        cases load.symm.trans load'
    refine here.append ?_
    rw [unfolds.seen_eq, List.append_assoc] at ih
    exact ih

theorem UnfoldsAll.seen_eq {sources : List String} {life : List (List Replacement)}
    (h : library.UnfoldsAll seen sources life seen') :
    seen' = seen ++ (life.flatMap trailAll).filterMap load? := by
  induction h with
  | nil => simp
  | cons unfolds _ ih =>
    rw [ih, unfolds.seen_eq, List.flatMap_cons, List.filterMap_append, List.append_assoc, loads]

theorem UnfoldsAll.settles {sources : List String} {life : List (List Replacement)}
    (h : library.UnfoldsAll seen sources life seen') :
    library.SettlesAll seen (life.flatMap trailAll) := by
  induction h with
  | nil => trivial
  | cons unfolds _ ih =>
    rw [List.flatMap_cons]
    exact unfolds.settles.append (unfolds.seen_eq ▸ ih)

-- Loads in the order of the trail.

theorem SettlesAll.loads_eq {trail : List Replacement} (h : library.SettlesAll seen trail) :
    trail.filterMap load? = ((trail.filterMap path?).removeAll seen).eraseDups := by
  induction trail generalizing seen with
  | nil => rfl
  | cons r rest ih =>
    obtain ⟨settles, others⟩ := h
    have others := ih others
    rw [filterMap_load?_cons, others]
    cases named : r.path? with
    | none =>
      have quiet : r.load? = none := by cases r <;> first | rfl | cases named
      simp [named, quiet]
    | some path =>
      by_cases old : path ∈ seen
      · obtain rfl := settles.again path named old
        simp [named, load?, List.removeAll, old]
      · have asked : r.load? = some path := by
          cases load : library.load path with
          | ok text =>
            obtain ⟨_, _, rfl, _⟩ := settles.first path named old text load
            rfl
          | error reason =>
            obtain ⟨_, rfl⟩ := settles.failed path named old reason load
            rfl
        have others (name : String) : (!(seen ++ [path]).elem name) =
            (!name == path && !seen.elem name) := by
          simp [Bool.and_comm, beq_eq_decide]
        have kept : (path :: rest.filterMap path?).removeAll seen =
            path :: (rest.filterMap path?).removeAll seen := by
          simp [List.removeAll, old]
        rw [asked, List.filterMap_cons_some named, kept, List.eraseDups_cons, List.removeAll,
          List.removeAll, List.filter_filter]
        exact congrArg (path :: List.eraseDups ·) (List.filter_congr fun name _ => others name)

theorem SettlesAll.loads_eq_eraseDups {trail : List Replacement} (h : library.SettlesAll [] trail) :
    trail.filterMap load? = (trail.filterMap path?).eraseDups := by
  rw [h.loads_eq]
  simp [List.removeAll]

theorem SettlesAll.nodup {trail : List Replacement} (h : library.SettlesAll seen trail) :
    (trail.filterMap load?).Nodup := by
  induction trail generalizing seen with
  | nil => exact List.nodup_nil
  | cons r rest ih =>
    rw [filterMap_load?_cons]
    cases asked : r.load? with
    | none => exact ih h.2
    | some path =>
      change (path :: rest.filterMap load?).Nodup
      refine List.nodup_cons.mpr ⟨fun again => ?_, ih h.2⟩
      rw [h.2.loads_eq, List.mem_eraseDups] at again
      simp [List.removeAll, asked] at again

theorem flatMap_loads {calls : List Expansion} {life : List (List Replacement)}
    (h : List.Forall₂ Expansion.Shows calls life) :
    calls.flatMap Expansion.loads = (life.flatMap trailAll).filterMap load? := by
  induction h with
  | nil => rfl
  | cons shows _ ih =>
    rw [List.flatMap_cons, List.flatMap_cons, List.filterMap_append, ih, shows.loads]
    rfl

/--
Expansion ends, with the same result under any bound from the given one on. The texts given to one
reader of imports have one way to be expanded: a path is loaded at the first directive that names
it, depth first, and never again. The text that it names, with its own directives replaced, stands
there, and nothing does at any later directive.
-/
theorem processAll_loads_once (library : Library) (sources : List String) :
    (∀ depth, library.depth ≤ depth → ∀ cs s,
      library.expand depth cs s = library.expand library.depth cs s) ∧
    ∃ life seen', library.UnfoldsAll [] sources life seen' ∧
      (∀ life' seen'', library.UnfoldsAll [] sources life' seen'' → life' = life) ∧
      List.Forall₂ Expansion.Shows (library.processAll [] sources) life ∧
      ((library.processAll [] sources).flatMap Expansion.loads).Nodup ∧
      (library.processAll [] sources).flatMap Expansion.loads =
        ((life.flatMap trailAll).filterMap path?).eraseDups ∧
      ∀ before r behind, life.flatMap trailAll = before ++ r :: behind →
        library.Settles (before.filterMap path?).eraseDups r := by
  obtain ⟨life, seen', unfolds, shows⟩ := library.processAll_shows sources []
  have settles := unfolds.settles
  refine ⟨fun _ enough cs s => expand_enough enough cs s, life, seen', unfolds,
    fun _ _ other => (unfolds.unique other).1, shows, ?_, ?_, fun before r behind trail => ?_⟩
  · rw [flatMap_loads shows]
    exact settles.nodup
  · rw [flatMap_loads shows, settles.loads_eq_eraseDups]
  · rw [trail] at settles
    rw [← settles.front.loads_eq_eraseDups]
    exact settles.split

-- What is named has been loaded.

theorem importedPaths_eq (text : String) :
    importedPaths text = (segments text.toList).filterMap Segment.path? := by
  refine List.filterMap_congr fun segment _ => ?_
  cases segment with
  | verbatim => rfl
  | directive head target => cases target <;> rfl

theorem path?_of_load? {r : Replacement} {path : String} (asked : r.load? = some path) :
    r.path? = some path := by
  cases r with
  | kept | malformed | repeated => cases asked
  | unreadable | included => exact asked

theorem Settles.of_load? {r : Replacement} {path : String} (h : library.Settles seen r)
    (asked : r.load? = some path) :
    (∃ text inside seen', library.load path = .ok text ∧ r = .included path inside ∧
      library.Unfolds (seen ++ [path]) 1 (segments text.toList) inside seen') ∨
    ∃ reason line, library.load path = .error reason ∧
      r = .unreadable path (.importing line (.unreadable path reason)) := by
  have named := path?_of_load? asked
  have new : path ∉ seen := fun old => by
    rw [h.again path named old] at asked
    cases asked
  cases load : library.load path with
  | ok text =>
    obtain ⟨inside, seen', same, unfolds⟩ := h.first path named new text load
    exact .inl ⟨text, inside, seen', rfl, same, unfolds⟩
  | error reason =>
    obtain ⟨line, same⟩ := h.failed path named new reason load
    exact .inr ⟨reason, line, rfl, same⟩

theorem Unfolds.of_included {line : Nat} {segs : List Segment} {rs inside : List Replacement}
    {path : String} (h : library.Unfolds seen line segs rs seen')
    (mem : .included path inside ∈ trailAll rs) :
    ∃ text before between, library.load path = .ok text ∧
      library.Unfolds before 1 (segments text.toList) inside between := by
  obtain ⟨before, behind, trail⟩ := List.mem_iff_append.mp mem
  have settles := h.settles
  rw [trail] at settles
  rcases settles.split.of_load? rfl with ⟨text, _, _, load, same, unfolds⟩ | ⟨_, _, _, same⟩
  · obtain ⟨-, rfl⟩ := Replacement.included.inj same
    exact ⟨text, _, _, load, unfolds⟩
  · cases same

theorem Unfolds.of_loads {line : Nat} {segs : List Segment} {rs : List Replacement} {path : String}
    (h : library.Unfolds seen line segs rs seen') (asked : path ∈ loads rs) :
    (∃ text, library.load path = .ok text ∧ importedPaths text ⊆ paths rs) ∨
    ∃ reason line, library.load path = .error reason ∧
      .importing line (.unreadable path reason) ∈ faults rs := by
  obtain ⟨r, mem, asked⟩ := List.mem_filterMap.mp asked
  have settles := h.settles
  obtain ⟨before, behind, trail⟩ := List.mem_iff_append.mp mem
  rw [trail] at settles
  rcases settles.split.of_load? asked with
    ⟨text, inside, _, load, rfl, unfolds⟩ | ⟨reason, line, load, rfl⟩
  · refine .inl ⟨text, load, ?_⟩
    rw [importedPaths_eq]
    exact List.Subset.trans unfolds.named (List.filterMap_subset _ (trailAll_subset_all mem))
  · exact .inr ⟨reason, line, load, List.mem_filterMap.mpr ⟨_, mem, rfl⟩⟩

theorem Unfolds.paths_subset {line : Nat} {segs : List Segment} {rs : List Replacement}
    (h : library.Unfolds seen line segs rs seen') : paths rs ⊆ seen ++ loads rs := by
  intro path named
  by_cases old : path ∈ seen
  · exact List.mem_append_left _ old
  · refine List.mem_append_right _ ?_
    rw [loads, h.settles.loads_eq, List.mem_eraseDups]
    exact List.mem_filter.mpr ⟨named, by simpa using old⟩

theorem UnfoldsAll.processAll_concat {sources : List String} {life : List (List Replacement)}
    (h : library.UnfoldsAll seen sources life seen') (source : String) :
    library.processAll seen (sources ++ [source]) =
      library.processAll seen sources ++ [library.process seen' source] := by
  induction h with
  | nil => rfl
  | @cons seen first _ _ _ _ _ unfolds _ ih =>
    obtain ⟨rs, unfolds', -⟩ := library.process_shows seen first
    obtain ⟨-, same⟩ := unfolds.unique unfolds'
    rw [List.cons_append, processAll, processAll, same, ih, List.cons_append]

theorem exists_process_of_mem {sources : List String} {call : Expansion} : ∀ {seen : List String},
    call ∈ library.processAll seen sources → ∃ seen source, call = library.process seen source := by
  induction sources with
  | nil => exact fun mem => nomatch mem
  | cons source rest ih =>
    intro seen mem
    rcases List.mem_cons.mp mem with rfl | mem
    · exact ⟨seen, source, rfl⟩
    · exact ih mem

/--
A text that is expanded without faults has what it names, and what the texts that are loaded for it
name, from the library: it is loaded now, or it was loaded for an earlier text. The only exception
is a path that could not be read for an earlier text, which had that as a fault.
-/
theorem processAll_includes {earlier : List String} {source text : String}
    {before : List Expansion} {e : Expansion}
    (calls : library.processAll [] (earlier ++ [source]) = before ++ [e])
    (ok : e.result = .ok text) :
    (∀ path ∈ e.loads, ∃ file, library.load path = .ok file) ∧
    ∀ path, (path ∈ importedPaths source ∨
        ∃ name ∈ e.loads, ∃ file, library.load name = .ok file ∧ path ∈ importedPaths file) →
      (∃ file, library.load path = .ok file ∧ ∃ call ∈ before ++ [e], path ∈ call.loads) ∨
      ∃ call ∈ before, ∃ faults line reason, path ∈ call.loads ∧
        library.load path = .error reason ∧ call.result = .error faults ∧
        .importing line (.unreadable path reason) ∈ faults := by
  obtain ⟨life, between, unfoldsAll, showsAll⟩ := library.processAll_shows earlier []
  rw [unfoldsAll.processAll_concat source] at calls
  obtain ⟨rfl, same⟩ := List.append_inj' calls rfl
  obtain rfl := List.singleton_inj.mp same
  obtain ⟨rs, unfolds, shows⟩ := library.process_shows between source
  have loaded (path : String) (asked : path ∈ (library.process between source).loads) :
      ∃ file, library.load path = .ok file ∧ importedPaths file ⊆ paths rs := by
    rw [shows.loads] at asked
    rcases unfolds.of_loads asked with found | ⟨_, _, _, faulty⟩
    · exact found
    · cases ok.symm.trans (shows.result_of_mem faulty)
  refine ⟨fun path asked => (loaded path asked).imp fun _ => And.left, fun path named => ?_⟩
  have mem : path ∈ paths rs := by
    rcases named with named | ⟨name, asked, file, load, named⟩
    · rw [importedPaths_eq] at named
      exact unfolds.named named
    · obtain ⟨file', load', inside⟩ := loaded name asked
      obtain rfl := Except.ok.inj (load.symm.trans load')
      exact inside named
  rcases List.mem_append.mp (unfolds.paths_subset mem) with old | new
  · rw [unfoldsAll.seen_eq, List.nil_append, ← flatMap_loads showsAll] at old
    obtain ⟨call, mem, asked⟩ := List.mem_flatMap.mp old
    obtain ⟨seen, source', rfl⟩ := exists_process_of_mem mem
    obtain ⟨rs', unfolds', shows'⟩ := library.process_shows seen source'
    have asked' := asked
    rw [shows'.loads] at asked'
    rcases unfolds'.of_loads asked' with ⟨file, load, -⟩ | ⟨reason, line, load, faulty⟩
    · exact .inl ⟨file, load, _, List.mem_append_left _ mem, asked⟩
    · have reported := shows'.result_of_mem faulty
      exact .inr ⟨_, mem, faults rs', line, reason, asked, load, reported, faulty⟩
  · rw [← shows.loads] at new
    obtain ⟨file, load, -⟩ := loaded path new
    exact .inl ⟨file, load, _, List.mem_append_right _ List.mem_cons_self, new⟩

def nestedLibrary : Library := .ofFiles [("a", "import \"b\";"), ("b", "var b;")] "no such file"

theorem processAll_includes_nested : ∃ before e,
    nestedLibrary.processAll [] (["import \"b\";"] ++ ["import \"a\";"]) = before ++ [e] ∧
      e.result = .ok "" ∧ e.loads = ["a"] ∧
      ∃ file, nestedLibrary.load "b" = .ok file ∧ ∃ call ∈ before ++ [e], "b" ∈ call.loads := by
  have calls : nestedLibrary.processAll [] (["import \"b\";"] ++ ["import \"a\";"]) =
      [nestedLibrary.process [] "import \"b\";"] ++
        [nestedLibrary.process ["b"] "import \"a\";"] := by
    have seen : (nestedLibrary.process [] "import \"b\";").seen = ["b"] := by decide +kernel
    simp [processAll, seen]
  have ok : (nestedLibrary.process ["b"] "import \"a\";").result = .ok "" := by decide +kernel
  have loads : (nestedLibrary.process ["b"] "import \"a\";").loads = ["a"] := by decide +kernel
  have load : nestedLibrary.load "b" = .ok "var b;" := by decide +kernel
  have named : "b" ∈ importedPaths "import \"b\";" := by decide +kernel
  refine ⟨_, _, calls, ok, loads, ?_⟩
  rcases (processAll_includes calls ok).2 "b"
    (.inr ⟨"a", loads ▸ List.mem_cons_self, "import \"b\";", by decide +kernel, named⟩) with
    included | ⟨_, _, _, _, _, _, unreadable, _⟩
  · exact included
  · cases load.symm.trans unreadable

def noLibrary : Library := .ofFiles [] "no such file"

/-- A path that cannot be read counts as imported for the next text, which has no fault then. -/
theorem processAll_unreadable_forgotten :
    noLibrary.load "x" = .error "no such file" ∧ "x" ∈ importedPaths "import \"x\";" ∧
      (noLibrary.processAll [] ["import \"x\";", "import \"x\";"]).map
          (fun e => (e.result, e.loads)) =
        [(.error [.importing 1 (.unreadable "x" "no such file")], ["x"]), (.ok "", [])] := by
  decide +kernel

end Library

end ScopeScript
