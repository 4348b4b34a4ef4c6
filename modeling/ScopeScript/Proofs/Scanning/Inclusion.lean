import ScopeScript.Proofs.Scanning.Layout
import ScopeScript.Proofs.Scanning.Seams

set_option autoImplicit false

namespace ScopeScript

open Lexicon

-- The parts of a text have its pieces.

theorem Aligned.pieces_eq {segs : List Segment} {ps : List Piece} (h : Aligned segs ps) :
    ∀ {cs : List Char}, Cut cs ps → ps = segs.flatMap fun part => pieces part.text := by
  induction h with
  | nil => exact fun _ => rfl
  | verbatim _ _ ih =>
    intro cs cut
    obtain ⟨first, others⟩ := cut.split
    rw [List.flatMap_cons, ← ih others, Segment.text, cut_iff.mp first]
  | @directive head target ps segs qs _ text _ ih =>
    intro cs cut
    obtain ⟨first, others⟩ := cut.split
    have whole : (Segment.directive head target).text =
        (Piece.importWord :: ps).flatMap Piece.text := by
      rw [text, List.flatMap_cons]
      rfl
    rw [List.flatMap_cons, ← ih others, whole, cut_iff.mp first]

theorem pieces_layout (cs : List Char) :
    pieces cs = (layout cs).flatMap fun part => pieces part.text :=
  (aligned cs).pieces_eq (cut_iff.mpr rfl)

theorem terminated_of_mem_layout {cs : List Char} (terminated : Terminated cs) {part : Segment}
    (mem : part ∈ layout cs) : Terminated part.text := by
  intro text unclosed
  refine terminated text ?_
  rw [pieces_layout]
  exact List.mem_flatMap.mpr ⟨part, mem, unclosed⟩

-- Words.

def Token.word (t : Token) : Kind × String := (t.kind, t.lexeme)

def Piece.word? : Piece → Option (Kind × String)
  | .lexeme kind text => some (kind, String.ofList text)
  | .blank _ | .comment _ | .unexpected _ | .unclosed _ => none

def words (cs : List Char) : List (Kind × String) := (pieces cs).filterMap Piece.word?

theorem map_word_itemsOf (line : Nat) (ps : List Piece) :
    (scannedTokens (itemsOf line ps)).map Token.word = ps.filterMap Piece.word? := by
  induction ps generalizing line with
  | nil => rfl
  | cons p rest ih =>
    have others := ih (line + lineBreaks p.text)
    cases p with
    | lexeme kind text => exact congrArg ((kind, String.ofList text) :: ·) others
    | _ => exact others

theorem map_word_scan (source : String) :
    (scannedTokens (scan source)).map Token.word = words source.toList ++ [(.eof, "")] := by
  rw [scannedTokens_scan, List.map_append, wordsOf, map_word_itemsOf]
  rfl

theorem words_layout (cs : List Char) :
    words cs = (layout cs).flatMap fun part => words part.text := by
  unfold words
  conv_lhs => rw [pieces_layout]
  rw [List.filterMap_flatMap]

theorem words_flatten {runs : List (List Char)} (terminated : ∀ run ∈ runs, Terminated run)
    (apart : Apart runs) : words runs.flatten = runs.flatMap words := by
  unfold words
  rw [pieces_flatten terminated apart, List.filterMap_flatMap]

-- Inclusion.

def Segment.path? : Segment → Option String
  | .directive _ (.file path _) => some (String.ofList path)
  | .directive _ _ | .verbatim _ => none

namespace Library

variable (library : Library)

/-- The runs that the parts of a text are replaced by: kept text by itself, and a directive by what
the named text is made of, or by nothing if its path was imported before. -/
inductive Includes : List String → List Segment → List (List Char) → List String → Prop
  | nil {seen} : Includes seen [] [] seen
  | kept {seen text parts runs seen'} :
    Includes seen parts runs seen' →
      Includes seen (.verbatim text :: parts) (text :: runs) seen'
  | repeated {seen head path tail parts runs seen'} :
    String.ofList path ∈ seen → Includes seen parts runs seen' →
      Includes seen (.directive head (.file path tail) :: parts) runs seen'
  | loaded {seen head path tail text inner between parts runs seen'} :
    String.ofList path ∉ seen → library.load (String.ofList path) = .ok text →
      Includes (seen ++ [String.ofList path]) (layout text.toList) inner between →
        Includes between parts runs seen' →
          Includes seen (.directive head (.file path tail) :: parts) (inner ++ runs) seen'

variable {library}

theorem Includes.seen_subset {seen seen' : List String} {parts : List Segment}
    {runs : List (List Char)} (h : library.Includes seen parts runs seen') : seen ⊆ seen' := by
  induction h with
  | nil => exact List.Subset.refl _
  | kept _ ih | repeated _ _ ih => exact ih
  | loaded _ _ _ _ inside rest =>
    exact List.Subset.trans (List.subset_append_left _ _) (List.Subset.trans inside rest)

theorem Includes.prepend {seen seen' : List String} {parts : List Segment}
    {runs : List (List Char)} (h : library.Includes seen parts runs seen') (text : List Char) :
    ∃ runs', library.Includes seen (Segment.prepend text parts) runs' seen' ∧
      runs'.flatten = text ++ runs.flatten := by
  cases h with
  | nil => exact ⟨[text], .kept .nil, by simp⟩
  | @kept _ more _ runs _ rest => exact ⟨(text ++ more) :: runs, .kept rest, by simp⟩
  | repeated old rest => exact ⟨text :: runs, .kept (.repeated old rest), rfl⟩
  | loaded new load inside rest => exact ⟨text :: _, .kept (.loaded new load inside rest), rfl⟩

theorem Includes.terminated {seen seen' : List String} {parts : List Segment}
    {runs : List (List Char)} (h : library.Includes seen parts runs seen')
    (terminated : ∀ part ∈ parts, Terminated part.text)
    (files : ∀ path ∈ seen', ∀ text, library.load path = .ok text → Terminated text.toList) :
    ∀ run ∈ runs, Terminated run := by
  induction h with
  | nil => simp
  | kept _ ih =>
    obtain ⟨first, others⟩ := List.forall_mem_cons.mp terminated
    exact List.forall_mem_cons.mpr ⟨first, ih others files⟩
  | repeated _ _ ih => exact ih (List.forall_mem_cons.mp terminated).2 files
  | @loaded seen head path tail text inner between parts runs seen' _ load inside rest ihi ihr =>
    have later := rest.seen_subset
    have named : String.ofList path ∈ seen' :=
      later (inside.seen_subset (List.mem_append_right _ List.mem_cons_self))
    intro run mem
    rcases List.mem_append.mp mem with mem | mem
    · exact ihi (fun part => terminated_of_mem_layout (files _ named _ load))
        (fun path mem => files path (later mem)) run mem
    · exact ihr (List.forall_mem_cons.mp terminated).2 files run mem

variable (library)

structure Yields (parts : List Segment) (s : ImportState) (result : List Char × ImportState) :
    Prop where
  grows : s.seen ⊆ result.2.seen
  tracks : s.seen = s.loads → result.2.seen = result.2.loads
  clean : result.2.faults = [] → s.faults = []
  includes : result.2.faults = [] →
    ∃ runs, library.Includes s.seen parts runs result.2.seen ∧ result.1 = runs.flatten

variable {library}

theorem Yields.nil (s : ImportState) : library.Yields [] s ([], s) :=
  ⟨List.Subset.refl _, id, id, fun _ => ⟨[], .nil, rfl⟩⟩

theorem Yields.prepend {parts : List Segment} {s : ImportState} {result : List Char × ImportState}
    (h : library.Yields parts s result) (text : List Char) :
    library.Yields (Segment.prepend text parts) s (text ++ result.1, result.2) := by
  refine ⟨h.grows, h.tracks, h.clean, fun clean => ?_⟩
  obtain ⟨runs, includes, whole⟩ := h.includes clean
  obtain ⟨runs', includes', whole'⟩ := includes.prepend text
  exact ⟨runs', includes', by rw [whole', whole]⟩

theorem Yields.of_fault {parts parts' : List Segment} {s s₁ : ImportState}
    {result : List Char × ImportState} (h : library.Yields parts s₁ result)
    (grows : s.seen ⊆ s₁.seen) (tracks : s.seen = s.loads → s₁.seen = s₁.loads)
    (faulty : s₁.faults ≠ []) (text : List Char) : library.Yields parts' s (text, result.2) :=
  ⟨List.Subset.trans grows h.grows, fun same => h.tracks (tracks same),
    fun clean => absurd (h.clean clean) faulty, fun clean => absurd (h.clean clean) faulty⟩

theorem note_faults_ne_nil (s : ImportState) (line : Nat) (fault : ImportFault) :
    (s.note line fault).faults ≠ [] := by
  simp [ImportState.note]

theorem Yields.directive {expand : Expander} {head : List Char} {target : ImportTarget}
    {parts : List Segment} {s : ImportState} {line : Nat} {result : List Char × ImportState}
    (deep : ∀ path ∈ (Segment.directive head target).path?, path ∉ s.seen →
      ∀ text, library.load path = .ok text →
        ∀ s' : ImportState, s.seen ⊆ s'.seen → path ∈ s'.seen →
          library.Yields (layout text.toList) s' (expand text.toList s'))
    (h : library.Yields parts (library.splice expand line head target s).2 result) :
    library.Yields (.directive head target :: parts) s
      ((library.splice expand line head target s).1 ++ result.1, result.2) := by
  cases target with
  | missing | unclosed =>
    exact h.of_fault (List.Subset.refl s.seen) id (note_faults_ne_nil s _ _) _
  | file path tail =>
    unfold splice fetch at h ⊢
    by_cases old : String.ofList path ∈ s.seen
    · simp only [if_pos old] at h ⊢
      refine ⟨h.grows, h.tracks, h.clean, fun clean => ?_⟩
      obtain ⟨runs, includes, whole⟩ := h.includes clean
      exact ⟨runs, .repeated old includes, whole⟩
    simp only [if_neg old] at h ⊢
    have grows : s.seen ⊆ s.seen ++ [String.ofList path] := List.subset_append_left _ _
    have tracks : s.seen = s.loads →
        s.seen ++ [String.ofList path] = s.loads ++ [String.ofList path] := fun same => by rw [same]
    cases load : library.load (String.ofList path) with
    | error reason =>
      rw [load] at h
      exact h.of_fault grows tracks (note_faults_ne_nil _ _ _) _
    | ok text =>
      rw [load] at h
      have inside := deep _ rfl old text load ⟨_, s.loads ++ [String.ofList path], s.faults⟩ grows
        (List.mem_append_right _ List.mem_cons_self)
      refine ⟨List.Subset.trans grows (List.Subset.trans inside.grows h.grows),
        fun same => h.tracks (inside.tracks (tracks same)),
        fun clean => inside.clean (h.clean clean), fun clean => ?_⟩
      obtain ⟨inner, includes, whole⟩ := inside.includes (h.clean clean)
      obtain ⟨runs, includes', whole'⟩ := h.includes clean
      refine ⟨inner ++ runs, .loaded old load includes includes', ?_⟩
      rw [List.flatten_append, ← whole, ← whole']

theorem yields_spliceAll {expand : Expander} {segs : List Segment} (line : Nat) {s : ImportState}
    (deep : ∀ path ∈ segs.filterMap Segment.path?, path ∉ s.seen →
      ∀ text, library.load path = .ok text →
        ∀ s' : ImportState, s.seen ⊆ s'.seen → path ∈ s'.seen →
          library.Yields (layout text.toList) s' (expand text.toList s')) :
    library.Yields (Segment.merge segs) s (library.spliceAll expand line segs s) := by
  induction segs generalizing line s with
  | nil => exact .nil s
  | cons segment rest ih =>
    cases segment with
    | verbatim text => exact (ih (line + lineBreaks text) deep).prepend text
    | directive head target =>
      have first := fun path named =>
        deep path (List.mem_filterMap.mpr
          ⟨Segment.directive head target, List.mem_cons_self, named⟩)
      have grows : s.seen ⊆ (library.splice expand line head target s).2.seen :=
        (Yields.directive first (.nil _)).grows
      refine Yields.directive first (ih _ fun path named new text load s' later => ?_)
      obtain ⟨segment, mem, found⟩ := List.mem_filterMap.mp named
      exact deep path (List.mem_filterMap.mpr ⟨segment, List.mem_cons_of_mem _ mem, found⟩)
        (fun old => new (grows old)) text load s' (List.Subset.trans grows later)

-- Depth.

variable (library)

def unseen (seen : List String) : Finset String :=
  ((library.texts.flatMap fun text => segments text.toList).filterMap Segment.path?).toFinset \
    seen.toFinset

theorem card_unseen_le (seen : List String) :
    (library.unseen seen).card ≤ library.directiveCount := by
  refine (Finset.card_le_card Finset.sdiff_subset).trans ((List.toFinset_card_le _).trans ?_)
  rw [List.length_filterMap_eq_countP]
  refine List.countP_mono_left fun segment _ named => ?_
  cases segment with
  | verbatim => cases named
  | directive => rfl

variable {library}

theorem card_unseen_lt {seen seen' : List String} {path text : String} (mem : text ∈ library.texts)
    (named : path ∈ (segments text.toList).filterMap Segment.path?) (new : path ∉ seen)
    (grows : seen ⊆ seen') (old : path ∈ seen') :
    (library.unseen seen').card < (library.unseen seen).card := by
  refine Finset.card_lt_card ⟨fun other mem' => ?_, fun back => ?_⟩
  · obtain ⟨found, new'⟩ := Finset.mem_sdiff.mp mem'
    refine Finset.mem_sdiff.mpr ⟨found, fun seen_it => new' ?_⟩
    exact List.mem_toFinset.mpr (grows (List.mem_toFinset.mp seen_it))
  · have here : path ∈ library.unseen seen := by
      refine Finset.mem_sdiff.mpr ⟨List.mem_toFinset.mpr ?_, fun seen_it => ?_⟩
      · obtain ⟨segment, inside, found⟩ := List.mem_filterMap.mp named
        exact List.mem_filterMap.mpr ⟨segment, List.mem_flatMap.mpr ⟨text, mem, inside⟩, found⟩
      · exact new (List.mem_toFinset.mp seen_it)
    exact (Finset.mem_sdiff.mp (back here)).2 (List.mem_toFinset.mpr old)

theorem depth_induction {motive : Nat → List Char → ImportState → Prop}
    (step : ∀ (depth : Nat) (cs : List Char) (s : ImportState),
      (∀ path ∈ (segments cs).filterMap Segment.path?, path ∉ s.seen →
        ∀ text, library.load path = .ok text →
          ∀ s' : ImportState, s.seen ⊆ s'.seen → path ∈ s'.seen → motive depth text.toList s') →
      motive (depth + 1) cs s)
    {depth : Nat} (enough : library.depth ≤ depth) (cs : List Char) (s : ImportState) :
    motive depth cs s := by
  -- Each text inside of another one takes a path that was not imported before.
  have inner {room : Nat} : ∀ {depth : Nat} {text : String} {s : ImportState},
      text ∈ library.texts → (library.unseen s.seen).card ≤ room → room < depth →
        motive depth text.toList s := by
    induction room with
    | zero =>
      intro depth text s mem few enough
      obtain ⟨depth, rfl⟩ := Nat.exists_eq_succ_of_ne_zero (Nat.ne_of_gt enough)
      refine step _ _ s fun path named new text' load s' grows old => ?_
      have fewer := card_unseen_lt mem named new grows old
      omega
    | succ room ih =>
      intro depth text s mem few enough
      obtain ⟨depth, rfl⟩ := Nat.exists_eq_succ_of_ne_zero (Nat.ne_of_gt (Nat.zero_lt_of_lt enough))
      refine step _ _ s fun path named new text' load s' grows old => ?_
      have fewer := card_unseen_lt mem named new grows old
      exact ih (library.load_mem load) (by omega) (by omega)
  unfold Library.depth at enough
  obtain ⟨depth, rfl⟩ := Nat.exists_eq_add_of_le enough
  rw [show library.directiveCount + 2 + depth = library.directiveCount + 1 + depth + 1 by omega]
  refine step _ cs s fun path named new text load s' grows old => ?_
  exact inner (library.load_mem load) (library.card_unseen_le s'.seen) (by omega)

theorem expand_induction {motive : List Char → ImportState → List Char × ImportState → Prop}
    (step : ∀ (expand : Expander) (cs : List Char) (s : ImportState),
      (∀ path ∈ (segments cs).filterMap Segment.path?, path ∉ s.seen →
        ∀ text, library.load path = .ok text →
          ∀ s' : ImportState, s.seen ⊆ s'.seen → path ∈ s'.seen →
            motive text.toList s' (expand text.toList s')) →
      motive cs s (library.spliceAll expand 1 (segments cs) s))
    {depth : Nat} (enough : library.depth ≤ depth) (cs : List Char) (s : ImportState) :
    motive cs s (library.expand depth cs s) :=
  depth_induction (motive := fun depth cs s => motive cs s (library.expand depth cs s))
    (fun depth => step (library.expand depth)) enough cs s

-- No path is forgotten.

theorem seen_subset_splice {expand : Expander} (grows : ∀ cs s, s.seen ⊆ (expand cs s).2.seen)
    (line : Nat) (head : List Char) (target : ImportTarget) (s : ImportState) :
    s.seen ⊆ (library.splice expand line head target s).2.seen := by
  cases target with
  | missing | unclosed => exact List.Subset.refl _
  | file path tail =>
    have more : s.seen ⊆ s.seen ++ [String.ofList path] := List.subset_append_left _ _
    unfold splice fetch
    dsimp only
    split
    · exact List.Subset.refl _
    split
    · exact List.Subset.trans more (grows _ ⟨_, s.loads ++ [String.ofList path], s.faults⟩)
    · exact more

theorem seen_subset_expand (depth : Nat) (cs : List Char) (s : ImportState) :
    s.seen ⊆ (library.expand depth cs s).2.seen := by
  induction depth generalizing cs s with
  | zero => exact List.Subset.refl _
  | succ depth ih =>
    rw [expand]
    generalize 1 = line
    induction segments cs generalizing line s with
    | nil => exact List.Subset.refl _
    | cons segment rest ih' =>
      cases segment with
      | verbatim text => exact ih' s _
      | directive head target =>
        exact List.Subset.trans (seen_subset_splice ih line head target s) (ih' _ _)

theorem yields_process (library : Library) (seen : List String) (source : String) :
    library.Yields (layout source.toList) ⟨seen, [], []⟩
      (library.expand library.depth source.toList ⟨seen, [], []⟩) :=
  expand_induction (motive := fun cs s result => library.Yields (layout cs) s result)
    (fun _ _ _ deep => yields_spliceAll 1 deep) (Nat.le_refl _) _ _

end Library

theorem terminated_of_clean {source : String} (clean : scanFaults (scan source) = []) :
    Terminated source.toList :=
  fun text => unclosed_notMem clean text

/-- The tokens of a text with its imports replaced are those of the source, with the tokens of the
named text in place of those of a directive, or none if the path was imported before. This holds
where no token and no comment that begins before the place of a directive goes on behind it. -/
theorem Library.process_words {library : Library} {source text : String}
    (ok : (library.process [] source).result = .ok text) (clean : scanFaults (scan source) = [])
    (cleanFiles : ∀ path ∈ (library.process [] source).loads, ∀ file,
      library.load path = .ok file → scanFaults (scan file) = []) :
    (scannedTokens (scan source)).map Token.word =
        ((layout source.toList).flatMap fun part => words part.text) ++ [(.eof, "")] ∧
      ∃ runs, library.Includes [] (layout source.toList) runs (library.process [] source).loads ∧
        text.toList = runs.flatten ∧
        (Apart runs ↔ pieces text.toList = runs.flatMap pieces) ∧
        (Apart runs →
          (scannedTokens (scan text)).map Token.word = runs.flatMap words ++ [(.eof, "")]) := by
  have yields := yields_process library [] source
  unfold process at ok cleanFiles ⊢
  dsimp only at ok cleanFiles ⊢
  generalize library.expand library.depth source.toList ⟨[], [], []⟩ = result at *
  split at ok
  next none =>
    have no_fault : result.2.faults = [] := List.isEmpty_iff.mp none
    obtain ⟨runs, includes, whole⟩ := yields.includes no_fault
    obtain rfl := Except.ok.inj ok
    rw [yields.tracks rfl] at includes
    have terminated := includes.terminated
      (fun part => terminated_of_mem_layout (terminated_of_clean clean))
      fun path mem file load => terminated_of_clean (cleanFiles path mem file load)
    rw [map_word_scan, words_layout]
    refine ⟨rfl, runs, includes, by rw [String.toList_ofList, whole], ?_, fun apart => ?_⟩
    · rw [String.toList_ofList, whole, pieces_flatten_iff terminated]
    · rw [map_word_scan, String.toList_ofList, whole, words_flatten terminated apart]
  next => cases ok

theorem Library.clean_of_loads {library : Library} {loads : List String} {path text : String}
    (only : loads = [path]) (load : library.load path = .ok text)
    (clean : scanFaults (scan text) = []) :
    ∀ path ∈ loads, ∀ file, library.load path = .ok file → scanFaults (scan file) = [] := by
  subst only
  intro path' mem file found
  obtain rfl := List.mem_singleton.mp mem
  obtain rfl := Except.ok.inj (load.symm.trans found)
  exact clean

def noteLibrary : Library := .ofFiles [("a", "// note")] "no such file"

theorem Library.process_words_swallowed :
    (noteLibrary.process [] "import \"a\"; print 1;").result = .ok "// note print 1;" ∧
      scanFaults (scan "import \"a\"; print 1;") = [] ∧
      (∀ path ∈ (noteLibrary.process [] "import \"a\"; print 1;").loads, ∀ file,
        noteLibrary.load path = .ok file → scanFaults (scan file) = []) ∧
      noteLibrary.Includes [] (layout "import \"a\"; print 1;".toList)
        ["// note".toList, " print 1;".toList] ["a"] ∧
      (scannedTokens (scan "// note print 1;")).map Token.word ≠
        ["// note".toList, " print 1;".toList].flatMap words ++ [(.eof, "")] := by
  have parts : layout "import \"a\"; print 1;".toList =
      [.directive "import ".toList (.file ['a'] [';']), .verbatim " print 1;".toList] := by
    decide +kernel
  have note : layout "// note".toList = [.verbatim "// note".toList] := by decide +kernel
  have load : noteLibrary.load "a" = .ok "// note" := by decide +kernel
  have loads : (noteLibrary.process [] "import \"a\"; print 1;").loads = ["a"] := by
    decide +kernel
  refine ⟨by decide +kernel, by decide +kernel, clean_of_loads loads load (by decide +kernel), ?_,
    by decide +kernel⟩
  rw [parts]
  have inside : noteLibrary.Includes ["a"] (layout "// note".toList) ["// note".toList] ["a"] := by
    rw [note]
    exact .kept .nil
  exact .loaded List.not_mem_nil load inside (.kept .nil)

def variableLibrary : Library := .ofFiles [("a", "var x;")] "no such file"

theorem Library.process_words_declaration :
    (variableLibrary.process [] "import \"a\"; print x; import \"a\"").result =
        .ok "var x; print x; " ∧
      (scannedTokens (scan "var x; print x; ")).map Token.word =
        words "var x;".toList ++ words " print x; ".toList ++ [(.eof, "")] := by
  have ok : (variableLibrary.process [] "import \"a\"; print x; import \"a\"").result =
      .ok "var x; print x; " := by decide +kernel
  have load : variableLibrary.load "a" = .ok "var x;" := by decide +kernel
  have loads : (variableLibrary.process [] "import \"a\"; print x; import \"a\"").loads =
    ["a"] := by
    decide +kernel
  have files := clean_of_loads loads load (by decide +kernel)
  have parts : layout "import \"a\"; print x; import \"a\"".toList =
      [.directive "import ".toList (.file ['a'] [';']), .verbatim " print x; ".toList,
        .directive "import ".toList (.file ['a'] [])] := by decide +kernel
  have declaration : layout "var x;".toList = [.verbatim "var x;".toList] := by decide +kernel
  obtain ⟨-, runs, includes, -, same, tokens⟩ := process_words ok (by decide +kernel) files
  rw [parts, loads] at includes
  have runs_eq : runs = ["var x;".toList, " print x; ".toList] := by
    cases includes with
    | repeated old => cases old
    | loaded _ found inside rest =>
      obtain rfl := Except.ok.inj (load.symm.trans found)
      rw [declaration] at inside
      cases inside with
      | kept inside =>
      cases inside
      cases rest with
      | kept rest =>
      cases rest with
      | repeated _ rest =>
        cases rest
        rfl
      | loaded new => exact absurd List.mem_cons_self new
  subst runs_eq
  refine ⟨ok, ?_⟩
  rw [tokens (same.mpr (by decide +kernel))]
  simp

end ScopeScript
