import FaultInjection.Marking.Routing

/-!
# Reading a path text

The names that the calls of `mark_fault` look up one after the other, for any text,
and how the row of calls ends.  A text leads along all its components exactly when
each of them is followed by a slash and no line ends between them.
-/

namespace FaultInjection

open Regex Text Heap

namespace Heap

/-- The instance that a row of names leads to, always through the first child of a
name. -/
def childAlong? (heap : Heap) : Nat → List Text → Option Nat
  | ref, [] => some ref
  | ref, name :: names => (heap.childNamed? ref name).bind fun child => heap.childAlong? child names

/-- The instances that a row of names leads through. -/
inductive Spells (heap : Heap) : Nat → List Text → List Nat → Prop where
  | here (ref : Nat) : Spells heap ref [] [ref]
  | down {ref child : Nat} {name : Text} {names : List Text} {nodes : List Nat}
      (found : heap.childNamed? ref name = some child) (spells : Spells heap child names nodes) :
      Spells heap ref (name :: names) (ref :: nodes)

theorem SameLinks.childAlong? {heap heap' : Heap} (same : SameLinks heap heap') (ref : Nat)
    (names : List Text) : heap'.childAlong? ref names = heap.childAlong? ref names := by
  induction names generalizing ref with
  | nil => rfl
  | cons name names ih => simp only [Heap.childAlong?, same.childNamed?, ih]

namespace Spells

variable {heap : Heap} {ref : Nat} {names : List Text} {nodes : List Nat}

theorem length (spells : Spells heap ref names nodes) : nodes.length = names.length + 1 := by
  induction spells with
  | here ref => rfl
  | down _ _ ih => rw [List.length_cons, List.length_cons, ih]

theorem exists_line (spells : Spells heap ref names nodes) :
    ∃ last, Forest.Line heap.childrenOf ref last nodes := by
  induction spells with
  | here ref => exact ⟨ref, .here ref⟩
  | down found _ ih =>
      obtain ⟨last, line⟩ := ih
      exact ⟨last, .down (mem_of_childNamed? found) line⟩

theorem unique (spells : Spells heap ref names nodes) {nodes' : List Nat}
    (spells' : Spells heap ref names nodes') : nodes = nodes' := by
  induction spells generalizing nodes' with
  | here => cases spells'; rfl
  | down found _ ih =>
      cases spells' with
      | down found' spells' =>
          rw [found] at found'
          cases found'
          rw [ih spells']

end Spells

theorem exists_spells_iff {heap : Heap} {ref : Nat} {names : List Text} :
    (∃ nodes, Spells heap ref names nodes) ↔ heap.childAlong? ref names ≠ none := by
  induction names generalizing ref with
  | nil => exact ⟨fun _ => Option.some_ne_none _, fun _ => ⟨_, .here ref⟩⟩
  | cons name names ih =>
      rw [childAlong?]
      cases hchild : heap.childNamed? ref name with
      | none =>
          refine ⟨fun ⟨nodes, spells⟩ => ?_, fun hne => absurd rfl hne⟩
          cases spells with
          | down found _ =>
              rw [hchild] at found
              cases found
      | some child =>
          rw [Option.bind_some, ← ih]
          constructor
          · rintro ⟨nodes, spells⟩
            cases spells with
            | down found spells =>
                rw [hchild] at found
                cases found
                exact ⟨_, spells⟩
          · rintro ⟨nodes, spells⟩
            exact ⟨_, .down hchild spells⟩

end Heap

variable [UnicodeData]

/-! ## What the calls read -/

/-- How a row of calls ends: at a text without a component, at one with a single
component, or where the second expression matches nothing. -/
inductive PathEnd where
  | invalid
  | last
  | broken
  deriving DecidableEq

/-- The names of the children that the calls look for, and how they end. -/
inductive Reads : Text → List Text → PathEnd → Prop where
  | invalid {path : Text} (parts : pathParts path = []) : Reads path [] .invalid
  | last {path part : Text} (parts : pathParts path = [part]) : Reads path [] .last
  | broken {path first second : Text} {others : List Text}
      (parts : pathParts path = first :: second :: others) (rest : pathRemainder? path = none) :
      Reads path [second.drop 1] .broken
  | step {path first second remainder : Text} {others names : List Text} {ending : PathEnd}
      (parts : pathParts path = first :: second :: others)
      (rest : pathRemainder? path = some remainder) (reads : Reads remainder names ending) :
      Reads path (second.drop 1 :: names) ending

omit [UnicodeData] in
theorem restOfLine_cases (text : Text) :
    text = restOfLine text ∨ ∃ more, text = restOfLine text ++ '\n' :: more := by
  have hcut := List.takeWhile_append_dropWhile (p := isPlain) (l := text)
  cases hdrop : text.dropWhile isPlain with
  | nil =>
      rw [hdrop, List.append_nil] at hcut
      exact Or.inl hcut.symm
  | cons c more =>
      have hhead := List.head?_dropWhile_not isPlain text
      rw [hdrop] at hhead
      have hc : c = '\n' := by simpa [isPlain] using hhead
      rw [hdrop, hc] at hcut
      exact Or.inr ⟨more, hcut.symm⟩

theorem pathParts_restOfLine (text : Text) :
    ∃ more, pathParts text = pathParts (restOfLine text) ++ more := by
  rcases restOfLine_cases text with heq | ⟨more, heq⟩
  · exact ⟨[], by rw [← heq, List.append_nil]⟩
  · refine ⟨pathParts more, ?_⟩
    rw [← pathParts_lines, ← heq]

theorem pathRemainder?_shorter {path remainder : Text}
    (hrest : pathRemainder? path = some remainder) :
    (pathParts remainder).length < (pathParts path).length := by
  induction path using component_induction with
  | none path hnone =>
      rw [pathRemainder?_of_not_hasComponent hnone] at hrest
      cases hrest
  | first gap name rest hgap hname hends ih =>
      rw [pathRemainder?_first hgap hname hends] at hrest
      rw [pathParts_first hgap hname hends, List.length_cons]
      split at hrest
      · cases hrest
        obtain ⟨more, hmore⟩ := pathParts_restOfLine rest
        rw [hmore, List.length_append]
        omega
      · exact Nat.lt_succ_of_lt (ih hrest)

theorem length_pathParts_le (path : Text) : (pathParts path).length ≤ path.length := by
  induction path using component_induction with
  | none path hnone =>
      rw [pathParts_of_not_hasComponent hnone]
      exact Nat.zero_le _
  | first gap name rest hgap hname hends ih =>
      rw [pathParts_first hgap hname hends]
      simp only [List.length_cons, List.length_append]
      omega

theorem exists_reads (path : Text) : ∃ names ending, Reads path names ending := by
  induction hlength : (pathParts path).length using Nat.strongRecOn generalizing path with
  | ind length ih =>
      cases hparts : pathParts path with
      | nil => exact ⟨_, _, .invalid hparts⟩
      | cons first others =>
          cases others with
          | nil => exact ⟨_, _, .last hparts⟩
          | cons second others =>
              cases hrest : pathRemainder? path with
              | none => exact ⟨_, _, .broken hparts hrest⟩
              | some remainder =>
                  have hshorter := pathRemainder?_shorter hrest
                  rw [hlength] at hshorter
                  obtain ⟨names, ending, reads⟩ := ih _ hshorter remainder rfl
                  exact ⟨_, _, .step hparts hrest reads⟩

namespace Reads

variable {path : Text} {names : List Text} {ending : PathEnd}

theorem unique (reads : Reads path names ending) {names' : List Text} {ending' : PathEnd}
    (reads' : Reads path names' ending') : names = names' ∧ ending = ending' := by
  induction reads generalizing names' ending' with
  | invalid parts => cases reads' <;> simp_all
  | last parts => cases reads' <;> simp_all
  | broken parts rest => cases reads' <;> simp_all
  | step parts rest _ ih =>
      cases reads' with
      | step parts' rest' reads' =>
          rw [parts, List.cons.injEq, List.cons.injEq] at parts'
          rw [rest, Option.some.injEq] at rest'
          subst rest'
          obtain ⟨rfl, rfl⟩ := ih reads'
          exact ⟨by rw [parts'.2.1], rfl⟩
      | _ => simp_all

theorem length_le (reads : Reads path names ending) :
    names.length ≤ (pathParts path).length := by
  induction reads with
  | invalid | last => exact Nat.zero_le _
  | broken parts rest =>
      rw [parts]
      exact Nat.succ_le_succ (Nat.zero_le _)
  | step parts rest _ ih =>
      have hshorter := pathRemainder?_shorter rest
      rw [List.length_cons]
      omega

/-- A row of calls that ends well looks for fewer names than there are components. -/
theorem length_lt (reads : Reads path names .last) : names.length < (pathParts path).length := by
  generalize hending : PathEnd.last = ending at reads
  induction reads with
  | invalid | broken => cases hending
  | last parts =>
      rw [parts]
      exact Nat.zero_lt_one
  | step parts rest _ ih =>
      have hshorter := pathRemainder?_shorter rest
      have hlength := ih hending
      rw [List.length_cons]
      omega

end Reads

/-! ## Texts whose components adjoin -/

/-- Each component with another one behind it is followed by a slash, and no line
ends between it and a later one. -/
def Adjoined (path : Text) : Prop :=
  ∀ before name after, path = before ++ '/' :: (name ++ after) → IsName name →
    EndsRun isWord after → HasComponent after →
    after.head? = some '/' ∧ ∀ line more, after = line ++ '\n' :: more → ¬ HasComponent more

theorem adjoined_of_not_hasComponent {path : Text} (hnone : ¬ HasComponent path) :
    Adjoined path := by
  rintro before name after rfl hname - -
  exact absurd (hasComponent_first hname) hnone

theorem adjoined_first {gap name rest : Text} (hgap : ¬ HasComponent gap)
    (hname : IsName name) (hends : EndsRun isWord rest) :
    Adjoined (gap ++ '/' :: (name ++ rest)) ↔
      (HasComponent rest → rest.head? = some '/' ∧
        ∀ line more, rest = line ++ '\n' :: more → ¬ HasComponent more) ∧
      Adjoined rest := by
  constructor
  · intro adjoined
    refine ⟨adjoined gap name rest rfl hname hends, ?_⟩
    rintro before name' after rfl hname' hafter hmore
    refine adjoined (gap ++ '/' :: (name ++ before)) name' after ?_ hname' hafter hmore
    simp
  · rintro ⟨hfirst, hrest⟩ before name' after heq hname' hafter hmore
    -- the component is the first one, or it lies behind it
    have hhere : '/' :: (name ++ rest) = '/' :: (name' ++ after) → rest.head? = some '/' ∧
        (∀ line more, rest = line ++ '\n' :: more → ¬ HasComponent more) ∧ rest = after := by
      intro hsame
      rw [List.cons.injEq] at hsame
      obtain ⟨-, rfl⟩ := hends.unique hafter hname.word hname'.word hsame.2
      exact ⟨(hfirst hmore).1, (hfirst hmore).2, rfl⟩
    rcases List.append_eq_append_iff.mp heq with ⟨middle, rfl, hmiddle⟩ | ⟨middle, rfl, hmiddle⟩
    · cases middle with
      | nil =>
          obtain ⟨hslash, hlines, rfl⟩ := hhere hmiddle
          exact ⟨hslash, hlines⟩
      | cons c middle =>
          rw [List.cons_append, List.cons.injEq] at hmiddle
          obtain ⟨-, hmiddle⟩ := hmiddle
          have hskip : ∃ between, middle = name ++ between ∧
              rest = between ++ '/' :: (name' ++ after) := by
            rcases List.append_eq_append_iff.mp hmiddle with
              ⟨between, hmid, hrestEq⟩ | ⟨between, hnameEq, hrestEq⟩
            · exact ⟨between, hmid, hrestEq⟩
            · cases between with
              | nil =>
                  rw [List.append_nil] at hnameEq
                  exact ⟨[], by rw [hnameEq, List.append_nil], hrestEq.symm⟩
              | cons d between =>
                  rw [List.cons_append, List.cons.injEq] at hrestEq
                  refine absurd ?_ hname.slash_not_mem
                  rw [hnameEq, hrestEq.1]
                  exact List.mem_append_right _ (.head _)
          obtain ⟨between, -, hrestEq⟩ := hskip
          exact hrest between name' after hrestEq hname' hafter hmore
    · cases middle with
      | nil =>
          obtain ⟨hslash, hlines, rfl⟩ := hhere hmiddle.symm
          exact ⟨hslash, hlines⟩
      | cons c middle =>
          rw [List.cons_append, List.cons.injEq] at hmiddle
          obtain ⟨rfl, hmiddle⟩ := hmiddle
          obtain ⟨d, tail, rfl⟩ := List.exists_cons_of_ne_nil hname'.ne_nil
          have hd := hname'.word d (.head _)
          cases middle with
          | nil =>
              rw [List.cons_append, List.nil_append, List.cons.injEq] at hmiddle
              rw [hmiddle.1, isWord_slash] at hd
              cases hd
          | cons e middle =>
              rw [List.cons_append, List.cons_append, List.cons.injEq] at hmiddle
              refine absurd ?_ hgap
              exact ⟨before, e, middle, rfl, hmiddle.1 ▸ hd⟩

/-- Components behind the end of any line stand behind the end of the first one. -/
theorem hasComponent_of_cut {line line' more more' : Text} (hplain : ∀ c ∈ line, isPlain c = true)
    (heq : line ++ '\n' :: more = line' ++ '\n' :: more') (hhas : HasComponent more') :
    HasComponent more := by
  have hbetween : ∀ between, '\n' :: more = between ++ '\n' :: more' → HasComponent more := by
    intro between hcut
    cases between with
    | nil =>
        rw [List.nil_append, List.cons.injEq] at hcut
        exact hhas.congr hcut.2.symm
    | cons c between =>
        rw [List.cons_append, List.cons.injEq] at hcut
        rw [hcut.2]
        exact (hhas.append (between ++ ['\n']) []).congr (by simp)
  rcases List.append_eq_append_iff.mp heq with ⟨between, -, hcut⟩ | ⟨between, rfl, hcut⟩
  · exact hbetween between hcut
  · cases between with
    | nil => exact hbetween [] hcut.symm
    | cons c between =>
        rw [List.cons_append, List.cons.injEq] at hcut
        have hnewline := hplain c (List.mem_append_right _ (.head _))
        rw [← hcut.1] at hnewline
        exact absurd hnewline (by decide)

/-- Lines without components behind the first line do not matter. -/
theorem adjoined_lines {line more : Text} (hplain : ∀ c ∈ line, isPlain c = true)
    (hmore : ¬ HasComponent more) : Adjoined (line ++ '\n' :: more) ↔ Adjoined line := by
  have hslash : '\n' ≠ '/' := by decide
  constructor
  · rintro adjoined before name after rfl hname hafter hhas
    obtain ⟨c, rest, hcons⟩ : ∃ c rest, after = c :: rest := by
      apply List.exists_cons_of_ne_nil
      rintro rfl
      exact not_hasComponent_nil hhas
    have hends : EndsRun isWord (after ++ '\n' :: more) := by
      rw [hcons] at hafter ⊢
      exact endsRun_cons.mpr (endsRun_cons.mp hafter)
    obtain ⟨hhead, -⟩ := adjoined before name (after ++ '\n' :: more) (by simp) hname hends
      (hhas.append [] _)
    refine ⟨?_, ?_⟩
    · rw [hcons] at hhead ⊢
      exact hhead
    · rintro line' more' rfl
      have hnewline := hplain '\n' (by simp)
      exact absurd hnewline (by decide)
  · intro adjoined before name after heq hname hafter hhas
    -- the component lies in the first line
    obtain ⟨rest, hline, hrest⟩ : ∃ rest, line = before ++ '/' :: (name ++ rest) ∧
        after = rest ++ '\n' :: more := by
      rcases List.append_eq_append_iff.mp heq with ⟨middle, rfl, hmiddle⟩ | ⟨middle, rfl, hmiddle⟩
      · cases middle with
        | nil =>
            rw [List.nil_append, List.cons.injEq] at hmiddle
            exact absurd hmiddle.1 hslash
        | cons c middle =>
            rw [List.cons_append, List.cons.injEq] at hmiddle
            refine absurd ?_ hmore
            rw [hmiddle.2]
            exact hasComponent_first hname
      · cases middle with
        | nil =>
            rw [List.nil_append, List.cons.injEq] at hmiddle
            exact absurd hmiddle.1.symm hslash
        | cons c middle =>
            rw [List.cons_append, List.cons.injEq] at hmiddle
            obtain ⟨rfl, hmiddle⟩ := hmiddle
            rcases List.append_eq_append_iff.mp hmiddle with
              ⟨rest, rfl, hafterEq⟩ | ⟨rest, hnameEq, hafterEq⟩
            · exact ⟨rest, rfl, hafterEq⟩
            · cases rest with
              | nil =>
                  rw [List.append_nil] at hnameEq
                  exact ⟨[], by rw [hnameEq, List.append_nil], hafterEq.symm⟩
              | cons d rest =>
                  rw [List.cons_append, List.cons.injEq] at hafterEq
                  have hnewline := hname.plain d (by rw [hnameEq]; simp)
                  rw [← hafterEq.1] at hnewline
                  exact absurd hnewline (by decide)
    rw [hrest] at hhas ⊢
    have hhas' : HasComponent rest := by
      rcases hhas.of_append isWord_newline hslash with hhas | hhas
      · exact hhas
      · exact absurd hhas hmore
    have hends : EndsRun isWord rest := by
      cases rest with
      | nil => exact endsRun_nil _
      | cons c rest =>
          rw [hrest] at hafter
          exact endsRun_cons.mpr (endsRun_cons.mp hafter)
    obtain ⟨hhead, -⟩ := adjoined before name rest hline hname hends hhas'
    refine ⟨?_, fun line' more' hcut hlast => ?_⟩
    · cases rest with
      | nil => cases hhead
      | cons c rest => exact hhead
    · have hplain' : ∀ c ∈ rest, isPlain c = true := by
        intro c hc
        apply hplain c
        rw [hline]
        simp [hc]
      exact hmore (hasComponent_of_cut hplain' hcut hlast)

theorem Adjoined.reads {path : Text} (adjoined : Adjoined path) (hhas : HasComponent path) :
    Reads path ((pathParts path).tail.map (List.drop 1)) .last := by
  induction hlength : (pathParts path).length using Nat.strongRecOn generalizing path with
  | ind length ih =>
      rcases component_cases path with hnone | ⟨gap, name, rest, rfl, hgap, hname, hends⟩
      · exact absurd hhas hnone
      · have hparts := pathParts_first hgap hname hends
        obtain ⟨hfirst, hadjoined⟩ := (adjoined_first hgap hname hends).mp adjoined
        rw [hparts, List.tail_cons]
        by_cases hrest : HasComponent rest
        · obtain ⟨hslash, hlines⟩ := hfirst hrest
          have hremainder := pathRemainder?_first hgap hname hends
          rw [if_pos hslash] at hremainder
          have hplain : ∀ c ∈ restOfLine rest, isPlain c = true :=
            fun c hc => List.mem_takeWhile_imp hc
          have hsame : pathParts (restOfLine rest) = pathParts rest ∧
              Adjoined (restOfLine rest) := by
            rcases restOfLine_cases rest with heq | ⟨more, heq⟩
            · exact ⟨by rw [← heq], by rwa [← heq]⟩
            · have hmore := hlines _ more heq
              have hparts := pathParts_lines (restOfLine rest) more
              rw [← heq, pathParts_of_not_hasComponent hmore, List.append_nil] at hparts
              rw [heq] at hadjoined
              exact ⟨hparts.symm, (adjoined_lines hplain hmore).mp hadjoined⟩
          have hshorter := pathRemainder?_shorter hremainder
          rw [hlength] at hshorter
          have hline : HasComponent (restOfLine rest) := by
            rw [← not_not (a := HasComponent _), ← pathParts_eq_nil_iff, hsame.1,
              pathParts_eq_nil_iff]
            exact not_not_intro hrest
          have hreads := ih _ hshorter hsame.2 hline rfl
          rw [hsame.1] at hreads
          obtain ⟨second, others, hsecond⟩ : ∃ second others, pathParts rest = second :: others := by
            refine List.exists_cons_of_ne_nil fun hnil => ?_
            exact pathParts_eq_nil_iff.mp hnil hrest
          rw [hsecond] at hreads hparts ⊢
          exact .step hparts hremainder hreads
        · rw [pathParts_of_not_hasComponent hrest] at hparts ⊢
          exact .last hparts

/-- Only a text whose components adjoin leads along all of them. -/
theorem Reads.adjoined {path : Text} {names : List Text} (reads : Reads path names .last)
    (hlength : (pathParts path).length = names.length + 1) : Adjoined path := by
  generalize hending : PathEnd.last = ending at reads
  induction reads with
  | invalid | broken => cases hending
  | @last path part parts =>
      rcases component_cases path with hnone | ⟨gap, name, rest, rfl, hgap, hname, hends⟩
      · exact adjoined_of_not_hasComponent hnone
      · rw [pathParts_first hgap hname hends, List.cons.injEq] at parts
        have hnone := pathParts_eq_nil_iff.mp parts.2
        exact (adjoined_first hgap hname hends).mpr
          ⟨fun hhas => absurd hhas hnone, adjoined_of_not_hasComponent hnone⟩
  | @step path first second remainder others names ending parts rest reads ih =>
      subst hending
      have hless := pathRemainder?_shorter rest
      have hmore := reads.length_lt
      rw [List.length_cons] at hlength
      have hadjoined := ih (by omega) rfl
      rcases component_cases path with hnone | ⟨gap, name, left, rfl, hgap, hname, hends⟩
      · exact adjoined_of_not_hasComponent hnone
      · rw [pathRemainder?_first hgap hname hends] at rest
        rw [pathParts_first hgap hname hends, List.length_cons] at hlength hless
        by_cases hslash : left.head? = some '/'
        · rw [if_pos hslash, Option.some.injEq] at rest
          subst rest
          have hplain : ∀ c ∈ restOfLine left, isPlain c = true :=
            fun c hc => List.mem_takeWhile_imp hc
          rw [adjoined_first hgap hname hends]
          rcases restOfLine_cases left with heq | ⟨after, heq⟩
          · rw [← heq] at hadjoined
            refine ⟨fun _ => ⟨hslash, fun line more hcut => ?_⟩, hadjoined⟩
            rw [heq] at hcut
            have hnewline := hplain '\n' (by rw [hcut]; simp)
            exact absurd hnewline (by decide)
          · -- the lines behind the first one have no components
            have hparts := pathParts_lines (restOfLine left) after
            rw [← heq] at hparts
            have hafter : ¬ HasComponent after := by
              rw [← pathParts_eq_nil_iff, ← List.length_eq_zero_iff]
              rw [hparts, List.length_append] at hlength
              omega
            refine ⟨fun _ => ⟨hslash, fun line more hcut hhas => ?_⟩, ?_⟩
            · rw [heq] at hcut
              exact hafter (hasComponent_of_cut hplain hcut hhas)
            · rw [heq]
              exact (adjoined_lines hplain hafter).mpr hadjoined
        · rw [if_neg hslash] at rest
          have hshorter := pathRemainder?_shorter rest
          omega

end FaultInjection
