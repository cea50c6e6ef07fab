import FaultInjection.Injector.Instance
import FaultInjection.Regex.Greedy

/-!
# Components of path texts

What the two regular expressions of `mark_fault` read from any text.  A component
is a slash with word characters behind it.  The first expression reads the names
of all components; the second one cuts the text behind the first component that is
followed by a slash, and stops at the end of that line.
-/

namespace FaultInjection

open Regex Regex.Pattern Text

variable [UnicodeData]

/-- A non-empty text of word characters. -/
structure IsName (text : Text) : Prop where
  ne_nil : text ≠ []
  word : ∀ c ∈ text, isWord c = true

instance (text : Text) : Decidable (IsName text) :=
  decidable_of_iff (text ≠ [] ∧ text.all isWord = true)
    ⟨fun h => ⟨h.1, List.all_eq_true.mp h.2⟩, fun h => ⟨h.ne_nil, List.all_eq_true.mpr h.word⟩⟩

theorem isName_of_ascii {text : Text} (hne : text ≠ [])
    (hword : text.all (fun c => c.toNat < 128 && (c.isAlphanum || c == '_')) = true) :
    IsName text := by
  refine ⟨hne, fun c hc => ?_⟩
  have hletter := List.all_eq_true.mp hword c hc
  rw [Bool.and_eq_true, decide_eq_true_eq] at hletter
  rw [isWord_ascii hletter.1]
  exact hletter.2

namespace FaultPath

/-- The components of a path, each behind a slash. -/
def spell (names : List Text) : Text := names.flatMap ('/' :: ·)

end FaultPath

open FaultPath

theorem isWord_slash : isWord '/' = false := by
  rw [isWord_ascii (by decide)]
  decide

theorem isWord_newline : isWord '\n' = false := by
  rw [isWord_ascii (by decide)]
  decide

theorem IsName.not_mem {name : Text} (hname : IsName name) {c : Char}
    (hc : isWord c = false) : c ∉ name := by
  intro hmem
  rw [hname.word c hmem] at hc
  cases hc

theorem IsName.slash_not_mem {name : Text} (hname : IsName name) : '/' ∉ name :=
  hname.not_mem isWord_slash

theorem IsName.plain {name : Text} (hname : IsName name) : ∀ c ∈ name, isPlain c = true := by
  intro c hc
  rw [isPlain, bne_iff_ne]
  rintro rfl
  have hword := hname.word _ hc
  rw [isWord_newline] at hword
  cases hword

theorem plain_spell {names : List Text} (hnames : ∀ name ∈ names, IsName name) :
    ∀ c ∈ spell names, isPlain c = true := by
  intro c hc
  obtain ⟨name, hname, hc⟩ := List.mem_flatMap.mp hc
  rcases List.mem_cons.mp hc with rfl | hc
  · decide
  · exact (hnames name hname).plain c hc

theorem endsRun_spell {names : List Text} {target : Text} (htarget : EndsRun isWord target) :
    EndsRun isWord (spell names ++ target) := by
  cases names with
  | nil => exact htarget
  | cons name names => exact endsRun_cons.mpr isWord_slash

/-- A slash with a word character behind it stands somewhere in the text. -/
def HasComponent (text : Text) : Prop :=
  ∃ before c after, text = before ++ '/' :: c :: after ∧ isWord c = true

theorem HasComponent.append {text : Text} (has : HasComponent text) (before after : Text) :
    HasComponent (before ++ text ++ after) := by
  obtain ⟨front, c, back, rfl, hc⟩ := has
  exact ⟨before ++ front, c, back ++ after, by simp, hc⟩

theorem HasComponent.congr {text text' : Text} (has : HasComponent text) (heq : text = text') :
    HasComponent text' := heq ▸ has

/-- A component does not reach over a character that is no word character. -/
theorem HasComponent.of_append {before after : Text} {c : Char} (hc : isWord c = false)
    (hslash : c ≠ '/') (has : HasComponent (before ++ c :: after)) :
    HasComponent before ∨ HasComponent after := by
  obtain ⟨front, d, back, heq, hd⟩ := has
  rcases List.append_eq_append_iff.mp heq with ⟨more, rfl, hback⟩ | ⟨more, rfl, hback⟩
  · cases more with
    | nil =>
        rw [List.nil_append, List.cons.injEq] at hback
        exact absurd hback.1 hslash
    | cons e more =>
        rw [List.cons_append, List.cons.injEq] at hback
        exact Or.inr ⟨more, d, back, hback.2, hd⟩
  · cases more with
    | nil =>
        rw [List.nil_append, List.cons.injEq] at hback
        exact absurd hback.1.symm hslash
    | cons e more =>
        rw [List.cons_append, List.cons.injEq] at hback
        obtain ⟨rfl, hback⟩ := hback
        cases more with
        | nil =>
            rw [List.nil_append, List.cons.injEq] at hback
            rw [hback.1, hc] at hd
            cases hd
        | cons e more =>
            rw [List.cons_append, List.cons.injEq] at hback
            obtain ⟨rfl, -⟩ := hback
            exact Or.inl ⟨front, _, more, rfl, hd⟩

theorem not_hasComponent_nil : ¬ HasComponent [] := by
  rintro ⟨before, c, after, heq, -⟩
  simp at heq

theorem HasComponent.slash_mem {text : Text} (has : HasComponent text) : '/' ∈ text := by
  obtain ⟨before, c, after, rfl, -⟩ := has
  exact List.mem_append_right _ (.head _)

/-! ## The first expression -/

/-- A pattern for a slash and word characters matches nothing elsewhere. -/
theorem matchAt_slash_none {next : Pattern Char}
    (hnext : ∀ rest, EndsRun isWord rest → readings next rest = []) {text : Text}
    (hnone : ∀ c after, text = '/' :: c :: after → isWord c = false) :
    matchAt (.seq (word ("/" : Text)) next) text = none := by
  cases text with
  | nil => exact matchAt_word_seq_none _ (by rintro ⟨rest, heq⟩; cases heq)
  | cons first text =>
      by_cases hfirst : first = '/'
      · subst hfirst
        have hends : EndsRun isWord text := by
          cases text with
          | nil => exact endsRun_nil _
          | cons c after => exact endsRun_cons.mpr (hnone c after rfl)
        have hempty : matchAt next text = none := by
          rw [matchAt, hnext text hends]
          rfl
        have hslash := matchAt_word_seq ("/" : Text) text next
        rw [hempty] at hslash
        exact hslash
      · exact matchAt_cons_ne _ hfirst

/-- Such a pattern begins nowhere in a stretch without a component. -/
theorem clear_of_not_hasComponent {next : Pattern Char}
    (hnext : ∀ rest, EndsRun isWord rest → readings next rest = []) {stretch following : Text}
    (hnone : ¬ HasComponent stretch) (hends : EndsRun isWord following) :
    Clear (.seq (word ("/" : Text)) next) stretch following := by
  intro before after hstretch hne
  refine matchAt_slash_none hnext fun c rest heq => ?_
  obtain ⟨first, after, rfl⟩ := List.exists_cons_of_ne_nil hne
  rw [List.cons_append, List.cons.injEq] at heq
  obtain ⟨rfl, heq⟩ := heq
  cases after with
  | nil =>
      rw [List.nil_append] at heq
      rw [heq] at hends
      exact endsRun_cons.mp hends
  | cons d after =>
      rw [List.cons_append, List.cons.injEq] at heq
      obtain ⟨rfl, -⟩ := heq
      refine Bool.eq_false_iff.mpr fun hword => hnone ?_
      exact ⟨before, d, after, hstretch, hword⟩

theorem clear_component {stretch following : Text} (hnone : ¬ HasComponent stretch)
    (hends : EndsRun isWord following) : Clear componentPattern stretch following :=
  clear_of_not_hasComponent (fun _ hrest => readings_some_of_endsRun hrest) hnone hends

theorem pathParts_of_not_hasComponent {text : Text} (hnone : ¬ HasComponent text) :
    pathParts text = [] := by
  rw [pathParts, findall_of_clear (clear_component hnone (endsRun_nil _))]
  rfl

theorem pathParts_append {before after : Text} (hnone : ¬ HasComponent before)
    (hends : EndsRun isWord after) : pathParts (before ++ after) = pathParts after := by
  rw [pathParts, (clear_component hnone hends).findall]
  rfl

theorem matchAt_component {name rest : Text} (hname : IsName name)
    (hrest : EndsRun isWord rest) :
    matchAt componentPattern ('/' :: (name ++ rest)) =
      some ⟨'/' :: name, rest, []⟩ := by
  have hslash : '/' :: (name ++ rest) = ("/" : Text) ++ (name ++ rest) := rfl
  rw [componentPattern, chain, chain, hslash, matchAt_word_seq,
    matchAt_some hname.ne_nil hname.word hrest]
  rfl

theorem pathParts_component {name rest : Text} (hname : IsName name)
    (hrest : EndsRun isWord rest) :
    pathParts ('/' :: (name ++ rest)) = ('/' :: name) :: pathParts rest := by
  rw [pathParts, findall_hit (matchAt_component hname hrest) (List.cons_ne_nil _ _)]
  rfl

theorem component_cases (text : Text) :
    ¬ HasComponent text ∨ ∃ gap name rest, text = gap ++ '/' :: (name ++ rest) ∧
      ¬ HasComponent gap ∧ IsName name ∧ EndsRun isWord rest := by
  induction text with
  | nil => exact Or.inl not_hasComponent_nil
  | cons c text ih =>
      by_cases hbegins : c = '/' ∧ ∃ d after, text = d :: after ∧ isWord d = true
      · obtain ⟨rfl, d, after, rfl, hd⟩ := hbegins
        refine Or.inr ⟨[], (d :: after).takeWhile isWord, (d :: after).dropWhile isWord, ?_,
          not_hasComponent_nil, ⟨?_, ?_⟩, ?_⟩
        · rw [List.takeWhile_append_dropWhile]
          rfl
        · rw [List.takeWhile_cons_of_pos hd]
          exact List.cons_ne_nil _ _
        · exact fun e he => List.mem_takeWhile_imp he
        · intro e he
          have hhead := List.head?_dropWhile_not isWord (d :: after)
          rw [Option.mem_def] at he
          simpa [he] using hhead
      · have hcons : ∀ more, HasComponent (c :: more) → (∀ d after, more = d :: after →
            isWord d = true → c ≠ '/') → HasComponent more := by
          rintro more ⟨before, d, after, heq, hd⟩ hfirst
          cases before with
          | nil =>
              rw [List.nil_append, List.cons.injEq] at heq
              exact absurd heq.1 (hfirst d after heq.2 hd)
          | cons e before =>
              rw [List.cons_append, List.cons.injEq] at heq
              exact ⟨before, d, after, heq.2, hd⟩
        have hfirst : ∀ d after, text = d :: after → isWord d = true → c ≠ '/' :=
          fun d after htext hd hslash => hbegins ⟨hslash, d, after, htext, hd⟩
        rcases ih with hnone | ⟨gap, name, rest, rfl, hgap, hname, hrest⟩
        · exact Or.inl fun has => hnone (hcons text has hfirst)
        · refine Or.inr ⟨c :: gap, name, rest, rfl, fun has => hgap (hcons gap has ?_), hname,
            hrest⟩
          intro d after hgapEq hd
          refine hfirst d (after ++ '/' :: (name ++ rest)) ?_ hd
          rw [hgapEq, List.cons_append]

theorem component_induction {motive : Text → Prop}
    (none : ∀ text, ¬ HasComponent text → motive text)
    (first : ∀ gap name rest, ¬ HasComponent gap → IsName name → EndsRun isWord rest →
      motive rest → motive (gap ++ '/' :: (name ++ rest))) (text : Text) : motive text := by
  induction hlength : text.length using Nat.strongRecOn generalizing text with
  | ind length ih =>
      rcases component_cases text with hnone | ⟨gap, name, rest, rfl, hgap, hname, hrest⟩
      · exact none text hnone
      · refine first gap name rest hgap hname hrest (ih rest.length ?_ rest rfl)
        simp only [List.length_append, List.length_cons] at hlength
        omega

theorem pathParts_first {gap name rest : Text} (hgap : ¬ HasComponent gap)
    (hname : IsName name) (hrest : EndsRun isWord rest) :
    pathParts (gap ++ '/' :: (name ++ rest)) = ('/' :: name) :: pathParts rest := by
  rw [pathParts_append hgap (endsRun_cons.mpr isWord_slash), pathParts_component hname hrest]

theorem hasComponent_first {gap name rest : Text} (hname : IsName name) :
    HasComponent (gap ++ '/' :: (name ++ rest)) := by
  obtain ⟨c, more, rfl⟩ := List.exists_cons_of_ne_nil hname.ne_nil
  exact ⟨gap, c, more ++ rest, rfl, hname.word c (.head _)⟩

theorem pathParts_eq_nil_iff {text : Text} : pathParts text = [] ↔ ¬ HasComponent text := by
  refine ⟨fun hnil => ?_, pathParts_of_not_hasComponent⟩
  rcases component_cases text with hnone | ⟨gap, name, rest, rfl, hgap, hname, hrest⟩
  · exact hnone
  · rw [pathParts_first hgap hname hrest] at hnil
    cases hnil

theorem pathParts_lines (line more : Text) :
    pathParts (line ++ '\n' :: more) = pathParts line ++ pathParts more := by
  have hmore : pathParts ('\n' :: more) = pathParts more := by
    have hclear : Clear componentPattern ("\n" : Text) more :=
      Clear.of_not_mem _ (by decide) more
    exact congrArg (List.map Match.taken) hclear.findall
  induction line using component_induction with
  | none line hnone =>
      rw [pathParts_append hnone (endsRun_cons.mpr isWord_newline), hmore,
        pathParts_of_not_hasComponent hnone, List.nil_append]
  | first gap name rest hgap hname hrest ih =>
      have hends : EndsRun isWord (rest ++ '\n' :: more) := by
        cases rest with
        | nil => exact endsRun_cons.mpr isWord_newline
        | cons c rest => exact endsRun_cons.mpr (endsRun_cons.mp hrest)
      have htext : gap ++ '/' :: (name ++ rest) ++ '\n' :: more =
          gap ++ '/' :: (name ++ (rest ++ '\n' :: more)) := by simp
      rw [htext, pathParts_first hgap hname hends, pathParts_first hgap hname hrest, ih]
      rfl

theorem pathParts_spell {names : List Text} (hnames : ∀ name ∈ names, IsName name)
    {target : Text} (htarget : ¬ HasComponent target) (hends : EndsRun isWord target) :
    pathParts (spell names ++ target) = names.map ('/' :: ·) := by
  induction names with
  | nil => exact pathParts_of_not_hasComponent htarget
  | cons name names ih =>
      have htext : spell (name :: names) ++ target =
          '/' :: (name ++ (spell names ++ target)) := by simp [spell]
      rw [htext, pathParts_component (hnames name (.head _)) (endsRun_spell hends),
        ih fun other hother => hnames other (.tail _ hother)]
      rfl

/-! ## The second expression -/

/-- The rest of the line. -/
def restOfLine (text : Text) : Text := text.takeWhile isPlain

theorem remainderPattern_eq :
    remainderPattern = .seq (word ("/" : Text)) (.seq (.some isWord)
      (.group 1 (.seq (word ("/" : Text)) (.many isPlain)))) := rfl

omit [UnicodeData] in
theorem matchAt_tail (rest : Text) :
    matchAt (.group 1 (.seq (word ("/" : Text)) (.many isPlain))) rest =
      if rest.head? = some '/' then
        some ⟨restOfLine rest, rest.dropWhile isPlain, [(1, restOfLine rest)]⟩
      else none := by
  cases rest with
  | nil =>
      rw [matchAt_group, matchAt_word_seq_none _ (by rintro ⟨rest, heq⟩; cases heq)]
      rfl
  | cons c rest =>
      by_cases hc : c = '/'
      · subst hc
        have hplain : ∀ c ∈ rest.takeWhile isPlain, isPlain c = true :=
          fun c hc => List.mem_takeWhile_imp hc
        have hends : EndsRun isPlain (rest.dropWhile isPlain) := by
          intro c hc
          have hhead := List.head?_dropWhile_not isPlain rest
          rw [Option.mem_def] at hc
          simpa [hc] using hhead
        have hmany := matchAt_many hplain hends
        rw [List.takeWhile_append_dropWhile] at hmany
        have hslash := matchAt_word_seq ("/" : Text) rest (.many isPlain)
        rw [hmany] at hslash
        rw [List.head?_cons, if_pos rfl, matchAt_group]
        have hline : restOfLine ('/' :: rest) = '/' :: rest.takeWhile isPlain := rfl
        have hleft : ('/' :: rest).dropWhile isPlain = rest.dropWhile isPlain := rfl
        rw [hline, hleft]
        exact congrArg (Option.map (Match.close 1)) hslash
      · have hnone : matchAt (.seq (word ("/" : Text)) (.many isPlain)) (c :: rest) = none :=
          matchAt_cons_ne _ hc
        rw [List.head?_cons, if_neg fun heq => hc (Option.some.inj heq), matchAt_group, hnone]
        rfl

theorem matchAt_remainder {name rest : Text} (hname : IsName name)
    (hrest : EndsRun isWord rest) :
    matchAt remainderPattern ('/' :: (name ++ rest)) =
      if rest.head? = some '/' then
        some ⟨'/' :: (name ++ restOfLine rest), rest.dropWhile isPlain, [(1, restOfLine rest)]⟩
      else none := by
  have hcontinue : ∀ c left, isWord c = true →
      readings (.group 1 (.seq (word ("/" : Text)) (.many isPlain))) (c :: left) = [] := by
    intro c left hc
    have hnone : readings (.seq (word ("/" : Text)) (.many isPlain)) (c :: left) = [] := by
      apply readings_word_seq_none _
      rintro ⟨more, heq⟩
      rw [show ("/" : Text) = ['/'] from rfl, List.cons_append, List.cons.injEq] at heq
      rw [← heq.1, isWord_slash] at hc
      cases hc
    rw [readings, hnone, List.map_nil]
  have hslash : '/' :: (name ++ rest) = ("/" : Text) ++ (name ++ rest) := rfl
  rw [remainderPattern_eq, hslash, matchAt_word_seq,
    matchAt_some_seq hname.ne_nil hname.word hrest hcontinue, matchAt_tail]
  split
  · simp [Match.after]
  · rfl

theorem clear_remainder {stretch following : Text} (hnone : ¬ HasComponent stretch)
    (hends : EndsRun isWord following) : Clear remainderPattern stretch following := by
  refine clear_of_not_hasComponent (fun rest hrest => ?_) hnone hends
  show readings (.seq (.some isWord) _) rest = []
  rw [readings, readings_some_of_endsRun hrest]
  rfl

theorem pathRemainder?_of_not_hasComponent {text : Text} (hnone : ¬ HasComponent text) :
    pathRemainder? text = none := by
  rw [pathRemainder?, findall_of_clear (clear_remainder hnone (endsRun_nil _))]
  rfl

theorem pathRemainder?_first {gap name rest : Text} (hgap : ¬ HasComponent gap)
    (hname : IsName name) (hrest : EndsRun isWord rest) :
    pathRemainder? (gap ++ '/' :: (name ++ rest)) =
      if rest.head? = some '/' then some (restOfLine rest) else pathRemainder? rest := by
  have hmatch := matchAt_remainder hname hrest
  rw [pathRemainder?, (clear_remainder hgap (endsRun_cons.mpr isWord_slash)).findall]
  split
  · rename_i hslash
    rw [if_pos hslash] at hmatch
    rw [findall_hit hmatch (List.cons_ne_nil _ _)]
    rfl
  · rename_i hslash
    rw [if_neg hslash] at hmatch
    have hclear : Clear remainderPattern ('/' :: name) rest :=
      Clear.cons_iff.mpr ⟨hmatch, Clear.of_not_mem _ hname.slash_not_mem rest⟩
    rw [← List.cons_append, hclear.findall, pathRemainder?]

theorem pathRemainder?_spell {head next : Text} {rest : List Text}
    (hnames : ∀ name ∈ head :: next :: rest, IsName name) {target : Text}
    (hplain : ∀ c ∈ target, isPlain c = true) :
    pathRemainder? (spell (head :: next :: rest) ++ target) =
      some (spell (next :: rest) ++ target) := by
  have htext : spell (head :: next :: rest) ++ target =
      '/' :: (head ++ (spell (next :: rest) ++ target)) := by simp [spell]
  have hends : EndsRun isWord (spell (next :: rest) ++ target) :=
    endsRun_cons.mpr isWord_slash
  have hline : restOfLine (spell (next :: rest) ++ target) = spell (next :: rest) ++ target := by
    refine List.takeWhile_eq_self_iff.mpr fun c hc => ?_
    rcases List.mem_append.mp hc with hc | hc
    · exact plain_spell (fun name hname => hnames name (.tail _ hname)) c hc
    · exact hplain c hc
  have hfirst := @pathRemainder?_first _ [] head _ not_hasComponent_nil
    (hnames head (.head _)) hends
  rw [List.nil_append] at hfirst
  have hslash : (spell (next :: rest) ++ target).head? = Option.some '/' := rfl
  rw [htext, hfirst, if_pos hslash, hline]

end FaultInjection
