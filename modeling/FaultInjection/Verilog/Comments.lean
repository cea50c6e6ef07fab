import FaultInjection.Verilog.Passage

/-!
# Comments and strings

Where the lexer stands when it is not in code.  A comment has begun on the same line,
behind two slashes or with a directive.
-/

namespace FaultInjection.Verilog

/-- Inside of a string. -/
def Mode.isLiteral : Mode → Bool
  | .quoted | .escape => true
  | .code _ | .slash | .comment => false

namespace Lexer

/-- Code begins a new word here. -/
def Begins (lexer : Lexer) : Prop :=
  lexer.word = [] ∧ (lexer.mode.isCode = true ∨ lexer.mode = .slash)

instance (lexer : Lexer) : Decidable lexer.Begins := inferInstanceAs (Decidable (_ ∧ _))

theorem Ready.begins {lexer : Lexer} (ready : lexer.Ready) : lexer.Begins :=
  ⟨ready.1, Or.inl ready.2⟩

theorem read_inWord {lexer : Lexer} (hcode : lexer.mode.isCode = true) {text : List Char}
    (htext : ∀ c ∈ text, Verilog.inWord c = true ∧ c ≠ grave) :
    (lexer.read text).mode.isCode = true ∧
      (lexer.read text).word = text.reverse ++ lexer.word := by
  induction text generalizing lexer with
  | nil => exact ⟨hcode, rfl⟩
  | cons c text ih =>
      have hstep := step_inWord hcode (htext c (.head _))
      have hread : lexer.read (c :: text) = (lexer.step c).read text := rfl
      obtain ⟨hcode', hword⟩ := @ih ⟨lexer.tokens, c :: lexer.word, .code false⟩ rfl
        fun d hd => htext d (.tail _ hd)
      rw [hread, hstep]
      refine ⟨hcode', ?_⟩
      rw [hword, List.reverse_cons, List.append_assoc]
      rfl

theorem read_slash {lexer : Lexer} (hmode : lexer.mode = .slash) {text : List Char}
    (hword : IsWord text) : (lexer.read text).mode.isCode = true ∧
      (lexer.read text).word = text.reverse ++ lexer.word := by
  obtain ⟨hne, htext⟩ := hword
  obtain ⟨c, rest, rfl⟩ := List.exists_cons_of_ne_nil hne
  have hc := htext c (.head _)
  have hgrave : (c == grave) = false := beq_eq_false_iff_ne.mpr hc.2
  have hslash : (c == '/') = false := by
    rw [beq_eq_false_iff_ne]
    rintro rfl
    exact absurd hc.1 (by decide)
  have hstep : lexer.step c = (⟨.symbol '/' :: lexer.tokens, lexer.word, .code false⟩ : Lexer).step c := by
    unfold step
    rw [hmode]
    simp [code, hgrave, hslash, hc.1]
  have hread : lexer.read (c :: rest) =
      (⟨.symbol '/' :: lexer.tokens, lexer.word, .code false⟩ : Lexer).read (c :: rest) :=
    congrArg (fun lexer => lexer.read rest) hstep
  rw [hread]
  exact read_inWord rfl htext

/-- The lexer at each place of a text, with what follows. -/
def states (lexer : Lexer) : List Char → List (Lexer × List Char)
  | [] => [(lexer, [])]
  | c :: rest => (lexer, c :: rest) :: (lexer.step c).states rest

theorem mem_states (lexer : Lexer) (before after : List Char) :
    (lexer.read before, after) ∈ lexer.states (before ++ after) := by
  induction before generalizing lexer with
  | nil => cases after <;> exact .head _
  | cons c before ih => exact .tail _ (ih (lexer.step c))

theorem of_states {check : Lexer → List Char → Bool} {text : List Char}
    (hcheck : (start.states text).all (fun state => check state.1 state.2) = true)
    {before after : List Char} (htext : text = before ++ after) :
    check (start.read before) after = true :=
  List.all_eq_true.mp hcheck _ (htext ▸ start.mem_states before after)

theorem code_comment {lexer : Lexer} {blank : Bool} {c : Char}
    (hmode : (lexer.code blank c).mode = .comment) : c = grave ∧ blank = true := by
  unfold code at hmode
  split_ifs at hmode with hgrave
  · rw [Bool.and_eq_true, beq_iff_eq] at hgrave
    exact hgrave

theorem code_slash {lexer : Lexer} {blank : Bool} {c : Char}
    (hmode : (lexer.code blank c).mode = .slash) : c = '/' := by
  unfold code at hmode
  split_ifs at hmode with hgrave hword hnewline hblank hslash
  · exact eq_of_beq hslash

theorem exists_slash {text : List Char} (hmode : (start.read text).mode = .slash) :
    ∃ before, text = before ++ ['/'] ∧ (start.read before).mode.isCode = true := by
  induction text using List.reverseRecOn with
  | nil => cases hmode
  | append_singleton text c =>
      rw [read_append] at hmode
      change ((start.read text).step c).mode = _ at hmode
      unfold step at hmode
      cases hfirst : (start.read text).mode with
      | code blank =>
          rw [hfirst] at hmode
          rw [code_slash hmode]
          refine ⟨text, rfl, ?_⟩
          rw [hfirst]
          rfl
      | slash =>
          rw [hfirst] at hmode
          simp only at hmode
          split_ifs at hmode with hc
          · rw [code_slash hmode] at hc
            exact absurd rfl hc
      | comment | quoted | escape =>
          rw [hfirst] at hmode
          simp only at hmode
          split_ifs at hmode
          all_goals first | cases hmode | exact absurd (hfirst.symm.trans hmode) (by decide)

/-- A comment has begun on the same line, with two slashes or as a directive. -/
theorem exists_comment {text : List Char} (hmode : (start.read text).mode = .comment) :
    ∃ before rest, '\n' ∉ rest ∧
      ((text = before ++ '/' :: '/' :: rest ∧ (start.read before).mode.isCode = true) ∨
        (text = before ++ grave :: rest ∧ (start.read before).mode = .code true)) := by
  induction text using List.reverseRecOn with
  | nil => cases hmode
  | append_singleton text c ih =>
      rw [read_append] at hmode
      change ((start.read text).step c).mode = _ at hmode
      unfold step at hmode
      cases hfirst : (start.read text).mode with
      | code blank =>
          rw [hfirst] at hmode
          obtain ⟨rfl, rfl⟩ := code_comment hmode
          exact ⟨text, [], List.not_mem_nil, Or.inr ⟨rfl, hfirst⟩⟩
      | slash =>
          rw [hfirst] at hmode
          simp only at hmode
          split_ifs at hmode with hc
          · obtain ⟨before, rfl, hcode⟩ := exists_slash hfirst
            rw [eq_of_beq hc]
            exact ⟨before, [], List.not_mem_nil, Or.inl ⟨by simp, hcode⟩⟩
          · exact absurd (code_comment hmode).2 Bool.false_ne_true
      | comment =>
          rw [hfirst] at hmode
          simp only at hmode
          split_ifs at hmode with hc
          obtain ⟨before, rest, hrest, hbegin⟩ := ih hfirst
          have hmore : '\n' ∉ rest ++ [c] := by
            rw [List.mem_append, List.mem_singleton]
            rintro (hmem | rfl)
            · exact hrest hmem
            · exact hc rfl
          refine ⟨before, rest ++ [c], hmore, ?_⟩
          rcases hbegin with ⟨rfl, hcode⟩ | ⟨rfl, hcode⟩
          · exact Or.inl ⟨by simp, hcode⟩
          · exact Or.inr ⟨by simp, hcode⟩
      | quoted | escape =>
          rw [hfirst] at hmode
          simp only at hmode
          split_ifs at hmode
          all_goals first | cases hmode | exact absurd (hfirst.symm.trans hmode) (by decide)

end Lexer

end FaultInjection.Verilog
