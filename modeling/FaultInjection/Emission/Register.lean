import FaultInjection.Emission.Width
import FaultInjection.Verilog.Grammar

/-!
# The declaration of a register

The register branch redirects the assignments of a register and replaces its
declaration.  Where statements end with a semicolon and none is empty, the declaration
that it emits for the original is left open.
-/

namespace FaultInjection

open Regex Regex.Pattern Text

section Runs

variable [UnicodeData]

/-- The next character that is neither blank nor in a comment.  The flag tells whether
the text begins inside of a comment. -/
def nextCode : Bool → Text → Option Char
  | _, [] => none
  | true, c :: rest => nextCode (c != '\n') rest
  | false, c :: rest =>
      if isSpace c then nextCode false rest
      else if c = '/' ∧ rest.head? = .some '/' then nextCode true rest
      else Option.some c

/-- A semicolon ends its word, and no statement is empty. -/
def Separated (text : Text) : Prop :=
  ∀ before after, text = before ++ ';' :: after →
    EndsRun isWord after ∧ nextCode false after ≠ .some ';'

theorem separated_iff {text : Text} :
    Separated text ↔ ∀ suffix ∈ text.tails, suffix.head? = .some ';' →
      EndsRun isWord suffix.tail ∧ nextCode false suffix.tail ≠ .some ';' := by
  constructor
  · intro separated suffix hsuffix hhead
    obtain ⟨before, hbefore⟩ := (List.mem_tails suffix text).mp hsuffix
    cases suffix with
    | nil => cases hhead
    | cons c after =>
        cases hhead
        exact separated before after hbefore.symm
  · intro hall before after heq
    exact hall (';' :: after) ((List.mem_tails _ text).mpr ⟨before, heq.symm⟩) rfl

instance (rest : Text) : Decidable (EndsRun isWord rest) :=
  decidable_of_iff (rest.head?.all (fun c => !isWord c) = true)
    (by cases rest <;> simp)

instance (text : Text) : Decidable (Separated text) :=
  decidable_of_iff _ separated_iff.symm

theorem isWord_semicolon : isWord ';' = false ∧ isWord '/' = false := by
  refine ⟨?_, ?_⟩ <;> (rw [isWord_ascii (by decide)]; decide)

theorem nextCode_word {c : Char} (hc : isWord c = true) (rest : Text) :
    nextCode false (c :: rest) = .some c := by
  have hslash : c ≠ '/' := by
    rintro rfl
    rw [isWord_semicolon.2] at hc
    cases hc
  rw [nextCode, isSpace_of_isWord hc, if_neg Bool.false_ne_true, if_neg fun h => hslash h.1]

theorem nextCode_comment {line : Text} (hline : '\n' ∉ line) (rest : Text) :
    nextCode true (line ++ rest) = nextCode true rest := by
  induction line with
  | nil => rfl
  | cons c line ih =>
      rw [List.mem_cons, not_or] at hline
      have hc : (c != '\n') = true := bne_iff_ne.mpr fun heq => hline.1 heq.symm
      rw [List.cons_append, nextCode, hc, ih hline.2]

/-! ## Substitutions between words -/

/-- Matches begin with a word character, and so does what is put in their place. -/
def BetweenWords (pattern : Pattern Char) (replacement : Match Char → Text) : Prop :=
  ∀ input m, matchAt pattern input = .some m →
    (∃ c ∈ m.taken.head?, isWord c = true) ∧ ∃ c ∈ (replacement m).head?, isWord c = true

section Substitution

variable {pattern : Pattern Char} {replacement : Match Char → Text}

omit [UnicodeData] in
theorem head?_of_append {first rest : Text} {c : Char} (hc : c ∈ first.head?) :
    (first ++ rest).head? = .some c := by
  cases first with
  | nil => cases hc
  | cons d first => exact hc

/-- The first character is kept, or a word takes the place of a word. -/
theorem BetweenWords.head? (between : BetweenWords pattern replacement)
    (hproductive : Productive pattern) (text : Text) :
    (sub pattern replacement text).head? = text.head? ∨
      ((∃ c ∈ (sub pattern replacement text).head?, isWord c = true) ∧
        ∃ c ∈ text.head?, isWord c = true) := by
  cases hmatch : matchAt pattern text with
  | none =>
      cases text with
      | nil => exact Or.inl rfl
      | cons c rest =>
          rw [sub, scan_skip hmatch]
          exact Or.inl rfl
  | some m =>
      have hne := hproductive _ _ (mem_of_matchAt hmatch)
      obtain ⟨⟨c, hc, hword⟩, d, hd, hword'⟩ := between text m hmatch
      rw [sub_hit hmatch hne]
      refine Or.inr ⟨⟨d, head?_of_append hd, hword'⟩, c, ?_, hword⟩
      rw [← taken_append_rest (mem_of_matchAt hmatch)]
      exact head?_of_append hc

theorem BetweenWords.endsRun (between : BetweenWords pattern replacement)
    (hproductive : Productive pattern) {text : Text} (hends : EndsRun isWord text) :
    EndsRun isWord (sub pattern replacement text) := by
  intro c hc
  rcases between.head? hproductive text with hsame | ⟨-, d, hd, hword⟩
  · rw [hsame] at hc
    exact hends c hc
  · rw [hends d hd] at hword
    cases hword

theorem BetweenWords.nextCode (between : BetweenWords pattern replacement)
    (hproductive : Productive pattern)
    (hcomment : ∀ input m, matchAt pattern input = .some m →
      ('\n' ∉ m.taken ∧ '\n' ∉ replacement m) ∨
        ∀ rest, FaultInjection.nextCode true (replacement m ++ rest) ≠ .some ';')
    {text : Text} {comment : Bool} (hnext : FaultInjection.nextCode comment text ≠ .some ';') :
    FaultInjection.nextCode comment (sub pattern replacement text) ≠ .some ';' := by
  induction text using scan_induction hproductive generalizing comment with
  | nil => exact hnext
  | skip c rest hnone ih =>
      have hsub : sub pattern replacement (c :: rest) = c :: sub pattern replacement rest := by
        rw [sub, scan_skip hnone]
        rfl
      rw [hsub]
      cases comment with
      | true => exact ih hnext
      | false =>
          have hslash : (sub pattern replacement rest).head? = .some '/' ↔
              rest.head? = .some '/' := by
            rcases between.head? hproductive rest with hsame | ⟨⟨d, hd, hword⟩, e, he, hword'⟩
            · rw [hsame]
            · constructor
              · intro hhead
                rw [hhead] at hd
                cases hd
                rw [isWord_semicolon.2] at hword
                cases hword
              · intro hhead
                rw [hhead] at he
                cases he
                rw [isWord_semicolon.2] at hword'
                cases hword'
          simp only [FaultInjection.nextCode, hslash] at hnext ⊢
          split at hnext
          · rename_i hspace
            rw [if_pos hspace]
            exact ih hnext
          · rename_i hspace
            rw [if_neg hspace]
            split at hnext
            · rename_i hopen
              rw [if_pos hopen]
              exact ih hnext
            · rename_i hopen
              rw [if_neg hopen]
              exact hnext
  | hit input m hm hne ih =>
      rw [sub_hit hm hne]
      obtain ⟨-, c, hc, hword⟩ := between input m hm
      cases comment with
      | false =>
          obtain ⟨others, hothers⟩ : ∃ others, replacement m = c :: others := by
            cases hreplacement : replacement m with
            | nil =>
                rw [hreplacement] at hc
                cases hc
            | cons d others =>
                rw [hreplacement] at hc
                cases hc
                exact ⟨others, rfl⟩
          rw [hothers, List.cons_append, nextCode_word hword, ne_eq, Option.some.injEq]
          rintro rfl
          rw [isWord_semicolon.1] at hword
          cases hword
      | true =>
          rcases hcomment input m hm with ⟨htaken, hput⟩ | hany
          · rw [nextCode_comment hput]
            apply ih
            rw [← taken_append_rest (mem_of_matchAt hm), nextCode_comment htaken] at hnext
            exact hnext
          · exact hany _

omit [UnicodeData] in
/-- A semicolon that is not put in was there, and what follows it is substituted. -/
theorem exists_of_sub_semicolon (hproductive : Productive pattern)
    (hput : ∀ input m, matchAt pattern input = .some m → ';' ∉ replacement m)
    {text before after : Text} (heq : sub pattern replacement text = before ++ ';' :: after) :
    ∃ before' after', text = before' ++ ';' :: after' ∧
      after = sub pattern replacement after' := by
  induction text using scan_induction hproductive generalizing before with
  | nil =>
      rw [sub_nil] at heq
      exact absurd heq.symm (List.append_ne_nil_of_right_ne_nil _ (List.cons_ne_nil _ _))
  | skip c rest hnone ih =>
      have hsub : sub pattern replacement (c :: rest) = c :: sub pattern replacement rest := by
        rw [sub, scan_skip hnone]
        rfl
      rw [hsub] at heq
      cases before with
      | nil =>
          rw [List.nil_append, List.cons.injEq] at heq
          exact ⟨[], rest, by rw [heq.1]; rfl, heq.2.symm⟩
      | cons d before =>
          rw [List.cons_append, List.cons.injEq] at heq
          obtain ⟨before', after', rfl, hafter⟩ := ih heq.2
          exact ⟨c :: before', after', rfl, hafter⟩
  | hit input m hm hne ih =>
      rw [sub_hit hm hne] at heq
      rcases List.append_eq_append_iff.mp heq with ⟨middle, hbefore, hrest⟩ |
        ⟨middle, hreplacement, hrest⟩
      · obtain ⟨before', after', hbefore', hafter⟩ := ih hrest
        refine ⟨m.taken ++ before', after', ?_, hafter⟩
        rw [List.append_assoc, ← hbefore', taken_append_rest (mem_of_matchAt hm)]
      · cases middle with
        | nil =>
            have hstart : Regex.sub pattern replacement m.rest = [] ++ ';' :: after := hrest.symm
            obtain ⟨before', after', hbefore', hafter⟩ := ih hstart
            refine ⟨m.taken ++ before', after', ?_, hafter⟩
            rw [List.append_assoc, ← hbefore', taken_append_rest (mem_of_matchAt hm)]
        | cons d middle =>
            rw [List.cons_append, List.cons.injEq] at hrest
            refine absurd ?_ (hput input m hm)
            rw [hreplacement, hrest.1]
            exact List.mem_append_right _ (.head _)

theorem Separated.sub {text : Text} (separated : Separated text)
    (between : BetweenWords pattern replacement) (hproductive : Productive pattern)
    (hput : ∀ input m, matchAt pattern input = .some m →
      ';' ∉ replacement m ∧ '\n' ∉ m.taken ∧ '\n' ∉ replacement m) :
    Separated (Regex.sub pattern replacement text) := by
  intro before after heq
  obtain ⟨before', after', rfl, rfl⟩ := exists_of_sub_semicolon hproductive
    (fun input m hm => (hput input m hm).1) heq
  obtain ⟨hends, hnext⟩ := separated before' after' rfl
  exact ⟨between.endsRun hproductive hends,
    between.nextCode hproductive (fun input m hm => Or.inl (hput input m hm).2) hnext⟩

end Substitution

/-! ## Redirecting the assignments -/

/-- The operator that enters the pattern is the blank in front of the real one. -/
theorem operator_of_mem_findall {sampleWire text : Text} (hname : IsName sampleWire)
    {m : Match Char} (hm : m ∈ findall (assignmentPattern sampleWire) text) :
    (m.group 1).take 1 = [' '] := by
  have hproductive : Productive (assignmentPattern sampleWire) := by
    apply productive_of_not_nullable
    rw [assignmentPattern, chain, nullable, nullable_word,
      List.isEmpty_eq_false_iff.mpr hname.ne_nil, Bool.false_and]
  obtain ⟨before, following, -, hmatch⟩ := exists_of_mem_findall hproductive hm
  have hreading := mem_of_matchAt hmatch
  have hblank : " ".toList = [' '] := by decide
  simp only [assignmentPattern, chain, mem_readings_group, mem_readings_seq,
    mem_readings_word, mem_readings_alt] at hreading
  obtain ⟨_, ⟨_, -, rfl⟩, _, ⟨_, ⟨_, ⟨_, -, rfl⟩, operator, -, rfl⟩, rfl⟩, rfl⟩ := hreading
  simp [Match.group, Match.after, Match.close, hblank]

/-- What the substitution for an assignment looks for. -/
def redirectPattern (sampleWire : Text) : Pattern Char :=
  chain [word sampleWire, word [' '], word " "]

theorem redirectAssignments_induction {sampleWire : Text} (hname : IsName sampleWire)
    {text text' : Text} {found : List (Match Char)}
    (hfound : ∀ m ∈ found, (m.group 1).take 1 = [' '])
    (hrun : redirectAssignments sampleWire found text = .ok text') (motive : Text → Prop)
    (init : motive text)
    (next : ∀ text, motive text → motive (sub (redirectPattern sampleWire)
      (fun _ => originalName sampleWire ++ [' '] ++ " ") text)) : motive text' := by
  apply foldlM_induction (fun _ text => motive text) hrun init
  intro done m rest state state' hitems hstate hstep
  have hoperator := hfound m (by rw [hitems]; exact List.mem_append_right _ (.head _))
  have hplain : '\\' ∉ originalName sampleWire ++ [' '] ++ " ".toList := by
    have hmark : '\\' ∈ marks := by decide
    have hblanks : '\\' ∉ [' '] ∧ '\\' ∉ " ".toList := by decide
    rw [List.mem_append, List.mem_append, not_or, not_or]
    exact ⟨⟨mark_not_mem_word (isName_originalName hname).word hmark, hblanks.1⟩, hblanks.2⟩
  rw [hoperator, Template.resub_of_plain hplain, Except.ok.injEq] at hstep
  subst hstep
  exact next state hstate

theorem redirect_betweenWords {sampleWire : Text} (hname : IsName sampleWire) :
    BetweenWords (redirectPattern sampleWire)
      (fun _ => originalName sampleWire ++ [' '] ++ " ") := by
  intro input m hm
  obtain ⟨c, others, rfl⟩ := List.exists_cons_of_ne_nil hname.ne_nil
  have hc := hname.word c (.head _)
  have hreading := mem_of_matchAt hm
  simp only [redirectPattern, chain, mem_readings_seq, mem_readings_word] at hreading
  obtain ⟨_, ⟨_, -, rfl⟩, _, ⟨_, ⟨_, -, rfl⟩, _, ⟨_, -, rfl⟩, rfl⟩, rfl⟩ := hreading
  exact ⟨⟨c, rfl, hc⟩, c, rfl, hc⟩

theorem mark_not_mem_redirect {sampleWire : Text} (hname : IsName sampleWire) {c : Char}
    (hword : isWord c = false) (hblank : c ≠ ' ') :
    c ∉ sampleWire ++ [' '] ++ " ".toList := by
  have hspace : " ".toList = [' '] := by decide
  rw [hspace]
  simp only [List.mem_append, List.mem_singleton, not_or]
  refine ⟨⟨fun hmem => ?_, hblank⟩, hblank⟩
  rw [hname.word c hmem] at hword
  cases hword

theorem Separated.redirect {sampleWire : Text} (hname : IsName sampleWire) {text text' : Text}
    (separated : Separated text)
    (hrun : redirectAssignments sampleWire (findall (assignmentPattern sampleWire) text) text =
      .ok text') : Separated text' := by
  refine redirectAssignments_induction hname (fun m hm => operator_of_mem_findall hname hm) hrun
    Separated separated fun text separated => ?_
  have hproductive : Productive (redirectPattern sampleWire) := by
    apply productive_of_not_nullable
    rw [redirectPattern, chain, nullable, nullable_word,
      List.isEmpty_eq_false_iff.mpr hname.ne_nil, Bool.false_and]
  refine separated.sub (redirect_betweenWords hname) hproductive fun input m hm => ?_
  have htaken : m.taken = sampleWire ++ [' '] ++ " " := by
    have hreading := mem_of_matchAt hm
    simp only [redirectPattern, chain, mem_readings_seq, mem_readings_word] at hreading
    obtain ⟨_, ⟨_, -, rfl⟩, _, ⟨_, ⟨_, -, rfl⟩, _, ⟨_, -, rfl⟩, rfl⟩, rfl⟩ := hreading
    simp only [Match.after_taken, List.append_assoc]
  have horiginal := isName_originalName hname
  refine ⟨mark_not_mem_redirect horiginal isWord_semicolon.1 (by decide), ?_,
    mark_not_mem_redirect horiginal isWord_newline (by decide)⟩
  rw [htaken]
  exact mark_not_mem_redirect hname isWord_newline (by decide)

/-- The text in which the register is found is as separated as that of the module. -/
theorem Separated.site {module : Module} {sampleWire : Text} (hname : IsName sampleWire)
    (separated : Separated module.moduleText) {site : Site}
    (hsite : module.site sampleWire = .ok site) : Separated site.text := by
  unfold Module.site at hsite
  split at hsite
  · cases hsite
    exact separated
  · split at hsite
    · cases hsite
    · obtain ⟨redirected, hredirect, hsite⟩ := bind_eq_ok.mp hsite
      split at hsite
      · cases hsite
      · cases hsite
        exact separated.redirect hname hredirect

/-! ## The circuit of a register -/

/-- The first line of the circuit begins with a word, and so does the second. -/
theorem Site.circuit_lines {site : Site} {sampleWire : Text} (hbranch : site.branch = .register)
    (hname : IsName sampleWire) {faultInputWire : Text} (hinput : IsFaultWire faultInputWire)
    (faultOutputWire : Text) (index : Option Nat) :
    ∃ line following,
      site.circuit sampleWire faultInputWire faultOutputWire index =
        'w' :: (line ++ '\n' :: following) ∧ '\n' ∉ line ∧
      ∀ rest, nextCode false (following ++ rest) ≠ .some ';' := by
  have hsample : '\n' ∉ sampleWire := by
    intro hmem
    have hword := hname.word _ hmem
    rw [isWord_newline] at hword
    cases hword
  have hfault : '\n' ∉ faultInputWire := by
    intro hmem
    rcases hinput _ hmem with hword | himpossible | himpossible
    · rw [isWord_newline] at hword
      cases hword
    · cases himpossible
    · cases himpossible
  have hwire : "wire ".toList = 'w' :: "ire ".toList := by decide
  have hliterals : '\n' ∉ "ire ".toList ∧ '\n' ∉ "_faultybit = ".toList ∧
      '\n' ∉ " = ".toList ∧ '\n' ∉ [';'] ∧ '\n' ∉ " // fault injection".toList := by
    decide +kernel
  obtain ⟨hire, hfaulty, hequals, hend, hinjection⟩ := hliterals
  have hword : isWord 'w' = true ∧ isWord 'a' = true := by
    refine ⟨?_, ?_⟩ <;> (rw [isWord_ascii (by decide)]; decide)
  have hkeyword : "wire".toList = 'w' :: "ire".toList := by decide
  unfold circuit
  split
  · rename_i high low bit hbounds
    have hcut : ";\nwire".toList = [';'] ++ '\n' :: "wire".toList := by decide
    refine ⟨"ire " ++ sampleWire ++ "_faultybit = " ++ faultInputWire ++ [';'],
      "wire" ++ (site.found.group 1 ++ (sampleWire ++ (" = " ++ '\x7b' ::
        (busConcatination sampleWire high low bit ++
          '\x7d' :: site.busBack sampleWire faultOutputWire bit)))), ?_, ?_, fun rest => ?_⟩
    · rw [site.busCircuit_eq]
      unfold busFront busOpening
      rw [hbranch]
      simp only [hwire, hcut, List.append_assoc, List.cons_append, List.nil_append]
    · simp only [List.mem_append, not_or]
      exact ⟨⟨⟨⟨hire, hsample⟩, hfaulty⟩, hfault⟩, hend⟩
    · rw [hkeyword, List.cons_append, List.cons_append, nextCode_word hword.1]
      decide
  · have hcut : " // fault injection\n  assign ".toList =
        " // fault injection".toList ++ '\n' :: ' ' :: ' ' :: 'a' :: "ssign ".toList := by
      decide +kernel
    have hsemicolon : ";".toList = [';'] := by decide
    have hspace : isSpace ' ' = true := isSpace_blank
    refine ⟨"ire " ++ sampleWire ++ " = " ++ faultInputWire ++ [';'] ++ " // fault injection",
      ' ' :: ' ' :: 'a' :: ("ssign " ++ (faultOutputWire ++ (" = " ++ (originalName sampleWire ++
        ("; // direct original value to output \n " ++
          site.originalPlaceholder sampleWire))))), ?_, ?_, fun rest => ?_⟩
    · unfold bitCircuit
      rw [hbranch]
      simp only [hwire, hcut, hsemicolon, List.append_assoc, List.cons_append, List.nil_append]
    · simp only [List.mem_append, not_or]
      exact ⟨⟨⟨⟨⟨hire, hsample⟩, hequals⟩, hfault⟩, hend⟩, hinjection⟩
    · simp only [List.cons_append]
      rw [nextCode, if_pos hspace, nextCode, if_pos hspace,
        nextCode_word hword.2]
      decide

/-! ## The declaration of the original -/

/-- A token behind which a statement can begin. -/
def startsStatement : Option Verilog.Token → Bool
  | none => true
  | .some (.symbol c) => c == ';' || c == ')'
  | .some (.word text) => ["begin", "else", "end"].any fun keyword => text == keyword.toList
  | .some .quoted => false

/-- An assignment operator is next. -/
def assigns : List Verilog.Token → Bool
  | .symbol '=' :: rest => rest.head? != .some (.symbol '=')
  | .symbol '<' :: .symbol '=' :: _ => true
  | _ => false

/-- Give the assignments of a register to its original, and leave everything else. -/
def redirectTokens (register : Text) :
    Option Verilog.Token → List Verilog.Token → List Verilog.Token
  | _, [] => []
  | previous, token :: rest =>
      (if token = .word register ∧ startsStatement previous ∧ assigns rest then
          .word (originalName register)
        else token) :: redirectTokens register (.some token) rest

/-- What an injection into a register is for. -/
structure RedirectsRegister (text text' register : Text) : Prop where
  /-- The declaration is replaced, the assignments are redirected, the rest is kept. -/
  redirected : ∃ (before after circuit : Text) (gap : Gap),
    text = before ++ ("reg" ++ (gap.text ++ (register ++ ';' :: after))) ∧
    Verilog.tokens text' =
      redirectTokens register none (Verilog.tokens before) ++ Verilog.tokens circuit ++
        redirectTokens register (.some (.symbol ';')) (Verilog.tokens after) ∧
    redirectTokens register none (Verilog.tokens circuit) = Verilog.tokens circuit
  /-- The original is declared once, as a register with the same bounds. -/
  original : ∃ before gap after, DeclaredAt text' (originalName register) "reg" gap before after
  original_once : ∀ {keyword before after keyword' before' after' : Text} {gap gap' : Gap},
    DeclaredAt text' (originalName register) keyword gap before after →
    DeclaredAt text' (originalName register) keyword' gap' before' after' → before' = before
  bounds : ∀ {keyword before after keyword' before' after' : Text} {gap gap' : Gap},
    DeclaredAt text register keyword gap before after →
    DeclaredAt text' (originalName register) keyword' gap' before' after' →
      gap'.bounds = gap.bounds
  /-- The declaration of the original ends with a semicolon. -/
  terminated : ∀ {keyword before after : Text} {gap : Gap},
    DeclaredAt text' (originalName register) keyword gap before after →
      nextCode false after = .some ';'
  /-- The register is declared once, as a wire with a driver. -/
  wire : ∃ before gap after, DeclaredAt text' register "wire" gap before (" = " ++ after)
  wire_once : ∀ {keyword before after keyword' before' after' : Text} {gap gap' : Gap},
    DeclaredAt text' register keyword gap before after →
    DeclaredAt text' register keyword' gap' before' after' → before' = before

/-- The original of a register is declared with the gap of its declaration. -/
theorem Site.Cut.declaredAt_register {site : Site} {sampleWire : Text}
    (cut : site.Cut sampleWire) (hbranch : site.branch = .register)
    (faultInputWire faultOutputWire : Text) (index : Option Nat) {after : Text}
    (hends : EndsRun isWord after) :
    ∃ before, DeclaredAt
      (cut.before ++ (site.circuit sampleWire faultInputWire faultOutputWire index ++ after))
      (originalName sampleWire) "reg" cut.gap before after := by
  obtain ⟨-, -, hgap⟩ := cut.reads.register hbranch
  obtain ⟨front, hfront, hlast⟩ :=
    site.exists_front sampleWire faultInputWire faultOutputWire index
  refine ⟨cut.before ++ front, ?_, by decide, apart_of_getLast? hlast, hends⟩
  rw [hfront]
  unfold Site.originalPlaceholder
  rw [hbranch]
  simp only [hgap, List.append_assoc]

/-- What follows the declaration of a register begins no word and no empty statement. -/
theorem Site.Cut.separated_rest {site : Site} {sampleWire : Text} (cut : site.Cut sampleWire)
    (hbranch : site.branch = .register) (separated : Separated site.text) :
    EndsRun isWord site.found.rest ∧ nextCode false site.found.rest ≠ .some ';' := by
  have hend : ";".toList = [';'] := by decide
  obtain ⟨-, htaken, -⟩ := cut.reads.register hbranch
  apply separated (cut.before ++ (cut.keyword ++ cut.gap.text ++ sampleWire)) _
  rw [cut.text_eq, htaken, hend]
  simp only [List.append_assoc, List.cons_append, List.nil_append]

/-- The circuit stands between words wherever the declaration of the register did. -/
theorem Site.register_betweenWords {site : Site} (hbranch : site.branch = .register)
    (sampleWire : Text) {replacement : Text}
    (hput : ∃ c ∈ replacement.head?, isWord c = true) :
    BetweenWords (site.pattern sampleWire) (fun _ => replacement) := by
  intro input m hm
  refine ⟨?_, hput⟩
  have hreading := mem_of_matchAt hm
  have hpattern : site.pattern sampleWire = registerPattern sampleWire := by
    unfold Site.pattern
    rw [hbranch]
  have hreg : "reg".toList = 'r' :: "eg".toList := by decide
  rw [hpattern] at hreading
  have hreads : ∃ keyword gap, (Site.mk .register m site.text).Reads sampleWire keyword gap :=
    exists_reads_register hreading
  obtain ⟨keyword, gap, reads⟩ := hreads
  obtain ⟨rfl, htaken, -⟩ := reads.register rfl
  refine ⟨'r', ?_, ?_⟩
  · show 'r' ∈ m.taken.head?
    have htaken' : m.taken = "reg".toList ++ gap.text ++ sampleWire ++ ";" := htaken
    rw [htaken', hreg]
    rfl
  · rw [isWord_ascii (by decide)]
    decide

/-- A call that reaches the register branch leaves the declaration of the original open. -/
theorem not_redirectsRegister {module : Module}
    {sampleWire faultInputWire faultOutputWire : Text} (hname : IsName sampleWire)
    (hinput : IsFaultWire faultInputWire) (houtput : IsFaultWire faultOutputWire)
    (separated : Separated module.moduleText) {site : Site}
    (hsite : module.site sampleWire = .ok site) (hbranch : site.branch = .register)
    (busIndex : Option BusIndex) (draw : Nat) :
    ¬ ∃ module',
      module.injectFault sampleWire faultInputWire faultOutputWire busIndex draw = .ok module' ∧
      RedirectsRegister module.moduleText module'.moduleText sampleWire := by
  rintro ⟨module', hrun, redirects⟩
  have hreturn := hrun
  rw [module.injectFault_eq, hsite, ok_bind, bind_eq_ok] at hreturn
  obtain ⟨index, hindex, -⟩ := hreturn
  obtain ⟨cut⟩ := module.exists_cut hsite
  rw [module.injectFault_emits hname hinput houtput hsite hindex, Except.ok.injEq] at hrun
  subst hrun
  obtain ⟨line, following, hlines, hline, hnext⟩ :=
    site.circuit_lines hbranch hname hinput faultOutputWire index
  have hproductive := site.pattern_productive sampleWire
  have between : BetweenWords (site.pattern sampleWire)
      (fun _ => site.circuit sampleWire faultInputWire faultOutputWire index) := by
    refine site.register_betweenWords hbranch sampleWire ⟨'w', ?_, ?_⟩
    · rw [hlines]
      rfl
    · rw [isWord_ascii (by decide)]
      decide
  obtain ⟨hends, hsemicolon⟩ := cut.separated_rest hbranch (separated.site hname hsite)
  obtain ⟨before, horiginal⟩ := cut.declaredAt_register hbranch faultInputWire faultOutputWire
    index (between.endsRun hproductive hends)
  rw [← cut.sub_eq] at horiginal
  refine between.nextCode hproductive (fun input m hm => Or.inr fun rest => ?_) hsemicolon
    (redirects.terminated horiginal)
  have hcomment : ('w' :: line) ++ '\n' :: (following ++ rest) =
      site.circuit sampleWire faultInputWire faultOutputWire index ++ rest := by
    rw [hlines]
    simp only [List.append_assoc, List.cons_append]
  rw [← hcomment, nextCode_comment]
  · exact hnext rest
  · rw [List.mem_cons, not_or]
    exact ⟨by decide, hline⟩

end Runs

section Declared

attribute [local instance] UnicodeData.ascii

/-- A module with a register and one assignment to it. -/
def registerText : Text := lines
  ["module m(",
   "  input clock,",
   "  input a",
   ");",
   "  reg r;",
   "  always @(posedge clock) begin",
   "    r <= a;",
   "  end",
   "endmodule"]

example : redirectTokens "r" none (Verilog.tokens "begin r <= a; s <= r; end".toList) =
    Verilog.tokens "begin r_original <= a; s <= r; end".toList := by
  decide +kernel

theorem not_redirectsRegister_registerText :
    ∃ module, Module.make "m" registerText = .ok module ∧
      ¬ ∃ module',
        module.injectFault "r" "fault_inputs[0]" "fault_outputs[0]" none 0 = .ok module' ∧
        RedirectsRegister module.moduleText module'.moduleText "r" := by
  have hrun : (Module.make "m" registerText >>= fun module =>
      (module.site "r").map fun site =>
        decide (module.moduleText = registerText ∧ site.branch = .register)) = .ok true := by
    decide +kernel
  obtain ⟨module, hmodule, hrun⟩ := bind_eq_ok.mp hrun
  obtain ⟨site, hsite, hfacts⟩ := map_eq_ok.mp hrun
  obtain ⟨htext, hbranch⟩ := of_decide_eq_true hfacts
  have separated : Separated registerText := by decide
  rw [← htext] at separated
  exact ⟨module, hmodule, not_redirectsRegister (by decide) isFaultWire_bits.1
    isFaultWire_bits.2 separated hsite hbranch none 0⟩

/-- The text after a fault in `r`: its original is not terminated, and the assignment
still goes to `r`. -/
def openText : Text := lines
  ["module m(",
   "  input clock,",
   "  input a",
   ");",
   "  wire r = fault_inputs[0]; // fault injection",
   "  assign fault_outputs[0] = r_original; // direct original value to output ",
   " reg r_original",
   "  always @(posedge clock) begin",
   "    r <= a;",
   "  end",
   "endmodule"]

theorem registerText_open :
    ∃ module module', Module.make "m" registerText = .ok module ∧
      module.injectFault "r" "fault_inputs[0]" "fault_outputs[0]" none 0 = .ok module' ∧
      module'.moduleText = openText ∧
      ¬ RedirectsRegister module.moduleText module'.moduleText "r" := by
  have hrun : (Module.make "m" registerText >>= fun module =>
      (module.injectFault "r" "fault_inputs[0]" "fault_outputs[0]" none 0).map fun module' =>
        decide (module'.moduleText = openText)) = .ok true := by
    decide +kernel
  obtain ⟨module, hmodule, hrun⟩ := bind_eq_ok.mp hrun
  obtain ⟨module', hmodule', hfacts⟩ := map_eq_ok.mp hrun
  have htext := of_decide_eq_true hfacts
  refine ⟨module, module', hmodule, hmodule', htext, fun redirects => ?_⟩
  have horiginal : DeclaredAt openText (originalName "r") "reg" bitGap
      (lines ["module m(", "  input clock,", "  input a", ");",
        "  wire r = fault_inputs[0]; // fault injection",
        "  assign fault_outputs[0] = r_original; // direct original value to output "] ++ " ")
      (lines ["", "  always @(posedge clock) begin", "    r <= a;", "  end", "endmodule"]) :=
    ⟨by decide +kernel, by decide +kernel, apart_of_getLast? rfl,
      endsRun_cons.mpr (by decide)⟩
  exact absurd (redirects.terminated (htext ▸ horiginal)) (by decide)

end Declared

end FaultInjection
