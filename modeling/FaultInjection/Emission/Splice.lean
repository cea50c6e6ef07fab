import FaultInjection.Emission.Circuit

/-!
# Splicing a bit into a bus

A concatenation is read operand by operand: a name, one bit of a name, or a slice with
a colon between its bounds.  The one that is emitted for a bus cannot be read.
-/

namespace FaultInjection

open Regex Regex.Pattern Text

/-- An operand of a concatenation. -/
inductive Operand where
  | whole (name : Text)
  | bit (name : Text) (index : Nat)
  | slice (name : Text) (high low : Nat)
  deriving DecidableEq, Repr

/-- A bit that a concatenation lists; a wire of one bit has no index. -/
structure ListedBit where
  name : Text
  index : Option Nat
  deriving DecidableEq, Repr

/-- The numbers from `high` down to `low`. -/
def downTo (high low : Nat) : List Nat := (List.range' low (high + 1 - low)).reverse

/-- The bits of an operand, the highest first. -/
def Operand.bits : Operand → List ListedBit
  | .whole name => [⟨name, none⟩]
  | .bit name index => [⟨name, some index⟩]
  | .slice name high low => (downTo high low).map fun index => ⟨name, some index⟩

section Runs

variable [UnicodeData]

def isNumber (text : Text) : Bool := text != [] && text.all isDigit

/-- Read the selection behind the name of an operand. -/
def selection? (name selection : Text) : Option Operand :=
  match split ':' selection with
  | [index] => if isNumber index then Option.some (.bit name (int index)) else none
  | [high, low] =>
      if isNumber high && isNumber low && int low ≤ int high then
        Option.some (.slice name (int high) (int low))
      else none
  | _ => none

/-- Read one operand, with blanks around it. -/
def operand? (text : Text) : Option Operand :=
  let name := (strip text).takeWhile isWord
  if name = [] then none
  else
    match (strip text).dropWhile isWord with
    | [] => Option.some (.whole name)
    | '[' :: rest =>
        if rest.getLast? = .some ']' then selection? name rest.dropLast else none
    | _ => none

/-- Read what stands between the braces of a concatenation. -/
def concatenation? (inside : Text) : Option (List Operand) :=
  (split ',' inside).mapM operand?

/-- The declaration of the wire that carries the fault input. -/
def faultyBitWire (sampleWire faultInputWire : Text) : Text :=
  "wire " ++ sampleWire ++ "_faultybit = " ++ faultInputWire ++ ";"

/-- The assignment of one bit of the original to the fault output. -/
def observation (sampleWire faultOutputWire : Text) (bit : Nat) : Text :=
  "assign " ++ faultOutputWire ++ " = " ++ originalName sampleWire ++ "[" ++ decimal bit ++ "];"

/-- The fault input in a piece of text: the wire declared for it, or what drives that. -/
def IsFaultBit (piece sampleWire faultInputWire : Text) (bit : ListedBit) : Prop :=
  (bit = ⟨sampleWire ++ "_faultybit", none⟩ ∧
    faultyBitWire sampleWire faultInputWire <:+: piece) ∨
  ∃ operand, operand? faultInputWire = .some operand ∧ operand.bits = [bit]

/--
A piece of text declares a bus as the concatenation of its original bits, with the
fault input in the place of one, and assigns this bit of the original to the output.
-/
structure SplicesBit (piece sampleWire faultInputWire faultOutputWire : Text)
    (high low bit : Nat) : Prop where
  declared : ∃ (before after inside : Text) (gap : Gap) (operands : List Operand)
      (faultBit : ListedBit),
    piece = before ++ "wire" ++ gap.text ++ sampleWire ++ " = " ++
      '\x7b' :: (inside ++ '\x7d' :: ';' :: after) ∧
    gap.bounds.map (fun bounds => (int bounds.1, int bounds.2)) = .some (high, low) ∧
    concatenation? inside = .some operands ∧
    IsFaultBit piece sampleWire faultInputWire faultBit ∧
    operands.flatMap Operand.bits = (downTo high low).map fun index =>
      if index = bit then faultBit else ⟨originalName sampleWire, .some index⟩
  observed : observation sampleWire faultOutputWire bit <:+: piece

theorem operand?_nil : operand? [] = none := rfl

theorem strip_of_no_space {text : Text} (hspace : ∀ c ∈ text, isSpace c = false) :
    strip text = text := by
  have hfront : text.dropWhile isSpace = text := by
    cases text with
    | nil => rfl
    | cons c text =>
        rw [List.dropWhile_cons_of_neg]
        rw [hspace c (.head _)]
        exact Bool.false_ne_true
  rw [strip, hfront, List.rdropWhile_eq_self_iff]
  intro hne
  rw [hspace _ (List.getLast_mem hne)]
  exact Bool.false_ne_true

theorem operand?_open {name rest : Text} (hname : IsName name)
    (hrest : ∀ c ∈ rest, isDigit c = true) : operand? (name ++ '[' :: rest) = none := by
  have hbracket : isWord '[' = false := by
    rw [isWord_ascii (by decide)]
    decide
  have hstrip : strip (name ++ '[' :: rest) = name ++ '[' :: rest := by
    refine strip_of_no_space fun c hc => ?_
    rcases List.mem_append.mp hc with hc | hc
    · exact isSpace_of_isWord (hname.word c hc)
    · rcases List.mem_cons.mp hc with rfl | hc
      · exact Gap.isSpace_bracket.1
      · exact isSpace_of_isWord (isWord_of_isDigit (hrest c hc))
  have htake : (name ++ '[' :: rest).takeWhile isWord = name := by
    rw [List.takeWhile_append_of_pos hname.word, List.takeWhile_cons_of_neg, List.append_nil]
    rw [hbracket]
    exact Bool.false_ne_true
  have hdrop : (name ++ '[' :: rest).dropWhile isWord = '[' :: rest := by
    rw [List.dropWhile_append_of_pos hname.word, List.dropWhile_cons_of_neg]
    rw [hbracket]
    exact Bool.false_ne_true
  have hclosed : rest.getLast? ≠ .some ']' := by
    intro hlast
    have hdigit := hrest ']' (List.mem_of_getLast? hlast)
    rw [Gap.isDigit_bracket.2.2] at hdigit
    cases hdigit
  unfold operand?
  rw [hstrip, htake, hdrop]
  simp only
  rw [if_neg hname.ne_nil, if_neg hclosed]

theorem comma_not_mem {text : Text} (hword : ∀ c ∈ text, isWord c = true) : ',' ∉ text := by
  intro hcomma
  have hfalse := hword ',' hcomma
  rw [isWord_ascii (by decide)] at hfalse
  cases hfalse

/-- A concatenation cannot be read when its first operand cannot. -/
theorem concatenation?_first {first rest : Text} (hcomma : ',' ∉ first)
    (hfirst : operand? first = none) : concatenation? (first ++ ',' :: rest) = none := by
  have hneq : ∀ c ∈ first, (c == ',') = false := by
    intro c hc
    rw [beq_eq_false_iff_ne]
    rintro rfl
    exact hcomma hc
  rw [concatenation?, split, List.splitOn,
    List.splitOnP_append_cons (p := fun c => c == ',') _ _ (beq_self_eq_true ','),
    List.splitOnP_eq_singleton hneq, List.singleton_append, List.mapM_cons, hfirst]
  rfl

/--
The emitted concatenation begins with a selection that a comma cuts in two or, for the
highest bit, with an empty operand.
-/
theorem concatenation?_busConcatination {sampleWire high low : Text} {bit : Nat}
    (hname : IsName sampleWire) (hhigh : ∀ c ∈ high, isDigit c = true) :
    concatenation? (busConcatination sampleWire high low bit) = none := by
  have hcomma : ", ".toList = [',', ' '] ∧ "[".toList = ['['] := by decide +kernel
  have horiginal := isName_originalName hname
  have hcut : ∀ front after : Text, front ++ ", " ++ after = front ++ ',' :: ' ' :: after := by
    intro front after
    rw [hcomma.1, List.append_assoc]
    rfl
  unfold busConcatination
  by_cases hbit : bit < int high
  · have hopen : ',' ∉ originalName sampleWire ++ "[" ++ high := by
      rw [hcomma.2, List.append_assoc, List.mem_append, List.singleton_append, List.mem_cons]
      rintro (hmem | hmem | hmem)
      · exact comma_not_mem horiginal.word hmem
      · cases hmem
      · exact comma_not_mem (fun c hc => isWord_of_isDigit (hhigh c hc)) hmem
    have hnone : operand? (originalName sampleWire ++ "[" ++ high) = none := by
      rw [hcomma.2, List.append_assoc]
      exact operand?_open horiginal hhigh
    rw [if_pos hbit]
    simp only [hcut, List.append_assoc _ (',' :: _), List.cons_append]
    exact concatenation?_first hopen hnone
  · rw [if_neg hbit]
    simp only [hcut, List.append_assoc _ (',' :: _), List.cons_append]
    exact concatenation?_first (List.not_mem_nil) operand?_nil

omit [UnicodeData] in
/-- Between the only opening and the only closing brace stands one text. -/
theorem inside_unique {front inside back before inside' after : Text}
    (hopen : '\x7b' ∉ front ∧ '\x7b' ∉ inside ∧ '\x7b' ∉ back)
    (hclose : '\x7d' ∉ inside ∧ '\x7d' ∉ back)
    (heq : front ++ '\x7b' :: (inside ++ '\x7d' :: back) =
      before ++ '\x7b' :: (inside' ++ '\x7d' :: after)) : inside' = inside := by
  have hunique : ∀ {c : Char} {run rest run' rest' : Text}, run.count c = 0 →
      run'.count c = 0 → run ++ c :: rest = run' ++ c :: rest' → run = run' ∧ rest = rest' := by
    intro c run rest run' rest' hrun hrun' heq
    have hother : ∀ {text : Text}, text.count c = 0 → ∀ d ∈ text, (d != c) = true := by
      intro text hcount d hd
      rw [bne_iff_ne]
      rintro rfl
      exact List.count_eq_zero.mp hcount hd
    have hends : ∀ after : Text, EndsRun (· != c) (c :: after) :=
      fun after => endsRun_cons.mpr (bne_self_eq_false c)
    have hsame := (hends rest).unique (hends rest') (hother hrun) (hother hrun') heq
    exact ⟨hsame.1, List.tail_eq_of_cons_eq hsame.2⟩
  have hbefore : before.count '\x7b' = 0 := by
    have hcount := congrArg (List.count '\x7b') heq
    simp only [List.count_append, List.count_cons, List.count_eq_zero.mpr hopen.1,
      List.count_eq_zero.mpr hopen.2.1, List.count_eq_zero.mpr hopen.2.2, beq_self_eq_true,
      if_true] at hcount
    omega
  have hrest := (hunique (List.count_eq_zero.mpr hopen.1) hbefore heq).2
  have hinside : inside'.count '\x7d' = 0 := by
    have hcount := congrArg (List.count '\x7d') hrest
    simp only [List.count_append, List.count_cons, List.count_eq_zero.mpr hclose.1,
      List.count_eq_zero.mpr hclose.2, beq_self_eq_true, if_true] at hcount
    omega
  exact (hunique (List.count_eq_zero.mpr hclose.1) hinside hrest).1.symm

theorem Site.Cut.splices_nothing {site : Site} {sampleWire : Text} (cut : site.Cut sampleWire)
    {faultInputWire faultOutputWire : Text} (hname : IsName sampleWire)
    (hinput : IsFaultWire faultInputWire) (houtput : IsFaultWire faultOutputWire)
    {high low : Text} (hbounds : site.bounds? = .some (high, low)) (bit : Nat) :
    ¬ SplicesBit (site.circuit sampleWire faultInputWire faultOutputWire (.some bit))
      sampleWire faultInputWire faultOutputWire (int high) (int low) bit := by
  intro splices
  have reads := cut.reads
  obtain ⟨before, after, inside, gap, operands, faultBit, hdeclared, -, hreads, -⟩ :=
    splices.declared
  rw [site.circuit_bus hbounds, site.busCircuit_eq] at hdeclared
  have hopen : '\x7b' ∈ marks := by decide
  have hclose : '\x7d' ∈ marks := by decide
  have hinside := inside_unique
    ⟨reads.busFront_marks hname hinput hopen, reads.busConcatination_marks hname hbounds bit hopen,
      reads.busBack_marks hname houtput bit hopen⟩
    ⟨reads.busConcatination_marks hname hbounds bit hclose,
      reads.busBack_marks hname houtput bit hclose⟩ hdeclared
  obtain ⟨⟨-, hhigh⟩, -⟩ := cut.gap.number high low (reads.bounds.symm.trans hbounds)
  rw [hinside, concatenation?_busConcatination hname hhigh] at hreads
  cases hreads

/-- Whatever bit of a bus a call settles on, what it emits splices no bit. -/
theorem not_splicesBit {module : Module} {sampleWire faultInputWire faultOutputWire : Text}
    (hname : IsName sampleWire) (hinput : IsFaultWire faultInputWire)
    (houtput : IsFaultWire faultOutputWire) {site : Site}
    (hsite : module.site sampleWire = .ok site) {high low : Text}
    (hbounds : site.bounds? = .some (high, low)) {busIndex : Option BusIndex} {draw bit : Nat}
    (hindex : site.index busIndex draw = .ok (.some bit)) :
    ¬ ∃ module' piece,
      module.injectFault sampleWire faultInputWire faultOutputWire busIndex draw = .ok module' ∧
      module'.moduleText = sub (site.pattern sampleWire) (fun _ => piece) site.text ∧
      SplicesBit piece sampleWire faultInputWire faultOutputWire (int high) (int low) bit := by
  rintro ⟨module', piece, hrun, htext, splices⟩
  obtain ⟨cut⟩ := module.exists_cut hsite
  obtain ⟨others, hfound⟩ := module.findall_site hsite
  rw [module.injectFault_emits hname hinput houtput hsite hindex, Except.ok.injEq] at hrun
  subst hrun
  have hpiece := sub_const_injective (site.pattern_productive sampleWire)
    (by rw [hfound]; exact List.cons_ne_nil _ _) htext
  rw [← hpiece] at splices
  exact cut.splices_nothing hname hinput houtput hbounds bit splices

end Runs

section Declared

attribute [local instance] UnicodeData.ascii

example : concatenation? "w_original[3:2], w_faultybit, w_original[0]" =
    .some [.slice "w_original" 3 2, .whole "w_faultybit", .bit "w_original" 0] := by
  decide +kernel

theorem isFaultWire_bits : IsFaultWire "fault_inputs[0]" ∧ IsFaultWire "fault_outputs[0]" := by
  decide +kernel

/-- The module with its bus of four bits after a call for bit 2 of `w`. -/
def splicedText : Text := lines
  ["module m(",
   "  input [3:0] a,",
   "  output [3:0] z",
   ");",
   "  wire w_faultybit = fault_inputs[0];",
   " wire w = \x7bw_original[3, 2], w_faultybit, w_original[1, 0]\x7d // fault injection ",
   "  assign fault_outputs[0] = w_original[2]; // direct original value to output ",
   "  wire [3:0] w_original = a;",
   "  wire [2:2] v = a[2];",
   "  assign z = w;",
   "endmodule"]

/-- No call for bit 2 of `w` splices this bit. -/
theorem not_splicesBit_busText :
    ∃ module site, Module.make "m" busText = .ok module ∧ module.site "w" = .ok site ∧
      ¬ ∃ module' piece,
        module.injectFault "w" "fault_inputs[0]" "fault_outputs[0]" (.some (.number 2)) 0 =
          .ok module' ∧
        module'.moduleText = sub (site.pattern "w") (fun _ => piece) site.text ∧
        SplicesBit piece "w" "fault_inputs[0]" "fault_outputs[0]" (int "3") (int "0") 2 := by
  have hrun : (Module.make "m" busText >>= fun module => (module.site "w").map fun site =>
      decide (site.branch = .wire ∧ site.bounds? = .some ("3".toList, "0".toList))) =
        .ok true := by
    decide +kernel
  obtain ⟨module, hmodule, hrun⟩ := bind_eq_ok.mp hrun
  obtain ⟨site, hsite, hfacts⟩ := map_eq_ok.mp hrun
  obtain ⟨hbranch, hbounds⟩ := of_decide_eq_true hfacts
  exact ⟨module, site, hmodule, hsite, not_splicesBit (by decide +kernel) isFaultWire_bits.1
    isFaultWire_bits.2 hsite hbounds (site.index_number hbranch hbounds 2 0)⟩

/-- That call returns; its declaration of `w` has no bounds, and commas for colons. -/
theorem busText_spliced :
    ∃ module site module', Module.make "m" busText = .ok module ∧ module.site "w" = .ok site ∧
      module.injectFault "w" "fault_inputs[0]" "fault_outputs[0]" (.some (.number 2)) 0 =
        .ok module' ∧
      module'.moduleText = splicedText ∧
      ¬ SplicesBit (site.circuit "w" "fault_inputs[0]" "fault_outputs[0]" (.some 2))
        "w" "fault_inputs[0]" "fault_outputs[0]" (int "3") (int "0") 2 := by
  have hrun : (Module.make "m" busText >>= fun module => module.site "w" >>= fun site =>
      (module.injectFault "w" "fault_inputs[0]" "fault_outputs[0]" (.some (.number 2)) 0).map
        fun module' => decide (site.bounds? = .some ("3".toList, "0".toList) ∧
          module'.moduleText = splicedText)) = .ok true := by
    decide +kernel
  obtain ⟨module, hmodule, hrun⟩ := bind_eq_ok.mp hrun
  obtain ⟨site, hsite, hrun⟩ := bind_eq_ok.mp hrun
  obtain ⟨module', hmodule', hfacts⟩ := map_eq_ok.mp hrun
  obtain ⟨hbounds, htext⟩ := of_decide_eq_true hfacts
  obtain ⟨cut⟩ := module.exists_cut hsite
  exact ⟨module, site, module', hmodule, hsite, hmodule', htext,
    cut.splices_nothing (by decide +kernel) isFaultWire_bits.1 isFaultWire_bits.2 hbounds 2⟩

end Declared

end FaultInjection
