import FaultInjection.Emission.Statement

/-!
# What is emitted

The text that `inject_fault` puts in the place of a statement has no backslash in it, so
that it is its own template, and the braces of its concatenation are the only ones.
-/

namespace FaultInjection

open Regex Regex.Pattern Text

variable [UnicodeData]

theorem isName_originalName {sampleWire : Text} (hname : IsName sampleWire) :
    IsName (originalName sampleWire) := by
  have hsuffix : IsName "_original" := isName_of_ascii (by decide) (by decide)
  refine ⟨List.append_ne_nil_of_left_ne_nil hname.ne_nil _, fun c hc => ?_⟩
  rcases List.mem_append.mp hc with hc | hc
  · exact hname.word c hc
  · exact hsuffix.word c hc

/-- Fault wires are names, or bits of a bus. -/
def IsFaultWire (text : Text) : Prop :=
  ∀ c ∈ text, isWord c = true ∨ c = '[' ∨ c = ']'

instance (text : Text) : Decidable (IsFaultWire text) :=
  decidable_of_iff (text.all (fun c => isWord c || (c == '[' || c == ']')) = true)
    (by simp [IsFaultWire])

/-- The characters that a template or a concatenation is told by. -/
def marks : Text := ['\x7b', '\x7d', '\\']

omit [UnicodeData] in
theorem mem_marks {c : Char} (hc : c ∈ marks) : c = '\x7b' ∨ c = '\x7d' ∨ c = '\\' := by
  simpa only [marks, List.mem_cons, List.not_mem_nil, or_false] using hc

omit [UnicodeData] in
theorem mark_not_mem_texts (texts : List Text)
    (habsent : (texts.all fun text => marks.all fun c => !text.contains c) = true) {c : Char}
    (hc : c ∈ marks) : ∀ text ∈ texts, c ∉ text := by
  intro text htext hmem
  have hcontains := List.all_eq_true.mp (List.all_eq_true.mp habsent text htext) c hc
  rw [List.contains_iff_mem.mpr hmem] at hcontains
  cases hcontains

theorem isWord_of_mem_marks {c : Char} (hc : c ∈ marks) : isWord c = false := by
  rcases mem_marks hc with rfl | rfl | rfl <;> (rw [isWord_ascii (by decide)]; decide)

theorem Gap.mark_not_mem (gap : Gap) {c : Char} (hc : c ∈ marks) : c ∉ gap.text := by
  rcases mem_marks hc with rfl | rfl | rfl <;> exact gap.not_mem_text (by decide) (by decide)

theorem IsFaultWire.mark_not_mem {text : Text} (hwire : IsFaultWire text) {c : Char}
    (hc : c ∈ marks) : c ∉ text := by
  intro hmem
  rcases hwire c hmem with hword | rfl | rfl
  · rw [isWord_of_mem_marks hc] at hword
    cases hword
  · exact absurd hc (by decide)
  · exact absurd hc (by decide)

theorem IsFaultWire.not_mem {text : Text} (hwire : IsFaultWire text) {c : Char}
    (hc : isWord c = false) (hopen : c ≠ '[') (hclose : c ≠ ']') : c ∉ text := by
  intro hmem
  rcases hwire c hmem with hword | rfl | rfl
  · rw [hc] at hword
    cases hword
  · exact hopen rfl
  · exact hclose rfl

theorem mark_not_mem_word {text : Text} (hword : ∀ c ∈ text, isWord c = true) {c : Char}
    (hc : c ∈ marks) : c ∉ text := by
  intro hmem
  have htrue := hword c hmem
  rw [isWord_of_mem_marks hc] at htrue
  cases htrue

omit [UnicodeData] in
theorem mark_not_mem_decimal (n : Nat) {c : Char} (hc : c ∈ marks) : c ∉ decimal n := by
  intro hmem
  have hdigit := isDigit_of_mem_decimal hmem
  rcases mem_marks hc with rfl | rfl | rfl <;> cases hdigit

namespace Site

/-- What is emitted for a bus in front of its concatenation. -/
def busFront (site : Site) (sampleWire faultInputWire : Text) : Text :=
  site.busOpening sampleWire faultInputWire ++ " = "

/-- What is emitted for a bus behind its concatenation. -/
def busBack (site : Site) (sampleWire faultOutputWire : Text) (faultyIndex : Nat) : Text :=
  " // fault injection \n  assign " ++ faultOutputWire ++ " = " ++ originalName sampleWire ++
    "[" ++ decimal faultyIndex ++ "]; // direct original value to output \n  " ++
    site.originalPlaceholder sampleWire

theorem busCircuit_eq (site : Site)
    (sampleWire faultInputWire faultOutputWire high low : Text) (bit : Nat) :
    site.busCircuit sampleWire faultInputWire faultOutputWire high low bit =
      site.busFront sampleWire faultInputWire ++
        '\x7b' :: (busConcatination sampleWire high low bit ++
          '\x7d' :: site.busBack sampleWire faultOutputWire bit) := by
  have hopen : " = \x7b".toList = " = ".toList ++ ['\x7b'] := by decide
  have hclose : "\x7d".toList = ['\x7d'] := by decide
  unfold busCircuit busFront busBack
  rw [hopen, hclose]
  simp only [List.append_assoc, List.cons_append, List.nil_append]

section Marks

variable {site : Site} {sampleWire keyword : Text} {gap : Gap}

theorem Reads.originalPlaceholder_marks (reads : site.Reads sampleWire keyword gap)
    (hname : IsName sampleWire) {c : Char} (hc : c ∈ marks) :
    c ∉ site.originalPlaceholder sampleWire := by
  have hliterals := mark_not_mem_texts ["wire", "reg", " = "] (by decide) hc
  simp only [List.forall_mem_cons] at hliterals
  obtain ⟨hwire, hreg, hequals, -⟩ := hliterals
  have horiginal := mark_not_mem_word (isName_originalName hname).word hc
  have hgap := gap.mark_not_mem hc
  unfold originalPlaceholder
  cases hbranch : site.branch with
  | wire =>
      obtain ⟨-, -, -, hgroup, hending⟩ := reads.wire hbranch
      simp only [hgroup, hending, List.mem_append, not_or]
      exact ⟨⟨⟨hwire, hgap⟩, horiginal⟩, hequals⟩
  | register =>
      obtain ⟨-, -, hgroup⟩ := reads.register hbranch
      simp only [hgroup, List.mem_append, not_or]
      exact ⟨⟨hreg, hgap⟩, horiginal⟩

theorem Reads.busFront_marks (reads : site.Reads sampleWire keyword gap)
    (hname : IsName sampleWire) {faultInputWire : Text} (hinput : IsFaultWire faultInputWire)
    {c : Char} (hc : c ∈ marks) : c ∉ site.busFront sampleWire faultInputWire := by
  have hliterals := mark_not_mem_texts ["wire ", "_faultybit = ", ";\n ", " ", ";\nwire", " = ",
    "wire", "assign"] (by decide) hc
  simp only [List.forall_mem_cons] at hliterals
  obtain ⟨hopen, hfaulty, hnewline, hblank, hwire, hequals, hkeywire, hkeyassign,
    -⟩ := hliterals
  have hsample := mark_not_mem_word hname.word hc
  have hgap := gap.mark_not_mem hc
  have hfault := hinput.mark_not_mem hc
  unfold busFront busOpening
  cases hbranch : site.branch with
  | wire =>
      obtain ⟨hkeyword, -, hgroup, -, -⟩ := reads.wire hbranch
      have hkey : c ∉ keyword := by
        rcases hkeyword with rfl | rfl
        · exact hkeywire
        · exact hkeyassign
      simp only [hgroup, List.mem_append, not_or]
      exact ⟨⟨⟨⟨⟨⟨⟨⟨hopen, hsample⟩, hfaulty⟩, hfault⟩, hnewline⟩, hkey⟩, hblank⟩, hsample⟩,
        hequals⟩
  | register =>
      obtain ⟨-, -, hgroup⟩ := reads.register hbranch
      simp only [hgroup, List.mem_append, not_or]
      exact ⟨⟨⟨⟨⟨⟨⟨hopen, hsample⟩, hfaulty⟩, hfault⟩, hwire⟩, hgap⟩, hsample⟩, hequals⟩

theorem Reads.busBack_marks (reads : site.Reads sampleWire keyword gap)
    (hname : IsName sampleWire) {faultOutputWire : Text} (houtput : IsFaultWire faultOutputWire)
    (bit : Nat) {c : Char} (hc : c ∈ marks) : c ∉ site.busBack sampleWire faultOutputWire bit := by
  have hliterals := mark_not_mem_texts [" // fault injection \n  assign ", " = ", "[",
    "]; // direct original value to output \n  "] (by decide) hc
  simp only [List.forall_mem_cons] at hliterals
  obtain ⟨hcomment, hequals, hbracket, hdirect, -⟩ := hliterals
  have horiginal := mark_not_mem_word (isName_originalName hname).word hc
  unfold busBack
  simp only [List.mem_append, not_or]
  exact ⟨⟨⟨⟨⟨⟨⟨hcomment, houtput.mark_not_mem hc⟩, hequals⟩, horiginal⟩, hbracket⟩,
    mark_not_mem_decimal bit hc⟩, hdirect⟩, reads.originalPlaceholder_marks hname hc⟩

theorem Reads.bitCircuit_marks (reads : site.Reads sampleWire keyword gap)
    (hname : IsName sampleWire) {faultInputWire faultOutputWire : Text}
    (hinput : IsFaultWire faultInputWire) (houtput : IsFaultWire faultOutputWire)
    {c : Char} (hc : c ∈ marks) :
    c ∉ site.bitCircuit sampleWire faultInputWire faultOutputWire := by
  have hliterals := mark_not_mem_texts ["wire ", " ", " = ", ";",
    " // fault injection \n  assign ", " // fault injection\n  assign ",
    "; // direct original value to output \n  ", "; // direct original value to output \n ",
    "wire", "assign"] (by decide) hc
  simp only [List.forall_mem_cons] at hliterals
  obtain ⟨hopen, hblank, hequals, hend, hcomment, hcomment', hdirect, hdirect', hkeywire,
    hkeyassign, -⟩ := hliterals
  have hsample := mark_not_mem_word hname.word hc
  have horiginal := mark_not_mem_word (isName_originalName hname).word hc
  have hplaceholder := reads.originalPlaceholder_marks hname hc
  unfold bitCircuit
  cases hbranch : site.branch with
  | wire =>
      obtain ⟨hkeyword, -, hgroup, -, -⟩ := reads.wire hbranch
      have hkey : c ∉ keyword := by
        rcases hkeyword with rfl | rfl
        · exact hkeywire
        · exact hkeyassign
      simp only [hgroup, List.mem_append, not_or]
      exact ⟨⟨⟨⟨⟨⟨⟨⟨⟨⟨⟨hkey, hblank⟩, hsample⟩, hequals⟩, hinput.mark_not_mem hc⟩, hend⟩,
        hcomment⟩, houtput.mark_not_mem hc⟩, hequals⟩, horiginal⟩, hdirect⟩, hplaceholder⟩
  | register =>
      simp only [List.mem_append, not_or]
      exact ⟨⟨⟨⟨⟨⟨⟨⟨⟨⟨hopen, hsample⟩, hequals⟩, hinput.mark_not_mem hc⟩, hend⟩, hcomment'⟩,
        houtput.mark_not_mem hc⟩, hequals⟩, horiginal⟩, hdirect'⟩, hplaceholder⟩

/-- The concatenation of a bus holds words, brackets, commas and blanks. -/
theorem Reads.mem_busConcatination (reads : site.Reads sampleWire keyword gap)
    (hname : IsName sampleWire) {high low : Text} (hbounds : site.bounds? = .some (high, low))
    {bit : Nat} {c : Char} (hc : c ∈ busConcatination sampleWire high low bit) :
    isWord c = true ∨ c ∈ ['[', ']', ',', ' '] := by
  obtain ⟨⟨-, hhigh⟩, -, hlow⟩ := gap.number high low (reads.bounds.symm.trans hbounds)
  have horiginal := (isName_originalName hname).word c
  have hfaulty : ∀ c ∈ "_faultybit".toList, isWord c = true :=
    (isName_of_ascii (by decide) (by decide) : IsName "_faultybit").word
  have hdecimal : ∀ n, c ∈ decimal n → isWord c = true :=
    fun n hmem => isWord_of_isDigit (isDigit_of_decimal hmem)
  have hliterals : ∀ text ∈ ["[".toList, ", ".toList, "]".toList], c ∈ text →
      c ∈ ['[', ']', ',', ' '] := by
    have hall : (["[".toList, ", ".toList, "]".toList].all fun text =>
        text.all fun c => ['[', ']', ',', ' '].contains c) = true := by
      decide +kernel
    intro text htext hmem
    exact List.contains_iff_mem.mp
      (List.all_eq_true.mp (List.all_eq_true.mp hall text htext) c hmem)
  simp only [List.forall_mem_cons] at hliterals
  obtain ⟨hopen, hcomma, hclose, -⟩ := hliterals
  unfold busConcatination at hc
  rw [List.mem_append, List.mem_append, List.mem_append, List.mem_append] at hc
  rcases hc with (((hc | hc) | hc) | hc) | hc
  · split at hc
    · simp only [List.mem_append] at hc
      rcases hc with ((((hc | hc) | hc) | hc) | hc) | hc
      · exact Or.inl (horiginal hc)
      · exact Or.inr (hopen hc)
      · exact Or.inl (isWord_of_isDigit (hhigh c hc))
      · exact Or.inr (hcomma hc)
      · exact Or.inl (hdecimal _ hc)
      · exact Or.inr (hclose hc)
    · cases hc
  · exact Or.inr (hcomma hc)
  · exact Or.inl (hname.word c hc)
  · exact Or.inl (hfaulty c hc)
  · split at hc
    · simp only [List.mem_append] at hc
      rcases hc with (((((hc | hc) | hc) | hc) | hc) | hc) | hc
      · exact Or.inr (hcomma hc)
      · exact Or.inl (horiginal hc)
      · exact Or.inr (hopen hc)
      · exact Or.inl (hdecimal _ hc)
      · exact Or.inr (hcomma hc)
      · exact Or.inl (isWord_of_isDigit (hlow c hc))
      · exact Or.inr (hclose hc)
    · cases hc

theorem Reads.busConcatination_marks (reads : site.Reads sampleWire keyword gap)
    (hname : IsName sampleWire) {high low : Text} (hbounds : site.bounds? = .some (high, low))
    (bit : Nat) {c : Char} (hc : c ∈ marks) : c ∉ busConcatination sampleWire high low bit := by
  intro hmem
  rcases reads.mem_busConcatination hname hbounds hmem with hword | hother
  · rw [isWord_of_mem_marks hc] at hword
    cases hword
  · rcases mem_marks hc with rfl | rfl | rfl <;> exact absurd hother (by decide)

theorem Reads.circuit_plain (reads : site.Reads sampleWire keyword gap)
    (hname : IsName sampleWire) {faultInputWire faultOutputWire : Text}
    (hinput : IsFaultWire faultInputWire) (houtput : IsFaultWire faultOutputWire)
    (index : Option Nat) :
    '\\' ∉ site.circuit sampleWire faultInputWire faultOutputWire index := by
  have hc : '\\' ∈ marks := by decide
  unfold circuit
  split
  · rename_i high low bit hbounds
    rw [busCircuit_eq, List.mem_append, List.mem_cons, List.mem_append, List.mem_cons]
    rintro (hmem | hmem | hmem | hmem | hmem)
    · exact reads.busFront_marks hname hinput hc hmem
    · cases hmem
    · exact reads.busConcatination_marks hname hbounds bit hc hmem
    · cases hmem
    · exact reads.busBack_marks hname houtput bit hc hmem
  · exact reads.bitCircuit_marks hname hinput houtput hc

end Marks

end Site

/-- The declaration of the original ends the circuit, behind the end of a comment. -/
theorem Site.exists_front (site : Site)
    (sampleWire faultInputWire faultOutputWire : Text) (index : Option Nat) :
    ∃ front, site.circuit sampleWire faultInputWire faultOutputWire index =
        front ++ site.originalPlaceholder sampleWire ∧ front.getLast? = .some ' ' := by
  have hbus : "]; // direct original value to output \n  ".toList.getLast? = .some ' ' := by
    decide +kernel
  have hwire : "; // direct original value to output \n  ".toList.getLast? = .some ' ' := by
    decide +kernel
  have hregister : "; // direct original value to output \n ".toList.getLast? = .some ' ' := by
    decide +kernel
  unfold circuit
  split
  · refine ⟨_, rfl, ?_⟩
    rw [List.getLast?_append, hbus, Option.some_or]
  · unfold bitCircuit
    split
    · refine ⟨_, rfl, ?_⟩
      rw [List.getLast?_append, hwire, Option.some_or]
    · refine ⟨_, rfl, ?_⟩
      rw [List.getLast?_append, hregister, Option.some_or]

theorem Module.injectFault_emits {module : Module}
    {sampleWire faultInputWire faultOutputWire : Text} (hname : IsName sampleWire)
    (hinput : IsFaultWire faultInputWire) (houtput : IsFaultWire faultOutputWire) {site : Site}
    (hsite : module.site sampleWire = .ok site) {busIndex : Option BusIndex} {draw : Nat}
    {index : Option Nat} (hindex : site.index busIndex draw = .ok index) :
    module.injectFault sampleWire faultInputWire faultOutputWire busIndex draw =
      .ok { module with
        moduleText := sub (site.pattern sampleWire)
          (fun _ => site.circuit sampleWire faultInputWire faultOutputWire index) site.text } := by
  obtain ⟨cut⟩ := module.exists_cut hsite
  rw [injectFault_eq, hsite, ok_bind, hindex, ok_bind,
    Template.resub_of_plain (cut.reads.circuit_plain hname hinput houtput index), ok_bind]
  rfl

end FaultInjection
