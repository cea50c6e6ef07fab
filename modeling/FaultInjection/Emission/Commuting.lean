import FaultInjection.Emission.Wire

/-!
# Faults in two wires

What is emitted for one wire holds no statement that drives another one, and completes
none in front of it.  Faults in two wires of a module may be injected in either order.
-/

namespace FaultInjection

open Regex Regex.Pattern Text

section Runs

variable [UnicodeData]

/-! ## The statements of a circuit -/

theorem endsWord_cons {c : Char} (hc : isWord c = false) {name : Text}
    (hname : ∀ d ∈ name, isWord d = true) (before : Text) : EndsWord (before ++ c :: name) name :=
  ⟨before, c, rfl, hc, hname⟩

theorem EndsWord.append {text name : Text} (hends : EndsWord text name) (before : Text) :
    EndsWord (before ++ text) name := by
  obtain ⟨start, c, rfl, hc, hname⟩ := hends
  exact ⟨before ++ start, c, (List.append_assoc _ _ _).symm, hc, hname⟩

/-- A fault port ends with its name, or with the bracket of its index. -/
theorem endsWord_faultWire {port : Text} (hport : IsName port) (count index : Nat) :
    EndsWord (' ' :: faultWire port count index) (if count = 1 then port else []) := by
  unfold faultWire
  split
  · exact endsWord_cons isWord_blank hport.word []
  · have hclose : "]".toList = [']'] := by decide
    have hbracket : isWord ']' = false := by
      rw [isWord_ascii (by decide)]
      decide
    rw [hclose, ← List.cons_append]
    exact endsWord_cons hbracket (by simp) _

theorem isFaultWire_faultWire {port : Text} (hport : IsName port) (count index : Nat) :
    IsFaultWire (faultWire port count index) := by
  have hopen : "[".toList = ['['] := by decide
  have hclose : "]".toList = [']'] := by decide
  unfold faultWire
  split
  · exact fun c hc => Or.inl (hport.word c hc)
  · intro c hc
    rw [hopen, hclose, List.mem_append, List.mem_append, List.mem_append, List.mem_singleton,
      List.mem_singleton] at hc
    rcases hc with ((hc | hc) | hc) | hc
    · exact Or.inl (hport.word c hc)
    · exact Or.inr (Or.inl hc)
    · exact Or.inl (isWord_of_isDigit (isDigit_of_decimal hc))
    · exact Or.inr (Or.inr hc)

/-- A text of stretches up to equals signs, each behind one of the given words. -/
inductive Drives (names : List Text) : Text → Prop
  | nil : Drives names []
  | cons {stretch name rest : Text} (hequals : '=' ∉ stretch) (hends : EndsWord stretch name)
      (hname : name ∈ names) (hrest : Drives names rest) :
      Drives names (stretch ++ (" = " ++ rest))

theorem Drives.clear {names : List Text} {text : Text} (hdrives : Drives names text)
    {sampleWire : Text} (hname : IsName sampleWire) (hother : sampleWire ∉ names)
    (following : Text) : Clear (wirePattern sampleWire) text following := by
  induction hdrives with
  | nil => exact Clear.nil _ _
  | cons hequals hends hmem hrest ih =>
      rw [← List.append_assoc, Clear.append_iff]
      refine ⟨clear_wirePattern hname hequals hends ?_ _, ih⟩
      rintro rfl
      exact hother hmem

/-- The words in front of the equals signs of a circuit. -/
def drivenNames (sampleWire : Text) (count : Nat) : List Text :=
  [sampleWire, originalName sampleWire, sampleWire ++ "_faultybit",
    if count = 1 then "fault_outputs" else []]

theorem isName_ports : IsName "fault_inputs" ∧ IsName "fault_outputs" :=
  ⟨isName_of_ascii (by decide) (by decide),
    isName_of_ascii (by decide) (by decide)⟩

theorem equals_not_mem_faultWire {port : Text} (hport : IsName port) (count index : Nat) :
    '=' ∉ faultWire port count index :=
  (isFaultWire_faultWire hport count index).not_mem isWord_equals (by decide) (by decide)

namespace Site

section Stretches

variable {site : Site} {sampleWire keyword : Text} {gap : Gap}

theorem Reads.originalPlaceholder_wire (reads : site.Reads sampleWire keyword gap)
    (hbranch : site.branch = .wire) : site.originalPlaceholder sampleWire =
      "wire" ++ (gap.text ++ (originalName sampleWire ++ " = ")) := by
  obtain ⟨-, -, -, hgroup, hending⟩ := reads.wire hbranch
  unfold originalPlaceholder
  rw [hbranch]
  simp only [hgroup, hending, List.append_assoc]

/-- The declaration of the original drives nothing but the original. -/
theorem drives_original (gap : Gap) (hname : IsName sampleWire) (count : Nat) {lead : Text}
    (hlead : '=' ∉ lead) : Drives (drivenNames sampleWire count)
      (lead ++ ("wire" ++ (gap.text ++ (originalName sampleWire ++ " = ")))) := by
  have horiginal := isName_originalName hname
  have hequals := equals_not_mem_statement (Or.inl rfl) gap horiginal
  have hends := endsWord_statement lead "wire" gap horiginal
  have hmem : originalName sampleWire ∈ drivenNames sampleWire count := .tail _ (.head _)
  have hall := Drives.cons (List.not_mem_append hlead hequals) hends hmem .nil
  simpa only [List.append_assoc, List.append_nil] using hall

theorem equals_not_mem_driving (hkeyword : IsDriving keyword) : '=' ∉ keyword :=
  hkeyword.isName.not_mem isWord_equals

theorem Reads.drives_bitCircuit (reads : site.Reads sampleWire keyword gap)
    (hbranch : site.branch = .wire) (hname : IsName sampleWire)
    (count inputIndex outputIndex : Nat) :
    Drives (drivenNames sampleWire count) (site.bitCircuit sampleWire
      (faultWire "fault_inputs" count inputIndex)
      (faultWire "fault_outputs" count outputIndex)) := by
  obtain ⟨hkeyword, -, hgroup, -, -⟩ := reads.wire hbranch
  have htexts : " ".toList = [' '] ∧ " // fault injection \n  assign ".toList =
      " // fault injection \n  assign".toList ++ [' '] := by
    decide +kernel
  have hliterals : '=' ∉ " // fault injection \n  assign".toList ∧
      '=' ∉ "; // direct original value to output \n  ".toList ∧ '=' ∉ ";".toList := by
    decide +kernel
  have hsample := hname.not_mem isWord_equals
  have horiginal := (isName_originalName hname).not_mem isWord_equals
  have hfirst : '=' ∉ keyword ++ ' ' :: sampleWire := by
    simp only [List.mem_append, List.mem_cons, not_or]
    exact ⟨equals_not_mem_driving hkeyword, by decide, hsample⟩
  have hsecond : '=' ∉ (faultWire "fault_inputs" count inputIndex ++ (";" ++
      " // fault injection \n  assign")) ++ ' ' :: faultWire "fault_outputs" count outputIndex := by
    simp only [List.mem_append, List.mem_cons, not_or]
    exact ⟨⟨equals_not_mem_faultWire isName_ports.1 _ _, hliterals.2.2, hliterals.1⟩, by decide,
      equals_not_mem_faultWire isName_ports.2 _ _⟩
  have hthird : '=' ∉ originalName sampleWire ++
      "; // direct original value to output \n  ".toList := by
    simp only [List.mem_append, not_or]
    exact ⟨horiginal, hliterals.2.1⟩
  have hall := Drives.cons hfirst (endsWord_cons isWord_blank hname.word keyword) (.head _)
    (.cons hsecond ((endsWord_faultWire isName_ports.2 count outputIndex).append _)
      (.tail _ (.tail _ (.tail _ (.head _)))) (drives_original gap hname count hthird))
  unfold bitCircuit
  rw [hbranch, reads.originalPlaceholder_wire hbranch]
  simp only [hgroup, htexts, List.append_assoc, List.cons_append, List.nil_append]
  simp only [List.append_assoc, List.cons_append] at hall
  exact hall

theorem Reads.drives_busCircuit (reads : site.Reads sampleWire keyword gap)
    (hbranch : site.branch = .wire) (hname : IsName sampleWire) {high low : Text}
    (hbounds : site.bounds? = .some (high, low)) (count inputIndex outputIndex bit : Nat) :
    Drives (drivenNames sampleWire count) (site.busCircuit sampleWire
      (faultWire "fault_inputs" count inputIndex) (faultWire "fault_outputs" count outputIndex)
      high low bit) := by
  obtain ⟨hkeyword, -, hgroup, -, -⟩ := reads.wire hbranch
  have htexts : " ".toList = [' '] ∧ "wire ".toList = "wire".toList ++ [' '] ∧
      "_faultybit = ".toList = "_faultybit".toList ++ " = ".toList ∧
      " = \x7b".toList = " = ".toList ++ "\x7b".toList ∧
      " // fault injection \n  assign ".toList =
        " // fault injection \n  assign".toList ++ [' '] := by
    decide +kernel
  have hliterals : '=' ∉ " // fault injection \n  assign".toList ∧
      '=' ∉ "]; // direct original value to output \n  ".toList ∧ '=' ∉ ";\n ".toList ∧
      '=' ∉ "wire".toList ∧ '=' ∉ "\x7b".toList ∧ '=' ∉ "\x7d".toList ∧ '=' ∉ "[".toList := by
    decide +kernel
  obtain ⟨hcomment, hdirect, hend, hwire, hopen, hclose, hbracket⟩ := hliterals
  have hsample := hname.not_mem isWord_equals
  have horiginal := (isName_originalName hname).not_mem isWord_equals
  have hsuffix : IsName "_faultybit" := isName_of_ascii (by decide) (by decide)
  have hfaulty : ∀ c ∈ sampleWire ++ "_faultybit".toList, isWord c = true := by
    intro c hc
    rcases List.mem_append.mp hc with hc | hc
    · exact hname.word c hc
    · exact hsuffix.word c hc
  have hconcatination : '=' ∉ busConcatination sampleWire high low bit := by
    intro hmem
    rcases reads.mem_busConcatination hname hbounds hmem with hword | hother
    · rw [isWord_equals] at hword
      cases hword
    · exact absurd hother (by decide)
  have hdecimal : '=' ∉ decimal bit := by
    intro hmem
    have hword := isWord_of_isDigit (isDigit_of_decimal hmem)
    rw [isWord_equals] at hword
    cases hword
  have hfirst : '=' ∉ "wire".toList ++ ' ' :: (sampleWire ++ "_faultybit".toList) := by
    simp only [List.mem_append, List.mem_cons, not_or]
    exact ⟨hwire, by decide, hsample, hsuffix.not_mem isWord_equals⟩
  have hsecond : '=' ∉ (faultWire "fault_inputs" count inputIndex ++ (";\n " ++ keyword)) ++
      ' ' :: sampleWire := by
    simp only [List.mem_append, List.mem_cons, not_or]
    exact ⟨⟨equals_not_mem_faultWire isName_ports.1 _ _, hend,
      equals_not_mem_driving hkeyword⟩, by decide, hsample⟩
  have hthird : '=' ∉ ("\x7b" ++ (busConcatination sampleWire high low bit ++ ("\x7d" ++
      " // fault injection \n  assign".toList))) ++
        ' ' :: faultWire "fault_outputs" count outputIndex := by
    simp only [List.mem_append, List.mem_cons, not_or]
    exact ⟨⟨hopen, hconcatination, hclose, hcomment⟩, by decide,
      equals_not_mem_faultWire isName_ports.2 _ _⟩
  have hfourth : '=' ∉ originalName sampleWire ++ ("[" ++ (decimal bit ++
      "]; // direct original value to output \n  ".toList)) := by
    simp only [List.mem_append, not_or]
    exact ⟨horiginal, hbracket, hdecimal, hdirect⟩
  have hall := Drives.cons hfirst (endsWord_cons isWord_blank hfaulty "wire")
    (.tail _ (.tail _ (.head _)))
    (.cons hsecond (endsWord_cons isWord_blank hname.word _) (.head _)
      (.cons hthird ((endsWord_faultWire isName_ports.2 count outputIndex).append _)
        (.tail _ (.tail _ (.tail _ (.head _)))) (drives_original gap hname count hfourth)))
  unfold busCircuit busOpening
  rw [hbranch, reads.originalPlaceholder_wire hbranch]
  simp only [hgroup, htexts, List.append_assoc, List.cons_append, List.nil_append]
  simp only [List.append_assoc, List.cons_append] at hall
  exact hall

theorem Reads.drives_circuit (reads : site.Reads sampleWire keyword gap)
    (hbranch : site.branch = .wire) (hname : IsName sampleWire) (count inputIndex outputIndex : Nat)
    (index : Option Nat) :
    Drives (drivenNames sampleWire count) (site.circuit sampleWire
      (faultWire "fault_inputs" count inputIndex) (faultWire "fault_outputs" count outputIndex)
      index) := by
  unfold circuit
  split
  · rename_i high low bit hbounds
    exact reads.drives_busCircuit hbranch hname hbounds count inputIndex outputIndex bit
  · exact reads.drives_bitCircuit hbranch hname count inputIndex outputIndex

theorem Reads.exists_opening (reads : site.Reads sampleWire keyword gap)
    (hbranch : site.branch = .wire) (hname : IsName sampleWire)
    (faultInputWire faultOutputWire : Text) (index : Option Nat) :
    ∃ opening c more, IsDriving opening ∧ isWord c = true ∧
      site.circuit sampleWire faultInputWire faultOutputWire index =
        opening ++ ' ' :: c :: more := by
  obtain ⟨hkeyword, -, hgroup, -, -⟩ := reads.wire hbranch
  obtain ⟨c, others, rfl⟩ := List.exists_cons_of_ne_nil hname.ne_nil
  have htexts : " ".toList = [' '] ∧ "wire ".toList = "wire".toList ++ [' '] := by
    decide +kernel
  unfold circuit
  split
  · exact ⟨"wire", c, _, Or.inl rfl, hname.word c (.head _), by
      unfold busCircuit busOpening
      rw [hbranch]
      simp only [htexts, List.append_assoc, List.cons_append, List.nil_append]
      rfl⟩
  · exact ⟨keyword, c, _, hkeyword, hname.word c (.head _), by
      unfold bitCircuit
      rw [hbranch]
      simp only [hgroup, htexts, List.append_assoc, List.cons_append, List.nil_append]
      rfl⟩

end Stretches

end Site

/-! ## Two faults -/

/-- A fault in a wire, as `inject_fault` is called for it. -/
structure WireFault where
  sampleWire : Text
  index : Nat
  busIndex : Option BusIndex
  draw : Nat
  isName : IsName sampleWire

namespace WireFault

/-- The call for a fault with its bits of the fault ports. -/
def inject (fault : WireFault) (count : Nat) (module : Module) : Except PythonError Module :=
  module.injectFault fault.sampleWire (faultWire "fault_inputs" count fault.index)
    (faultWire "fault_outputs" count fault.index) fault.busIndex fault.draw

/-- A wire driven in the module, with its bit given as a number when it is a bus. -/
def Settled (fault : WireFault) (module : Module) : Prop :=
  ∃ found others, findall (wirePattern fault.sampleWire) module.moduleText = found :: others ∧
    (strip (found.group 2) ≠ [] → ∃ bit, fault.busIndex = .some (.number bit))

/-- The circuit that a fault puts in the place of the statements of its wire. -/
def circuit (fault : WireFault) (count : Nat) (groups : List (Nat × Text)) : Text :=
  (Site.mk .wire ⟨[], [], groups⟩ []).circuit fault.sampleWire
    (faultWire "fault_inputs" count fault.index) (faultWire "fault_outputs" count fault.index)
    (match fault.busIndex with
      | .some (.number bit) => .some bit
      | _ => none)

theorem inject_eq {fault : WireFault} {module : Module} {found : Match Char}
    {others : List (Match Char)}
    (hfound : findall (wirePattern fault.sampleWire) module.moduleText = found :: others)
    (hbit : strip (found.group 2) ≠ [] → ∃ bit, fault.busIndex = .some (.number bit))
    (count : Nat) :
    fault.inject count module = .ok { module with
      moduleText := sub (wirePattern fault.sampleWire) (fun _ => fault.circuit count found.groups)
        module.moduleText } := by
  have hsite : module.site fault.sampleWire = .ok ⟨.wire, found, module.moduleText⟩ := by
    rw [Module.site, hfound]
  have hindex : ∃ index, (Site.mk .wire found module.moduleText).index fault.busIndex fault.draw =
      .ok index ∧ (Site.mk .wire found module.moduleText).circuit fault.sampleWire
        (faultWire "fault_inputs" count fault.index)
        (faultWire "fault_outputs" count fault.index) index =
          fault.circuit count found.groups := by
    by_cases hbounds : strip (found.group 2) = []
    · have hnone : (Site.mk .wire found module.moduleText).bounds? = none := by
        rw [Site.bounds?_wire, if_neg (not_not_intro hbounds)]
      refine ⟨none, by rw [Site.index, hnone], ?_⟩
      rw [Site.circuit_bit _ hnone]
      exact (Site.circuit_bit (Site.mk .wire found module.moduleText) hnone _ _ _ _).symm
    · obtain ⟨bit, hbit⟩ := hbit hbounds
      obtain ⟨⟨high, low⟩, hbus⟩ : ∃ bounds,
          (Site.mk .wire found module.moduleText).bounds? = .some bounds := by
        rw [Site.bounds?_wire, if_pos hbounds]
        exact ⟨_, rfl⟩
      refine ⟨.some bit, ?_, ?_⟩
      · rw [hbit, Site.index_number rfl hbus]
      · rw [circuit, hbit]
        rfl
  obtain ⟨index, hindex, hcircuit⟩ := hindex
  have hports := isName_ports
  rw [inject, Module.injectFault_emits fault.isName (isFaultWire_faultWire hports.1 _ _)
    (isFaultWire_faultWire hports.2 _ _) hsite hindex, hcircuit]
  rfl

/-- The names that a fault uses. -/
def names (fault : WireFault) : List Text :=
  [fault.sampleWire, originalName fault.sampleWire, fault.sampleWire ++ "_faultybit",
    "fault_inputs", "fault_outputs"]

theorem not_mem_drivenNames {first second : WireFault}
    (hother : second.sampleWire ∉ first.names) (count : Nat) :
    second.sampleWire ∉ drivenNames first.sampleWire count := by
  simp only [names, List.mem_cons, List.not_mem_nil, or_false, not_or] at hother
  obtain ⟨hwire, horiginal, hfaulty, -, houtput⟩ := hother
  simp only [drivenNames, List.mem_cons, List.not_mem_nil, or_false, not_or]
  refine ⟨hwire, horiginal, hfaulty, ?_⟩
  split
  · exact houtput
  · exact second.isName.ne_nil

theorem clear_taken {first second : WireFault} (hne : second.sampleWire ≠ first.sampleWire)
    {input : Text} {m : Match Char} (hm : matchAt (wirePattern first.sampleWire) input = .some m)
    (following : Text) : Clear (wirePattern second.sampleWire) m.taken following := by
  obtain ⟨keyword, gap, hkeyword, -, heq⟩ := exists_of_matchAt_wirePattern first.isName hm
  have hends := endsWord_statement [] keyword gap first.isName
  have hclear := clear_wirePattern second.isName
    (equals_not_mem_statement hkeyword gap first.isName) hends hne.symm following
  rw [heq, wireMatch]
  simpa only [List.append_assoc] using hclear

/-- A fault and what it emits stay apart from the statements of another wire. -/
theorem apart {first second : WireFault} {input : Text} {found : Match Char}
    (hfound : found ∈ readings (wirePattern first.sampleWire) input)
    (hother : second.sampleWire ∉ first.names) (count : Nat) :
    Apart (wirePattern first.sampleWire) (wirePattern second.sampleWire)
      (first.circuit count found.groups) := by
  obtain ⟨keyword, gap, reads⟩ : ∃ keyword gap,
      (Site.mk .wire found []).Reads first.sampleWire keyword gap := exists_reads_wire hfound
  have hdriven := not_mem_drivenNames hother count
  have hne : second.sampleWire ≠ first.sampleWire := fun h => hother (h ▸ .head _)
  refine ⟨?_, ?_, ?_⟩
  · exact fun hm => clear_taken hne hm
  · exact (reads.drives_circuit rfl first.isName count first.index first.index _).clear
      second.isName hdriven
  · intro before following m hbefore hm
    obtain ⟨opening, c, more, hopening, hc, hcircuit⟩ := reads.exists_opening rfl first.isName
      (faultWire "fault_inputs" count first.index) (faultWire "fault_outputs" count first.index)
      (match first.busIndex with
        | .some (.number bit) => .some bit
        | _ => none)
    have hpiece : first.circuit count found.groups = opening ++ ' ' :: c :: more := hcircuit
    rw [hpiece] at hm
    refine wirePattern_border second.isName hopening isWord_blank ?_ hbefore hm
    rintro rfl
    rw [isWord_equals] at hc
    cases hc

/-- After another fault a call finds its first statement as it was. -/
theorem exists_after {first second : WireFault} {text input : Text} {found : Match Char}
    (hfound : found ∈ readings (wirePattern first.sampleWire) input)
    (hother : second.sampleWire ∉ first.names) (count : Nat) {found' : Match Char}
    {others : List (Match Char)}
    (hfound' : findall (wirePattern second.sampleWire) text = found' :: others) :
    ∃ again more, findall (wirePattern second.sampleWire)
        (sub (wirePattern first.sampleWire) (fun _ => first.circuit count found.groups) text) =
          again :: more ∧ again.groups = found'.groups := by
  have hne : second.sampleWire ≠ first.sampleWire := fun h => hother (h ▸ .head _)
  have hstays := findall_sub (wirePattern_productive first.sampleWire)
    (wirePattern_productive second.sampleWire) (wirePattern_stable second.isName)
    (apart hfound hother count) (fun hm => clear_taken hne.symm hm) text
  rw [hfound', List.map_cons] at hstays
  cases hagain : findall (wirePattern second.sampleWire)
      (sub (wirePattern first.sampleWire) (fun _ => first.circuit count found.groups) text) with
  | nil =>
      rw [hagain] at hstays
      cases hstays
  | cons again more =>
      rw [hagain, List.map_cons, List.cons.injEq, Prod.mk.injEq] at hstays
      exact ⟨again, more, rfl, hstays.1.2⟩

/-- The text after two faults, the second one in what the first one leaves. -/
theorem inject_inject {first second : WireFault} {module : Module}
    {found found' : Match Char} {others others' : List (Match Char)}
    (hfound : findall (wirePattern first.sampleWire) module.moduleText = found :: others)
    (hbit : strip (found.group 2) ≠ [] → ∃ bit, first.busIndex = .some (.number bit))
    (hfound' : findall (wirePattern second.sampleWire) module.moduleText = found' :: others')
    (hbit' : strip (found'.group 2) ≠ [] → ∃ bit, second.busIndex = .some (.number bit))
    (hother : second.sampleWire ∉ first.names) (count : Nat) :
    (first.inject count module >>= second.inject count) = .ok { module with
      moduleText := sub (wirePattern second.sampleWire)
        (fun _ => second.circuit count found'.groups)
        (sub (wirePattern first.sampleWire) (fun _ => first.circuit count found.groups)
          module.moduleText) } := by
  obtain ⟨before, following, -, -, hm⟩ :=
    first_of_findall (wirePattern_productive first.sampleWire) hfound
  obtain ⟨again, more, hagain, hgroups⟩ := exists_after (mem_of_matchAt hm) hother count hfound'
  have hgroup : again.group 2 = found'.group 2 := by
    rw [Match.group, Match.group, hgroups]
  rw [inject_eq hfound hbit count, ok_bind, inject_eq hagain (hgroup ▸ hbit') count, hgroups]

/-- Faults in two wires of a module may be injected in either order. -/
theorem inject_comm {first second : WireFault} {module : Module}
    (hfirst : first.Settled module) (hsecond : second.Settled module)
    (hapart : second.sampleWire ∉ first.names) (hapart' : first.sampleWire ∉ second.names)
    (count : Nat) :
    ∃ module', (first.inject count module >>= second.inject count) = .ok module' ∧
      (second.inject count module >>= first.inject count) = .ok module' := by
  obtain ⟨found, others, hfound, hbit⟩ := hfirst
  obtain ⟨found', others', hfound', hbit'⟩ := hsecond
  obtain ⟨before, following, -, -, hm⟩ :=
    first_of_findall (wirePattern_productive first.sampleWire) hfound
  obtain ⟨before', following', -, -, hm'⟩ :=
    first_of_findall (wirePattern_productive second.sampleWire) hfound'
  have hcomm := sub_comm (wirePattern_productive first.sampleWire)
    (wirePattern_productive second.sampleWire) (wirePattern_stable first.isName)
    (wirePattern_stable second.isName) (apart (mem_of_matchAt hm) hapart count)
    (apart (mem_of_matchAt hm') hapart' count) module.moduleText
  refine ⟨_, inject_inject hfound hbit hfound' hbit' hapart count, ?_⟩
  rw [inject_inject hfound' hbit' hfound hbit hapart' count, hcomm]

end WireFault

end Runs

section TwoWires

attribute [local instance] UnicodeData.ascii

/-- A bus and a wire that reads it. -/
def twoWires : Text := lines
  ["module m(", "  input  [7:0] io_a,", "  output io_b", ");", "  wire [7:0] sum = io_a;",
    "  wire top = sum[7]; // @[m.scala 9:5]", "  assign io_b = top;", "endmodule", ""]

def twoWiresModule : Module := ⟨"m", twoWires, parseIo twoWires, extractWires twoWires⟩

theorem isName_sum : IsName "sum" := by decide

def sumFault : WireFault := ⟨"sum", 0, .some (.number 3), 0, isName_sum⟩

def topFault : WireFault := ⟨"top", 1, none, 0, by decide +kernel⟩

theorem WireFault.inject_comm_twoWires : ∃ module',
    (sumFault.inject 2 twoWiresModule >>= topFault.inject 2) = .ok module' ∧
      (topFault.inject 2 twoWiresModule >>= sumFault.inject 2) = .ok module' := by
  have hsum : (findall (wirePattern "sum") twoWires).length = 1 := by decide
  have htop : (findall (wirePattern "top") twoWires).map (fun m => strip (m.group 2)) = [[]] := by
    decide +kernel
  refine inject_comm ?_ ?_ (by decide) (by decide) 2
  · obtain ⟨found, hfound⟩ := List.length_eq_one_iff.mp hsum
    exact ⟨found, [], hfound, fun _ => ⟨3, rfl⟩⟩
  · obtain ⟨found, others, hfound, hblank, -⟩ := List.map_eq_cons_iff.mp htop
    exact ⟨found, others, hfound, fun hne => absurd hblank hne⟩

end TwoWires

end FaultInjection
