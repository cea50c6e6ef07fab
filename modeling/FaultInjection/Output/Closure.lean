import FaultInjection.Design.ParseFile
import FaultInjection.Output.Driver
import FaultInjection.Verilog.Grammar

/-!
# Reading the output again

The generated driver ends its ports with semicolons, and a blank stands in front of
its port list.  So its definition is none of the grammar that the design is written
in, and `parse_file` does not find it in the dumped file.
-/

namespace FaultInjection

open Regex Text Heap Verilog

/-- Every definition is one of the grammar. -/
def Grammatical (modules : List Module) : Prop :=
  ∀ module ∈ modules, WellFormed module.moduleText

/-- `parse_file` finds every definition in the file, with the same text. -/
def ReadBack [UnicodeData] (modules : List Module) (file : Text) : Prop :=
  ∃ parsed, parseFile file = .ok parsed ∧ ∀ module ∈ modules, ∃ type found,
    parsed.module? type = some found ∧ found.moduleText = module.moduleText

/-- The first port of a driver for several faults, up to its bounds. -/
theorem read_manyPorts (digits : Text) (hdigits : ∀ c ∈ digits, c.isDigit = true) :
    [.word "output".toList, .symbol ';'] <+: (Lexer.start.read
      ("module FaultDriver (\n  input  [".toList ++
        (digits ++ ':' :: "0] original_values;\n  output ".toList))).tokens := by
  have hfirst : (Lexer.start.read "module FaultDriver (\n  input  [".toList).mode =
      .code false := by decide
  obtain ⟨blank, hmode⟩ := Lexer.read_digits hfirst hdigits
  rw [Lexer.read_append, Lexer.read_append]
  have hsecond : [.word "output".toList, .symbol ';'] <+:
      ((⟨[.symbol ':'], [], .code false⟩ : Lexer).read
        "0] original_values;\n  output ".toList).tokens := by decide
  rw [Lexer.read, List.foldl_cons, Lexer.step_symbol hmode (by decide), ← Lexer.read,
    Lexer.read_after]
  exact hsecond.trans (List.prefix_append _ _)

theorem faultDriverText_not_wellFormed {faults : List Text} (hne : faults ≠ []) :
    ¬ WellFormed (faultDriverText faults) := by
  have hlength : faults.length ≠ 0 := fun hzero => hne (List.length_eq_zero_iff.mp hzero)
  by_cases hone : faults.length = 1
  · have hread : [.word "output".toList, .symbol ';'] <+: (Lexer.start.read
        "module FaultDriver (\n  input original_values;\n  output ".toList).tokens := by
      decide +kernel
    have hheader : faultDriverHeader faults =
        "module FaultDriver (\n  input original_values;\n  output ".toList ++
          "faulty_values;\n)" := (if_pos hone).trans (by decide)
    have hassoc : ∀ header first more body footer : Text, header = first ++ more →
        header ++ body ++ footer = first ++ (more ++ (body ++ footer)) := by
      rintro _ first more body footer rfl
      simp only [List.append_assoc]
    have htext : faultDriverText faults = _ :=
      hassoc _ _ _ (faultDriverBody faults) "\nendmodule" hheader
    rw [htext]
    exact not_wellFormed_of_clash clash_semicolon_output hread
  · have hread := read_manyPorts (decimal (faults.length - 1)) fun c hc =>
      isDigit_of_mem_decimal hc
    have hstart : ("module " ++ faultDriverType ++ " (\n  input  [" : Text) =
        "module FaultDriver (\n  input  [".toList := by decide
    have hmiddle : (":0] original_values;\n  output [" : Text) =
        ':' :: "0] original_values;\n  output ".toList ++ "[" := by decide
    have hbound : (if faults.length = 0 then ("-1" : Text) else decimal (faults.length - 1)) =
        decimal (faults.length - 1) := if_neg hlength
    have hassoc : ∀ start bound middle ending body footer start' bound' middle' last : Text,
        start = start' → middle = middle' ++ last → bound = bound' →
          (start ++ bound ++ middle ++ bound ++ ending) ++ body ++ footer =
            (start' ++ (bound' ++ middle')) ++ (last ++ (bound' ++ (ending ++ (body ++ footer)))) := by
      rintro _ _ _ ending body footer start bound middle last rfl rfl rfl
      simp only [List.append_assoc]
    have hheader : faultDriverHeader faults = _ := if_neg hone
    have htext := hassoc _ _ _ ":0] faulty_values;\n)" (faultDriverBody faults) "\nendmodule"
      _ _ _ _ hstart hmiddle hbound
    have hdriver : faultDriverText faults = _ :=
      (congrArg (· ++ faultDriverBody faults ++ "\nendmodule") hheader).trans htext
    rw [hdriver]
    exact not_wellFormed_of_clash clash_semicolon_output hread

section Parsing

variable [UnicodeData]

omit [UnicodeData] in
theorem exists_faultDriverText_eq (faults : List Text) : ∃ rest, faultDriverText faults =
    "module" ++ (" " ++ ("FaultDriver" ++ (" " ++ rest))) := by
  have hassoc : ∀ header first gap name space more body footer : Text,
      header = first ++ (gap ++ (name ++ (space ++ more))) → header ++ body ++ footer =
        first ++ (gap ++ (name ++ (space ++ (more ++ (body ++ footer))))) := by
    rintro _ first gap name space more body footer rfl
    simp only [List.append_assoc]
  by_cases hone : faults.length = 1
  · have hheader : faultDriverHeader faults = "module" ++ (" " ++ ("FaultDriver" ++ (" " ++
        "(\n  input original_values;\n  output faulty_values;\n)"))) :=
      (if_pos hone).trans (by decide)
    exact ⟨_, hassoc _ _ _ _ _ _ _ _ hheader⟩
  · have hstart : ("module " ++ faultDriverType ++ " (\n  input  [" : Text) =
        "module" ++ (" " ++ ("FaultDriver" ++ (" " ++ "(\n  input  ["))) := by decide
    have hmany : ∀ start bound ports bound' ending first gap name space more : Text,
        start = first ++ (gap ++ (name ++ (space ++ more))) →
          start ++ bound ++ ports ++ bound' ++ ending =
            first ++ (gap ++ (name ++ (space ++ (more ++ bound ++ ports ++ bound' ++ ending)))) := by
      rintro _ bound ports bound' ending first gap name space more rfl
      simp only [List.append_assoc]
    have hheader := (if_neg hone : faultDriverHeader faults = _).trans
      (hmany _ _ _ _ _ _ _ _ _ _ hstart)
    exact ⟨_, hassoc _ _ _ _ _ _ _ _ hheader⟩

/-- In a module that is parsed the bracket stands right behind the name. -/
theorem Chunk.text_ne_faultDriverText (chunk : Chunk) (faults : List Text) :
    chunk.text ≠ faultDriverText faults := by
  intro heq
  obtain ⟨rest, hrest⟩ := exists_faultDriverText_eq faults
  rw [hrest] at heq
  have htext : chunk.text = "module" ++ (chunk.gap ++ (chunk.type ++ ("(" ++ chunk.inside))) :=
    rfl
  have htail := List.append_cancel_left (htext.symm.trans heq)
  have hgap : ∀ c ∈ (" " : Text), isSpace c = true := by
    intro c hc
    rw [List.mem_singleton.mp hc]
    exact isSpace_blank
  have hname : IsName "FaultDriver" :=
    isName_of_ascii (by decide) (by decide)
  have hends : ∀ {name rest : Text}, IsName name → EndsRun isSpace (name ++ rest) := by
    intro name rest hname
    obtain ⟨c, letters, rfl⟩ := List.exists_cons_of_ne_nil hname.ne_nil
    exact endsRun_cons.mpr (isSpace_of_isWord (hname.word c (.head _)))
  obtain ⟨-, htype⟩ := (hends chunk.type_name).unique (hends hname) chunk.gap_space hgap htail
  have hbracket : EndsRun isWord ("(" ++ chunk.inside) := endsRun_cons.mpr isWord_bracket
  have hspace : EndsRun isWord (" " ++ rest) := endsRun_cons.mpr (isWord_of_isSpace isSpace_blank)
  obtain ⟨-, hlast⟩ := hbracket.unique hspace chunk.type_name.word hname.word htype
  have hhead := congrArg List.head? hlast
  exact absurd (Option.some.inj hhead) (by decide)

namespace ModuleTree

theorem Injection.not_closed {marked : ModuleTree}
    (instances : marked.heap.InstanceTree marked.rootInstance) (hbound : marked.heap.Bound)
    (hpaths : marked.heap.pathsOf marked.rootInstance ≠ []) (injection : Injection marked) :
    ∃ modules file, injection.injected.dumped = .ok modules ∧
      injection.injected.dump = .ok file ∧ ¬ Grammatical modules ∧ ¬ ReadBack modules file := by
  obtain ⟨rest, hdumped⟩ := injection.exists_dumped instances hbound hpaths
  have hdriver := injection.driver_eq.2
  refine ⟨_, _, hdumped, by rw [dump, hdumped]; rfl, fun hgrammar => ?_, ?_⟩
  · have hwellFormed := hgrammar injection.driver (.tail _ (.head _))
    rw [hdriver] at hwellFormed
    exact faultDriverText_not_wellFormed hpaths hwellFormed
  · rintro ⟨parsed, hparse, hfound⟩
    obtain ⟨type, found, hmodule, htext⟩ := hfound injection.driver (.tail _ (.head _))
    obtain ⟨chunk, -, rfl, -⟩ := exists_chunk_of_module? hparse hmodule
    rw [hdriver] at htext
    exact chunk.text_ne_faultDriverText _ htext

/--
After a run with faults the dumped file has a definition that is not of the grammar
and one that `parse_file` does not find.
-/
theorem injectFaults_not_closed {contents rootType : Text} {faultPaths : List Text}
    {tree marked injected : ModuleTree} (hsetup : IsSetUp contents rootType tree)
    (hfaults : faultPaths ≠ []) (hmark : tree.markFaults faultPaths = .ok marked)
    (hrun : marked.injectFaults = .ok injected) :
    ∃ modules file, injected.dumped = .ok modules ∧ injected.dump = .ok file ∧
      ¬ Grammatical modules ∧ ¬ ReadBack modules file := by
  obtain ⟨parsed, -, built⟩ := hsetup.built
  have sound := built.sound
  obtain ⟨heap, rfl, hmarked⟩ := sound.markFaults hmark
  have instances := hmarked.sameLinks.instanceTree sound.instances
  obtain ⟨injection, rfl⟩ := injectFaults_injection instances hrun
  apply injection.not_closed instances (hmarked.bound sound.bound)
  show heap.pathsOf tree.rootInstance ≠ []
  rw [hmarked.root_paths, sound.unmarked]
  exact hfaults

end ModuleTree

end Parsing

section Twin

attribute [local instance] UnicodeData.ascii

namespace ModuleTree

theorem injectFaults_not_closed_twin :
    ∃ tree marked injected, IsSetUp twinDesign "Core" tree ∧
      tree.markFaults (twinFaults.map FaultPath.text) = .ok marked ∧
      marked.injectFaults = .ok injected ∧
      ∃ modules file, injected.dumped = .ok modules ∧ injected.dump = .ok file ∧
        ¬ Grammatical modules ∧ ¬ ReadBack modules file := by
  obtain ⟨tree, marked, injected, hsetup, hmark, hrun, -⟩ := twinDesign_run
  exact ⟨tree, marked, injected, hsetup, hmark, hrun,
    injectFaults_not_closed hsetup (by decide) hmark hrun⟩

/-- Both modules of the design are of the grammar and found, and the output is not. -/
theorem injectFaults_opens_design :
    (entries (universalNewlines twinDesign)).map Prod.fst = ["Core".toList, "ALU".toList] ∧
      (∀ entry ∈ entries (universalNewlines twinDesign), WellFormed entry.2) ∧
      ∃ tree marked injected modules file, IsSetUp twinDesign "Core" tree ∧
        tree.markFaults (twinFaults.map FaultPath.text) = .ok marked ∧
        marked.injectFaults = .ok injected ∧ injected.dumped = .ok modules ∧
        injected.dump = .ok file ∧ ¬ (Grammatical modules ∧ ReadBack modules file) := by
  refine ⟨by decide, by decide, ?_⟩
  obtain ⟨tree, marked, injected, hsetup, hmark, hrun, -⟩ := twinDesign_run
  obtain ⟨parsed, -, built⟩ := hsetup.built
  have sound := built.sound
  obtain ⟨heap, rfl, hmarked⟩ := sound.markFaults hmark
  have instances := hmarked.sameLinks.instanceTree sound.instances
  obtain ⟨injection, rfl⟩ := injectFaults_injection instances hrun
  obtain ⟨modules, file, hdumped, hdump, hgrammar, -⟩ :=
    injection.not_closed instances (hmarked.bound sound.bound) (by
      show heap.pathsOf tree.rootInstance ≠ []
      rw [hmarked.root_paths, sound.unmarked]
      decide)
  exact ⟨tree, _, _, modules, file, hsetup, hmark, hrun, hdumped, hdump,
    fun hclosed => hgrammar hclosed.1⟩

end ModuleTree

end Twin

end FaultInjection
