import FaultInjection.Emission.Splice

/-!
# The width of a signal

A signal has the width of its declaration, wherever that stands.  The bounds that
`inject_fault` uses stand next to the statement that drives the signal.
-/

namespace FaultInjection

open Regex Regex.Pattern Text

section Runs

variable [UnicodeData]

/-- The keywords that declare a signal. -/
def declarationWords : List Text := ["input", "output", "wire", "reg"].map String.toList

/-- A place where a text declares a name, and what stands around it. -/
structure DeclaredAt (text name keyword : Text) (gap : Gap) (before after : Text) : Prop where
  text_eq : text = before ++ (keyword ++ (gap.text ++ (name ++ after)))
  keyword_mem : keyword ∈ declarationWords
  apart : ∀ c ∈ before.getLast?, isWord c = false
  ends : EndsRun isWord after

namespace Gap

/-- The highest and the lowest bit of what is declared behind a gap. -/
def range (gap : Gap) : Nat × Nat :=
  match gap.bounds with
  | none => (0, 0)
  | .some (high, low) => (int high, int low)

def width (gap : Gap) : Nat := gap.range.1 + 1 - gap.range.2

theorem width_of_no_bounds {gap : Gap} (hbounds : gap.bounds = none) : gap.width = 1 := by
  unfold width range
  rw [hbounds]
  rfl

end Gap

/-- A statement of the text drives a name with an expression. -/
def DrivenBy (text name driver : Text) : Prop :=
  ∃ (before after keyword : Text) (gap : Gap),
    text = before ++ (keyword ++ (gap.text ++ (name ++ (" = " ++ (driver ++ ';' :: after))))) ∧
    (keyword = "wire" ∨ keyword = "assign") ∧ ';' ∉ driver

/-- The bits of a driver, the highest first: a concatenation or a single operand. -/
def driverBits? (driver : Text) : Option (List ListedBit) :=
  match strip driver with
  | '\x7b' :: rest =>
      if rest.getLast? = .some '\x7d' then
        (concatenation? rest.dropLast).map (List.flatMap Operand.bits)
      else none
  | operand => (operand? operand).map Operand.bits

/-- The bit of a signal at a position above its lowest; a short driver is filled up
with zeros. -/
def bitValue (value : ListedBit → Bool) (bits : List ListedBit) (position : Nat) : Bool :=
  bits.reverse[position]?.any value

/-- After an injection the original has the width of the signal and the value that drove
it, and the signal differs from it in one bit at most. -/
structure KeepsWidth (text text' sampleWire : Text) : Prop where
  original : ∀ {keyword before after keyword' before' after' : Text} {gap gap' : Gap},
    DeclaredAt text sampleWire keyword gap before after →
    DeclaredAt text' (originalName sampleWire) keyword' gap' before' after' →
      gap'.width = gap.width
  driven : ∀ {driver : Text}, DrivenBy text sampleWire driver →
    DrivenBy text' (originalName sampleWire) driver
  bits : ∀ {keyword before after driver : Text} {gap : Gap},
    DeclaredAt text sampleWire keyword gap before after → DrivenBy text' sampleWire driver →
      ∃ bits, driverBits? driver = .some bits ∧
        ∀ value : ListedBit → Bool, ∃ faulty, ∀ position < gap.width, position ≠ faulty →
          bitValue value bits position =
            value ⟨originalName sampleWire, .some (gap.range.2 + position)⟩

/-- A keyword behind a blank stands apart from what is in front. -/
theorem apart_of_getLast? {front : Text} (hlast : front.getLast? = .some ' ')
    {before : Text} : ∀ c ∈ (before ++ front).getLast?, isWord c = false := by
  intro c hc
  rw [List.getLast?_append, hlast, Option.some_or, Option.mem_some_iff] at hc
  rw [← hc]
  exact isWord_blank

theorem Site.index_bit {site : Site} (hbounds : site.bounds? = none)
    (busIndex : Option BusIndex) (draw : Nat) : site.index busIndex draw = .ok none := by
  rw [index, hbounds]

/-- The original of a driven signal is declared with the gap of the statement found. -/
theorem Site.Cut.declaredAt_wire {site : Site} {sampleWire : Text}
    (cut : site.Cut sampleWire) (hbranch : site.branch = .wire)
    (faultInputWire faultOutputWire : Text) (index : Option Nat) (after : Text) :
    ∃ before, DeclaredAt
      (cut.before ++ (site.circuit sampleWire faultInputWire faultOutputWire index ++ after))
      (originalName sampleWire) "wire" cut.gap before (" = " ++ after) := by
  have hequals : " = ".toList = [' ', '=', ' '] := by decide
  obtain ⟨-, -, -, hgap, hending⟩ := cut.reads.wire hbranch
  obtain ⟨front, hfront, hlast⟩ :=
    site.exists_front sampleWire faultInputWire faultOutputWire index
  refine ⟨cut.before ++ front, ?_, ?_, apart_of_getLast? hlast, ?_⟩
  · rw [hfront]
    unfold Site.originalPlaceholder
    rw [hbranch]
    simp only [hgap, hending, List.append_assoc]
  · decide
  · rw [hequals]
    exact endsRun_cons.mpr isWord_blank

/--
Where a signal of several bits is driven by a statement without bounds, a call never
keeps its width.
-/
theorem not_keepsWidth {module : Module} {sampleWire faultInputWire faultOutputWire : Text}
    (hname : IsName sampleWire) (hinput : IsFaultWire faultInputWire)
    (houtput : IsFaultWire faultOutputWire) {site : Site}
    (hsite : module.site sampleWire = .ok site) (hbranch : site.branch = .wire)
    (hbounds : site.bounds? = none) {keyword before after : Text} {gap : Gap}
    (hdeclared : DeclaredAt module.moduleText sampleWire keyword gap before after)
    (hwidth : 1 < gap.width) (busIndex : Option BusIndex) (draw : Nat) :
    ¬ ∃ module',
      module.injectFault sampleWire faultInputWire faultOutputWire busIndex draw = .ok module' ∧
      KeepsWidth module.moduleText module'.moduleText sampleWire := by
  rintro ⟨module', hrun, keeps⟩
  obtain ⟨cut⟩ := module.exists_cut hsite
  rw [module.injectFault_emits hname hinput houtput hsite (site.index_bit hbounds busIndex draw),
    Except.ok.injEq] at hrun
  subst hrun
  obtain ⟨before', horiginal⟩ := cut.declaredAt_wire hbranch faultInputWire faultOutputWire none
    (sub (site.pattern sampleWire)
      (fun _ => site.circuit sampleWire faultInputWire faultOutputWire none) site.found.rest)
  rw [← cut.sub_eq] at horiginal
  have hsame := keeps.original hdeclared horiginal
  rw [Gap.width_of_no_bounds (cut.reads.bounds.symm.trans hbounds)] at hsame
  exact Nat.lt_irrefl _ (hsame ▸ hwidth)

end Runs

section Declared

attribute [local instance] UnicodeData.ascii

/-- The gap in `output [3:0] z`. -/
def busGap : Gap where
  first := " "
  bounds := some ("3".toList, "0".toList)
  last := " "
  first_ne_nil := by decide
  first_space := List.all_eq_true.mp (by decide)
  last_space := List.all_eq_true.mp (by decide)
  number high low heq := by
    cases heq
    exact ⟨⟨by decide, List.all_eq_true.mp (by decide)⟩, by decide,
      List.all_eq_true.mp (by decide)⟩

theorem declaredAt_busText : ∃ before after, DeclaredAt busText "z" "output" busGap before after :=
  ⟨lines ["module m(", "  input [3:0] a,"] ++ "  ",
    lines ["", ");", "  wire [3:0] w = a;", "  wire [2:2] v = a[2];", "  assign z = w;",
      "endmodule"],
    by decide, by decide, apart_of_getLast? rfl,
    endsRun_cons.mpr (by decide)⟩

theorem site_busText : ∃ module site, Module.make "m" busText = .ok module ∧
    module.moduleText = busText ∧ module.site "z" = .ok site ∧ site.branch = .wire ∧
    site.bounds? = none := by
  have hrun : (Module.make "m" busText >>= fun module => (module.site "z").map fun site =>
      decide (module.moduleText = busText ∧ site.branch = .wire ∧ site.bounds? = none)) =
        .ok true := by
    decide +kernel
  obtain ⟨module, hmodule, hrun⟩ := bind_eq_ok.mp hrun
  obtain ⟨site, hsite, hfacts⟩ := map_eq_ok.mp hrun
  obtain ⟨htext, hbranch, hbounds⟩ := of_decide_eq_true hfacts
  exact ⟨module, site, hmodule, htext, hsite, hbranch, hbounds⟩

theorem not_keepsWidth_busText :
    ∃ module, Module.make "m" busText = .ok module ∧
      ¬ ∃ module',
        module.injectFault "z" "fault_inputs[0]" "fault_outputs[0]" none 0 = .ok module' ∧
        KeepsWidth module.moduleText module'.moduleText "z" := by
  obtain ⟨before, after, hdeclared⟩ := declaredAt_busText
  obtain ⟨module, site, hmodule, htext, hsite, hbranch, hbounds⟩ := site_busText
  rw [← htext] at hdeclared
  exact ⟨module, hmodule, not_keepsWidth (by decide) isFaultWire_bits.1
    isFaultWire_bits.2 hsite hbranch hbounds hdeclared (by decide) none 0⟩

/-- The text after a fault in `z`: the port has four bits, its original has one. -/
def narrowedText : Text := lines
  ["module m(",
   "  input [3:0] a,",
   "  output [3:0] z",
   ");",
   "  wire [3:0] w = a;",
   "  wire [2:2] v = a[2];",
   "  assign z = fault_inputs[0]; // fault injection ",
   "  assign fault_outputs[0] = z_original; // direct original value to output ",
   "  wire z_original = w;",
   "endmodule"]

/-- The gap in `wire z_original`. -/
def bitGap : Gap where
  first := " "
  bounds := none
  last := ""
  first_ne_nil := by decide
  first_space := List.all_eq_true.mp (by decide)
  last_space := nofun
  number _ _ heq := nomatch heq

theorem busText_narrowed :
    ∃ module module', Module.make "m" busText = .ok module ∧
      module.injectFault "z" "fault_inputs[0]" "fault_outputs[0]" none 0 = .ok module' ∧
      module'.moduleText = narrowedText ∧
      ¬ KeepsWidth module.moduleText module'.moduleText "z" := by
  have hrun : (Module.make "m" busText >>= fun module =>
      (module.injectFault "z" "fault_inputs[0]" "fault_outputs[0]" none 0).map fun module' =>
        decide (module.moduleText = busText ∧ module'.moduleText = narrowedText)) =
          .ok true := by
    decide +kernel
  obtain ⟨module, hmodule, hrun⟩ := bind_eq_ok.mp hrun
  obtain ⟨module', hmodule', hfacts⟩ := map_eq_ok.mp hrun
  obtain ⟨htext, htext'⟩ := of_decide_eq_true hfacts
  refine ⟨module, module', hmodule, hmodule', htext', fun keeps => ?_⟩
  have horiginal : DeclaredAt narrowedText (originalName "z") "wire" bitGap
      (lines ["module m(", "  input [3:0] a,", "  output [3:0] z", ");", "  wire [3:0] w = a;",
        "  wire [2:2] v = a[2];", "  assign z = fault_inputs[0]; // fault injection ",
        "  assign fault_outputs[0] = z_original; // direct original value to output "] ++ "  ")
      (lines [" = w;", "endmodule"]) :=
    ⟨by decide +kernel, by decide +kernel, apart_of_getLast? rfl,
      endsRun_cons.mpr (by decide)⟩
  obtain ⟨before, after, hdeclared⟩ := declaredAt_busText
  have hsame : bitGap.width = busGap.width :=
    keeps.original (htext ▸ hdeclared) (htext' ▸ horiginal)
  exact absurd hsame (by decide)

end Declared

end FaultInjection
