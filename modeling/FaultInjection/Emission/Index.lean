import FaultInjection.Injector.Module
import FaultInjection.Python.Result

/-!
# The faulty bit

A call of `inject_fault` finds the statement that it rewrites, settles on a bit of its
bus and then emits the text that stands in its place.  `check_wire_bit` decides
separately which bits a bus has.
-/

namespace FaultInjection

open Regex Regex.Pattern Text

/-- The two copies of the injection code. -/
inductive Branch where
  | wire
  | register
  deriving DecidableEq, Repr

/-- The statement that a call rewrites, and the text in which it was found. -/
structure Site where
  branch : Branch
  found : Match Char
  text : Text

section Runs

variable [UnicodeData]

namespace Site

def pattern (site : Site) (sampleWire : Text) : Pattern Char :=
  match site.branch with
  | .wire => wirePattern sampleWire
  | .register => registerPattern sampleWire

/-- The number of groups in the pattern of the substitution. -/
def groups (site : Site) : Nat :=
  match site.branch with
  | .wire => 3
  | .register => 2

/-- What stands between the brackets, empty for a single bit. -/
def boundsString (site : Site) : Text :=
  match site.branch with
  | .wire => inner (strip (site.found.group 2))
  | .register => site.found.group 2

def isBus (site : Site) : Bool :=
  match site.branch with
  | .wire => strip (site.found.group 2) != []
  | .register => site.found.group 2 != []

/-- The bounds of a bus as the texts that were matched. -/
def bounds? (site : Site) : Option (Text × Text) :=
  if site.isBus then
    let bounds := split ':' site.boundsString
    Option.some (bounds.getD 0 [], bounds.getD 1 [])
  else none

/-- The faulty bit of a bus.  The register branch does not look at `bus_index`. -/
def index (site : Site) (busIndex : Option BusIndex) (draw : Nat) :
    Except PythonError (Option Nat) :=
  match site.bounds? with
  | none => .ok none
  | .some (high, low) =>
      match site.branch, busIndex with
      | .wire, .some (.number index) => .ok (.some index)
      | .wire, .some (.text _) => .error .typeError
      | _, _ => (randrange (int low) (int high) draw).map .some

/-- The wire of the fault input and the beginning of the new declaration of the bus. -/
def busOpening (site : Site) (sampleWire faultInputWire : Text) : Text :=
  match site.branch with
  | .wire =>
      "wire " ++ sampleWire ++ "_faultybit = " ++ faultInputWire ++
        ";\n " ++ site.found.group 1 ++ " " ++ sampleWire
  | .register =>
      "wire " ++ sampleWire ++ "_faultybit = " ++ faultInputWire ++
        ";\nwire" ++ site.found.group 1 ++ sampleWire

/-- The declaration of the signal that holds the original value. -/
def originalPlaceholder (site : Site) (sampleWire : Text) : Text :=
  match site.branch with
  | .wire => "wire" ++ site.found.group 2 ++ originalName sampleWire ++ site.found.group 4
  | .register => "reg" ++ site.found.group 1 ++ originalName sampleWire

/-- The text emitted for one bit of a bus. -/
def busCircuit (site : Site) (sampleWire faultInputWire faultOutputWire high low : Text)
    (faultyIndex : Nat) : Text :=
  site.busOpening sampleWire faultInputWire ++
    " = \x7b" ++ busConcatination sampleWire high low faultyIndex ++ "\x7d" ++
    " // fault injection \n  assign " ++ faultOutputWire ++ " = " ++ originalName sampleWire ++
    "[" ++ decimal faultyIndex ++ "]; // direct original value to output \n  " ++
    site.originalPlaceholder sampleWire

/-- The text emitted for a signal without bounds. -/
def bitCircuit (site : Site) (sampleWire faultInputWire faultOutputWire : Text) : Text :=
  match site.branch with
  | .wire =>
      site.found.group 1 ++ " " ++ sampleWire ++ " = " ++ faultInputWire ++ ";" ++
        " // fault injection \n  assign " ++ faultOutputWire ++ " = " ++
        originalName sampleWire ++ "; // direct original value to output \n  " ++
        site.originalPlaceholder sampleWire
  | .register =>
      "wire " ++ sampleWire ++ " = " ++ faultInputWire ++ ";" ++
        " // fault injection\n  assign " ++ faultOutputWire ++ " = " ++
        originalName sampleWire ++ "; // direct original value to output \n " ++
        site.originalPlaceholder sampleWire

/-- The text emitted once the faulty bit is settled. -/
def circuit (site : Site) (sampleWire faultInputWire faultOutputWire : Text)
    (faultyIndex : Option Nat) : Text :=
  match site.bounds?, faultyIndex with
  | .some (high, low), .some index =>
      site.busCircuit sampleWire faultInputWire faultOutputWire high low index
  | _, _ => site.bitCircuit sampleWire faultInputWire faultOutputWire

theorem circuit_bus (site : Site) {high low : Text} (hbounds : site.bounds? = .some (high, low))
    (sampleWire faultInputWire faultOutputWire : Text) (bit : Nat) :
    site.circuit sampleWire faultInputWire faultOutputWire (.some bit) =
      site.busCircuit sampleWire faultInputWire faultOutputWire high low bit := by
  unfold circuit
  rw [hbounds]

theorem circuit_bit (site : Site) (hbounds : site.bounds? = none)
    (sampleWire faultInputWire faultOutputWire : Text) (index : Option Nat) :
    site.circuit sampleWire faultInputWire faultOutputWire index =
      site.bitCircuit sampleWire faultInputWire faultOutputWire := by
  unfold circuit
  rw [hbounds]

theorem bounds?_wire (found : Match Char) (text : Text) :
    (Site.mk .wire found text).bounds? =
      if strip (found.group 2) ≠ [] then
        Option.some ((split ':' (inner (strip (found.group 2)))).getD 0 [],
          (split ':' (inner (strip (found.group 2)))).getD 1 [])
      else none := by
  by_cases hgap : strip (found.group 2) = []
  · simp [bounds?, isBus, hgap]
  · simp [bounds?, isBus, boundsString, hgap]

theorem bounds?_register (found : Match Char) (text : Text) :
    (Site.mk .register found text).bounds? =
      if found.group 2 ≠ [] then
        Option.some ((split ':' (found.group 2)).getD 0 [],
          (split ':' (found.group 2)).getD 1 [])
      else none := by
  by_cases hbounds : found.group 2 = []
  · simp [bounds?, isBus, hbounds]
  · simp [bounds?, isBus, boundsString, hbounds]

end Site

/-! ## The two copies -/

theorem wireSubstitution_eq (sampleWire faultInputWire faultOutputWire : Text)
    (busIndex : Option BusIndex) (draw : Nat) (found : Match Char) (text : Text) :
    wireSubstitution sampleWire faultInputWire faultOutputWire busIndex draw found =
      ((Site.mk .wire found text).index busIndex draw).map
        ((Site.mk .wire found text).circuit sampleWire faultInputWire faultOutputWire) := by
  unfold wireSubstitution Site.index Site.circuit
  rw [Site.bounds?_wire]
  by_cases hgap : strip (found.group 2) = []
  · rw [if_neg (not_not_intro hgap), if_neg (not_not_intro hgap)]
    rfl
  · rw [if_pos hgap, if_pos hgap]
    rcases busIndex with _ | ⟨index⟩ | ⟨index⟩
    · simp only
      cases randrange (int ((split ':' (inner (strip (found.group 2)))).getD 1 []))
          (int ((split ':' (inner (strip (found.group 2)))).getD 0 [])) draw <;> rfl
    · rfl
    · rfl

theorem registerSubstitution_eq (sampleWire faultInputWire faultOutputWire : Text)
    (busIndex : Option BusIndex) (draw : Nat) (found : Match Char) (text : Text) :
    registerSubstitution sampleWire faultInputWire faultOutputWire draw found =
      ((Site.mk .register found text).index busIndex draw).map
        ((Site.mk .register found text).circuit sampleWire faultInputWire
          faultOutputWire) := by
  unfold registerSubstitution Site.index Site.circuit
  rw [Site.bounds?_register]
  by_cases hbounds : found.group 2 = []
  · rw [if_neg (not_not_intro hbounds), if_neg (not_not_intro hbounds)]
    rfl
  · rw [if_pos hbounds, if_pos hbounds]
    simp only
    cases randrange (int ((split ':' (found.group 2)).getD 1 []))
        (int ((split ':' (found.group 2)).getD 0 [])) draw <;> rfl

namespace Module

/-- The statement that a call for a wire rewrites. -/
def site (module : Module) (sampleWire : Text) : Except PythonError Site :=
  match findall (wirePattern sampleWire) module.moduleText with
  | found :: _ => .ok ⟨.wire, found, module.moduleText⟩
  | [] =>
      match findall (assignmentPattern sampleWire) module.moduleText with
      | [] => .error (.systemExit 1)
      | assignments => do
          let redirected ← redirectAssignments sampleWire assignments module.moduleText
          match findall (registerPattern sampleWire) redirected with
          | [] => .error (.systemExit 1)
          | found :: _ => .ok ⟨.register, found, redirected⟩

/-- The bit that a call for a wire settles on, none for a single bit. -/
def faultyIndex (module : Module) (sampleWire : Text) (busIndex : Option BusIndex)
    (draw : Nat) : Except PythonError (Option Nat) := do
  let site ← module.site sampleWire
  site.index busIndex draw

/-- A call finds its statement, settles on a bit and replaces the statement. -/
theorem injectFault_eq (module : Module) (sampleWire faultInputWire faultOutputWire : Text)
    (busIndex : Option BusIndex) (draw : Nat) :
    module.injectFault sampleWire faultInputWire faultOutputWire busIndex draw = (do
      let site ← module.site sampleWire
      let index ← site.index busIndex draw
      let text ← Template.resub (site.pattern sampleWire) site.groups
        (site.circuit sampleWire faultInputWire faultOutputWire index) site.text
      return { module with moduleText := text }) := by
  unfold injectFault site
  cases findall (wirePattern sampleWire) module.moduleText with
  | cons found others =>
      simp only [wireSubstitution_eq _ _ _ _ _ _ module.moduleText]
      exact map_bind
  | nil =>
      cases findall (assignmentPattern sampleWire) module.moduleText with
      | nil => rfl
      | cons first others =>
          simp only
          cases redirectAssignments sampleWire (first :: others) module.moduleText with
          | error exception => rfl
          | ok redirected =>
              simp only [ok_bind]
              cases findall (registerPattern sampleWire) redirected with
              | nil => rfl
              | cons found others =>
                  simp only [registerSubstitution_eq _ _ _ busIndex _ _ redirected]
                  exact map_bind

end Module

/-! ## Drawing the bit -/

omit [UnicodeData] in
theorem randrange_eq_ok {low high draw bit : Nat}
    (hrun : randrange low high draw = .ok bit) : low ≤ bit ∧ bit < high := by
  unfold randrange at hrun
  split at hrun
  · rename_i hlt
    have hmod := Nat.mod_lt draw (Nat.sub_pos_of_lt hlt)
    cases hrun
    omega
  · cases hrun

omit [UnicodeData] in
theorem exists_randrange {low high bit : Nat} (hlow : low ≤ bit) (hhigh : bit < high) :
    ∃ draw, randrange low high draw = .ok bit := by
  refine ⟨bit - low, ?_⟩
  rw [randrange, if_pos (Nat.lt_of_le_of_lt hlow hhigh), Nat.mod_eq_of_lt (by omega),
    Nat.add_sub_cancel' hlow]

theorem Site.index_none {site : Site} {high low : Text}
    (hbounds : site.bounds? = .some (high, low)) (draw : Nat) :
    site.index none draw = (randrange (int low) (int high) draw).map .some := by
  rw [index, hbounds]
  cases site.branch <;> rfl

theorem Site.exists_index (site : Site) {high low : Text}
    (hbounds : site.bounds? = .some (high, low)) {busIndex : Option BusIndex} {draw : Nat}
    {index : Option Nat} (hindex : site.index busIndex draw = .ok index) :
    ∃ bit, index = .some bit := by
  unfold Site.index at hindex
  rw [hbounds] at hindex
  simp only at hindex
  split at hindex
  · cases hindex
    exact ⟨_, rfl⟩
  · cases hindex
  · obtain ⟨bit, -, rfl⟩ := map_eq_ok.mp hindex
    exact ⟨bit, rfl⟩

theorem Site.index_number {site : Site} (hbranch : site.branch = .wire) {high low : Text}
    (hbounds : site.bounds? = .some (high, low)) (bit draw : Nat) :
    site.index (.some (.number bit)) draw = .ok (.some bit) := by
  rw [index, hbounds, hbranch]

theorem Module.faultyIndex_of_site {module : Module} {sampleWire : Text} {site : Site}
    (hsite : module.site sampleWire = .ok site) (busIndex : Option BusIndex) (draw : Nat) :
    module.faultyIndex sampleWire busIndex draw = site.index busIndex draw := by
  rw [faultyIndex, hsite, ok_bind]

/-- What is drawn for a bus lies between its bounds and is never the highest bit. -/
theorem Module.exists_faultyIndex_iff {module : Module} {sampleWire : Text} {site : Site}
    {high low : Text} (hsite : module.site sampleWire = .ok site)
    (hbounds : site.bounds? = .some (high, low)) (bit : Nat) :
    (∃ draw, module.faultyIndex sampleWire none draw = .ok (.some bit)) ↔
      int low ≤ bit ∧ bit < int high := by
  simp only [faultyIndex_of_site hsite, site.index_none hbounds, map_eq_ok,
    Option.some.injEq, exists_eq_right]
  constructor
  · rintro ⟨draw, hdraw⟩
    exact randrange_eq_ok hdraw
  · rintro ⟨hlow, hhigh⟩
    exact exists_randrange hlow hhigh

omit [UnicodeData] in
/-- `check_wire_bit` of a wire with bounds takes in both of them. -/
theorem Module.checkWireBit_iff {module : Module} {wireName : Text} {wire : Wire}
    {high low : Nat} (hwire : module.wires.find? (fun wire => wire.name == wireName) = .some wire)
    (hbounds : wire.bounds = .some (high, low)) (bit : Nat) :
    module.checkWireBit wireName bit = .some true ↔ low ≤ bit ∧ bit ≤ high := by
  have hvalid : module.isValidWire wireName = true := by
    rw [isValidWire, List.any_eq_true]
    exact ⟨wire, List.mem_of_find?_eq_some hwire,
      List.find?_some (p := fun wire : Wire => wire.name == wireName) hwire⟩
  rw [checkWireBit, if_pos hvalid, hwire, Option.map_some, hbounds]
  simp [and_comm]

/-- The draw for a bus never raises and selects the bits that `check_wire_bit` accepts. -/
structure DrawsValidBits (module : Module) (sampleWire : Text) : Prop where
  returns : ∀ draw, ∃ bit, module.faultyIndex sampleWire none draw = .ok (.some bit)
  selects : ∀ bit, (∃ draw, module.faultyIndex sampleWire none draw = .ok (.some bit)) ↔
    module.checkWireBit sampleWire bit = .some true

/-- The upper bound is a valid bit of every bus, and no draw selects it. -/
theorem not_drawsValidBits {module : Module} {sampleWire : Text} {site : Site} {wire : Wire}
    {high low : Text} (hsite : module.site sampleWire = .ok site)
    (hbounds : site.bounds? = .some (high, low))
    (hwire : module.wires.find? (fun wire => wire.name == sampleWire) = .some wire)
    (hdeclared : wire.bounds = .some (int high, int low)) (hle : int low ≤ int high) :
    ¬ DrawsValidBits module sampleWire := by
  intro draws
  have hvalid := (module.checkWireBit_iff hwire hdeclared (int high)).mpr ⟨hle, Nat.le_refl _⟩
  have hselected := (draws.selects (int high)).mpr hvalid
  have hdrawn := (Module.exists_faultyIndex_iff hsite hbounds (int high)).mp hselected
  exact Nat.lt_irrefl _ hdrawn.2

end Runs

section Declared

attribute [local instance] UnicodeData.ascii

/-- A module with a bus of four bits and a bus of one bit. -/
def busText : Text := lines
  ["module m(",
   "  input [3:0] a,",
   "  output [3:0] z",
   ");",
   "  wire [3:0] w = a;",
   "  wire [2:2] v = a[2];",
   "  assign z = w;",
   "endmodule"]

theorem not_drawsValidBits_busText :
    ∃ module, Module.make "m" busText = .ok module ∧
      (∃ site, module.site "w" = .ok site ∧ site.bounds? = .some ("3".toList, "0".toList)) ∧
      ¬ DrawsValidBits module "w" := by
  have hrun : (Module.make "m" busText >>= fun module => (module.site "w").map fun site =>
      decide (site.bounds? = .some ("3".toList, "0".toList)) &&
        (module.wires.find? fun wire => wire.name == "w".toList).any
          fun wire => wire.bounds == .some (int "3", int "0")) = .ok true := by
    decide +kernel
  obtain ⟨module, hmodule, hrun⟩ := bind_eq_ok.mp hrun
  obtain ⟨site, hsite, hfacts⟩ := map_eq_ok.mp hrun
  rw [Bool.and_eq_true, decide_eq_true_eq, Option.any_eq_true] at hfacts
  obtain ⟨hbounds, wire, hwire, hdeclared⟩ := hfacts
  exact ⟨module, hmodule, ⟨site, hsite, hbounds⟩,
    not_drawsValidBits hsite hbounds hwire (eq_of_beq hdeclared) (by decide)⟩

/-- The highest bit of `w` is never drawn, and every draw for `v` raises. -/
theorem drawn_bits_of_busText :
    ∃ module, Module.make "m" busText = .ok module ∧
      module.checkWireBit "w" 3 = .some true ∧
      (∀ draw, module.faultyIndex "w" none draw ≠ .ok (.some 3)) ∧
      module.checkWireBit "v" 2 = .some true ∧
      ∀ draw, module.faultyIndex "v" none draw = .error .valueError := by
  have hrun : (Module.make "m" busText >>= fun module => module.site "w" >>= fun wide =>
      (module.site "v").map fun narrow =>
        decide (wide.bounds? = .some ("3".toList, "0".toList)) &&
          decide (narrow.bounds? = .some ("2".toList, "2".toList)) &&
          decide (module.checkWireBit "w" 3 = .some true) &&
          decide (module.checkWireBit "v" 2 = .some true)) = .ok true := by
    decide +kernel
  obtain ⟨module, hmodule, hrun⟩ := bind_eq_ok.mp hrun
  obtain ⟨wide, hwide, hrun⟩ := bind_eq_ok.mp hrun
  obtain ⟨narrow, hnarrow, hfacts⟩ := map_eq_ok.mp hrun
  simp only [Bool.and_eq_true, decide_eq_true_eq] at hfacts
  obtain ⟨⟨⟨hwideBounds, hnarrowBounds⟩, hwideBit⟩, hnarrowBit⟩ := hfacts
  refine ⟨module, hmodule, hwideBit, fun draw hdraw => ?_, hnarrowBit, fun draw => ?_⟩
  · have hdrawn := (Module.exists_faultyIndex_iff hwide hwideBounds 3).mp ⟨draw, hdraw⟩
    exact absurd hdrawn.2 (by decide)
  · have hraises : randrange (int "2") (int "2") draw = .error .valueError := if_neg (by decide)
    rw [Module.faultyIndex_of_site hnarrow, narrow.index_none hnarrowBounds, hraises]
    rfl

end Declared

end FaultInjection
