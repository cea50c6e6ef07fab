import FaultInjection.Design.RoundTrip
import FaultInjection.Emission.Header
import FaultInjection.Emission.Register
import FaultInjection.Traversal.Tree

/-!
# Rewritings that spare the header

By the time that the header of a module is rewritten, its local faults have been
injected and its children rewired.  When no substitution for these begins in the header
or among the ports, the module gets its new type and its fault ports exactly when the
header fits.
-/

namespace FaultInjection

open Regex Regex.Pattern Text

section Spared

variable [UnicodeData]

theorem isWord_close : isWord ')' = false := by
  rw [isWord_ascii (by decide)]
  decide

theorem close_not_mem {name : Text} (hname : IsName name) : ')' ∉ name := by
  intro hmem
  have hword := hname.word _ hmem
  rw [isWord_close] at hword
  cases hword

theorem gapPattern_avoids (index : Nat) : Avoids ')' (gapPattern index) := by
  have hspace : isSpace ')' = false := by
    rw [isSpace_ascii (by decide)]
    decide
  have hdigit : isDigit ')' = false := by
    rw [isDigit_ascii (by decide)]
    decide
  have hliterals : ')' ∉ "[".toList ∧ ')' ∉ ":".toList ∧ ')' ∉ "]".toList := by decide
  exact ⟨⟨hspace, hspace⟩, ⟨⟨avoids_word hliterals.1, ⟨⟨hdigit, hdigit⟩,
    avoids_word hliterals.2.1, hdigit⟩, avoids_word hliterals.2.2⟩, trivial⟩, hspace⟩

theorem wirePattern_avoids {wireName : Text} (hname : IsName wireName) :
    Avoids ')' (wirePattern wireName) := by
  have hliterals : ')' ∉ "wire".toList ∧ ')' ∉ "assign".toList ∧ ')' ∉ " = ".toList := by
    decide +kernel
  exact ⟨⟨avoids_word hliterals.1, avoids_word hliterals.2.1⟩, gapPattern_avoids 3,
    avoids_word (close_not_mem hname), avoids_word hliterals.2.2⟩

theorem registerPattern_avoids {wireName : Text} (hname : IsName wireName) :
    Avoids ')' (registerPattern wireName) := by
  have hliterals : ')' ∉ "reg".toList ∧ ')' ∉ ";".toList := by decide
  exact ⟨avoids_word hliterals.1, gapPattern_avoids 2, avoids_word (close_not_mem hname),
    avoids_word hliterals.2⟩

theorem redirectPattern_avoids {wireName : Text} (hname : IsName wireName) :
    Avoids ')' (redirectPattern wireName) := by
  have hliterals : ')' ∉ [' '] ∧ ')' ∉ " ".toList := by decide
  exact ⟨avoids_word (close_not_mem hname), avoids_word hliterals.1, avoids_word hliterals.2⟩

/-- A text that goes on behind a front which ends with a bracket. -/
def Continues (front text : Text) : Prop := ∃ behind, text = front ++ behind

omit [UnicodeData] in
theorem clear_of_findall_front {pattern : Pattern Char} (havoids : Avoids ')' pattern)
    (hproductive : Productive pattern) {inner : Text}
    (hfront : findall pattern (inner ++ [')']) = []) (behind : Text) :
    Clear pattern (inner ++ [')']) behind :=
  havoids.clear (clear_of_findall hproductive hfront) behind

omit [UnicodeData] in
theorem resub_continues {pattern : Pattern Char} {groups : Nat} {template front text text' : Text}
    (hclear : ∀ behind, Clear pattern front behind) (continues : Continues front text)
    (hrun : Template.resub pattern groups template text = .ok text') : Continues front text' := by
  obtain ⟨behind, rfl⟩ := continues
  obtain ⟨parts, -, rfl⟩ := map_eq_ok.mp hrun
  exact ⟨_, (hclear behind).sub _⟩

/-! ## Local faults -/

/-- None of the patterns that are substituted for a local fault is found in the front. -/
structure SparesWire (front moduleText wireName : Text) : Prop where
  wire : findall (wirePattern wireName) front = []
  register : findall (wirePattern wireName) moduleText = [] →
    findall (redirectPattern wireName) front = [] ∧ findall (registerPattern wireName) front = []

theorem redirectPattern_productive {wireName : Text} (hname : IsName wireName) :
    Productive (redirectPattern wireName) := by
  apply productive_of_not_nullable
  rw [redirectPattern, chain, nullable, nullable_word,
    List.isEmpty_eq_false_iff.mpr hname.ne_nil, Bool.false_and]

/-- A call for a local fault rewrites what stands behind the front. -/
theorem injectFault_continues {inner wireName input output : Text} (hname : IsName wireName)
    {module module' : Module} {busIndex : Option BusIndex} {draw : Nat}
    (continues : Continues (inner ++ [')']) module.moduleText)
    (spares : SparesWire (inner ++ [')']) module.moduleText wireName)
    (hrun : module.injectFault wireName input output busIndex draw = .ok module') :
    Continues (inner ++ [')']) module'.moduleText := by
  rw [Module.injectFault_eq] at hrun
  obtain ⟨site, hsite, hrun⟩ := bind_eq_ok.mp hrun
  obtain ⟨index, -, hrun⟩ := bind_eq_ok.mp hrun
  obtain ⟨text, htext, hrun⟩ := bind_eq_ok.mp hrun
  cases hrun
  unfold Module.site at hsite
  split at hsite
  · cases hsite
    exact resub_continues (clear_of_findall_front (wirePattern_avoids hname)
      (wirePattern_productive wireName) spares.wire) continues htext
  · rename_i hnone
    obtain ⟨hredirect, hregister⟩ := spares.register hnone
    split at hsite
    · cases hsite
    · obtain ⟨redirected, hredirected, hsite⟩ := bind_eq_ok.mp hsite
      have hclear := clear_of_findall_front (redirectPattern_avoids hname)
        (redirectPattern_productive hname) hredirect
      have hcontinues : Continues (inner ++ [')']) redirected := by
        refine redirectAssignments_induction hname
          (fun m hm => operator_of_mem_findall hname hm) hredirected (Continues (inner ++ [')']))
          continues fun text hbefore => ?_
        obtain ⟨behind, rfl⟩ := hbefore
        exact ⟨_, (hclear behind).sub _⟩
      split at hsite
      · cases hsite
      · cases hsite
        exact resub_continues (clear_of_findall_front (registerPattern_avoids hname)
          (registerPattern_productive wireName) hregister) hcontinues htext

theorem isName_of_mem_wireNameParts {path wireName : Text} (hmem : wireName ∈ wireNameParts path) :
    IsName wireName := by
  have hcolon : ":".toList.isEmpty = false := by decide
  have hproductive : Productive wireNamePattern := by
    apply productive_of_not_nullable
    rw [wireNamePattern, chain, nullable, nullable_word, hcolon, Bool.false_and]
  obtain ⟨m, hm, rfl⟩ := List.mem_map.mp hmem
  obtain ⟨before, following, -, hmatch⟩ := exists_of_mem_findall hproductive hm
  have hreading := mem_of_matchAt hmatch
  simp only [wireNamePattern, chain, Pattern.some, mem_readings_group, mem_readings_seq,
    mem_readings_word, mem_readings_one, mem_readings_many] at hreading
  obtain ⟨_, ⟨_, -, rfl⟩, _, ⟨_, ⟨_, ⟨c, _, -, hc, rfl⟩, _, ⟨letters, _, -, hletters, rfl⟩, rfl⟩,
    rfl⟩, rfl⟩ := hreading
  refine ⟨List.cons_ne_nil _ _, ?_⟩
  rintro d (_ | ⟨_, hd⟩)
  · exact hc
  · exact hletters d hd

/-! ## One call -/

/-- No substitution of a call for a local fault or a child begins in the front of the text. -/
structure Spares (heap : Heap) (ref : Nat) (front : Text) : Prop where
  faults : ∀ done path index rest organized wireName others,
    (heap.pathsOf ref).zipIdx = done ++ (path, index) :: rest →
      done.foldlM (organizeFault heap.draws (heap.pathsOf ref).length)
          ⟨heap.moduleOf ref, [], heap.drawn⟩ = .ok organized →
        (∃ part, pathParts path = [part]) → wireNameParts path = wireName :: others →
          SparesWire front organized.module.moduleText wireName
  children : ∀ organized done name faultIndices rest text,
    organizeFaults heap.draws heap.drawn (heap.moduleOf ref) (heap.pathsOf ref) =
      .ok organized → organized.childFaults = done ++ (name, faultIndices) :: rest →
        rewireChildren (heap.copyModule ref) ref organized.module.moduleText done = .ok text →
          ∀ before, InstancedAt name text before → front.length ≤ before.length

namespace Spares

variable {heap : Heap} {ref : Nat} {inner : Text}

theorem organizeFault (spares : Spares heap ref (inner ++ [')'])) {done rest : List (Text × Nat)}
    {entry : Text × Nat} (hpaths : (heap.pathsOf ref).zipIdx = done ++ entry :: rest)
    {state state' : Organized}
    (hdone : done.foldlM (FaultInjection.organizeFault heap.draws (heap.pathsOf ref).length)
      ⟨heap.moduleOf ref, [], heap.drawn⟩ = .ok state)
    (continues : Continues (inner ++ [')']) state.module.moduleText)
    (hstep : FaultInjection.organizeFault heap.draws (heap.pathsOf ref).length state entry =
      .ok state') : Continues (inner ++ [')']) state'.module.moduleText := by
  obtain ⟨path, index⟩ := entry
  simp only [FaultInjection.organizeFault] at hstep
  split at hstep
  · cases hstep
  · rename_i part hpart
    split at hstep
    · cases hstep
    · rename_i wireName others hwire
      obtain ⟨module, hmodule, hstep⟩ := bind_eq_ok.mp hstep
      cases hstep
      have hname : IsName wireName :=
        isName_of_mem_wireNameParts (hwire ▸ .head others : wireName ∈ wireNameParts path)
      exact injectFault_continues hname continues
        (spares.faults done path index rest state wireName others hpaths hdone ⟨part, hpart⟩ hwire)
        hmodule
  · cases hstep
    exact continues

theorem organizeFaults (spares : Spares heap ref (inner ++ [')']))
    (continues : Continues (inner ++ [')']) (heap.moduleOf ref).moduleText)
    {organized : Organized} (hrun : FaultInjection.organizeFaults heap.draws heap.drawn
      (heap.moduleOf ref) (heap.pathsOf ref) = .ok organized) :
    Continues (inner ++ [')']) organized.module.moduleText := by
  have hloop := foldlM_induction (fun done state =>
    done.foldlM (FaultInjection.organizeFault heap.draws (heap.pathsOf ref).length)
      ⟨heap.moduleOf ref, [], heap.drawn⟩ = .ok state ∧
        Continues (inner ++ [')']) state.module.moduleText) hrun ⟨rfl, continues⟩
  refine (hloop ?_).2
  rintro done entry rest state state' hpaths ⟨hdone, hstate⟩ hstep
  refine ⟨foldlM_append_eq_ok.mpr ⟨state, hdone, ?_⟩,
    spares.organizeFault hpaths hdone hstate hstep⟩
  exact foldlM_cons_eq_ok.mpr ⟨state', hstep, rfl⟩

theorem rewireChild (spares : Spares heap ref (inner ++ [')'])) {organized : Organized}
    (horganize : FaultInjection.organizeFaults heap.draws heap.drawn (heap.moduleOf ref)
      (heap.pathsOf ref) = .ok organized)
    {done rest : Dict Text (List Nat)} {entry : Text × List Nat}
    (hfaults : organized.childFaults = done ++ entry :: rest) {text text' : Text}
    (hdone : FaultInjection.rewireChildren (heap.copyModule ref) ref
      organized.module.moduleText done = .ok text)
    (continues : Continues (inner ++ [')']) text)
    (hstep : FaultInjection.rewireChild (heap.copyModule ref) ref text entry = .ok text') :
    Continues (inner ++ [')']) text' := by
  obtain ⟨name, faultIndices⟩ := entry
  have hfront := spares.children organized done name faultIndices rest text horganize hfaults hdone
  obtain ⟨behind, rfl⟩ := continues
  have hclear : Clear (childInstancePattern name) (inner ++ [')']) behind :=
    (clear_instance_iff (Or.inr ⟨inner, ')', rfl, isWord_close⟩)).mpr hfront
  simp only [FaultInjection.rewireChild] at hstep
  split at hstep
  · cases hstep
  · split at hstep
    · cases hstep
    · obtain ⟨parts, -, rfl⟩ := map_eq_ok.mp hstep
      exact ⟨_, hclear.sub _⟩

theorem rewireChildren (spares : Spares heap ref (inner ++ [')'])) {organized : Organized}
    (horganize : FaultInjection.organizeFaults heap.draws heap.drawn (heap.moduleOf ref)
      (heap.pathsOf ref) = .ok organized)
    (continues : Continues (inner ++ [')']) organized.module.moduleText) {rewired : Text}
    (hrun : FaultInjection.rewireChildren (heap.copyModule ref) ref
      organized.module.moduleText organized.childFaults = .ok rewired) :
    Continues (inner ++ [')']) rewired := by
  have hloop := foldlM_induction (fun done text =>
    FaultInjection.rewireChildren (heap.copyModule ref) ref organized.module.moduleText done =
      .ok text ∧ Continues (inner ++ [')']) text) hrun ⟨rfl, continues⟩
  refine (hloop ?_).2
  rintro done entry rest text text' hfaults ⟨hdone, htext⟩ hstep
  refine ⟨foldlM_append_eq_ok.mpr ⟨text, hdone, ?_⟩,
    spares.rewireChild horganize hfaults hdone htext hstep⟩
  exact foldlM_cons_eq_ok.mpr ⟨text', hstep, rfl⟩

end Spares

/-! ## The header after a call -/

/-- Every module of a file whose text has a closing bracket has a layout. -/
theorem exists_header_of_module? {contents type : Text} {parsed : Parsed} {module : Module}
    (hrun : parseFile contents = .ok parsed) (hmodule : parsed.module? type = .some module)
    (hclose : ')' ∈ module.moduleText) :
    ∃ header : Header module.type module.moduleText, ')' ∉ header.ports := by
  obtain ⟨chunk, rfl, rfl, -⟩ := exists_chunk_of_module? hrun hmodule
  refine chunk.exists_header ?_
  have hliterals : ')' ∉ "module".toList ∧ ')' ∉ "(".toList := by decide
  have hgap : ')' ∉ chunk.gap := by
    intro hmem
    have hspace := chunk.gap_space _ hmem
    rw [isSpace_ascii (by decide)] at hspace
    exact absurd hspace (by decide)
  have htext : ')' ∈ "module".toList ++ (chunk.gap ++ (chunk.type ++ ("(".toList ++ chunk.inside))) :=
    hclose
  simpa only [List.mem_append, hliterals, hgap, close_not_mem chunk.type_name, false_or] using htext

theorem headed_of_call {heap heap' : Heap} {ref : Nat}
    (header : Header (heap.moduleOf ref).type (heap.moduleOf ref).moduleText)
    (hpaths : heap.pathsOf ref ≠ []) (spares : Spares heap ref header.front)
    (hrun : injectFaults heap ref none = .ok heap') :
    header.Headed (heap'.moduleOf ref).type (heap.pathsOf ref).length
        (heap'.moduleOf ref).moduleText ↔ header.Fits := by
  rcases injectFaults_cases hrun with ⟨hnone, -⟩ | ⟨-, rewriting, rfl⟩
  · exact absurd hnone hpaths
  · obtain ⟨inner, hinner⟩ := header.exists_inner
    have htype : rewriting.organized.module.type = (heap.moduleOf ref).type :=
      organizeFaults_type rewriting.organize
    have hbefore : Continues header.front (heap.moduleOf ref).moduleText :=
      ⟨header.behind, header.front_append⟩
    rw [hinner] at spares hbefore
    obtain ⟨behind, hbehind⟩ := spares.rewireChildren rewriting.organize
      (spares.organizeFaults hbefore rewriting.organize) rewriting.rewire
    have hheader := rewriting.header
    have hmodule : rewriting.result.moduleOf ref = rewriting.module :=
      heap.replaceModule_moduleOf_self ref rewriting.module rewriting.organized.drawn
    rw [hmodule, Rewriting.module]
    simp only
    rw [htype] at hheader ⊢
    have hfront : rewriteHeader (heap.moduleOf ref).type
        (newModuleType (heap.moduleOf ref).type rewriting.rewired) (heap.pathsOf ref).length none
          (header.front ++ behind) = .ok rewriting.text := by
      rw [hinner, ← hbehind]
      exact hheader
    exact header.headed_iff hfront

/--
A call on an instance below the root that recorded faults gives the module its new type in the
header and the fault ports in front of its own ports exactly when the header is `module`, one
blank, the type and a bracket at the end of the line, when no octal digits begin the type and no
second such header stands among the ports, for a call whose substitutions for local faults and
children do not begin in the header or among the ports.
-/
theorem injectFaults_headed_iff {heap heap' : Heap} {ref : Nat}
    (header : Header (heap.moduleOf ref).type (heap.moduleOf ref).moduleText)
    (hpaths : heap.pathsOf ref ≠ []) (spares : Spares heap ref header.front)
    (hrun : injectFaults heap ref none = .ok heap') :
    header.Headed (heap'.moduleOf ref).type (heap.pathsOf ref).length
        (heap'.moduleOf ref).moduleText ↔ header.Fits :=
  headed_of_call header hpaths spares hrun

theorem Header.Headed.ports_infix {type text newType text' : Text} {count : Nat}
    {header : Header type text} (headed : header.Headed newType count text') :
    faultPorts count <:+: text' := by
  obtain ⟨gap, start, behind, -, -, -, rfl⟩ := headed
  refine ⟨"module".toList ++ (gap ++ (newType ++ '(' :: start)), header.ports ++ ')' :: behind, ?_⟩
  simp only [List.append_assoc, List.cons_append]

end Spared

section Layouts

attribute [local instance] UnicodeData.ascii

/-- The text of the unit that the fault lies in, up to its closing bracket and behind it. -/
def unitFront : Text := "module ALU(\n  input  y\n)"

def unitBehind : Text := ";\n  wire  sum = y;\nendmodule"

def unitHeader : Header "ALU".toList (unitFront ++ unitBehind) :=
  ⟨[' '], ['\n'], "  input  y\n", unitBehind, by decide, by decide, List.all_eq_true.mp (by decide),
    by decide, Or.inl rfl⟩

theorem unitHeader_unique {type text : Text} (htype : type = "ALU".toList)
    (htext : text = unitFront ++ unitBehind) (header : Header type text)
    (hports : ')' ∉ header.ports) : header.front = unitFront ∧ header.Fits := by
  subst htype htext
  have hunit : ')' ∉ unitHeader.ports := by decide
  rw [Header.eq_of_ports hports hunit]
  refine ⟨by decide, rfl, rfl, ?_, by decide⟩
  rintro c d rest heq ⟨hoctal, -⟩
  rw [← (List.cons.inj heq).1] at hoctal
  exact absurd hoctal (by decide)

theorem spares_unit {heap : Heap} {ref : Nat} (hpaths : heap.pathsOf ref = ["/alu/:sum".toList])
    (htext : (heap.moduleOf ref).moduleText = unitFront ++ unitBehind)
    (hchildren : (organizeFaults heap.draws heap.drawn (heap.moduleOf ref)
      (heap.pathsOf ref)).map Organized.childFaults = .ok []) : Spares heap ref unitFront := by
  constructor
  · intro done path index rest organized wireName others hzip hdone _ hwire
    rw [hpaths] at hzip
    cases done with
    | cons entry done =>
        have hlength := congrArg List.length hzip
        simp at hlength
    | nil =>
        obtain ⟨hentry, -⟩ := List.cons.inj hzip
        obtain ⟨rfl, -⟩ := Prod.mk.inj hentry
        have hnames : wireNameParts "/alu/:sum" = ["sum".toList] := by decide
        rw [hnames] at hwire
        obtain ⟨rfl, -⟩ := List.cons.inj hwire
        cases hdone
        refine ⟨by decide, fun hnone => ?_⟩
        rw [htext] at hnone
        exact absurd hnone (by decide)
  · intro organized done name faultIndices rest text horganize hfaults
    rw [horganize] at hchildren
    have hnil : organized.childFaults = [] := Except.ok.inj hchildren
    rw [hnil] at hfaults
    cases done <;> cases hfaults

/-- The design of two instances with a fault in the second of them. -/
theorem twoLines_marked :
    ∃ (tree marked injected : ModuleTree) (heap' : Heap),
      ModuleTree.IsSetUp twoLines "Core" tree ∧
        tree.markFaults ["/Root/alu/:sum"] = .ok marked ∧
          marked.injectFaults = .ok injected ∧ injectFaults marked.heap 2 none = .ok heap' ∧
            (tree.rootInstance = 0 ∧ tree.heap.instances.size = 3 ∧
              marked.heap.childrenOf 0 = [1, 2] ∧ marked.heap.pathsOf 1 = [] ∧
              marked.heap.pathsOf 2 = ["/alu/:sum".toList] ∧
              (marked.heap.moduleOf 2).type = "ALU".toList ∧
              (marked.heap.moduleOf 2).moduleText = unitFront ++ unitBehind ∧
              (organizeFaults marked.heap.draws marked.heap.drawn (marked.heap.moduleOf 2)
                (marked.heap.pathsOf 2)).map Organized.childFaults = .ok []) := by
  have hfacts : (ModuleTree.setUp twoLines "Core" (fun _ => 0) 5 >>= fun tree =>
      tree.markFaults ["/Root/alu/:sum"] >>= fun (marked : ModuleTree) =>
        marked.injectFaults >>= fun (_ : ModuleTree) =>
          (injectFaults marked.heap 2 none).map fun (_ : Heap) =>
            decide (tree.rootInstance = 0 ∧ tree.heap.instances.size = 3 ∧
              marked.heap.childrenOf 0 = [1, 2] ∧ marked.heap.pathsOf 1 = [] ∧
              marked.heap.pathsOf 2 = ["/alu/:sum".toList] ∧
              (marked.heap.moduleOf 2).type = "ALU".toList ∧
              (marked.heap.moduleOf 2).moduleText = unitFront ++ unitBehind ∧
              (organizeFaults marked.heap.draws marked.heap.drawn (marked.heap.moduleOf 2)
                (marked.heap.pathsOf 2)).map Organized.childFaults = .ok [])) = .ok true := by
    decide +kernel
  obtain ⟨tree, htree, hfacts⟩ := bind_eq_ok.mp hfacts
  obtain ⟨marked, hmark, hfacts⟩ := bind_eq_ok.mp hfacts
  obtain ⟨injected, hinject, hfacts⟩ := bind_eq_ok.mp hfacts
  obtain ⟨heap', hrun, hfacts⟩ := map_eq_ok.mp hfacts
  exact ⟨tree, marked, injected, heap', ⟨_, _, htree⟩, hmark, hinject, hrun,
    of_decide_eq_true hfacts⟩

/-- The header of the unit is one that `parse_file` accepts. -/
theorem injectFaults_headed_iff_twoLines :
    ∃ (tree marked : ModuleTree) (heap' : Heap)
      (header : Header (marked.heap.moduleOf 2).type (marked.heap.moduleOf 2).moduleText),
      ModuleTree.IsSetUp twoLines "Core" tree ∧
        tree.markFaults ["/Root/alu/:sum"] = .ok marked ∧
          injectFaults marked.heap 2 none = .ok heap' ∧ ')' ∉ header.ports ∧
            header.Headed (heap'.moduleOf 2).type 1 (heap'.moduleOf 2).moduleText := by
  obtain ⟨tree, marked, injected, heap', hsetup, hmark, -, hrun, -, hsize, -, -, hpaths, htype,
    htext, hchildren⟩ := twoLines_marked
  obtain ⟨parsed, hparse, built⟩ := hsetup.built
  obtain ⟨heap, rfl, hmarked⟩ := built.sound.markFaults hmark
  have hmodule := built.module?_moduleOf (show 2 < tree.heap.instances.size by omega)
  have hsame : tree.heap.moduleOf 2 = heap.moduleOf 2 := by
    rw [Heap.moduleOf, Heap.moduleOf, hmarked.modules, hmarked.module]
  rw [hsame] at hmodule
  have hclose : ')' ∈ (heap.moduleOf 2).moduleText := by
    rw [htext]
    decide
  obtain ⟨header, hports⟩ := exists_header_of_module? hparse hmodule hclose
  obtain ⟨hfront, hfits⟩ := unitHeader_unique htype htext header hports
  have spares : Spares heap 2 header.front := hfront ▸ spares_unit hpaths htext hchildren
  have hne : heap.pathsOf 2 ≠ [] := by
    rw [hpaths]
    exact List.cons_ne_nil _ _
  refine ⟨tree, _, heap', header, hsetup, hmark, hrun, hports, ?_⟩
  have headed := (injectFaults_headed_iff header hne spares hrun).mpr hfits
  rw [hpaths] at headed
  exact headed

/-- A design with two blanks in the header of its unit. -/
def wideDesign : Text := lines [
  "module Core(", "  input  clock", ");", "  ALU alu (", "    .y(clock)", "  );", "endmodule",
  "module  ALU(", "  input  y", ");", "  wire  sum = y;", "endmodule"]

/-- The unit gets a new type, but neither its header nor its ports show it. -/
theorem wideDesign_not_headed :
    ∃ (tree marked : ModuleTree) (heap' : Heap)
      (header : Header (marked.heap.moduleOf 1).type (marked.heap.moduleOf 1).moduleText),
      ModuleTree.IsSetUp wideDesign "Core" tree ∧
        tree.markFaults ["/Root/alu/:sum"] = .ok marked ∧
          injectFaults marked.heap 1 none = .ok heap' ∧
            (heap'.moduleOf 1).type ≠ (marked.heap.moduleOf 1).type ∧
              ¬ header.Headed (heap'.moduleOf 1).type 1 (heap'.moduleOf 1).moduleText := by
  have hfacts : (ModuleTree.setUp wideDesign "Core" (fun _ => 0) 5 >>= fun tree =>
      tree.markFaults ["/Root/alu/:sum"] >>= fun (marked : ModuleTree) =>
        (injectFaults marked.heap 1 none).map fun (heap' : Heap) =>
          decide ((marked.heap.moduleOf 1).type = "ALU".toList ∧
            (marked.heap.moduleOf 1).moduleText =
              "module  ALU(\n  input  y\n);\n  wire  sum = y;\nendmodule".toList ∧
            (heap'.moduleOf 1).type.length = 68 ∧
            ¬ faultPorts 1 <:+: (heap'.moduleOf 1).moduleText)) = .ok true := by
    decide +kernel
  obtain ⟨tree, htree, hfacts⟩ := bind_eq_ok.mp hfacts
  obtain ⟨marked, hmark, hfacts⟩ := bind_eq_ok.mp hfacts
  obtain ⟨heap', hrun, hfacts⟩ := map_eq_ok.mp hfacts
  obtain ⟨htype, htext, hlength, hports⟩ := of_decide_eq_true hfacts
  obtain ⟨header⟩ : Nonempty (Header (marked.heap.moduleOf 1).type
      (marked.heap.moduleOf 1).moduleText) := by
    rw [htype, htext]
    exact ⟨⟨[' ', ' '], ['\n'], "  input  y\n", unitBehind, by decide, by decide,
      List.all_eq_true.mp (by decide), by decide, Or.inl rfl⟩⟩
  refine ⟨tree, marked, heap', header, ⟨_, _, htree⟩, hmark, hrun, fun heq => ?_,
    fun headed => hports headed.ports_infix⟩
  rw [heq, htype] at hlength
  exact absurd hlength (by decide)

end Layouts

end FaultInjection
