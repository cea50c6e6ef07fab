import FaultInjection.Emission.Circuit
import FaultInjection.Emission.Header
import FaultInjection.Marking.PathRoundTrip
import FaultInjection.Traversal.Rewrite

/-!
# The bit of a fault path

A fault path may name a bit behind its wire.  `inject_faults` hands the bit on as the
text that it was matched as, and the two branches of `inject_fault` make different use
of it.
-/

namespace FaultInjection

open Regex Regex.Pattern Text Heap

section Runs

variable [UnicodeData]

/-- What a path has behind the names of the instances: a wire and a bit. -/
def bitTarget (sampleWire : Text) (bit : Nat) : Text :=
  ':' :: (sampleWire ++ ':' :: decimal bit)

theorem isName_decimal (n : Nat) : IsName (decimal n) := by
  refine isName_of_ascii (decimal_ne_nil n) (List.all_eq_true.mpr fun c hc => ?_)
  have halnum := isAlphanum_of_isDigit c (isDigit_of_mem_decimal hc)
  have hbound := (toNat_of_isAlphanum halnum).2
  rw [halnum, Bool.true_or, Bool.and_true, decide_eq_true_eq]
  omega

theorem wireNamePattern_eq :
    wireNamePattern = .seq (word [':']) (.group 1 (.some isWord)) := by
  have hcolon : ":".toList = [':'] := by decide
  rw [wireNamePattern, chain, chain, hcolon]

theorem wireNameParts_skip {before : Text} (hbefore : ':' ∉ before) (rest : Text) :
    wireNameParts (before ++ rest) = wireNameParts rest := by
  have hclear : Clear wireNamePattern before rest := by
    rw [wireNamePattern_eq]
    exact Clear.of_not_mem _ hbefore rest
  rw [wireNameParts, hclear.findall, wireNameParts]

theorem wireNameParts_colon {name rest : Text} (hname : IsName name)
    (hends : EndsRun isWord rest) :
    wireNameParts (':' :: (name ++ rest)) = name :: wireNameParts rest := by
  have hmatch : matchAt wireNamePattern (':' :: (name ++ rest)) =
      .some ⟨':' :: name, rest, [(1, name)]⟩ := by
    rw [wireNamePattern_eq]
    show matchAt _ ([':'] ++ (name ++ rest)) = _
    rw [matchAt_word_seq, matchAt_group, matchAt_some hname.ne_nil hname.word hends]
    rfl
  rw [wireNameParts, findall_hit hmatch (List.cons_ne_nil _ _)]
  rfl

theorem IsName.colon_not_mem {name : Text} (hname : IsName name) : ':' ∉ name :=
  hname.not_mem FaultPath.isWord_colon

theorem wireNameParts_bit {name sampleWire : Text} (hname : IsName name)
    (hwire : IsName sampleWire) (bit : Nat) :
    wireNameParts (FaultPath.spell [name] ++ bitTarget sampleWire bit) =
      [sampleWire, decimal bit] := by
  have hfront : ':' ∉ FaultPath.spell [name] := by
    rw [FaultPath.spell, List.flatMap_singleton, List.mem_cons, not_or]
    exact ⟨by decide, hname.colon_not_mem⟩
  have hbit := wireNameParts_colon (isName_decimal bit) (endsRun_nil isWord)
  rw [List.append_nil] at hbit
  rw [wireNameParts_skip hfront, bitTarget,
    wireNameParts_colon hwire (endsRun_cons.mpr FaultPath.isWord_colon), hbit]
  rfl

theorem bitTarget_path {sampleWire : Text} (hwire : IsName sampleWire) (bit : Nat) :
    ¬ HasComponent (bitTarget sampleWire bit) ∧ EndsRun isWord (bitTarget sampleWire bit) ∧
      ∀ c ∈ bitTarget sampleWire bit, isPlain c = true := by
  have hbit := isName_decimal bit
  refine ⟨fun has => ?_, endsRun_cons.mpr FaultPath.isWord_colon, fun c hc => ?_⟩
  · have hslash := has.slash_mem
    simp only [bitTarget, List.mem_cons, List.mem_append] at hslash
    rcases hslash with himpossible | hmem | himpossible | hmem
    · exact absurd himpossible (by decide)
    · exact hwire.slash_not_mem hmem
    · exact absurd himpossible (by decide)
    · exact hbit.slash_not_mem hmem
  · simp only [bitTarget, List.mem_cons, List.mem_append] at hc
    rcases hc with rfl | hmem | rfl | hmem
    · decide
    · exact hwire.plain c hmem
    · decide
    · exact hbit.plain c hmem

theorem organizeFaults_single {path part sampleWire bit : Text}
    (hparts : pathParts path = [part]) (hwire : wireNameParts path = [sampleWire, bit])
    (draws : Nat → Nat) (drawn : Nat) (module : Module) :
    organizeFaults draws drawn module [path] =
      (module.injectFault sampleWire "fault_inputs" "fault_outputs" (.some (.text bit))
        (draws drawn)).map fun module' =>
          ⟨module', [], drawn + module.drawsFor sampleWire (.some (.text bit))⟩ := by
  have hstep : organizeFaults draws drawn module [path] =
      organizeFault draws 1 ⟨module, [], drawn⟩ (path, 0) := by
    show ([(path, 0)] : List (Text × Nat)).foldlM (organizeFault draws 1) ⟨module, [], drawn⟩ = _
    rw [List.foldlM_cons]
    cases organizeFault draws 1 ⟨module, [], drawn⟩ (path, 0) <;> rfl
  rw [hstep]
  simp only [organizeFault, hparts, hwire]
  show (module.injectFault sampleWire "fault_inputs" "fault_outputs" (.some (.text bit))
    (draws drawn) >>= _) = _
  cases module.injectFault sampleWire "fault_inputs" "fault_outputs" (.some (.text bit))
    (draws drawn) <;> rfl

/-- A call on an instance with one local fault is the injection of this fault and the
rewriting of the header. -/
theorem injectFaults_single {heap : Heap} {self : Nat} {path part sampleWire bit : Text}
    (hpaths : heap.pathsOf self = [path]) (hparts : pathParts path = [part])
    (hwire : wireNameParts path = [sampleWire, bit]) {heap' : Heap}
    (hrun : injectFaults heap self none = .ok heap') :
    ∃ module, (heap.moduleOf self).injectFault sampleWire "fault_inputs" "fault_outputs"
        (.some (.text bit)) (heap.draws heap.drawn) = .ok module ∧
      (heap'.moduleOf self).type = newModuleType module.type module.moduleText ∧
      rewriteHeader module.type (heap'.moduleOf self).type 1 none module.moduleText =
        .ok (heap'.moduleOf self).moduleText := by
  rcases injectFaults_cases hrun with ⟨hempty, -⟩ | ⟨-, rewriting, rfl⟩
  · rw [hpaths] at hempty
    cases hempty
  · have horganize := rewriting.organize
    rw [hpaths, organizeFaults_single hparts hwire, map_eq_ok] at horganize
    obtain ⟨module, hmodule, horganized⟩ := horganize
    have hrewire := rewriting.rewire
    rw [← horganized, rewireChildren, foldlM_nil_eq_ok] at hrewire
    have hheader := rewriting.header
    rw [hpaths, ← horganized, hrewire] at hheader
    have hmoduleOf : rewriting.result.moduleOf self = rewriting.module :=
      heap.replaceModule_moduleOf_self self _ _
    have htype : rewriting.module.type = newModuleType module.type module.moduleText := by
      rw [Rewriting.module, ← horganized, hrewire]
    refine ⟨module, hmodule, ?_, ?_⟩
    · rw [hmoduleOf, htype]
    · rw [hmoduleOf, htype]
      exact hheader

theorem injectFaults_single_returns {heap : Heap} {self : Nat}
    {path part sampleWire bit : Text} (hpaths : heap.pathsOf self = [path])
    (hparts : pathParts path = [part]) (hwire : wireNameParts path = [sampleWire, bit])
    (htype : IsName (heap.moduleOf self).type)
    (hletter : ∀ c ∈ (heap.moduleOf self).type.head?, c.isDigit = false) {module : Module}
    (hmodule : (heap.moduleOf self).injectFault sampleWire "fault_inputs" "fault_outputs"
      (.some (.text bit)) (heap.draws heap.drawn) = .ok module) :
    ∃ heap', injectFaults heap self none = .ok heap' := by
  have hsame := injectFault_type hmodule
  rw [← hsame] at htype hletter
  have hheader := rewriteHeader_eq htype hletter module.moduleText module.moduleText 1
  have horganize : organizeFaults heap.draws heap.drawn (heap.moduleOf self)
      (heap.pathsOf self) = .ok ⟨module, [], heap.drawn +
        (heap.moduleOf self).drawsFor sampleWire (.some (.text bit))⟩ := by
    rw [hpaths, organizeFaults_single hparts hwire, hmodule]
    rfl
  have hlength : (heap.pathsOf self).length = 1 := by
    rw [hpaths]
    rfl
  exact ⟨_, injectFaults_of_rewriting (by rw [hpaths]; exact List.cons_ne_nil _ _)
    ⟨_, module.moduleText, _, horganize, rfl, hlength ▸ hheader⟩⟩

/-- A bit given as a text is refused by the wire branch, and the register branch draws. -/
theorem Site.index_text {site : Site} {text : Text} {draw bit : Nat} :
    site.index (.some (.text text)) draw = .ok (.some bit) ↔
      ∃ high low, site.branch = .register ∧ site.bounds? = .some (high, low) ∧
        int low < int high ∧ int low + draw % (int high - int low) = bit := by
  unfold index
  cases hbounds : site.bounds? with
  | none => simp
  | some bounds =>
      obtain ⟨high, low⟩ := bounds
      cases hbranch : site.branch with
      | wire => simp
      | register =>
          simp only [map_eq_ok, Option.some.injEq, exists_eq_right, Prod.mk.injEq, true_and,
            randrange]
          constructor
          · intro hrun
            split at hrun
            · rename_i hlt
              cases hrun
              exact ⟨high, low, ⟨rfl, rfl⟩, hlt, rfl⟩
            · cases hrun
          · rintro ⟨high', low', ⟨rfl, rfl⟩, hlt, rfl⟩
            rw [if_pos hlt]

theorem isFaultWire_ports : IsFaultWire "fault_inputs" ∧ IsFaultWire "fault_outputs" := by
  have hinput : IsName "fault_inputs" := isName_of_ascii (by decide) (by decide)
  have houtput : IsName "fault_outputs" :=
    isName_of_ascii (by decide) (by decide)
  exact ⟨fun c hc => Or.inl (hinput.word c hc), fun c hc => Or.inl (houtput.word c hc)⟩

/--
Marking a path with a bit and injecting the faults of its instance returns, and the
text that is emitted is the circuit for this bit.
-/
def HonoursBit (heap : Heap) (root inst : Nat) (path sampleWire : Text) (bit : Nat) : Prop :=
  ∃ marked injected site, markFault heap root path = .ok marked ∧
    injectFaults marked inst none = .ok injected ∧
    (marked.moduleOf inst).site sampleWire = .ok site ∧
    site.index (.some (.text (decimal bit))) (marked.draws marked.drawn) = .ok (.some bit) ∧
    rewriteHeader (marked.moduleOf inst).type (injected.moduleOf inst).type 1 none
      (sub (site.pattern sampleWire) (fun _ => site.circuit sampleWire "fault_inputs"
        "fault_outputs" (.some bit)) site.text) = .ok (injected.moduleOf inst).moduleText

/--
The bit of a path is honoured exactly when no statement drives the wire, so that the
register branch is reached, and the bit drawn there happens to be the one asked for.
-/
theorem honoursBit_iff {heap : Heap} {root : Nat} (tree : InstanceTree heap root)
    (distinct : ∀ parent, ((heap.childrenOf parent).map heap.nameOf).Nodup)
    (hnames : ∀ ref < heap.instances.size, IsName (heap.nameOf ref)) {inst : Nat}
    (hinst : inst < heap.instances.size) {nodes : List Nat}
    (line : Forest.Line heap.childrenOf root inst nodes) (hunmarked : heap.pathsOf inst = [])
    (htype : IsName (heap.moduleOf inst).type)
    (hletter : ∀ c ∈ (heap.moduleOf inst).type.head?, c.isDigit = false)
    {sampleWire : Text} (hwire : IsName sampleWire) (bit : Nat) :
    HonoursBit heap root inst
        (FaultPath.spell (nodes.map heap.nameOf) ++ bitTarget sampleWire bit) sampleWire bit ↔
      ∃ site high low, (heap.moduleOf inst).site sampleWire = .ok site ∧
        site.branch = .register ∧ site.bounds? = .some (high, low) ∧ int low < int high ∧
        int low + heap.draws heap.drawn % (int high - int low) = bit := by
  obtain ⟨htarget, hends, hplain⟩ := bitTarget_path hwire bit
  obtain ⟨marked, hmark, halong⟩ :=
    markFault_line tree distinct hnames hinst line htarget hends hplain
  have honce := markFault_step tree hmark
  have hmoduleOf : marked.moduleOf inst = heap.moduleOf inst := by
    rw [moduleOf, moduleOf, honce.modules, honce.module]
  have hpaths : marked.pathsOf inst =
      [FaultPath.spell [heap.nameOf inst] ++ bitTarget sampleWire bit] := by
    rw [halong.entry inst [inst] (.here inst), hunmarked]
    rfl
  have hparts : pathParts (FaultPath.spell [heap.nameOf inst] ++ bitTarget sampleWire bit) =
      ['/' :: heap.nameOf inst] := halong.components inst [inst] (.here inst)
  have hwireParts := wireNameParts_bit (hnames inst hinst) hwire bit
  constructor
  · rintro ⟨marked', injected, site, hmark', -, hsite, hindex, -⟩
    rw [hmark, Except.ok.injEq] at hmark'
    subst hmark'
    rw [hmoduleOf] at hsite
    rw [honce.draws, honce.drawn] at hindex
    obtain ⟨high, low, hbranch, hbounds, hlt, hbit⟩ := Site.index_text.mp hindex
    exact ⟨site, high, low, hsite, hbranch, hbounds, hlt, hbit⟩
  · rintro ⟨site, high, low, hsite, hbranch, hbounds, hlt, hbit⟩
    have hindex : site.index (.some (.text (decimal bit))) (marked.draws marked.drawn) =
        .ok (.some bit) := by
      rw [honce.draws, honce.drawn]
      exact Site.index_text.mpr ⟨high, low, hbranch, hbounds, hlt, hbit⟩
    rw [← hmoduleOf] at hsite htype hletter
    have hmodule := Module.injectFault_emits hwire isFaultWire_ports.1 isFaultWire_ports.2
      hsite hindex
    obtain ⟨injected, hinjected⟩ :=
      injectFaults_single_returns hpaths hparts hwireParts htype hletter hmodule
    obtain ⟨module, hmodule', -, hheader⟩ :=
      injectFaults_single hpaths hparts hwireParts hinjected
    rw [hmodule, Except.ok.injEq] at hmodule'
    subst hmodule'
    exact ⟨marked, injected, site, hmark, hinjected, hsite, hindex, hheader⟩

end Runs

section Registers

attribute [local instance] UnicodeData.ascii

/-- A design of one module, with a register and a wire of four bits. -/
def registerDesign : Text := lines
  ["module Core(",
   "  input clock,",
   "  input [3:0] a",
   ");",
   "  wire [3:0] w = a;",
   "  reg [3:0] r;",
   "  always @(posedge clock) begin",
   "    r <= w;",
   "  end",
   "endmodule"]

/-- The draw 2 lands on the bit that the path names. -/
theorem honoursBit_registerDesign :
    ∃ tree, ModuleTree.IsSetUp registerDesign "Core" tree ∧
      HonoursBit tree.heap tree.rootInstance tree.rootInstance
        (FaultPath.spell ["Root"] ++ bitTarget "r" 2) "r" 2 := by
  have hrun : (ModuleTree.setUp registerDesign "Core" (fun _ => 2) 5 >>= fun tree =>
      ((tree.heap.moduleOf tree.rootInstance).site "r").map fun site =>
        decide (tree.rootInstance = 0 ∧ tree.heap.instances.size = 1 ∧
          tree.heap.nameOf 0 = "Root".toList ∧ tree.heap.pathsOf 0 = [] ∧
          (tree.heap.moduleOf 0).type = "Core".toList ∧ tree.heap.childrenOf 0 = [] ∧
          tree.heap.draws tree.heap.drawn = 2 ∧
          site.branch = .register ∧ site.bounds? = .some ("3".toList, "0".toList))) =
        .ok true := by
    decide +kernel
  obtain ⟨tree, htree, hrun⟩ := bind_eq_ok.mp hrun
  obtain ⟨site, hsite, hfacts⟩ := map_eq_ok.mp hrun
  obtain ⟨hroot, hsize, hname, hpaths, htype, hchildren, hdraw, hbranch, hbounds⟩ :=
    of_decide_eq_true hfacts
  have hsetUp : ModuleTree.IsSetUp registerDesign "Core" tree := ⟨_, _, htree⟩
  obtain ⟨parsed, -, built⟩ := hsetUp.built
  rw [hroot] at hsite
  refine ⟨tree, hsetUp, ?_⟩
  rw [hroot]
  have instances := built.sound.instances
  rw [hroot] at instances
  have hdistinct : ∀ parent, ((tree.heap.childrenOf parent).map tree.heap.nameOf).Nodup := by
    intro parent
    have hnone : tree.heap.childrenOf parent = [] := by
      refine List.eq_nil_iff_forall_not_mem.mpr fun child hchild => ?_
      have hbounds := instances.forest.bounds hchild
      omega
    rw [hnone]
    exact List.nodup_nil
  have hline : Forest.Line tree.heap.childrenOf 0 0 [0] := .here 0
  have hlt : (0 : Nat) < tree.heap.instances.size := by omega
  have hletter : ∀ c ∈ (tree.heap.moduleOf 0).type.head?, c.isDigit = false := by
    intro c hc
    rw [htype] at hc
    cases hc
    decide
  have hhonours := (honoursBit_iff instances hdistinct (fun ref href => built.isName href) hlt
    hline hpaths (by rw [htype]; decide) hletter (by decide : IsName "r") 2).mpr
    ⟨site, _, _, hsite, hbranch, hbounds, by decide, by rw [hdraw]; decide⟩
  rw [List.map_singleton, hname] at hhonours
  exact hhonours

/-- On the wire branch the bit of a path raises, on the register branch it is ignored. -/
theorem registerDesign_bit :
    ∃ tree, ModuleTree.IsSetUp registerDesign "Core" tree ∧
      (∃ marked, markFault tree.heap tree.rootInstance "/Root:w:2" = .ok marked ∧
        injectFaults marked tree.rootInstance none = .error .typeError) ∧
      ∃ marked, markFault tree.heap tree.rootInstance "/Root:r:2" = .ok marked ∧
        (injectFaults marked tree.rootInstance none).isOk = true ∧
        (marked.moduleOf tree.rootInstance).faultyIndex "r" (.some (.text "2"))
          (marked.draws marked.drawn) = .ok (.some 0) := by
  have hrun : (ModuleTree.setUp registerDesign "Core" (fun _ => 0) 5 >>= fun tree =>
      markFault tree.heap tree.rootInstance "/Root:w:2" >>= fun first =>
      markFault tree.heap tree.rootInstance "/Root:r:2" >>= fun second =>
      ((second.moduleOf tree.rootInstance).faultyIndex "r" (.some (.text "2"))
        (second.draws second.drawn)).map fun index =>
          (match injectFaults first tree.rootInstance none with
            | .error exception => exception == PythonError.typeError
            | .ok _ => false) &&
            ((injectFaults second tree.rootInstance none).isOk && index == .some 0)) =
        .ok true := by
    decide +kernel
  obtain ⟨tree, htree, hrun⟩ := bind_eq_ok.mp hrun
  obtain ⟨first, hfirst, hrun⟩ := bind_eq_ok.mp hrun
  obtain ⟨second, hsecond, hrun⟩ := bind_eq_ok.mp hrun
  obtain ⟨index, hindex, hfacts⟩ := map_eq_ok.mp hrun
  rw [Bool.and_eq_true, Bool.and_eq_true, beq_iff_eq] at hfacts
  obtain ⟨hraises, hreturns, rfl⟩ := hfacts
  refine ⟨tree, ⟨_, _, htree⟩, ⟨first, hfirst, ?_⟩, second, hsecond, hreturns, hindex⟩
  cases hinject : injectFaults first tree.rootInstance none with
  | ok injected =>
      rw [hinject] at hraises
      cases hraises
  | error exception =>
      rw [hinject] at hraises
      rw [eq_of_beq hraises]

end Registers

end FaultInjection
