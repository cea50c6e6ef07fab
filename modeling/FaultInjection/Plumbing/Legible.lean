import FaultInjection.Marking.Correspondence
import FaultInjection.Plumbing.Ports
import FaultInjection.Plumbing.Positions
import FaultInjection.Traversal.Children

/-!
# Legible calls

The texts in which each circuit, connection and header that a call of `inject_faults`
writes stands where a reader of the module finds it, and the uses of the two fault
buses that are read in the text after such a call.
-/

namespace FaultInjection

open Regex Text Verilog Heap

section Legible

variable [UnicodeData]

/-- The entries for faults in the module itself. -/
def localEntries (entries : List (Text × Nat)) : List (Text × Nat) :=
  entries.filter fun entry => towards? entry.1 = none

def wiresOf (entries : List (Text × Nat)) : List Text :=
  entries.filterMap fun entry => (wireNameParts entry.1).head?

/-- The wires of the faults in the module itself. -/
def localWires (paths : List Text) : List Text := wiresOf (localEntries paths.zipIdx)

/-- The signals that the input bus may drive for a faulty wire. -/
def tappedSignals (wire : Text) : List Text := [wire, wire ++ "_faultybit"]

/-- The use of a bus by the circuit of a local fault. -/
def IsTap (port : FaultPort) (count : Nat) (entry : Text × Nat) (use : Use) : Prop :=
  ∃ wire ∈ (wireNameParts entry.1).head?, ∃ signal ∈ tappedSignals wire,
    use = ⟨port.owner wire signal, [faultPart count entry.2]⟩

/-- The use of a bus by the connection of a child. -/
def childConnection (heap : Heap) (ref : Nat) (entry : Text × List Nat) : Use :=
  ⟨.port ((heap.childNamed? ref entry.1).map fun child =>
    ((heap.moduleOf child).type, entry.1)), connectedParts entry.2⟩

/-! ## Where a call writes -/

/-- Each local fault is injected at a statement that stands alone in code. -/
def FaultsFit (draws : Nat → Nat) (count : Nat) : Organized → List (Text × Nat) → Prop
  | _, [] => True
  | state, entry :: rest =>
      (towards? entry.1 = none → ∀ wire ∈ (wireNameParts entry.1).head?,
        ∀ site ∈ (state.module.site wire).toOption, site.Tapped wire state.module.moduleText) ∧
      ∀ next ∈ (organizeFault draws count state entry).toOption, FaultsFit draws count next rest

instance decidableFaultsFit (draws : Nat → Nat) (count : Nat) : (state : Organized) →
    (entries : List (Text × Nat)) → Decidable (FaultsFit draws count state entries)
  | _, [] => .isTrue trivial
  | state, entry :: rest =>
      have : ∀ next, Decidable (FaultsFit draws count next rest) :=
        fun next => decidableFaultsFit draws count next rest
      inferInstanceAs (Decidable ((_ → _) ∧
        ∀ next ∈ (organizeFault draws count state entry).toOption, _))

/-- Each child is rewired on a line of its own. -/
def ChildrenFit (heap : Heap) (ref : Nat) : Text → Dict Text (List Nat) → Prop
  | _, [] => True
  | text, entry :: rest =>
      Connectable heap ref text entry.1 ∧
      ∀ next ∈ (rewireChild heap ref text entry).toOption, ChildrenFit heap ref next rest

instance decidableChildrenFit (heap : Heap) (ref : Nat) : (text : Text) →
    (faults : Dict Text (List Nat)) → Decidable (ChildrenFit heap ref text faults)
  | _, [] => .isTrue trivial
  | text, entry :: rest =>
      have : ∀ next, Decidable (ChildrenFit heap ref next rest) :=
        fun next => decidableChildrenFit heap ref next rest
      inferInstanceAs (Decidable (_ ∧ ∀ next ∈ (rewireChild heap ref text entry).toOption, _))

/-- The header is found in one place. -/
def HeaderFits (type : Text) (faultDriver : Option Text) (text : Text) : Prop :=
  match faultDriver with
  | none => ChildHeader type text
  | some faultDriver => RootFound faultDriver text

instance (type : Text) (faultDriver : Option Text) (text : Text) :
    Decidable (HeaderFits type faultDriver text) := by
  unfold HeaderFits
  split <;> infer_instance

/-- The text of a module names no fault port, no wire has two faults, and everything that the
call substitutes is found in one place of code. -/
structure Legible (heap : Heap) (ref : Nat) (faultDriver : Option Text) : Prop where
  clean : Portless (tokens (heap.moduleOf ref).moduleText)
  apart : ((localWires (heap.pathsOf ref)).flatMap tappedSignals).Nodup
  faults : FaultsFit heap.draws (heap.pathsOf ref).length ⟨heap.moduleOf ref, [], heap.drawn⟩
    (heap.pathsOf ref).zipIdx
  written : ∀ organized ∈ (organizeFaults heap.draws heap.drawn (heap.moduleOf ref)
      (heap.pathsOf ref)).toOption,
    ChildrenFit (heap.copyModule ref) ref organized.module.moduleText organized.childFaults ∧
      ∀ rewired ∈ (rewireChildren (heap.copyModule ref) ref organized.module.moduleText
        organized.childFaults).toOption, HeaderFits organized.module.type faultDriver rewired

instance (heap : Heap) (ref : Nat) (faultDriver : Option Text) :
    Decidable (Legible heap ref faultDriver) :=
  decidable_of_iff
    (Portless (tokens (heap.moduleOf ref).moduleText) ∧
      ((localWires (heap.pathsOf ref)).flatMap tappedSignals).Nodup ∧
      FaultsFit heap.draws (heap.pathsOf ref).length ⟨heap.moduleOf ref, [], heap.drawn⟩
        (heap.pathsOf ref).zipIdx ∧
      ∀ organized ∈ (organizeFaults heap.draws heap.drawn (heap.moduleOf ref)
          (heap.pathsOf ref)).toOption,
        ChildrenFit (heap.copyModule ref) ref organized.module.moduleText organized.childFaults ∧
          ∀ rewired ∈ (rewireChildren (heap.copyModule ref) ref organized.module.moduleText
            organized.childFaults).toOption, HeaderFits organized.module.type faultDriver rewired)
    ⟨fun ⟨h₁, h₂, h₃, h₄⟩ => ⟨h₁, h₂, h₃, h₄⟩, fun h => ⟨h.clean, h.apart, h.faults, h.written⟩⟩

variable {draws : Nat → Nat} {count : Nat}

theorem organizeFault_local {state next : Organized} {entry : Text × Nat}
    (fits : FaultsFit draws count state [entry]) (harrived : towards? entry.1 = none)
    (hstep : organizeFault draws count state entry = .ok next) (port : FaultPort) :
    ∃ tap, IsTap port count entry tap ∧
      (uses port.name next.module.moduleText).Perm
        (tap :: uses port.name state.module.moduleText) := by
  obtain ⟨path, index⟩ := entry
  have htapped := fits.1 harrived
  simp only [organizeFault] at hstep
  split at hstep
  · cases hstep
  · rename_i part hparts
    split at hstep
    · cases hstep
    · rename_i wire others hwires
      obtain ⟨module, hmodule, hstep⟩ := bind_eq_ok.mp hstep
      cases hstep
      have hwire : wire ∈ (wireNameParts path).head? := by
        rw [hwires]
        rfl
      have hreturns := hmodule
      rw [Module.injectFault_eq] at hreturns
      obtain ⟨site, hsite, -⟩ := bind_eq_ok.mp hreturns
      have tapped := htapped wire hwire site (by rw [hsite]; rfl)
      obtain ⟨front, back, hbefore, hafter⟩ := tapped.uses_call hsite hmodule port
      refine ⟨_, ⟨wire, hwire, site.tapped wire, ?_, rfl⟩, ?_⟩
      · unfold Site.tapped tappedSignals
        split <;> simp
      · rw [hbefore]
        show (uses port.name module.moduleText).Perm _
        rw [hafter]
        exact List.perm_middle
  · rename_i first second others hparts
    rw [towards?_of_parts hparts] at harrived
    cases harrived

theorem organizeFault_below {state next : Organized} {entry : Text × Nat}
    (hleads : towards? entry.1 ≠ none) (hstep : organizeFault draws count state entry = .ok next) :
    next.module = state.module := by
  obtain ⟨path, index⟩ := entry
  simp only [organizeFault] at hstep
  split at hstep
  · cases hstep
  · rename_i part hparts
    exact absurd (towards?_single hparts) hleads
  · cases hstep
    rfl

/-! ## Whole runs -/

/-- The loop over the entries adds a tap for each fault of the module itself. -/
theorem FaultsFit.exists_taps {state last : Organized} {entries : List (Text × Nat)}
    (fits : FaultsFit draws count state entries)
    (hrun : entries.foldlM (organizeFault draws count) state = .ok last) (port : FaultPort) :
    ∃ taps, List.Forall₂ (IsTap port count) (localEntries entries) taps ∧
      (uses port.name last.module.moduleText).Perm
        (taps ++ uses port.name state.module.moduleText) := by
  induction entries generalizing state with
  | nil =>
      cases hrun
      exact ⟨[], .nil, .refl _⟩
  | cons entry entries ih =>
      obtain ⟨next, hstep, hrest⟩ := foldlM_cons_eq_ok.mp hrun
      obtain ⟨hentry, hlater⟩ := fits
      have hfits := hlater next (by rw [hstep]; rfl)
      obtain ⟨taps, htaps, hperm⟩ := ih hfits hrest
      unfold localEntries at htaps ⊢
      by_cases harrived : towards? entry.1 = none
      · obtain ⟨tap, htap, hone⟩ := organizeFault_local ⟨hentry, fun _ _ => trivial⟩ harrived hstep port
        rw [List.filter_cons_of_pos (by simpa using harrived)]
        refine ⟨tap :: taps, .cons htap htaps, hperm.trans ?_⟩
        exact (hone.append_left taps).trans List.perm_middle
      · rw [List.filter_cons_of_neg (by simpa using harrived)]
        rw [organizeFault_below harrived hstep] at hperm
        exact ⟨taps, htaps, hperm⟩

/-- The loop over the children adds a connection for each of them. -/
theorem ChildrenFit.uses {heap : Heap} {ref : Nat} {text last : Text}
    {faults : Dict Text (List Nat)} (fits : ChildrenFit heap ref text faults)
    (hrun : rewireChildren heap ref text faults = .ok last) (port : FaultPort) :
    (uses port.name last).Perm (faults.map (childConnection heap ref) ++ uses port.name text) := by
  rw [rewireChildren] at hrun
  induction faults generalizing text with
  | nil =>
      cases hrun
      exact .refl _
  | cons entry faults ih =>
      obtain ⟨next, hstep, hrest⟩ := foldlM_cons_eq_ok.mp hrun
      obtain ⟨connectable, hlater⟩ := fits
      obtain ⟨name, indices⟩ := entry
      obtain ⟨child, front, back, hchild, hbefore, hafter⟩ :=
        connectable.uses_rewireChild hstep port
      have hperm := ih (hlater next (by rw [hstep]; rfl)) hrest
      have hconnection : childConnection heap ref (name, indices) =
          ⟨.port (some ((heap.moduleOf child).type, name)), connectedParts indices⟩ := by
        rw [childConnection, hchild]
        rfl
      rw [List.map_cons, hconnection, hbefore]
      rw [hafter] at hperm
      refine hperm.trans ?_
      rw [← List.append_assoc, ← List.append_assoc]
      exact List.perm_middle

theorem Legible.headerFits {heap : Heap} {ref : Nat} {faultDriver : Option Text}
    (legible : Legible heap ref faultDriver) (rewriting : Rewriting heap ref faultDriver) :
    HeaderFits rewriting.organized.module.type faultDriver rewriting.rewired := by
  have hwritten := legible.written rewriting.organized (by rw [rewriting.organize]; rfl)
  exact hwritten.2 rewriting.rewired (by rw [rewriting.rewire]; rfl)

theorem Legible.driver {heap : Heap} {ref : Nat} {faultDriver : Text}
    (legible : Legible heap ref (some faultDriver))
    (rewriting : Rewriting heap ref (some faultDriver)) (hpaths : heap.pathsOf ref ≠ []) :
    driverTokens faultDriver <:+: tokens rewriting.text := by
  have hfound : RootFound faultDriver rewriting.rewired := legible.headerFits rewriting
  exact (hfound.reads (List.length_pos_of_ne_nil hpaths) rewriting.header).1

/-- The uses that are read in a text after a call that finds everything, and the width with which
it declares the buses. -/
theorem Legible.reads {heap : Heap} {ref : Nat} {faultDriver : Option Text}
    (legible : Legible heap ref faultDriver) (rewriting : Rewriting heap ref faultDriver)
    (hpaths : heap.pathsOf ref ≠ []) (port : FaultPort) :
    (∃ taps, List.Forall₂ (IsTap port (heap.pathsOf ref).length)
        (localEntries (heap.pathsOf ref).zipIdx) taps ∧
      (uses port.name rewriting.text).Perm (taps ++
        (childPositions (heap.pathsOf ref)).map (childConnection (heap.copyModule ref) ref))) ∧
      port.declaredWidth? rewriting.text = some (heap.pathsOf ref).length := by
  have hcount := List.length_pos_of_ne_nil hpaths
  obtain ⟨children, -⟩ := legible.written rewriting.organized (by rw [rewriting.organize]; rfl)
  have hfits := legible.headerFits rewriting
  have hheader : uses port.name rewriting.text = uses port.name rewriting.rewired ∧
      port.declaredWidth? rewriting.text = some (heap.pathsOf ref).length := by
    have hrun := rewriting.header
    unfold HeaderFits at hfits
    split at hfits
    · exact hfits.reads hcount hrun port
    · exact (hfits.reads hcount hrun).2 port
  obtain ⟨taps, htaps, hlocal⟩ := legible.faults.exists_taps rewriting.organize port
  have hchildren := children.uses rewriting.rewire port
  have hclean : uses port.name (heap.moduleOf ref).moduleText = [] :=
    UseReader.uses_of_not_mem UseReader.quiet_start (legible.clean port)
  rw [hclean, List.append_nil] at hlocal
  refine ⟨⟨taps, htaps, ?_⟩, hheader.2⟩
  rw [hheader.1, ← organizeFaults_childFaults rewriting.organize]
  exact hchildren.trans ((hlocal.append_left _).trans List.perm_append_comm)

/-! ## The calls of a run -/

namespace ModuleTree

/-- Every call of the run finds what it substitutes, and no marked module names a fault port. -/
structure Legible (marked : ModuleTree) : Prop where
  calls : ∀ before inst faultDriver, marked.Calls before inst faultDriver →
    marked.heap.pathsOf inst ≠ [] → FaultInjection.Legible before inst faultDriver
  clean : ∀ inst, inst < marked.heap.instances.size → marked.heap.pathsOf inst ≠ [] →
    Portless (tokens (marked.heap.moduleOf inst).moduleText)

/-- The traversal comes to an instance. -/
def Reaches (marked : ModuleTree) (inst : Nat) : Prop :=
  inst = marked.rootInstance ∨
    ∃ met left, marked.heap.Visits marked.rootInstance met left ∧ inst ∈ met

variable {marked : ModuleTree}

omit [UnicodeData] in
theorem reaches_iff {met left : List Nat}
    (visits : marked.heap.Visits marked.rootInstance met left) {inst : Nat} :
    marked.Reaches inst ↔ inst = marked.rootInstance ∨ inst ∈ met := by
  refine or_congr_right ⟨?_, fun hmet => ⟨met, left, visits, hmet⟩⟩
  rintro ⟨met', left', visits', hmet⟩
  obtain ⟨rfl, -⟩ := visits.unique visits'
  exact hmet

theorem Injection.mem_called_iff (injection : Injection marked) {inst : Nat} :
    inst ∈ injection.called ↔ marked.Reaches inst := by
  rw [called, List.mem_append, List.mem_singleton, injection.visits.mem_left_iff, or_comm,
    reaches_iff injection.visits]

/-- Every call of a row finds what it substitutes. -/
def RowFits : Heap → List Nat → Prop
  | _, [] => True
  | heap, inst :: rest =>
      (heap.pathsOf inst ≠ [] → FaultInjection.Legible heap inst none) ∧
      ∀ next ∈ (FaultInjection.injectFaults heap inst none).toOption, RowFits next rest

instance decidableRowFits : (heap : Heap) → (row : List Nat) → Decidable (RowFits heap row)
  | _, [] => .isTrue trivial
  | heap, inst :: rest =>
      have : ∀ next, Decidable (RowFits next rest) := fun next => decidableRowFits next rest
      inferInstanceAs (Decidable ((_ → _) ∧
        ∀ next ∈ (FaultInjection.injectFaults heap inst none).toOption, _))

theorem RowFits.legible {heap before : Heap} {done rest : List Nat} {inst : Nat}
    (fits : RowFits heap (done ++ inst :: rest)) (hrow : injectRow heap done = .ok before)
    (hpaths : before.pathsOf inst ≠ []) : FaultInjection.Legible before inst none := by
  induction done generalizing heap with
  | nil =>
      cases hrow
      exact fits.1 hpaths
  | cons first done ih =>
      obtain ⟨next, hstep, hrest⟩ := foldlM_cons_eq_ok.mp hrow
      exact ih (fits.2 next (by rw [hstep]; rfl)) hrest

/-- The row and the call on the root find what they substitute. -/
structure RunFits (heap : Heap) (root : Nat) (left : List Nat) : Prop where
  row : RowFits heap left
  last : ∀ below ∈ (injectRow heap left).toOption,
    FaultInjection.Legible below root (some faultDriverType)
  clean : ∀ inst < heap.instances.size, heap.pathsOf inst ≠ [] →
    Portless (tokens (heap.moduleOf inst).moduleText)

instance (heap : Heap) (root : Nat) (left : List Nat) : Decidable (RunFits heap root left) :=
  decidable_of_iff (RowFits heap left ∧
      (∀ below ∈ (injectRow heap left).toOption,
        FaultInjection.Legible below root (some faultDriverType)) ∧
      ∀ inst < heap.instances.size, heap.pathsOf inst ≠ [] →
        Portless (tokens (heap.moduleOf inst).moduleText))
    ⟨fun ⟨h₁, h₂, h₃⟩ => ⟨h₁, h₂, h₃⟩, fun h => ⟨h.row, h.last, h.clean⟩⟩

/-- The calls of a run are those of its row and the one on the root. -/
theorem Legible.of_fits {met left : List Nat}
    (visits : marked.heap.Visits marked.rootInstance met left)
    (fits : RunFits marked.heap marked.rootInstance left) : marked.Legible where
  calls before inst faultDriver hcall hpaths := by
    cases hcall with
    | below visits' row =>
        obtain ⟨-, rfl⟩ := visits'.unique visits
        refine fits.row.legible row ?_
        rw [(injectRow_extends row).paths]
        exact hpaths
    | root visits' row =>
        obtain ⟨-, rfl⟩ := visits'.unique visits
        exact fits.last before (by rw [row]; rfl)
  clean := fits.clean

/-- The text of a module after the run. -/
def textOf (tree : ModuleTree) (inst : Nat) : Text := (tree.heap.moduleOf inst).moduleText

/-- No wire of a module that the traversal has come to has two faults. -/
theorem Legible.apart (legible : marked.Legible)
    (instances : marked.heap.InstanceTree marked.rootInstance) (injection : Injection marked)
    {inst : Nat} (hreached : marked.Reaches inst) (hpaths : marked.heap.pathsOf inst ≠ []) :
    ((localWires (marked.heap.pathsOf inst)).flatMap tappedSignals).Nodup := by
  obtain ⟨call, hcall⟩ :=
    injection.exists_call instances (injection.mem_called_iff.mpr hreached) hpaths
  rw [← call.earlier.paths inst]
  exact (legible.calls _ _ _ hcall hpaths).apart

theorem Legible.reads (legible : marked.Legible)
    (instances : marked.heap.InstanceTree marked.rootInstance) (hbound : marked.heap.Bound)
    (routed : Routed marked.heap marked.rootInstance) (injection : Injection marked) {inst : Nat}
    (hreached : marked.Reaches inst) (hpaths : marked.heap.pathsOf inst ≠ []) (port : FaultPort) :
    (∃ taps, List.Forall₂ (IsTap port (marked.heap.pathsOf inst).length)
        (localEntries (marked.heap.pathsOf inst).zipIdx) taps ∧
      (uses port.name (injection.injected.textOf inst)).Perm (taps ++
        (childPositions (marked.heap.pathsOf inst)).map
          (childConnection injection.injected.heap inst))) ∧
      port.declaredWidth? (injection.injected.textOf inst) =
        some (marked.heap.pathsOf inst).length := by
  have hcalled := injection.mem_called_iff.mpr hreached
  have hinst := injection.lt_size_of_called instances hcalled
  obtain ⟨call, hcall⟩ := injection.exists_call instances hcalled hpaths
  have hsame := call.earlier.paths inst
  have hreads := (legible.calls _ _ _ hcall hpaths).reads call.rewriting (hsame ▸ hpaths) port
  have htext : injection.injected.textOf inst = call.rewriting.text := by
    rw [textOf, injection.moduleOf instances hbound hinst, call.moduleOf_after]
    rfl
  rw [hsame] at hreads
  rw [htext]
  have hconnections : (childPositions (marked.heap.pathsOf inst)).map
      (childConnection (call.before.copyModule inst) inst) =
        (childPositions (marked.heap.pathsOf inst)).map
          (childConnection injection.injected.heap inst) := by
    refine List.map_congr_left fun entry hentry => ?_
    obtain ⟨name, indices⟩ := entry
    obtain ⟨hindices, hne⟩ := get?_childPositions_eq_some (mem_childPositions.mp hentry)
    obtain ⟨index, hindex⟩ := List.exists_mem_of_ne_nil indices hne
    obtain ⟨path, hrecorded, hleads⟩ := mem_positionsOf.mp (hindices ▸ hindex)
    obtain ⟨child, -, hchild, -, -⟩ := routed.entry_below hrecorded hleads
    have hfound : (call.before.copyModule inst).childNamed? inst name = some child := by
      rw [(call.before.copyModule_links inst).childNamed?, call.earlier.links.childNamed?, hchild]
    rw [childConnection, childConnection, hfound, injection.childNamed? instances hchild,
      Option.map_some, Option.map_some,
      injection.moduleOf_child instances hbound hcall (mem_of_childNamed? hchild)]
  rw [hconnections] at hreads
  exact hreads

end ModuleTree

end Legible

section Twin

attribute [local instance] UnicodeData.ascii

/-- A core with two faulty wires in its only child. -/
def twinDesign : Text := lines [
  "module Core(", "  input  clock", ");", "  ALU alu (", "    .y(clock)", "  );",
  "endmodule",
  "module ALU(", "  input  y", ");", "  wire  slt = y;", "  wire  eq = y;", "endmodule"]

theorem isName_root : IsName "Root" := by decide

theorem isName_alu : ∀ name ∈ ["alu".toList], IsName name := by decide

theorem isName_slt : IsName "slt" := by decide

theorem isName_eq : IsName "eq" := by decide

theorem isName_none : ∀ bit ∈ (none : Option Text), IsName bit := by simp

/-- `/Root/alu/:slt` and `/Root/alu/:eq` -/
def twinFaults : List FaultPath :=
  [⟨"Root", ["alu"], true, "slt", none, isName_root, isName_alu, isName_slt, isName_none⟩,
    ⟨"Root", ["alu"], true, "eq", none, isName_root, isName_alu, isName_eq, isName_none⟩]

theorem visits_only_child {heap : Heap} {root child : Nat} (htop : heap.childrenOf root = [child])
    (hleaf : heap.childrenOf child = []) : heap.Visits root [child] [child] := by
  have hbelow : Walk heap.childrenOf heap.nameOf (heap.childrenOf child).reverse
      [heap.nameOf child] [] [] [heap.nameOf child] := by
    rw [hleaf]
    exact .done _
  refine ⟨[heap.nameOf child], ?_⟩
  rw [htop]
  exact .enter List.not_mem_nil hbelow (.done _)

theorem twinDesign_run :
    ∃ tree marked injected, ModuleTree.IsSetUp twinDesign "Core" tree ∧
      tree.markFaults (twinFaults.map FaultPath.text) = .ok marked ∧
      marked.injectFaults = .ok injected ∧ marked.Legible ∧ marked.rootInstance = 0 ∧
      (∀ inst, marked.Reaches inst ↔ inst = 0 ∨ inst = 1) ∧
      marked.heap.pathsOf 0 = twinFaults.map FaultPath.text ∧
      marked.heap.pathsOf 1 = ["/alu/:slt".toList, "/alu/:eq".toList] ∧
      marked.heap.childNamed? 0 "alu" = some 1 := by
  have hrun : (ModuleTree.setUp twinDesign "Core" (fun _ => 0) 5 >>= fun tree =>
      tree.markFaults (twinFaults.map FaultPath.text) >>= fun marked =>
        marked.injectFaults.map fun _ =>
          (decide (ModuleTree.RunFits marked.heap 0 [1]),
          decide (marked.rootInstance = 0 ∧
            marked.heap.childrenOf 0 = [1] ∧ marked.heap.childrenOf 1 = [] ∧
            marked.heap.pathsOf 0 = twinFaults.map FaultPath.text ∧
            marked.heap.pathsOf 1 = ["/alu/:slt".toList, "/alu/:eq".toList] ∧
            marked.heap.childNamed? 0 "alu" = some 1))) = .ok (true, true) := by
    decide +kernel
  obtain ⟨tree, htree, hrun⟩ := bind_eq_ok.mp hrun
  obtain ⟨marked, hmark, hrun⟩ := bind_eq_ok.mp hrun
  obtain ⟨injected, hinject, hfacts⟩ := map_eq_ok.mp hrun
  rw [Prod.mk.injEq] at hfacts
  have hfits := of_decide_eq_true hfacts.1
  obtain ⟨hroot, htop, hleaf, hpathsRoot, hpathsUnit, hchild⟩ := of_decide_eq_true hfacts.2
  have hvisits := hroot ▸ visits_only_child htop hleaf
  have legible : marked.Legible := .of_fits hvisits (hroot ▸ hfits)
  refine ⟨tree, marked, injected, ⟨_, _, htree⟩, hmark, hinject, legible, hroot, fun inst => ?_,
    hpathsRoot, hpathsUnit, hchild⟩
  rw [ModuleTree.reaches_iff hvisits, hroot, List.mem_singleton]

end Twin

end FaultInjection
