import FaultInjection.Design.Links
import FaultInjection.Marking.Misrouting

/-!
# Printed paths lead back

`get_path` walks up the links to the parents and prints names; `mark_fault` reads
names and walks down the lists of children.  Where siblings have different names the
path of an instance leads back to it.
-/

namespace FaultInjection

open Text Heap

section Runs

variable [UnicodeData]

theorem markFaults_parentOf {heap heap' : Heap} {root : Nat} {paths : List Text}
    (hrun : markFaults heap root paths = .ok heap') (ref : Nat) :
    heap'.parentOf ref = heap.parentOf ref := by
  apply foldlM_induction (fun _ state => state.parentOf ref = heap.parentOf ref) hrun rfl
  intro done path rest state state' _ hdone hstep
  obtain ⟨chain, -, recorded⟩ := markFaultWithin_returns hstep
  rw [parentOf, recorded.cell]
  exact hdone

theorem Routes.unique {heap : Heap} {self : Nat} {path : Text} {chain chain' : List (Nat × Text)}
    (routes : Routes heap self path chain) (routes' : Routes heap self path chain') :
    chain = chain' := by
  induction routes generalizing chain' with
  | last parts =>
      cases routes' with
      | last => rfl
      | step parts' =>
          rw [parts] at parts'
          cases parts'
  | step parts found rest _ ih =>
      cases routes' with
      | last parts' =>
          rw [parts] at parts'
          cases parts'
      | step parts' found' rest' routes' =>
          rw [parts, List.cons.injEq, List.cons.injEq] at parts'
          obtain ⟨-, rfl, -⟩ := parts'
          rw [found, Option.some.injEq] at found'
          rw [rest, Option.some.injEq] at rest'
          subst found' rest'
          rw [ih routes']

omit [UnicodeData] in
/-- Among siblings of different names each one is found by its own. -/
theorem childNamed?_of_distinct {heap : Heap} {parent child : Nat}
    (distinct : ((heap.childrenOf parent).map heap.nameOf).Nodup)
    (hchild : child ∈ heap.childrenOf parent) :
    heap.childNamed? parent (heap.nameOf child) = some child := by
  cases hfound : heap.childNamed? parent (heap.nameOf child) with
  | none =>
      rw [childNamed?_eq_find, List.find?_eq_none] at hfound
      exact absurd (beq_self_eq_true _) (hfound child hchild)
  | some other =>
      have hname := name_of_childNamed? hfound
      rw [List.inj_on_of_nodup_map distinct (mem_of_childNamed? hfound) hchild hname]

/-- The path that names the instances of a line is recorded along the line. -/
theorem exists_routes_of_line {heap : Heap} {root : Nat} (tree : InstanceTree heap root)
    (distinct : ∀ parent, ((heap.childrenOf parent).map heap.nameOf).Nodup)
    {above below : Nat} {nodes : List Nat} (line : Forest.Line heap.childrenOf above below nodes)
    (hnames : ∀ node ∈ nodes, IsName (heap.nameOf node)) {target : Text}
    (htarget : ¬ HasComponent target) (hends : Regex.EndsRun isWord target)
    (hplain : ∀ c ∈ target, isPlain c = true) :
    ∃ chain, Routes heap above (FaultPath.spell (nodes.map heap.nameOf) ++ target) chain ∧
      chain.map Prod.fst = nodes ∧
      ∀ ref ∈ nodes, ∀ lower, Forest.Line heap.childrenOf ref below lower →
        (ref, FaultPath.spell (lower.map heap.nameOf) ++ target) ∈ chain := by
  induction line with
  | here node =>
      have hname : ∀ name ∈ [heap.nameOf node], IsName name := by
        intro name hname
        rw [List.mem_singleton.mp hname]
        exact hnames node (.head _)
      refine ⟨_, .last (pathParts_spell hname htarget hends), rfl, fun ref href lower line => ?_⟩
      rw [List.mem_singleton] at href
      subst href
      rw [tree.forest.line_unique line (.here ref)]
      exact .head _
  | @down above child below nodes hmem line ih =>
      obtain ⟨chain, routes, hfst, hentries⟩ :=
        ih fun node hnode => hnames node (.tail _ hnode)
      have hnames' : ∀ name ∈ (above :: nodes).map heap.nameOf, IsName name := by
        intro name hname
        obtain ⟨node, hnode, rfl⟩ := List.mem_map.mp hname
        exact hnames node hnode
      have hline := line
      obtain ⟨rest, rfl⟩ := line.exists_cons
      have hparts := pathParts_spell hnames' htarget hends
      have hremainder := pathRemainder?_spell hnames' hplain
      refine ⟨_, .step hparts ?_ hremainder routes, ?_, ?_⟩
      · exact childNamed?_of_distinct (distinct above) hmem
      · rw [List.map_cons, hfst]
      · intro ref href lower hlower
        rcases List.mem_cons.mp href with rfl | href
        · rw [tree.forest.line_unique hlower (.down hmem hline)]
          exact .head _
        · exact .tail _ (hentries ref href lower hlower)

/-- What stands behind the path of an instance: `:wire` or `/:wire`. -/
def wireTarget (slashed : Bool) (wire : Text) : Text :=
  if slashed then '/' :: ':' :: wire else ':' :: wire

theorem wireTarget_not_hasComponent {wire : Text} (hwire : '/' ∉ wire) (slashed : Bool) :
    ¬ HasComponent (wireTarget slashed wire) := by
  have hsite : ¬ HasComponent (':' :: wire) := by
    intro has
    have hslash := has.slash_mem
    simp [hwire] at hslash
  cases slashed with
  | false => exact hsite
  | true =>
      rintro ⟨before, c, after, htarget, hc⟩
      rw [wireTarget, if_pos rfl] at htarget
      cases before with
      | nil =>
          rw [List.nil_append, List.cons.injEq, List.cons.injEq] at htarget
          rw [← htarget.2.1, FaultPath.isWord_colon] at hc
          cases hc
      | cons d before =>
          rw [List.cons_append, List.cons.injEq] at htarget
          exact hsite ⟨before, c, after, htarget.2, hc⟩

theorem wireTarget_endsRun (slashed : Bool) (wire : Text) :
    Regex.EndsRun isWord (wireTarget slashed wire) := by
  cases slashed with
  | false => exact Regex.endsRun_cons.mpr FaultPath.isWord_colon
  | true => exact Regex.endsRun_cons.mpr isWord_slash

omit [UnicodeData] in
theorem wireTarget_plain {wire : Text} (hwire : '\n' ∉ wire) (slashed : Bool) :
    ∀ c ∈ wireTarget slashed wire, isPlain c = true := by
  have hplain : ∀ c ∈ wire, isPlain c = true := by
    intro c hc
    rw [isPlain, bne_iff_ne]
    rintro rfl
    exact hwire hc
  have hsite : ∀ c ∈ ':' :: wire, isPlain c = true := by
    intro c hc
    rcases List.mem_cons.mp hc with rfl | hc
    · decide
    · exact hplain c hc
  cases slashed with
  | false => exact hsite
  | true =>
      intro c hc
      rcases List.mem_cons.mp hc with rfl | hc
      · decide
      · exact hsite c hc

/-- The entries of a fault that leads to one instance. -/
structure MarkedAlong (heap heap' : Heap) (inst : Nat) (target : Text) : Prop where
  /-- The instance and those above it record their relative paths. -/
  entry : ∀ ref nodes, Forest.Line heap.childrenOf ref inst nodes →
    heap'.pathsOf ref =
      heap.pathsOf ref ++ [FaultPath.spell (nodes.map heap.nameOf) ++ target]
  others : ∀ ref, (∀ nodes, ¬ Forest.Line heap.childrenOf ref inst nodes) →
    heap'.pathsOf ref = heap.pathsOf ref
  /-- The components of an entry are the names on the way down. -/
  components : ∀ ref nodes, Forest.Line heap.childrenOf ref inst nodes →
    pathParts (FaultPath.spell (nodes.map heap.nameOf) ++ target) =
      nodes.map fun node => '/' :: heap.nameOf node
  /-- Only in the instance itself the entry has a single component. -/
  single : ∀ ref nodes, Forest.Line heap.childrenOf ref inst nodes →
    ((∃ part, pathParts (FaultPath.spell (nodes.map heap.nameOf) ++ target) = [part]) ↔
      ref = inst)

omit [UnicodeData] in
/-- Everything above an instance lies on the line from the root. -/
theorem mem_line_of_above {heap : Heap} {root : Nat} (tree : InstanceTree heap root)
    {inst ref : Nat} {nodes lower : List Nat}
    (line : Forest.Line heap.childrenOf root inst nodes)
    (hlower : Forest.Line heap.childrenOf ref inst lower) : ref ∈ nodes := by
  obtain ⟨rest, rfl⟩ := line.exists_cons
  have hbelow : ref = root ∨ Forest.Below heap.childrenOf root ref := by
    have hroot : ∀ above, ¬ Forest.Below heap.childrenOf above root := by
      intro above habove
      cases habove with
      | single hmem => exact tree.root_top _ hmem
      | tail _ hmem => exact tree.root_top _ hmem
    rcases hlower.eq_or_below with rfl | hrefInst
    · exact line.eq_or_below
    · rcases line.eq_or_below with rfl | hrootInst
      · exact absurd hrefInst (hroot ref)
      · rcases tree.forest.below_comparable hrefInst hrootInst with heq | habove | habove
        · exact Or.inl heq
        · exact absurd habove (hroot ref)
        · exact Or.inr habove
  rcases hbelow with rfl | hbelow
  · exact .head _
  · obtain ⟨upper, hupper⟩ := Forest.exists_line hbelow
    rw [tree.forest.line_unique line (hupper.trans hlower)]
    exact List.mem_append_left _ (List.mem_of_getLast? hupper.getLast?)

/-- A path that names the instances of a line is recorded by the last of them and by all
instances above it. -/
theorem markFault_line {heap : Heap} {root : Nat} (tree : InstanceTree heap root)
    (distinct : ∀ parent, ((heap.childrenOf parent).map heap.nameOf).Nodup)
    (hnames : ∀ ref < heap.instances.size, IsName (heap.nameOf ref)) {inst : Nat}
    (hinst : inst < heap.instances.size) {nodes : List Nat}
    (line : Forest.Line heap.childrenOf root inst nodes) {target : Text}
    (htarget : ¬ HasComponent target) (hends : Regex.EndsRun isWord target)
    (hplain : ∀ c ∈ target, isPlain c = true) :
    ∃ heap', markFault heap root (FaultPath.spell (nodes.map heap.nameOf) ++ target) = .ok heap' ∧
      MarkedAlong heap heap' inst target := by
  have hlt : ∀ node, ∀ lower, Forest.Line heap.childrenOf node inst lower →
      ∀ ref ∈ lower, ref < heap.instances.size := by
    intro node lower hlower ref href
    obtain ⟨upper, rest, -, hrest⟩ := hlower.exists_lower href
    have hlength := hrest.length_le tree.forest
    obtain ⟨others, rfl⟩ := hrest.exists_cons
    rw [List.length_cons] at hlength
    omega
  have hline : ∀ node lower, Forest.Line heap.childrenOf node inst lower →
      ∀ ref ∈ lower, IsName (heap.nameOf ref) :=
    fun node lower hlower ref href => hnames ref (hlt node lower hlower ref href)
  obtain ⟨chain, routes, hfst, hentries⟩ := exists_routes_of_line tree distinct line
    (hline _ _ line) htarget hends hplain
  obtain ⟨names, reads, spells⟩ := routes.reads
  obtain ⟨heap', hrun⟩ := (markFault_reads reads heap root).2.2
    (exists_spells_iff.mp ⟨_, spells⟩) rfl
  obtain ⟨chain', routes', recorded⟩ := markFaultWithin_returns hrun
  obtain rfl := routes.unique routes'
  have hnodup : (chain.map Prod.fst).Nodup := by
    rw [hfst]
    exact line.nodup tree.forest
  have hcomponents : ∀ ref lower, Forest.Line heap.childrenOf ref inst lower →
      pathParts (FaultPath.spell (lower.map heap.nameOf) ++ target) =
        lower.map fun node => '/' :: heap.nameOf node := by
    intro ref lower hlower
    have hlowerNames : ∀ name ∈ lower.map heap.nameOf, IsName name := by
      intro name hname
      obtain ⟨node, hnode, rfl⟩ := List.mem_map.mp hname
      exact hline ref lower hlower node hnode
    rw [pathParts_spell hlowerNames htarget hends, List.map_map]
    rfl
  refine ⟨heap', hrun, ?_, ?_, hcomponents, ?_⟩
  · intro ref lower hlower
    have hmem := mem_line_of_above tree line hlower
    rw [recorded.paths, addedAt_of_mem hnodup (hentries ref hmem lower hlower)]
  · intro ref hnone
    rw [recorded.paths, addedAt_of_not_mem, List.append_nil]
    rw [hfst]
    intro hmem
    obtain ⟨upper, lower, -, hlower⟩ := line.exists_lower hmem
    exact hnone lower hlower
  · intro ref lower hlower
    have hparts := hcomponents ref lower hlower
    show (∃ part, pathParts (FaultPath.spell (lower.map heap.nameOf) ++ _) = [part]) ↔ _
    rw [hparts]
    constructor
    · rintro ⟨part, hpart⟩
      obtain ⟨rest, rfl⟩ := hlower.exists_cons
      rw [List.map_cons, List.cons.injEq, List.map_eq_nil_iff] at hpart
      have hlast := hlower.getLast?
      rw [hpart.2, List.getLast?_singleton, Option.some.injEq] at hlast
      exact hlast
    · rintro rfl
      rw [tree.forest.line_unique hlower (.here ref)]
      exact ⟨_, rfl⟩

/--
The path of an instance, with a wire behind it, is recorded by the instance and by
all instances above it, whatever has been marked before.
-/
theorem markFault_getPath {contents rootType : Text} {tree marked : ModuleTree}
    (setUp : ModuleTree.IsSetUp contents rootType tree)
    (distinct : ∀ parent, ((tree.heap.childrenOf parent).map tree.heap.nameOf).Nodup)
    {faultPaths : List Text} (hmark : tree.markFaults faultPaths = .ok marked) {inst : Nat}
    (hinst : inst < tree.heap.instances.size) {wire : Text} (hwire : '/' ∉ wire)
    (hline : '\n' ∉ wire) (slashed : Bool) :
    ∃ path heap', marked.heap.getPath inst true = .ok path ∧
      markFault marked.heap marked.rootInstance
        (path ++ wireTarget slashed wire) = .ok heap' ∧
      MarkedAlong marked.heap heap' inst (wireTarget slashed wire) := by
  obtain ⟨parsed, -, built⟩ := setUp.built
  rw [ModuleTree.markFaults, map_eq_ok] at hmark
  obtain ⟨heap, hmark, rfl⟩ := hmark
  have hmarked := markFaults_run built.sound.instances hmark
  have links := hmarked.sameLinks
  have instances := links.instanceTree built.sound.instances
  have linked := setUp.linked.congr links (markFaults_parentOf hmark)
  have hchildren : heap.childrenOf = tree.heap.childrenOf := funext links.children
  have hnameOf : heap.nameOf = tree.heap.nameOf := funext links.name
  obtain ⟨nodes, line⟩ : ∃ nodes, Forest.Line heap.childrenOf tree.rootInstance inst nodes := by
    rw [hchildren]
    rcases built.sound.reached inst hinst with rfl | hbelow
    · exact ⟨_, .here _⟩
    · exact Forest.exists_line hbelow
  have hsize : inst < heap.instances.size := by
    rw [links.size]
    exact hinst
  have hnames : ∀ ref < heap.instances.size, IsName (heap.nameOf ref) := by
    rw [links.size, hnameOf]
    exact fun ref href => built.isName href
  have hdistinct : ∀ parent, ((heap.childrenOf parent).map heap.nameOf).Nodup := by
    rw [hchildren, hnameOf]
    exact distinct
  obtain ⟨heap', hrun, halong⟩ := markFault_line instances hdistinct hnames hsize line
    (wireTarget_not_hasComponent hwire slashed) (wireTarget_endsRun slashed wire)
    (wireTarget_plain hline slashed)
  exact ⟨_, heap', linked.getPath instances hsize line, hrun, halong⟩

end Runs

section Nested

attribute [local instance] UnicodeData.ascii

theorem markFault_getPath_nested :
    ∃ tree marked path heap', ModuleTree.IsSetUp ModuleTree.nestedDesign "Core" tree ∧
      tree.markFaults ["/Root/alu/alu/add/:sum"] = .ok marked ∧
      marked.heap.getPath 2 true = .ok path ∧
      markFault marked.heap marked.rootInstance (path ++ wireTarget false "t") = .ok heap' ∧
      MarkedAlong marked.heap heap' 2 (wireTarget false "t") := by
  have hrun : (ModuleTree.setUp ModuleTree.nestedDesign "Core" (fun _ => 0) 5 >>= fun tree =>
      (tree.markFaults ["/Root/alu/alu/add/:sum"]).map fun _ =>
        decide (tree.heap.instances.size = 4) && (List.range 4).all fun parent =>
          decide ((tree.heap.childrenOf parent).map tree.heap.nameOf).Nodup) = .ok true := by
    decide +kernel
  obtain ⟨tree, htree, hrun⟩ := bind_eq_ok.mp hrun
  obtain ⟨marked, hmark, hfacts⟩ := map_eq_ok.mp hrun
  rw [Bool.and_eq_true, decide_eq_true_eq, List.all_eq_true] at hfacts
  obtain ⟨hsize, hnodup⟩ := hfacts
  have hsetup : ModuleTree.IsSetUp ModuleTree.nestedDesign "Core" tree := ⟨_, _, htree⟩
  obtain ⟨parsed, -, built⟩ := hsetup.built
  have hdistinct : ∀ parent, ((tree.heap.childrenOf parent).map tree.heap.nameOf).Nodup := by
    intro parent
    by_cases hparent : parent < 4
    · exact of_decide_eq_true (hnodup parent (List.mem_range.mpr hparent))
    · have hnone : tree.heap.childrenOf parent = [] := by
        refine List.eq_nil_iff_forall_not_mem.mpr fun child hchild => ?_
        have hbounds := built.sound.instances.forest.bounds hchild
        omega
      rw [hnone]
      exact List.nodup_nil
  have htwo : 2 < tree.heap.instances.size := by omega
  have hwire : '/' ∉ ("t" : Text) ∧ '\n' ∉ ("t" : Text) := by decide
  obtain ⟨path, heap', hpath, hmarked, halong⟩ :=
    markFault_getPath hsetup hdistinct hmark htwo hwire.1 hwire.2 false
  exact ⟨tree, marked, path, heap', hsetup, hmark, hpath, hmarked, halong⟩

end Nested

end FaultInjection
