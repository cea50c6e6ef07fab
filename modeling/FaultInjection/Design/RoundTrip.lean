import FaultInjection.Design.Dump
import FaultInjection.Design.SetUp

/-!
# Parsing what was dumped

`dump` writes the modules that the root type reaches, each once, and parsing the
file finds exactly these modules again.
-/

namespace FaultInjection

open Text Heap

section Types

variable [UnicodeData]

namespace Parsed

/-- The text of one module has an instantiation of another known module. -/
def Instantiates (parsed : Parsed) (type type' : Text) : Prop :=
  ∃ module name, parsed.module? type = some module ∧
    (type', name) ∈ possibleChildren module.moduleText ∧
    (parsed.moduleDict.get? type').isSome = true

/-- A type is reached from another through instantiations. -/
def Reaches (parsed : Parsed) : Text → Text → Prop :=
  Relation.ReflTransGen parsed.Instantiates

/-- No module reached from the root type instantiates itself, directly or not. -/
def Acyclic (parsed : Parsed) (rootType : Text) : Prop :=
  ∀ type, parsed.Reaches rootType type → ¬ Relation.TransGen parsed.Instantiates type type

/-- Instantiated types come later in the dictionary. -/
def Ascending (parsed : Parsed) : Prop :=
  ∀ type ∈ parsed.moduleDict.keys, ∀ module ∈ parsed.module? type,
    ∀ possible ∈ possibleChildren module.moduleText, possible.1 ∈ parsed.moduleDict.keys →
      parsed.moduleDict.keys.idxOf type < parsed.moduleDict.keys.idxOf possible.1

instance (parsed : Parsed) : Decidable parsed.Ascending :=
  inferInstanceAs (Decidable (∀ type ∈ parsed.moduleDict.keys, _))

theorem Ascending.acyclic {parsed : Parsed} (ascending : parsed.Ascending)
    (rootType : Text) : parsed.Acyclic rootType := by
  have hlater : ∀ {type type'}, Relation.TransGen parsed.Instantiates type type' →
      parsed.moduleDict.keys.idxOf type < parsed.moduleDict.keys.idxOf type' := by
    have hstep : ∀ {type type'}, parsed.Instantiates type type' →
        parsed.moduleDict.keys.idxOf type < parsed.moduleDict.keys.idxOf type' := by
      rintro type type' ⟨module, name, hmodule, hpossible, hknown⟩
      obtain ⟨ref, hget, -⟩ := Option.map_eq_some_iff.mp hmodule
      obtain ⟨ref', hget'⟩ := Option.isSome_iff_exists.mp hknown
      exact ascending type (Dict.mem_keys_iff.mpr ⟨ref, hget⟩) module hmodule _ hpossible
        (Dict.mem_keys_iff.mpr ⟨ref', hget'⟩)
    intro type type' hreaches
    induction hreaches with
    | single hinstantiates => exact hstep hinstantiates
    | tail _ hinstantiates ih => exact Nat.lt_trans ih (hstep hinstantiates)
  exact fun type _ hcycle => Nat.lt_irrefl _ (hlater hcycle)

end Parsed

namespace ModuleTree

omit [UnicodeData] in
theorem addChild_moduleOf_new (tree : ModuleTree) (node module : Nat) (name : Text) :
    (tree.addChild node module name).heap.moduleOf tree.heap.instances.size =
      tree.heap.modules.cell module := by
  by_cases hnode : tree.heap.instances.size = node
  · subst hnode
    rw [moduleOf, addChild, Store.modify_cell_self, Store.alloc_cell_new]
  · rw [moduleOf, addChild, Store.modify_cell_of_ne _ _ hnode, Store.alloc_cell_new]

/-- The recursion is no deeper than there are types that do not lie above. -/
theorem findChildren_returns {parsed : Parsed} {rootType : Text}
    (hacyclic : parsed.Acyclic rootType) {depth : Nat} {tree : ModuleTree} {node : Nat}
    {type : Text} {above : List Text} (hmodules : tree.heap.modules = parsed.modules)
    (hall : tree.allModules = parsed.moduleDict)
    (hmodule : parsed.module? type = some (tree.heap.moduleOf node))
    (hreaches : parsed.Reaches rootType type) (hnodup : (type :: above).Nodup)
    (hknown : type :: above ⊆ parsed.moduleDict.keys)
    (habove : ∀ other ∈ above, Relation.TransGen parsed.Instantiates other type)
    (hdepth : parsed.moduleDict.keys.length ≤ above.length + depth) :
    ∃ tree', findChildren depth tree node = .ok tree' ∧
      tree'.heap.modules = parsed.modules ∧ tree'.allModules = parsed.moduleDict := by
  induction depth generalizing tree node type above with
  | zero =>
      have hlength := (List.subperm_of_subset hnodup hknown).length_le
      rw [List.length_cons] at hlength
      omega
  | succ depth ih =>
      rw [findChildren]
      refine foldlM_returns (fun state : ModuleTree => state.heap.modules = parsed.modules ∧
        state.allModules = parsed.moduleDict) ⟨hmodules, hall⟩ ?_
      rintro ⟨type', name⟩ hpossible state ⟨hstateModules, hstateAll⟩
      cases hget : state.allModules.get? type' with
      | none =>
          exact ⟨state, rfl, hstateModules, hstateAll⟩
      | some module =>
          have hget' := hstateAll ▸ hget
          have hinstantiates : parsed.Instantiates type type' :=
            ⟨_, name, hmodule, hpossible, by rw [hget']; rfl⟩
          have hchild : parsed.module? type' = some ((state.addChild node module name).heap.moduleOf
              state.heap.instances.size) := by
            rw [addChild_moduleOf_new, Parsed.module?, hget', hstateModules]
            rfl
          have hlater : ∀ other ∈ type :: above,
              Relation.TransGen parsed.Instantiates other type' := by
            rintro other (_ | ⟨_, hother⟩)
            · exact .single hinstantiates
            · exact (habove other hother).tail hinstantiates
          have hreaches' := hreaches.tail hinstantiates
          have hfresh : type' ∉ type :: above := fun hmem =>
            hacyclic type' hreaches' (hlater type' hmem)
          have hdepth' : parsed.moduleDict.keys.length ≤ (type :: above).length + depth := by
            rw [List.length_cons]
            omega
          have hadded : (state.addChild node module name).heap.modules = parsed.modules :=
            hstateModules
          obtain ⟨built, hbuilt, hbuiltModules, hbuiltAll⟩ :=
            ih hadded hstateAll hchild hreaches' (List.nodup_cons.mpr ⟨hfresh, hnodup⟩)
              (List.cons_subset.mpr ⟨Dict.mem_keys_iff.mpr ⟨module, hget'⟩, hknown⟩) hlater
              hdepth'
          refine ⟨built.register type' state.heap.instances.size, ?_, hbuiltModules, hbuiltAll⟩
          simp only
          rw [hbuilt]
          rfl

/-- A design without cycles of instantiations is set up, however much deeper the recursion
may go than it has modules. -/
theorem setUp_returns {contents rootType : Text} {parsed : Parsed}
    (hparse : parseFile contents = .ok parsed) (hroot : rootType ∈ parsed.moduleDict.keys)
    (hacyclic : parsed.Acyclic rootType) (draws : Nat → Nat) {depth : Nat}
    (hdepth : parsed.moduleDict.keys.length ≤ depth) :
    ∃ tree, setUp contents rootType draws depth = .ok tree := by
  obtain ⟨root, hget⟩ := Dict.mem_keys_iff.mp hroot
  obtain ⟨fresh, hfresh⟩ : ∃ fresh, make parsed draws rootType = .ok fresh := by
    rw [make, hget]
    exact ⟨_, rfl⟩
  have made := make_run (parseFile_sound hparse) hfresh
  have hmodule : parsed.module? rootType = some (fresh.heap.moduleOf 0) := by
    obtain ⟨type, htype⟩ := made.sound.known 0 (by rw [made.size]; exact Nat.zero_lt_one)
    have hlabel := congrArg Prod.fst made.label
    have hentered := (made.sound.entered type _ htype).2
    have heq : type = rootType := hentered.symm.trans hlabel
    rw [heq, made.allModules] at htype
    rw [Parsed.module?, htype, moduleOf, made.modules]
    rfl
  have hlevels : parsed.moduleDict.keys.length ≤ ([] : List Text).length + depth :=
    Nat.le_trans hdepth (Nat.le_add_left _ _)
  obtain ⟨tree, htree, -⟩ := findChildren_returns hacyclic made.modules made.allModules hmodule
    .refl (List.nodup_singleton _) (List.cons_subset.mpr ⟨hroot, List.nil_subset _⟩)
    (fun _ hmem => absurd hmem List.not_mem_nil) hlevels
  refine ⟨tree, ?_⟩
  rw [setUp, bind_eq_ok]
  refine ⟨parsed, hparse, bind_eq_ok.mpr ⟨fresh, hfresh, ?_⟩⟩
  rw [setupTree, made.rootInstance]
  exact htree

theorem exists_isSetUp {contents rootType : Text} {parsed : Parsed}
    (hparse : parseFile contents = .ok parsed) (hroot : rootType ∈ parsed.moduleDict.keys)
    (hacyclic : parsed.Acyclic rootType) : ∃ tree, IsSetUp contents rootType tree := by
  obtain ⟨tree, htree⟩ := setUp_returns hparse hroot hacyclic (fun _ => 0) (Nat.le_refl _)
  exact ⟨tree, _, _, htree⟩

namespace BuiltFrom

variable {parsed : Parsed} {rootType : Text} {tree : ModuleTree}

theorem module?_moduleOf (built : BuiltFrom parsed rootType tree) {ref : Nat}
    (href : ref < tree.heap.instances.size) :
    parsed.module? (tree.heap.moduleOf ref).type = some (tree.heap.moduleOf ref) := by
  obtain ⟨type, htype⟩ := built.sound.known ref href
  have hentered : (tree.heap.moduleOf ref).type = type := (built.sound.entered type _ htype).2
  rw [hentered, Parsed.module?, ← built.allModules, htype, Option.map_some, ← built.modules]
  rfl

theorem moduleOf_root (built : BuiltFrom parsed rootType tree) :
    (tree.heap.moduleOf tree.rootInstance).type = rootType := by
  rw [built.rootInstance]
  exact congrArg Prod.fst built.label

/-- The types of the instances of the tree are those that the root type reaches. -/
theorem exists_instance_iff (built : BuiltFrom parsed rootType tree) {type : Text} :
    (∃ ref, ref < tree.heap.instances.size ∧ (tree.heap.moduleOf ref).type = type) ↔
      parsed.Reaches rootType type := by
  have hforest := built.sound.instances.forest
  have hstep : ∀ {parent child}, child ∈ tree.heap.childrenOf parent →
      parsed.Instantiates (tree.heap.moduleOf parent).type (tree.heap.moduleOf child).type := by
    intro parent child hmem
    have hbounds := hforest.bounds hmem
    have hparent := Nat.lt_trans hbounds.1 hbounds.2
    have hlabel : tree.label child ∈ tree.knownChildren (tree.heap.moduleOf parent).moduleText := by
      rw [← built.complete parent hparent]
      exact List.mem_map_of_mem hmem
    rw [knownChildren, List.mem_filter, built.allModules] at hlabel
    exact ⟨_, tree.heap.nameOf child, built.module?_moduleOf hparent, hlabel.1, hlabel.2⟩
  constructor
  · rintro ⟨ref, href, rfl⟩
    rcases built.sound.reached ref href with rfl | hbelow
    · rw [built.moduleOf_root]
      exact .refl
    · clear href
      induction hbelow with
      | single hmem =>
          have hfirst := hstep hmem
          rw [built.moduleOf_root] at hfirst
          exact .single hfirst
      | tail _ hmem ih => exact ih.tail (hstep hmem)
  · intro hreaches
    induction hreaches with
    | refl => exact ⟨tree.rootInstance, built.sound.instances.root_lt, built.moduleOf_root⟩
    | @tail type type' _ hinstantiates ih =>
        obtain ⟨ref, href, rfl⟩ := ih
        obtain ⟨module, name, hmodule, hpossible, hknown⟩ := hinstantiates
        rw [built.module?_moduleOf href, Option.some.injEq] at hmodule
        have hlabel : (type', name) ∈ (tree.heap.childrenOf ref).map tree.label := by
          rw [built.complete ref href, knownChildren, List.mem_filter, hmodule,
            built.allModules]
          exact ⟨hpossible, hknown⟩
        obtain ⟨child, hmem, hchild⟩ := List.mem_map.mp hlabel
        exact ⟨child, (hforest.bounds hmem).2, congrArg Prod.fst hchild⟩

end BuiltFrom

end ModuleTree

omit [UnicodeData] in
theorem exists_map_eq_map {α β γ : Type} {f : α → γ} {g : β → γ} {motive : β → Prop}
    {row : List α} (hrow : ∀ x ∈ row, ∃ y, g y = f x ∧ motive y) :
    ∃ row' : List β, row.map f = row'.map g ∧ ∀ y ∈ row', motive y := by
  induction row with
  | nil => exact ⟨[], rfl, fun _ hy => absurd hy List.not_mem_nil⟩
  | cons x row ih =>
      obtain ⟨y, hy, hmotive⟩ := hrow x (.head _)
      obtain ⟨row', hmap, hall⟩ := ih fun other hother => hrow other (.tail _ hother)
      refine ⟨y :: row', by rw [List.map_cons, List.map_cons, hy, hmap], ?_⟩
      rintro z (_ | ⟨_, hz⟩)
      · exact hmotive
      · exact hall z hz

/-- Type and text of a module. -/
def Module.entry (module : Module) : Text × Text := (module.type, module.moduleText)

/-- The modules parsed from a dumped file are those that the root type reaches. -/
structure RoundTrip (parsed reparsed : Parsed) (rootType file : Text)
    (modules : List Module) : Prop where
  kept : ∀ type, parsed.Reaches rootType type → ∃ module ∈ modules,
    parsed.module? type = some module ∧ reparsed.module? type = some module
  dropped : ∀ type, ¬ parsed.Reaches rootType type → reparsed.module? type = none
  scanned : entries (universalNewlines file) = modules.map Module.entry
  once : (modules.map Module.type).Nodup

/-- Modules of chunks that have different types are found again in a file. -/
theorem entries_flatMap_moduleText {modules : List Module} {chunks : List Chunk}
    (hchunks : modules.map Module.entry = chunks.map fun chunk => (chunk.type, chunk.text))
    (hreturn : ∀ chunk ∈ chunks, '\r' ∉ chunk.text) :
    entries (universalNewlines (modules.flatMap fun module => module.moduleText ++ ['\n'])) =
      modules.map Module.entry := by
  have hjoined : (modules.flatMap fun module => module.moduleText ++ ['\n']) =
      joined chunks := by
    have htexts := congrArg (fun rows => (rows.map Prod.snd).flatMap (· ++ ['\n'])) hchunks
    simp only [List.map_map, List.flatMap_map] at htexts
    exact htexts
  have hnone : '\r' ∉ joined chunks := by
    intro hmem
    obtain ⟨chunk, hchunk, hmem⟩ := List.mem_flatMap.mp hmem
    rcases List.mem_append.mp hmem with hmem | hmem
    · exact hreturn chunk hchunk hmem
    · exact absurd hmem (by decide)
  rw [hjoined, universalNewlines_of_no_return hnone, entries_joined, hchunks]

/-- The last entry of a type is its only one when no type is repeated. -/
theorem Parsed.module?_enterAll_of_nodup {modules : List Module}
    (hmade : ∀ module ∈ modules, module = madeModule module.type module.moduleText)
    (hnodup : (modules.map Module.type).Nodup) (type : Text) (module : Module) :
    (enterAll (modules.map Module.entry)).module? type = some module ↔
      module ∈ modules ∧ module.type = type := by
  have hkeys : (Dict.keys (modules.map Module.entry).reverse).Nodup := by
    rw [Dict.keys, List.map_reverse, List.nodup_reverse, List.map_map]
    exact hnodup
  have hentry : ∀ moduleText, Dict.get? (modules.map Module.entry).reverse type = some moduleText ↔
      (type, moduleText) ∈ modules.map Module.entry := by
    intro moduleText
    rw [← List.mem_reverse]
    exact (Dict.mem_iff_get? hkeys).symm
  rw [module?_enterAll, Option.map_eq_some_iff]
  constructor
  · rintro ⟨moduleText, hlookup, rfl⟩
    rw [hentry] at hlookup
    obtain ⟨other, hother, heq⟩ := List.mem_map.mp hlookup
    obtain ⟨rfl, rfl⟩ := Prod.mk.inj heq
    rw [← hmade other hother]
    exact ⟨hother, rfl⟩
  · rintro ⟨hmodule, rfl⟩
    refine ⟨module.moduleText, ?_, (hmade module hmodule).symm⟩
    rw [hentry]
    exact List.mem_map_of_mem hmodule

/--
For a design without cycles of instantiations the tree is built, and parsing the
file that `dump` writes yields the modules of the types that the root type reaches,
each once and with the same text.
-/
theorem parseFile_dump {contents rootType : Text} {parsed : Parsed}
    (hparse : parseFile contents = .ok parsed) (hroot : rootType ∈ parsed.moduleDict.keys)
    (hacyclic : parsed.Acyclic rootType) :
    (∃ tree, ModuleTree.IsSetUp contents rootType tree) ∧
      ∀ tree, ModuleTree.IsSetUp contents rootType tree →
        ∃ modules file reparsed, tree.dumped = .ok modules ∧ tree.dump = .ok file ∧
          parseFile file = .ok reparsed ∧ RoundTrip parsed reparsed rootType file modules := by
  refine ⟨ModuleTree.exists_isSetUp hparse hroot hacyclic, fun tree hsetup => ?_⟩
  obtain ⟨parsed', hparse', built⟩ := hsetup.built
  rw [hparse, Except.ok.injEq] at hparse'
  subst hparse'
  obtain ⟨row, hrow, hdumped⟩ := ModuleTree.dumped_run built.sound.instances
  have hlt : ∀ ref ∈ row, ref < tree.heap.instances.size := fun ref href =>
    hrow.lt_size built.sound.instances href
  have hknown : ∀ module ∈ newModules tree.heap row [],
      parsed.module? module.type = some module := by
    intro module hmodule
    obtain ⟨-, ref, href, rfl⟩ := mem_newModules hmodule
    exact built.module?_moduleOf (hlt ref href)
  have hmade : ∀ module ∈ newModules tree.heap row [],
      module = madeModule module.type module.moduleText := by
    intro module hmodule
    obtain ⟨chunk, htype, hchunk, -⟩ := exists_chunk_of_module? hparse (hknown module hmodule)
    rw [hchunk]
    rfl
  have hchunk : ∀ module ∈ newModules tree.heap row [], ∃ chunk : Chunk,
      (chunk.type, chunk.text) = module.entry ∧ '\r' ∉ chunk.text := by
    intro module hmodule
    obtain ⟨chunk, htype, hchunk, hnone⟩ :=
      exists_chunk_of_module? hparse (hknown module hmodule)
    have htext : module.moduleText = chunk.text := by
      rw [hchunk]
      rfl
    exact ⟨chunk, by rw [Module.entry, htype, htext], hnone⟩
  obtain ⟨chunks, hchunks, hreturn⟩ := exists_map_eq_map hchunk
  have hscanned := entries_flatMap_moduleText hchunks hreturn
  have hnodup := newModules_nodup tree.heap row []
  have hreparsed := fun type module =>
    Parsed.module?_enterAll_of_nodup hmade hnodup type module
  have hreached : ∀ type, parsed.Reaches rootType type ↔
      ∃ module ∈ newModules tree.heap row [], module.type = type := by
    intro type
    rw [← built.exists_instance_iff]
    constructor
    · rintro ⟨ref, href, rfl⟩
      exact exists_newModule ((hrow.mem ref).mpr (built.sound.reached ref href)) List.not_mem_nil
    · rintro ⟨module, hmodule, rfl⟩
      obtain ⟨-, ref, href, rfl⟩ := mem_newModules hmodule
      exact ⟨ref, hlt ref href, rfl⟩
  refine ⟨_, _, _, hdumped, by rw [ModuleTree.dump, hdumped]; rfl, parseFile_eq _, ?_⟩
  have hnewline : ("\n" : Text) = ['\n'] := by decide
  rw [hnewline]
  refine ⟨fun type htype => ?_, fun type htype => ?_, hscanned, hnodup⟩
  · obtain ⟨module, hmodule, rfl⟩ := (hreached type).mp htype
    refine ⟨module, hmodule, hknown module hmodule, ?_⟩
    rw [hscanned]
    exact (hreparsed _ _).mpr ⟨hmodule, rfl⟩
  · rw [hscanned, Option.eq_none_iff_forall_not_mem]
    intro module hmodule
    exact htype ((hreached type).mpr ⟨module, (hreparsed _ _).mp hmodule⟩)

end Types

section Nested

attribute [local instance] UnicodeData.ascii

theorem parseFile_dump_nested :
    ∃ parsed, parseFile ModuleTree.nestedDesign = .ok parsed ∧
      (∃ tree, ModuleTree.IsSetUp ModuleTree.nestedDesign "Core" tree) ∧
        ∀ tree, ModuleTree.IsSetUp ModuleTree.nestedDesign "Core" tree →
          ∃ modules file reparsed, tree.dumped = .ok modules ∧ tree.dump = .ok file ∧
            parseFile file = .ok reparsed ∧
            RoundTrip parsed reparsed "Core" file modules := by
  have hrun : (parseFile ModuleTree.nestedDesign).map (fun parsed =>
      decide ("Core".toList ∈ parsed.moduleDict.keys ∧ parsed.Ascending)) = .ok true := by
    decide +kernel
  obtain ⟨parsed, hparse, hfacts⟩ := map_eq_ok.mp hrun
  obtain ⟨hroot, hascending⟩ := of_decide_eq_true hfacts
  exact ⟨parsed, hparse, parseFile_dump hparse hroot (hascending.acyclic "Core")⟩

end Nested

end FaultInjection
