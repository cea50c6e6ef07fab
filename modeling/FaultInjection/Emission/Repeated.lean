import FaultInjection.Emission.Outline
import FaultInjection.Emission.Register

/-!
# Repeated injections

A run of calls on one module.  The text after a call declares and assigns what it did
before, and in addition what its circuit introduces, where the call rewrites one
statement of code.
-/

namespace FaultInjection

open Regex Regex.Pattern Text Verilog

section Runs

variable [UnicodeData]

/-! ## The text around a single statement -/

theorem isName_of_identifier {name : Text} (hname : isIdentifier name = true) : IsName name := by
  refine ⟨(isIdentifier.isWord hname).ne_nil, fun c hc => ?_⟩
  rw [isIdentifier, Bool.and_eq_true, Bool.and_eq_true, List.all_eq_true] at hname
  have hword := hname.1.2 c hc
  have hascii : c.toNat < 128 := Nat.lt_succ_of_lt (inWord_toNat (inWord_of_isAlphanum hword).1)
  rwa [isWord_ascii hascii]

theorem isFaultWire_text (signal : Signal) : IsFaultWire signal.text := by
  have hname := isName_of_identifier signal.identifier
  intro c hc
  unfold Signal.text at hc
  cases hbit : signal.bit with
  | none =>
      rw [hbit, List.append_nil] at hc
      exact Or.inl (hname.word c hc)
  | some bit =>
      simp only [hbit, List.mem_append, List.mem_cons, List.not_mem_nil, or_false] at hc
      rcases hc with hc | rfl | hc | rfl
      · exact Or.inl (hname.word c hc)
      · exact Or.inr (Or.inl rfl)
      · have hdigit := isDigit_of_mem_toDigits bit c hc
        have hascii : c.toNat < 128 :=
          Nat.lt_succ_of_lt (inWord_toNat (inWord_of_isDigit hdigit).1)
        refine Or.inl (isWord_of_isDigit ?_)
        rwa [isDigit_ascii hascii]
      · exact Or.inr (Or.inr rfl)

/-- The text in front of the statement found. -/
def Site.before (site : Site) : Text :=
  site.text.take (site.text.length - (site.found.taken ++ site.found.rest).length)

theorem Site.Cut.before_eq {site : Site} {sampleWire : Text} (cut : site.Cut sampleWire) :
    cut.before = site.before := by
  have hlength := congrArg List.length cut.text_eq
  rw [List.length_append] at hlength
  unfold Site.before
  rw [hlength, Nat.add_sub_cancel, cut.text_eq, List.take_left]

/-- Where a single statement matches, the rest of the text is left alone. -/
theorem Site.Cut.sub_single {site : Site} {sampleWire : Text} (cut : site.Cut sampleWire)
    (hsingle : (findall (site.pattern sampleWire) site.text).length = 1) (piece : Text) :
    sub (site.pattern sampleWire) (fun _ => piece) site.text =
      cut.before ++ (piece ++ site.found.rest) := by
  have hproductive := site.pattern_productive sampleWire
  have hne := hproductive _ _ (mem_of_matchAt cut.match_eq)
  rw [cut.text_eq, cut.clear.findall, findall_hit cut.match_eq hne, List.length_cons,
    Nat.add_eq_right, List.length_eq_zero_iff] at hsingle
  rw [cut.sub_eq, sub_of_clear (clear_of_findall hproductive hsingle)]

theorem redirect_untouched {sampleWire text text' : Text} (hname : IsName sampleWire)
    (huntouched : ¬ (sampleWire ++ [' ', ' ']) <:+: text)
    (hrun : redirectAssignments sampleWire (findall (assignmentPattern sampleWire) text) text =
      .ok text') : text' = text := by
  have hblank : " ".toList = [' '] := by decide +kernel
  refine redirectAssignments_induction hname (fun m hm => operator_of_mem_findall hname hm) hrun
    (fun text' => text' = text) rfl ?_
  rintro _ rfl
  refine sub_of_clear (fun before after heq _ => ?_) _
  rw [List.append_nil, matchAt_eq_none_iff]
  intro m hm
  have htaken := taken_append_rest hm
  simp only [redirectPattern, chain, mem_readings_seq, mem_readings_word] at hm
  obtain ⟨_, ⟨_, -, rfl⟩, _, ⟨_, ⟨_, -, rfl⟩, _, ⟨rest, -, rfl⟩, rfl⟩, rfl⟩ := hm
  refine huntouched ⟨before, rest, ?_⟩
  rw [heq, ← htaken, hblank]
  simp only [Match.after, List.append_assoc, List.cons_append, List.nil_append]

theorem Module.site_text {module : Module} {sampleWire : Text} (hname : IsName sampleWire)
    {site : Site} (hsite : module.site sampleWire = .ok site)
    (huntouched : site.branch = .register →
      ¬ (sampleWire ++ [' ', ' ']) <:+: module.moduleText) :
    site.text = module.moduleText := by
  unfold Module.site at hsite
  split at hsite
  · cases hsite
    rfl
  · split at hsite
    · cases hsite
    · obtain ⟨redirected, hrun, hsite⟩ := bind_eq_ok.mp hsite
      split at hsite
      · cases hsite
      · cases hsite
        exact redirect_untouched hname (huntouched rfl) hrun

/-! ## What one call adds -/

/-- The statement found is the only one that matches, and stands in code like the
statements that compilers emit. -/
structure Site.Placed (site : Site) (sampleWire moduleText : Text) : Prop where
  single : (findall (site.pattern sampleWire) site.text).length = 1
  ready : (Lexer.start.read site.before).Ready
  assign : site.branch = .wire → site.found.group 1 = "assign" →
    (site.found.group 2).all Char.isWhitespace = true ∧
      listed 0 (tokensAfter site.found.rest) = false
  register : site.branch = .register →
    Apart site.found.rest ∧ ¬ (sampleWire ++ [' ', ' ']) <:+: moduleText

instance (site : Site) (sampleWire moduleText : Text) :
    Decidable (site.Placed sampleWire moduleText) :=
  decidable_of_iff
    ((findall (site.pattern sampleWire) site.text).length = 1 ∧
      (Lexer.start.read site.before).Ready ∧
      (site.branch = .wire → site.found.group 1 = "assign" →
        (site.found.group 2).all Char.isWhitespace = true ∧
          listed 0 (tokensAfter site.found.rest) = false) ∧
      (site.branch = .register →
        Apart site.found.rest ∧ ¬ (sampleWire ++ [' ', ' ']) <:+: moduleText))
    ⟨fun ⟨single, ready, assign, register⟩ => ⟨single, ready, assign, register⟩,
      fun placed => ⟨placed.single, placed.ready, placed.assign, placed.register⟩⟩

/-- The names that a call declares in addition. -/
def Site.introduced (site : Site) (sampleWire : Text) : List Text :=
  originalName sampleWire :: site.faultyNames sampleWire

/-- The names that a call drives in addition. -/
def Site.driven (site : Site) (sampleWire : Text) : List Text :=
  match site.branch with
  | .wire => originalName sampleWire :: site.faultyNames sampleWire
  | .register => sampleWire :: site.faultyNames sampleWire

omit [UnicodeData] in
theorem perm_inserted (name : Text) (front again names back : List Text) :
    (front ++ ([name] ++ (again ++ names ++ back))).Perm
      (name :: names ++ (front ++ (again ++ back))) := by
  rw [List.perm_iff_count]
  intro other
  simp only [List.count_append, List.count_cons, List.count_nil, List.cons_append]
  omega

section Outlines

variable {site : Site} {sampleWire moduleText : Text} (placed : site.Placed sampleWire moduleText)
  (hname : isIdentifier sampleWire = true) (cut : site.Cut sampleWire)

omit [UnicodeData] in
theorem read_equals : (Lexer.fresh false).read " = ".toList =
    (Lexer.fresh false).after [Token.symbol '='].reverse := by
  decide +kernel

omit [UnicodeData] in
theorem following_equals (name rest : Text) :
    following (.declared name) (" = " ++ rest) =
      (following (.driver true 0) rest).after [] [[.word name]] :=
  following_literal read_equals rfl rest

omit [UnicodeData] in
theorem following_target (name rest : Text) :
    following (.target [.word name]) (" = " ++ rest) =
      (following (.driver false 0) rest).after [] [[.word name]] :=
  following_literal read_equals rfl rest

omit [UnicodeData] in
theorem following_semicolon (name rest : Text) :
    following (.declared name) (";" ++ rest) = (following .code rest).after [] [] := by
  have hread : (Lexer.fresh false).read ";".toList =
      (Lexer.fresh false).after [Token.symbol ';'].reverse := by
    decide +kernel
  exact following_literal hread rfl rest

include placed hname

theorem Site.Placed.outline_wire (hbranch : site.branch = .wire) :
    declared site.text = (following (.driver true 0) site.found.rest).declared ++
        (site.redeclared sampleWire ++ (outlineBefore cut.before).declared) ∧
      targets site.text = (following (.driver true 0) site.found.rest).targets ++
        ([.word sampleWire] :: (outlineBefore cut.before).targets) := by
  have hassign : "assign".toList ≠ "wire".toList := by decide +kernel
  have hword := isIdentifier.isWord hname
  have ready := cut.before_eq ▸ placed.ready
  obtain ⟨hkeyword, htaken, hgroup, hgap, -⟩ := cut.reads.wire hbranch
  have htext : site.text = cut.before ++ (cut.keyword ++ cut.gap.text ++
      (sampleWire ++ (" = " ++ site.found.rest))) := by
    have heq := cut.text_eq
    rw [htaken] at heq
    simpa only [List.append_assoc] using! heq
  unfold declared targets Site.redeclared
  rw [hbranch, htext]
  rcases hkeyword with hwire | hassigned
  · have hpassage : ∀ spot, Passage ("wire" ++ cut.gap.text) spot .declaring [] [] :=
      passage_keyword (Or.inl rfl) cut.gap
    rw [hwire] at hgroup ⊢
    rw [outline_passage ready hpassage hword (by rfl) (Outline.step_declaring hname),
      following_equals]
    simp [hgroup, Outline.after]
  · obtain ⟨hspace, hlisted⟩ := placed.assign hbranch (hgroup.trans hassigned)
    rw [hgap] at hspace
    have hpassage := passage_assign hspace
    have hstep := Outline.step_target (isIdentifier.not_reserved hname) []
    obtain ⟨hdeclared, htargets⟩ := read_driver hlisted
    rw [hassigned] at hgroup ⊢
    rw [outline_passage ready hpassage hword (by rfl) hstep, List.nil_append, following_target]
    simp only [hgroup, hassign, Outline.after, following, hdeclared, htargets]
    simp

/-- What the declaration of a register says, and what is said around it. -/
theorem Site.Placed.outline_register (hbranch : site.branch = .register) :
    declared site.text = (following .code site.found.rest).declared ++
        (site.redeclared sampleWire ++ (outlineBefore cut.before).declared) ∧
      targets site.text = (following .code site.found.rest).targets ++
        (outlineBefore cut.before).targets := by
  have ready := cut.before_eq ▸ placed.ready
  obtain ⟨hkeyword, htaken, -⟩ := cut.reads.register hbranch
  have htext : site.text = cut.before ++ (cut.keyword ++ cut.gap.text ++
      (sampleWire ++ (";" ++ site.found.rest))) := by
    have heq := cut.text_eq
    rw [htaken] at heq
    simpa only [List.append_assoc] using! heq
  have hpassage : ∀ spot, Passage ("reg" ++ cut.gap.text) spot .declaring [] [] :=
    passage_keyword (Or.inr rfl) cut.gap
  unfold declared targets Site.redeclared
  rw [hbranch, htext, hkeyword, outline_passage ready hpassage (isIdentifier.isWord hname) (by rfl)
    (Outline.step_declaring hname), following_semicolon]
  simp [Outline.after]

variable (faultInput faultOutput : Signal) {busIndex : Option BusIndex} {draw : Nat}
  {index : Option Nat} (hindex : site.index busIndex draw = .ok index)
include hindex

/-- The text with the circuit of a call declares what is introduced in addition. -/
theorem Site.Placed.declared_perm :
    (declared (cut.before ++ (site.circuit sampleWire faultInput.text faultOutput.text index ++
      site.found.rest))).Perm (site.introduced sampleWire ++ declared site.text) ∧
    (targets (cut.before ++ (site.circuit sampleWire faultInput.text faultOutput.text index ++
      site.found.rest))).Perm (faultOutput.tokens ::
        (nameTargets (site.driven sampleWire) ++ targets site.text)) := by
  have ready := cut.before_eq ▸ placed.ready
  obtain ⟨horiginal, -⟩ := isIdentifier_fresh hname
  obtain ⟨front, hfront, hpassage⟩ :=
    cut.reads.exists_passage hname faultInput faultOutput hindex
  have htext : cut.before ++ (site.circuit sampleWire faultInput.text faultOutput.text index ++
      site.found.rest) =
        cut.before ++ (front ++ (originalName sampleWire ++ (site.ending ++ site.found.rest))) := by
    rw [hfront]
    simp only [List.append_assoc]
  have hname' := isIdentifier.isWord horiginal
  have hstep := Outline.step_declaring horiginal
  unfold Site.introduced Site.driven
  rw [htext]
  unfold Site.ending
  cases hbranch : site.branch with
  | wire =>
      obtain ⟨hdeclared, htargets⟩ := placed.outline_wire hname cut hbranch
      have hbreak : (" = ".toList ++ site.found.rest).head?.all Lexer.breaks = true := by rfl
      have houtline := outline_passage ready hpassage hname' hbreak hstep
      rw [following_equals] at houtline
      unfold declared at hdeclared ⊢
      unfold targets at htargets ⊢
      simp only
      rw [houtline, hdeclared, htargets]
      constructor
      · simp only [Outline.after, List.append_nil]
        exact perm_inserted _ _ _ _ _
      · simp only [Outline.after]
        rw [List.perm_iff_count]
        intro target
        simp only [nameTargets, List.count_append, List.count_cons, List.count_nil, List.map_cons]
        omega
  | register =>
      obtain ⟨hdeclared, htargets⟩ := placed.outline_register hname cut hbranch
      obtain ⟨apart, -⟩ := placed.register hbranch
      obtain ⟨hdeclared', htargets'⟩ := apart.following_eq (originalName sampleWire)
      have houtline := outline_passage ready hpassage hname' apart.1 hstep
      unfold declared at hdeclared ⊢
      unfold targets at htargets ⊢
      simp only [List.nil_append]
      rw [houtline, hdeclared, htargets]
      constructor
      · simp only [Outline.after, hdeclared']
        exact perm_inserted _ _ _ _ _
      · simp only [Outline.after, htargets']
        rw [List.perm_iff_count]
        intro target
        simp only [nameTargets, List.count_append, List.count_cons, List.count_nil, List.map_cons]
        omega

end Outlines

/-! ## Runs of calls -/

/-- The arguments of one call of `inject_fault`, and the number a draw would yield. -/
structure Call where
  sampleWire : Text
  faultInput : Signal
  faultOutput : Signal
  busIndex : Option BusIndex
  draw : Nat
  identifier : isIdentifier sampleWire = true

def Module.call (module : Module) (call : Call) : Except PythonError Module :=
  module.injectFault call.sampleWire call.faultInput.text call.faultOutput.text call.busIndex
    call.draw

/-- No name is declared twice, and every fault output is assigned exactly once. -/
structure Unique (outputs : List Signal) (text : Text) : Prop where
  declared : (Verilog.declared text).Nodup
  assigned : ∀ output ∈ outputs, (targets text).count output.tokens = 1

/-- What a call introduces is new to a text in which earlier outputs are assigned. -/
structure Site.Fresh (site : Site) (outputs : List Signal) (call : Call) (text : Text) : Prop where
  undeclared : ∀ name ∈ site.introduced call.sampleWire, name ∉ declared text
  unassigned : call.faultOutput.tokens ∉ targets text
  undriven : ∀ output ∈ call.faultOutput :: outputs,
    output.tokens ∉ nameTargets (site.driven call.sampleWire)

instance (site : Site) (outputs : List Signal) (call : Call) (text : Text) :
    Decidable (site.Fresh outputs call text) :=
  decidable_of_iff
    ((∀ name ∈ site.introduced call.sampleWire, name ∉ declared text) ∧
      call.faultOutput.tokens ∉ targets text ∧
      ∀ output ∈ call.faultOutput :: outputs,
        output.tokens ∉ nameTargets (site.driven call.sampleWire))
    ⟨fun ⟨undeclared, unassigned, undriven⟩ => ⟨undeclared, unassigned, undriven⟩,
      fun fresh => ⟨fresh.undeclared, fresh.unassigned, fresh.undriven⟩⟩

theorem Site.introduced_nodup (site : Site) (sampleWire : Text) :
    (site.introduced sampleWire).Nodup := by
  have hne : originalName sampleWire ≠ sampleWire ++ "_faultybit".toList := by
    intro heq
    exact absurd (List.append_cancel_left heq) (by decide +kernel)
  unfold introduced faultyNames
  cases site.bounds? with
  | none => exact List.pairwise_singleton _ _
  | some bounds => simpa using! hne

/-- The texts before and after a call, compared by what they declare and assign. -/
theorem Module.call_perm {module module' : Module} {call : Call} {site : Site}
    (hsite : module.site call.sampleWire = .ok site)
    (placed : site.Placed call.sampleWire module.moduleText)
    (hrun : module.call call = .ok module') :
    (declared module'.moduleText).Perm
        (site.introduced call.sampleWire ++ declared module.moduleText) ∧
      (targets module'.moduleText).Perm (call.faultOutput.tokens ::
        (nameTargets (site.driven call.sampleWire) ++ targets module.moduleText)) := by
  have hname := isName_of_identifier call.identifier
  obtain ⟨cut⟩ := module.exists_cut hsite
  have htext := module.site_text hname hsite fun hbranch => (placed.register hbranch).2
  have hreturns := hrun
  unfold Module.call at hreturns
  rw [Module.injectFault_eq, hsite, ok_bind] at hreturns
  obtain ⟨index, hindex, -⟩ := bind_eq_ok.mp hreturns
  unfold Module.call at hrun
  rw [module.injectFault_emits hname (isFaultWire_text _) (isFaultWire_text _) hsite hindex,
    Except.ok.injEq] at hrun
  subst hrun
  rw [← htext]
  show (declared (sub _ _ _)).Perm _ ∧ (targets (sub _ _ _)).Perm _
  rw [cut.sub_single placed.single]
  exact placed.declared_perm call.identifier cut call.faultInput call.faultOutput hindex

/-- A call keeps declarations and fault outputs unique when what it introduces is new. -/
theorem Module.call_unique_iff {module module' : Module} {call : Call} {site : Site}
    {outputs : List Signal} (unique : Unique outputs module.moduleText)
    (hsite : module.site call.sampleWire = .ok site)
    (placed : site.Placed call.sampleWire module.moduleText)
    (hrun : module.call call = .ok module') :
    Unique (call.faultOutput :: outputs) module'.moduleText ↔
      site.Fresh outputs call module.moduleText := by
  obtain ⟨hdeclared, htargets⟩ := module.call_perm hsite placed hrun
  have hcount : ∀ output : Signal, (targets module'.moduleText).count output.tokens =
      (if call.faultOutput.tokens == output.tokens then 1 else 0) +
        ((nameTargets (site.driven call.sampleWire)).count output.tokens +
          (targets module.moduleText).count output.tokens) := by
    intro output
    rw [htargets.count_eq, List.count_cons, List.count_append, Nat.add_comm]
  constructor
  · intro unique'
    obtain ⟨-, -, hapart⟩ := List.nodup_append.mp (hdeclared.nodup_iff.mp unique'.declared)
    refine ⟨fun name hname hmem => ?_, ?_, ?_⟩
    · exact hapart name hname name hmem rfl
    · have hone := unique'.assigned _ (.head _)
      rw [hcount, beq_self_eq_true, if_pos rfl] at hone
      rw [← List.count_eq_zero]
      omega
    · rintro output (_ | ⟨_, houtput⟩)
      · have hone := unique'.assigned _ (.head _)
        rw [hcount, beq_self_eq_true, if_pos rfl] at hone
        rw [← List.count_eq_zero]
        omega
      · have hone := unique'.assigned output (.tail _ houtput)
        rw [hcount, unique.assigned output houtput] at hone
        rw [← List.count_eq_zero]
        omega
  · intro fresh
    refine ⟨hdeclared.nodup_iff.mpr ?_, ?_⟩
    · refine List.nodup_append.mpr ⟨site.introduced_nodup _, unique.declared, ?_⟩
      rintro name hname _ hmem rfl
      exact fresh.undeclared name hname hmem
    · have hdriven : ∀ output ∈ call.faultOutput :: outputs,
          (nameTargets (site.driven call.sampleWire)).count output.tokens = 0 :=
        fun output houtput => List.count_eq_zero.mpr (fresh.undriven output houtput)
      rintro output (_ | ⟨_, houtput⟩)
      · rw [hcount, beq_self_eq_true, if_pos rfl, hdriven _ (.head _),
          List.count_eq_zero.mpr fresh.unassigned]
      · -- an earlier output is assigned already, so it differs from this one
        have hone := unique.assigned output houtput
        have hne : (call.faultOutput.tokens == output.tokens) = false := by
          rw [beq_eq_false_iff_ne]
          intro heq
          have hzero := List.count_eq_zero.mpr fresh.unassigned
          rw [heq, hone] at hzero
          cases hzero
        rw [hcount, hne, hdriven output (.tail _ houtput), hone]
        rfl

/-- The condition on a call and on the state in front of it. -/
def Module.Fits (outputs : List Signal) (module : Module) (call : Call) : Prop :=
  ∀ site ∈ (module.site call.sampleWire).toOption,
    site.Placed call.sampleWire module.moduleText ∧ site.Fresh outputs call module.moduleText

instance (outputs : List Signal) (module : Module) (call : Call) :
    Decidable (module.Fits outputs call) :=
  inferInstanceAs (Decidable (∀ site ∈ (module.site call.sampleWire).toOption, _ ∧ _))

/-- Every call of a run meets the condition in the state in front of it. -/
def FitsRun : List Signal → Module → List Call → Prop
  | _, _, [] => True
  | outputs, module, call :: calls =>
      module.Fits outputs call ∧ ∀ module' ∈ (module.call call).toOption,
        FitsRun (call.faultOutput :: outputs) module' calls

instance decidableFitsRun : (outputs : List Signal) → (module : Module) → (calls : List Call) →
    Decidable (FitsRun outputs module calls)
  | _, _, [] => .isTrue trivial
  | outputs, module, call :: calls =>
      have : ∀ module', Decidable (FitsRun (call.faultOutput :: outputs) module' calls) :=
        fun module' => decidableFitsRun (call.faultOutput :: outputs) module' calls
      inferInstanceAs (Decidable (_ ∧ ∀ module' ∈ (module.call call).toOption, _))

/-- A call that meets the condition and returns keeps everything unique. -/
theorem Module.Fits.unique {outputs : List Signal} {module module' : Module} {call : Call}
    (fits : module.Fits outputs call) (unique : Unique outputs module.moduleText)
    (hrun : module.call call = .ok module') :
    Unique (call.faultOutput :: outputs) module'.moduleText := by
  have hreturns := hrun
  unfold Module.call at hreturns
  rw [Module.injectFault_eq] at hreturns
  obtain ⟨site, hsite, -⟩ := bind_eq_ok.mp hreturns
  obtain ⟨placed, fresh⟩ := fits site (by rw [hsite]; rfl)
  exact (Module.call_unique_iff unique hsite placed hrun).mpr fresh

/-- Declarations and fault outputs stay unique along a run that meets the condition. -/
theorem FitsRun.unique {outputs : List Signal} {module module' : Module}
    {earlier later : List Call} (fits : FitsRun outputs module (earlier ++ later))
    (unique : Unique outputs module.moduleText)
    (hrun : earlier.foldlM Module.call module = .ok module') :
    Unique ((earlier.map Call.faultOutput).reverse ++ outputs) module'.moduleText := by
  induction earlier generalizing outputs module with
  | nil =>
      cases hrun
      exact unique
  | cons call earlier ih =>
      obtain ⟨module₁, hcall, hrun⟩ := foldlM_cons_eq_ok.mp hrun
      obtain ⟨hfits, hlater⟩ := fits
      have hunique := ih (hlater module₁ (by rw [hcall]; rfl)) (hfits.unique unique hcall) hrun
      rwa [List.map_cons, List.reverse_cons, List.append_assoc]

end Runs

section Declared

attribute [local instance] UnicodeData.ascii

end Declared

end FaultInjection
