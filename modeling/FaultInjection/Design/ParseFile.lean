import FaultInjection.Injector.Tree
import FaultInjection.Marking.FaultPath
import FaultInjection.Python.Result
import FaultInjection.Regex.Greedy

/-!
# Parsing a file

The stretches of a file that the scan of `parse_file` cuts out, and the dictionary
that it makes of them.  A chunk ends with the first `endmodule` behind its header,
so a scan of chunks written one after the other finds the same chunks again.
-/

namespace FaultInjection

open Regex Regex.Pattern Text

section Chunks

variable [UnicodeData]

/-- A module text of the form that the pattern matches. -/
structure Chunk where
  gap : Text
  type : Text
  first : Char
  body : Text
  gap_ne_nil : gap ≠ []
  gap_space : ∀ c ∈ gap, isSpace c = true
  type_name : IsName type
  ends : EndsFirst "endmodule".toList body

namespace Chunk

/-- What stands behind the opening bracket. -/
def inside (chunk : Chunk) : Text := chunk.first :: (chunk.body ++ "endmodule")

def text (chunk : Chunk) : Text :=
  "module" ++ (chunk.gap ++ (chunk.type ++ ("(" ++ chunk.inside)))

/-- The match that the scan reports for a chunk. -/
def found (chunk : Chunk) (rest : Text) : Match Char :=
  ⟨chunk.text, rest, [(1, chunk.text), (2, chunk.type)]⟩

end Chunk

theorem isWord_bracket : isWord '(' = false := by
  rw [isWord_ascii (by decide)]
  decide

theorem readings_bracket_seq_of_isWord {next : Pattern Char} {c : Char} {left : Text}
    (hc : isWord c = true) : readings (.seq (word ("(" : Text)) next) (c :: left) = [] := by
  apply readings_word_seq_none _
  rintro ⟨rest, heq⟩
  rw [show ("(" : Text) = ['('] from rfl, List.cons_append, List.cons.injEq] at heq
  rw [← heq.1, isWord_bracket] at hc
  cases hc

theorem readings_typeGroup_of_isSpace {next : Pattern Char} {c : Char} {left : Text}
    (hc : isSpace c = true) :
    readings (.seq (.group 2 (some isWord)) next) (c :: left) = [] := by
  have hends : EndsRun isWord (c :: left) := endsRun_cons.mpr (isWord_of_isSpace hc)
  simp only [readings, readings_some_of_endsRun hends, List.map_nil, List.flatMap_nil]

theorem modulePattern_eq :
    modulePattern = .group 1 (.seq (word "module".toList) (.seq (some isSpace)
      (.seq (.group 2 (some isWord)) (.seq (word "(".toList)
        (.seq (someFew isAny) (word "endmodule".toList)))))) := rfl

/-- The match behind a header is found behind the opening bracket. -/
theorem matchAt_header {gap type left : Text} (hgap : gap ≠ [])
    (hspace : ∀ c ∈ gap, isSpace c = true) (htype : IsName type) :
    matchAt modulePattern ("module" ++ (gap ++ (type ++ ("(" ++ left)))) =
      (matchAt (.seq (someFew isAny) (word "endmodule")) left).map fun m =>
        ⟨"module" ++ (gap ++ (type ++ ("(" ++ m.taken))), m.rest,
          (1, "module" ++ (gap ++ (type ++ ("(" ++ m.taken)))) :: (m.groups ++ [(2, type)])⟩ := by
  have hafterGap : EndsRun isSpace (type ++ ("(" ++ left)) := by
    obtain ⟨c, rest, rfl⟩ := List.exists_cons_of_ne_nil htype.ne_nil
    exact endsRun_cons.mpr (isSpace_of_isWord (htype.word c (.head _)))
  have hafterType : EndsRun isWord ("(" ++ left) := endsRun_cons.mpr isWord_bracket
  rw [modulePattern_eq, matchAt_group, matchAt_word_seq "module".toList,
    matchAt_some_seq hgap hspace hafterGap fun c rest hc =>
      readings_typeGroup_of_isSpace hc,
    matchAt_group_some_seq htype.ne_nil htype.word hafterType fun c rest hc =>
      readings_bracket_seq_of_isWord hc, matchAt_word_seq "(".toList]
  simp only [Option.map_map]
  refine congrArg (fun f => Option.map f _) (funext fun m => ?_)
  simp [Match.after, Match.close]

omit [UnicodeData] in
/-- `.+?` and a word: one character, then up to the first occurrence. -/
theorem matchAt_someFew_word (text : Text) (c : Char) (left : Text) :
    matchAt (.seq (someFew isAny) (word text)) (c :: left) =
      (matchAt (.seq (.few isAny) (word text)) left).map (Match.after ⟨[c], left, []⟩) := by
  rw [someFew, matchAt, readings_seq_assoc, ← matchAt,
    matchAt_seq_of_single (readings_one_cons rfl)]

namespace Chunk

theorem text_append (chunk : Chunk) (rest : Text) :
    chunk.text ++ rest = "module" ++ (chunk.gap ++ (chunk.type ++
      ("(" ++ (chunk.first :: (chunk.body ++ ("endmodule" ++ rest)))))) := by
  have hassoc : ∀ before gap type bracket body ending : Text,
      before ++ (gap ++ (type ++ (bracket ++ (chunk.first :: (body ++ ending))))) ++ rest =
        before ++ (gap ++ (type ++ (bracket ++ (chunk.first :: (body ++ (ending ++ rest)))))) := by
    intro before gap type bracket body ending
    simp only [List.append_assoc, List.cons_append]
  exact hassoc _ _ _ _ _ _

theorem matchAt_text (chunk : Chunk) (rest : Text) :
    matchAt modulePattern (chunk.text ++ rest) = .some (chunk.found rest) := by
  have hany : ∀ c ∈ chunk.body, isAny c = true := fun _ _ => rfl
  have hfew := matchAt_few_word rest hany chunk.ends
  rw [chunk.text_append, matchAt_header chunk.gap_ne_nil chunk.gap_space chunk.type_name,
    matchAt_someFew_word, hfew]
  rfl

end Chunk

theorem exists_chunk_of_matchAt {input : Text} {m : Match Char}
    (hm : matchAt modulePattern input = .some m) :
    ∃ (chunk : Chunk) (rest : Text), input = chunk.text ++ rest ∧ m = chunk.found rest := by
  obtain ⟨gap, type, left, rfl, hgap, hspace, htype⟩ : ∃ gap type left,
      input = "module" ++ (gap ++ (type ++ ("(" ++ left))) ∧ gap ≠ [] ∧
        (∀ c ∈ gap, isSpace c = true) ∧ IsName type := by
    have hreading := mem_of_matchAt hm
    rw [modulePattern_eq] at hreading
    simp only [Pattern.some, mem_readings_group, mem_readings_seq, mem_readings_word,
      mem_readings_one, mem_readings_many] at hreading
    obtain ⟨_, ⟨_, ⟨left₁, rfl, rfl⟩, _, ⟨_, ⟨_, ⟨space, left₂, hleft₁, hspace, rfl⟩, _,
      ⟨spaces, left₃, rfl, hspaces, rfl⟩, rfl⟩, _, ⟨_, ⟨_, ⟨_, ⟨c, left₄, hleft₃, hc, rfl⟩, _,
      ⟨others, left₅, rfl, hothers, rfl⟩, rfl⟩, rfl⟩, _, ⟨_, ⟨left, hleft₅, rfl⟩, _⟩, -⟩,
      -⟩, -⟩, -⟩ := hreading
    simp only [Match.after_rest, Match.close_rest] at hleft₁ hleft₃ hleft₅
    refine ⟨space :: spaces, c :: others, left, ?_, List.cons_ne_nil _ _, ?_,
      List.cons_ne_nil _ _, ?_⟩
    · rw [hleft₁, hleft₃, hleft₅]
      rfl
    · rintro d (_ | ⟨_, hd⟩)
      · exact hspace
      · exact hspaces d hd
    · rintro d (_ | ⟨_, hd⟩)
      · exact hc
      · exact hothers d hd
  rw [matchAt_header hgap hspace htype] at hm
  obtain ⟨m', hm', rfl⟩ := Option.map_eq_some_iff.mp hm
  cases left with
  | nil => cases hm'
  | cons c left =>
      rw [matchAt_someFew_word] at hm'
      obtain ⟨m'', hm'', rfl⟩ := Option.map_eq_some_iff.mp hm'
      obtain ⟨body, rest, rfl, -, hends, rfl⟩ := exists_of_matchAt_few_word hm''
      let chunk : Chunk := ⟨gap, type, c, body, hgap, hspace, htype, hends⟩
      exact ⟨chunk, rest, (chunk.text_append rest).symm, rfl⟩

theorem matchAt_modulePattern_ne {c : Char} (hc : c ≠ 'm') (rest : Text) :
    matchAt modulePattern (c :: rest) = none := by
  have hmodule : "module".toList = 'm' :: "odule".toList := by decide
  rw [modulePattern_eq, matchAt_group, hmodule, matchAt_cons_ne _ hc]
  rfl

theorem Chunk.found_ne_nil (chunk : Chunk) (rest : Text) : (chunk.found rest).taken ≠ [] := by
  have hmodule : "module".toList ≠ [] := by decide
  exact List.append_ne_nil_of_left_ne_nil hmodule _

theorem modulePattern_productive : Productive modulePattern := by
  have hmodule : "module".toList.isEmpty = false := by decide
  apply productive_of_not_nullable
  rw [modulePattern_eq, nullable, nullable, nullable_word, hmodule, Bool.false_and]

/-- The modules of a file in order: type and text of each. -/
def entries (contents : Text) : List (Text × Text) :=
  (findall modulePattern contents).map fun m => (m.group 2, m.group 1)

/-- What the modules of a file look like, and where they come from. -/
theorem exists_chunk_of_mem_entries {contents : Text} {entry : Text × Text}
    (hentry : entry ∈ entries contents) :
    ∃ chunk : Chunk, entry = (chunk.type, chunk.text) ∧ chunk.text <:+: contents := by
  obtain ⟨m, hm, rfl⟩ := List.mem_map.mp hentry
  obtain ⟨before, following, rfl, hmatch⟩ :=
    exists_of_mem_findall modulePattern_productive hm
  obtain ⟨chunk, rest, rfl, rfl⟩ := exists_chunk_of_matchAt hmatch
  exact ⟨chunk, rfl, before, rest, List.append_assoc _ _ _⟩

/-- The contents of a file with chunks one after the other. -/
def joined (chunks : List Chunk) : Text := chunks.flatMap fun chunk => chunk.text ++ ['\n']

/-- The scan is in step with the chunks again at the end of each. -/
theorem entries_joined (chunks : List Chunk) :
    entries (joined chunks) = chunks.map fun chunk => (chunk.type, chunk.text) := by
  induction chunks with
  | nil => rfl
  | cons chunk chunks ih =>
      have hnewline : Clear modulePattern ['\n'] (joined chunks) :=
        Clear.cons_iff.mpr ⟨matchAt_modulePattern_ne (by decide) _, Clear.nil _ _⟩
      have hfirst := findall_hit (chunk.matchAt_text (['\n'] ++ joined chunks))
        (chunk.found_ne_nil _)
      have hfile : joined (chunk :: chunks) = chunk.text ++ (['\n'] ++ joined chunks) := by
        rw [joined, List.flatMap_cons, List.append_assoc]
        rfl
      rw [hfile, entries, hfirst, List.map_cons, List.map_cons, ← ih, entries]
      have hrest : (chunk.found (['\n'] ++ joined chunks)).rest = ['\n'] ++ joined chunks := rfl
      rw [hrest, hnewline.findall]
      rfl

end Chunks

theorem universalNewlines_no_return (contents : Text) : '\r' ∉ universalNewlines contents := by
  fun_induction universalNewlines contents with
  | case1 => exact List.not_mem_nil
  | case2 rest ih => simpa using ih
  | case3 rest hnext ih => simpa using ih
  | case4 c rest hfirst hsecond ih =>
      rw [List.mem_cons, not_or]
      refine ⟨?_, ih⟩
      rintro rfl
      exact hsecond rfl

theorem universalNewlines_of_no_return {contents : Text} (hnone : '\r' ∉ contents) :
    universalNewlines contents = contents := by
  fun_induction universalNewlines contents with
  | case1 => rfl
  | case2 rest ih => exact absurd (.head _) hnone
  | case3 rest hnext ih => exact absurd (.head _) hnone
  | case4 c rest hfirst hsecond ih =>
      rw [ih fun hmem => hnone (.tail _ hmem)]

section Parsing

variable [UnicodeData]

/-- The module object made for a type and a text. -/
def madeModule (type moduleText : Text) : Module :=
  ⟨type, moduleText, parseIo moduleText, extractWires moduleText⟩

namespace Parsed

/-- The module entered under a type. -/
def module? (parsed : Parsed) (type : Text) : Option Module :=
  (parsed.moduleDict.get? type).map parsed.modules.cell

/-- Enter one module. -/
def enter (parsed : Parsed) (entry : Text × Text) : Parsed where
  modules := parsed.modules.alloc (madeModule entry.1 entry.2)
  moduleDict := parsed.moduleDict.set entry.1 parsed.modules.size
  moduleInstanceDict := parsed.moduleInstanceDict.set entry.1 []

/-- Enter modules into empty dictionaries. -/
def enterAll (found : List (Text × Text)) : Parsed :=
  found.foldl enter ⟨⟨0, fun _ => ⟨[], [], [], []⟩⟩, [], []⟩

/-- The dictionary refers to allocated modules, each entered under its type. -/
structure Sound (parsed : Parsed) : Prop where
  entered : ∀ type ref, parsed.moduleDict.get? type = .some ref →
    ref < parsed.modules.size ∧ (parsed.modules.cell ref).type = type

theorem Sound.enter {parsed : Parsed} (sound : parsed.Sound) (entry : Text × Text) :
    (parsed.enter entry).Sound := by
  refine ⟨fun type ref hget => ?_⟩
  rw [Parsed.enter, Dict.get?_set] at hget
  split at hget
  · rename_i htype
    cases hget
    refine ⟨Nat.lt_succ_self _, ?_⟩
    rw [Parsed.enter, Store.alloc_cell_new, htype]
    rfl
  · have hold := sound.entered type ref hget
    refine ⟨Nat.lt_succ_of_lt hold.1, ?_⟩
    rw [Parsed.enter, Store.alloc_cell_of_lt _ _ hold.1]
    exact hold.2

theorem Sound.module?_enter {parsed : Parsed} (sound : parsed.Sound) (entry : Text × Text)
    (type : Text) : (parsed.enter entry).module? type =
      if type = entry.1 then .some (madeModule type entry.2) else parsed.module? type := by
  rw [module?, Parsed.enter, Dict.get?_set]
  split
  · rename_i htype
    rw [Option.map_some, Store.alloc_cell_new, htype]
  · rw [module?]
    cases hget : parsed.moduleDict.get? type with
    | none => rfl
    | some ref =>
        have hlt := (sound.entered type ref hget).1
        rw [Option.map_some, Option.map_some, Store.alloc_cell_of_lt _ _ hlt]

theorem enterAll_sound (found : List (Text × Text)) : (enterAll found).Sound := by
  induction found using List.reverseRecOn with
  | nil => exact ⟨fun type ref hget => by cases hget⟩
  | append_singleton found entry ih =>
      rw [enterAll, List.foldl_append]
      exact ih.enter entry

theorem module?_enterAll (found : List (Text × Text)) (type : Text) :
    (enterAll found).module? type =
      (Dict.get? found.reverse type).map (madeModule type) := by
  induction found using List.reverseRecOn with
  | nil => rfl
  | append_singleton found entry ih =>
      rw [enterAll, List.foldl_append, ← enterAll, List.foldl_cons, List.foldl_nil,
        (enterAll_sound found).module?_enter, List.reverse_append, List.reverse_singleton,
        List.singleton_append, Dict.get?_cons, ih]
      by_cases htype : type = entry.1
      · rw [if_pos htype, if_pos htype]
        rfl
      · rw [if_neg htype, if_neg htype]

end Parsed

theorem enterModule_eq (parsed : Parsed) {m : Match Char} (hne : m.group 1 ≠ []) :
    enterModule parsed m = .ok (parsed.enter (m.group 2, m.group 1)) := by
  rw [enterModule, Module.make, if_neg hne]
  rfl

theorem parseFile_eq (contents : Text) :
    parseFile contents = .ok (Parsed.enterAll (entries (universalNewlines contents))) := by
  have hfold : ∀ (found : List (Match Char)) (parsed : Parsed),
      (∀ m ∈ found, m.group 1 ≠ []) → found.foldlM enterModule parsed =
        .ok ((found.map fun m => (m.group 2, m.group 1)).foldl Parsed.enter parsed) := by
    intro found
    induction found with
    | nil => exact fun _ _ => rfl
    | cons m found ih =>
        intro parsed hne
        rw [List.foldlM_cons, enterModule_eq parsed (hne m (.head _))]
        exact ih _ fun other hother => hne other (.tail _ hother)
  refine hfold _ _ fun m hm => ?_
  obtain ⟨chunk, hchunk, -⟩ :=
    exists_chunk_of_mem_entries (List.mem_map_of_mem (f := fun m => (m.group 2, m.group 1)) hm)
  have htext : m.group 1 = chunk.text := congrArg Prod.snd hchunk
  rw [htext]
  exact chunk.found_ne_nil []

theorem parseFile_sound {contents : Text} {parsed : Parsed}
    (hrun : parseFile contents = .ok parsed) : parsed.Sound := by
  rw [parseFile_eq] at hrun
  cases hrun
  exact Parsed.enterAll_sound _

theorem exists_chunk_of_module? {contents type : Text} {parsed : Parsed} {module : Module}
    (hrun : parseFile contents = .ok parsed) (hmodule : parsed.module? type = .some module) :
    ∃ chunk : Chunk, chunk.type = type ∧ module = madeModule type chunk.text ∧
      '\r' ∉ chunk.text := by
  rw [parseFile_eq] at hrun
  cases hrun
  rw [Parsed.module?_enterAll, Option.map_eq_some_iff] at hmodule
  obtain ⟨moduleText, hlookup, rfl⟩ := hmodule
  have hmem : (type, moduleText) ∈ entries (universalNewlines contents) := by
    rw [← List.mem_reverse]
    exact Dict.mem_of_get? hlookup
  obtain ⟨chunk, hchunk, hwithin⟩ := exists_chunk_of_mem_entries hmem
  obtain ⟨rfl, rfl⟩ := Prod.mk.inj hchunk
  exact ⟨chunk, rfl, rfl, fun hreturn =>
    universalNewlines_no_return contents (hwithin.subset hreturn)⟩

end Parsing

end FaultInjection
