import FaultInjection.Injector.Instance
import FaultInjection.Verilog.Lines
import FaultInjection.Verilog.Uses

/-!
# Expressions of the fault buses

The two fault ports of a rewritten module and the expressions of them that
`inject_faults` writes, as they are spelled in tokens.
-/

namespace FaultInjection

open Text Verilog

/-- The two fault ports of a rewritten module. -/
inductive FaultPort where
  | inputs
  | outputs
  deriving DecidableEq

namespace FaultPort

def name : FaultPort → Text
  | .inputs => "fault_inputs"
  | .outputs => "fault_outputs"

/-- The keyword of the port in a header. -/
def direction : FaultPort → Text
  | .inputs => "input"
  | .outputs => "output"

def other : FaultPort → FaultPort
  | .inputs => .outputs
  | .outputs => .inputs

theorem identifier (port : FaultPort) : isIdentifier port.name = true := by
  cases port <;> decide

theorem not_keyword (port : FaultPort) : port.name ∉ keywords :=
  isIdentifier.not_keyword port.identifier

theorem other_ne (port : FaultPort) : port.other.name ≠ port.name := by
  cases port <;> decide

theorem getLast?_name (port : FaultPort) : port.name.getLast? = some 's' := by
  cases port <;> rfl

theorem not_digit (port : FaultPort) : port.name.head?.any Char.isDigit = false := by
  cases port <;> rfl

theorem ne_append (port : FaultPort) (name : Text) {ending : Text}
    (hending : ending.getLast?.any (· != 's') = true) : name ++ ending ≠ port.name := by
  intro heq
  have hlast := congrArg List.getLast? heq
  rw [List.getLast?_append, port.getLast?_name] at hlast
  cases hend : ending.getLast? with
  | none =>
      rw [hend] at hending
      cases hending
  | some c =>
      rw [hend, Option.some_or, Option.some.injEq] at hlast
      rw [hend, hlast] at hending
      cases hending

/-- The fault port of a module, or one bit of it when it has several. -/
def signal (port : FaultPort) (count index : Nat) : Signal :=
  ⟨port.name, if count = 1 then none else some index, port.identifier⟩

theorem text_signal (port : FaultPort) (count index : Nat) :
    (port.signal count index).text = faultWire port.name count index := by
  have hopen : "[".toList = ['['] ∧ "]".toList = [']'] := by decide
  unfold signal Signal.text faultWire
  by_cases hcount : count = 1
  · simp [hcount]
  · rw [if_neg hcount, if_neg hcount, hopen.1, hopen.2]
    simp [decimal]

end FaultPort

/-- The operand that a fault of a module is wired to. -/
def faultPart (count index : Nat) : Part := if count = 1 then .whole else .bit index

namespace FaultPort

theorem parts?_signal (port : FaultPort) (count index : Nat) :
    parts? port.name (port.signal count index).tokens = some [faultPart count index] := by
  unfold signal Signal.tokens faultPart
  by_cases hcount : count = 1
  · rw [if_pos hcount, if_pos hcount]
    exact parts?_whole
  · rw [if_neg hcount, if_neg hcount]
    exact parts?_bitTokens index

end FaultPort

theorem inside_symbol {c : Char} (hc : c ≠ ';') : UseReader.inside (.symbol c) = true := by
  simp [UseReader.inside, isKeyword, hc]

theorem inside_digits (n : Nat) : UseReader.inside (.word (Nat.toDigits 10 n)) = true := by
  refine inside_word fun hmem => ?_
  exact digits_not_reserved (isDigit_of_mem_toDigits n) (List.mem_append_left _ hmem)

theorem inside_signal (signal : Signal) :
    ∀ token ∈ signal.tokens, UseReader.inside token = true := by
  have hname := inside_word (isIdentifier.not_keyword signal.identifier)
  unfold Signal.tokens
  cases signal.bit with
  | none => simpa using hname
  | some bit =>
      intro token htoken
      simp only [List.mem_cons, List.not_mem_nil, or_false] at htoken
      rcases htoken with rfl | rfl | rfl | rfl
      · exact hname
      · exact inside_symbol (by decide)
      · exact inside_digits bit
      · exact inside_symbol (by decide)

theorem word_not_mem_signal {signal : Signal} {bus : Text} (hne : bus ≠ signal.name)
    (hdigit : bus.head?.any Char.isDigit = false) : .word bus ∉ signal.tokens := by
  have hdigits : ∀ bit, bus ≠ Nat.toDigits 10 bit := by
    rintro bit rfl
    obtain ⟨c, digits, heq⟩ := List.exists_cons_of_ne_nil (Nat.toDigits_ne_nil (n := bit) (b := 10))
    have hc := isDigit_of_mem_toDigits bit c (heq ▸ .head _)
    rw [heq] at hdigit
    exact absurd hc (by simpa using hdigit)
  unfold Signal.tokens
  cases signal.bit with
  | none => simp [hne]
  | some bit => simp [hne, hdigits]

namespace FaultPort

/-- The expression that is connected to the port of a child. -/
def connected (port : FaultPort) (indices : List Nat) : List Token :=
  if 1 < indices.length then concatenationTokens port.name indices else [.word port.name]

end FaultPort

/-- The operands of the expression. -/
def connectedParts (indices : List Nat) : List Part :=
  if 1 < indices.length then indices.map .bit else [.whole]

/-- The terms of a concatenation with a comma and a blank behind each. -/
theorem flatMap_terms (term : Nat → Text) (index : Nat) (indices : List Nat) :
    (index :: indices).flatMap (fun index => term index ++ [',', ' ']) =
      [',', ' '].intercalate (term index :: indices.map term) ++ [',', ' '] := by
  induction indices generalizing index with
  | nil => simp
  | cons next indices ih =>
      rw [List.flatMap_cons, ih, List.map_cons, List.intercalate_cons_cons]
      simp

theorem dropEnd_append (text ending : Text) :
    dropEnd ending.length (text ++ ending) = text := by
  rw [dropEnd, List.length_append, Nat.add_sub_cancel, List.take_left]

namespace FaultPort

theorem spells_bit (port : FaultPort) (index : Nat) {more : Text} {read : List Token}
    (hbreak : more.head?.any Lexer.breaks = true) (spells : Spells more read) :
    Spells (port.name ++ '[' :: (decimal index ++ ']' :: more))
      (bitTokens port.name index ++ read) := by
  have hsignal := Spells.signal ⟨port.name, some index, port.identifier⟩ hbreak spells
  simpa [Signal.text, Signal.tokens, bitTokens, decimal] using hsignal

theorem spells_bits (port : FaultPort) (index : Nat) (indices : List Nat) {more : Text}
    {read : List Token} (hbreak : more.head?.any Lexer.breaks = true) (spells : Spells more read) :
    Spells ([',', ' '].intercalate ((index :: indices).map fun index =>
        port.name ++ '[' :: (decimal index ++ [']'])) ++ more)
      ([Token.symbol ','].intercalate ((index :: indices).map (bitTokens port.name)) ++ read) := by
  have hcomma : Lexer.reads [',', ' '] [.symbol ','] = true := by decide
  induction indices generalizing index with
  | nil =>
      have hbit := port.spells_bit index hbreak spells
      simpa using hbit
  | cons next indices ih =>
      have hbit := port.spells_bit index (by rfl) ((Spells.literal hcomma).append (ih next))
      rw [List.map_cons, List.map_cons, List.map_cons, List.map_cons, List.intercalate_cons_cons,
        List.intercalate_cons_cons]
      rw [List.map_cons, List.map_cons] at hbit
      simpa only [List.append_assoc, List.cons_append, List.nil_append] using hbit

theorem faultParams_eq (port : FaultPort) (indices : List Nat) :
    faultParams port.name indices =
      match indices with
      | index :: next :: rest =>
          '\x7b' :: ([',', ' '].intercalate ((index :: next :: rest).map fun index =>
            port.name ++ '[' :: (decimal index ++ [']'])) ++ ['\x7d'])
      | _ => port.name := by
  match indices with
  | [] => rfl
  | [index] => rfl
  | index :: next :: rest =>
      have hlength : 1 < (index :: next :: rest).length := by
        rw [List.length_cons, List.length_cons]
        omega
      have hterm : ∀ index, port.name ++ "[" ++ decimal index ++ "], " =
          (port.name ++ '[' :: (decimal index ++ [']'])) ++ [',', ' '] := by
        intro index
        simp
      have hend := dropEnd_append ([',', ' '].intercalate ((index :: next :: rest).map fun index =>
        port.name ++ '[' :: (decimal index ++ [']']))) [',', ' ']
      rw [faultParams, if_pos hlength]
      simp only [hterm, flatMap_terms]
      exact congrArg (fun body => '\x7b' :: (body ++ ['\x7d'])) hend

/-- The expression connected to the port of a child, as it is read. -/
theorem spells_connected (port : FaultPort) (indices : List Nat) {more : Text} {read : List Token}
    (hbreak : more.head?.any Lexer.breaks = true) (spells : Spells more read) :
    Spells (faultParams port.name indices ++ more) (port.connected indices ++ read) := by
  rw [faultParams_eq]
  split
  · rename_i index next rest
    have hbraces : Lexer.reads ['\x7b'] [.symbol '\x7b'] = true ∧
        Lexer.reads ['\x7d'] [.symbol '\x7d'] = true := by
      decide
    have hlength : 1 < (index :: next :: rest).length := by
      rw [List.length_cons, List.length_cons]
      omega
    have hbits := port.spells_bits index (next :: rest) (by rfl)
      ((Spells.literal hbraces.2).append spells)
    have hall := (Spells.literal hbraces.1).append hbits
    rw [connected, if_pos hlength, concatenationTokens]
    simpa only [List.append_assoc, List.cons_append, List.nil_append] using hall
  · rename_i hfew
    have hlength : ¬ 1 < indices.length := by
      rcases indices with - | ⟨first, - | ⟨second, rest⟩⟩
      · exact Nat.not_lt_zero 1
      · exact Nat.lt_irrefl 1
      · exact absurd rfl (hfew _ _ _)
    rw [connected, if_neg hlength]
    exact Spells.word (isIdentifier.isWord port.identifier) hbreak spells

theorem parts?_connected (port : FaultPort) (indices : List Nat) :
    parts? port.name (port.connected indices) = some (connectedParts indices) := by
  unfold connected connectedParts
  split
  · rename_i hmany
    apply parts?_concatenationTokens
    rintro rfl
    exact absurd hmany (Nat.not_lt_zero 1)
  · exact parts?_whole

theorem mem_of_mem_intercalate {α : Type} {separator item : α} {rows : List (List α)}
    (hmem : item ∈ [separator].intercalate rows) :
    item = separator ∨ ∃ row ∈ rows, item ∈ row := by
  induction rows with
  | nil => cases hmem
  | cons row rows ih =>
      cases rows with
      | nil =>
          rw [List.intercalate_singleton] at hmem
          exact Or.inr ⟨row, .head _, hmem⟩
      | cons next rows =>
          rw [List.intercalate_cons_cons, List.append_assoc, List.mem_append, List.mem_append,
            List.mem_singleton] at hmem
          rcases hmem with hmem | rfl | hmem
          · exact Or.inr ⟨row, .head _, hmem⟩
          · exact Or.inl rfl
          · obtain hseparator | ⟨other, hother, hmem⟩ := ih hmem
            · exact Or.inl hseparator
            · exact Or.inr ⟨other, .tail _ hother, hmem⟩

/-- What stands in the expression: names, numbers, braces, brackets and commas. -/
theorem mem_connected {port : FaultPort} {indices : List Nat} {token : Token}
    (htoken : token ∈ port.connected indices) :
    token = .word port.name ∨ (∃ n, token = .word (Nat.toDigits 10 n)) ∨
      ∃ c ∈ ['\x7b', '\x7d', '[', ']', ','], token = .symbol c := by
  have hbit : ∀ index, token ∈ bitTokens port.name index →
      token = .word port.name ∨ (∃ n, token = .word (Nat.toDigits 10 n)) ∨
        ∃ c ∈ ['\x7b', '\x7d', '[', ']', ','], token = .symbol c := by
    intro index hmem
    simp only [bitTokens, List.mem_cons, List.not_mem_nil, or_false] at hmem
    rcases hmem with rfl | rfl | rfl | rfl
    · exact Or.inl rfl
    · exact Or.inr (Or.inr ⟨'[', by decide, rfl⟩)
    · exact Or.inr (Or.inl ⟨index, rfl⟩)
    · exact Or.inr (Or.inr ⟨']', by decide, rfl⟩)
  unfold connected at htoken
  split at htoken
  · rw [concatenationTokens, List.mem_cons, List.mem_append, List.mem_singleton] at htoken
    rcases htoken with rfl | hmem | rfl
    · exact Or.inr (Or.inr ⟨'\x7b', by decide, rfl⟩)
    · rcases mem_of_mem_intercalate hmem with rfl | ⟨tokens, htokens, hmem⟩
      · exact Or.inr (Or.inr ⟨',', by decide, rfl⟩)
      · obtain ⟨index, -, rfl⟩ := List.mem_map.mp htokens
        exact hbit index hmem
    · exact Or.inr (Or.inr ⟨'\x7d', by decide, rfl⟩)
  · exact Or.inl (List.mem_singleton.mp htoken)

end FaultPort

end FaultInjection
