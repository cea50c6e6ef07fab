import FaultInjection.Verilog.Equations

/-!
# Uses of a bus

Where a text connects a bus or bits of it: to a port of its own name in an instantiation,
to a signal that is driven from the bus, or from a signal that drives the bus.  A statement
ends with its semicolon, or where the keyword of another one stands.
-/

namespace FaultInjection.Verilog

/-- An operand: all of a bus, or one bit of it. -/
inductive Part where
  | whole
  | bit (index : Nat)
  deriving DecidableEq, Repr

def Part.bits (width : Nat) : Part → List Nat
  | .whole => List.range width
  | .bit index => [index]

def part? (bus : List Char) : List Token → Option Part
  | [.word name] => if name = bus then some .whole else none
  | [.word name, .symbol '[', .word index, .symbol ']'] =>
      if name = bus ∧ index.all Char.isDigit then some (.bit (Nat.ofDigitChars 10 index 0)) else none
  | _ => none

/-- The operands of a concatenation, or the only one. -/
def parts? (bus : List Char) : List Token → Option (List Part)
  | .symbol '{' :: rest =>
      if rest.getLast? = some (.symbol '}') then
        (rest.dropLast.splitOn (.symbol ',')).mapM (part? bus)
      else none
  | expression => (part? bus expression).map ([·])

/-! ## Reading uses -/

/-- What an expression is connected to: a port, with the type and the name of its instance, a
signal that it drives, or a signal that drives it. -/
inductive Owner where
  | port (heading : Option (List Char × List Char))
  | into (signal : List Char)
  | outOf (signal : List Char)
  deriving DecidableEq, Repr

structure Use where
  owner : Owner
  parts : List Part
  deriving DecidableEq, Repr

/-- Where a reader stands, with the words or the tokens since, the last one first. -/
inductive Stand where
  | code (words : List (List Char))
  | point
  | port
  | connected (read : List Token)
  | target (read : List Token)
  | driver (signal : List Char) (read : List Token)
  | source (parts : List Part)
  deriving DecidableEq, Repr

structure UseReader where
  heading : Option (List Char × List Char)
  stand : Stand
  deriving DecidableEq, Repr

def isKeyword : Token → Bool
  | .word text => keywords.contains text
  | .symbol _ | .quoted => false

/-- A token of code. -/
def Stand.inCode (words : List (List Char)) : Token → Stand
  | .word text => .code (text :: words)
  | .symbol c => if c = '.' then .point else .code []
  | .quoted => .code []

/-- What stands in front of an equals sign. -/
def Stand.equals (bus : List Char) (read : List Token) : Stand :=
  match parts? bus read.reverse, read with
  | some parts, _ => .source parts
  | none, .word signal :: _ => .driver signal []
  | none, _ => .code []

namespace UseReader

def start : UseReader := ⟨none, .code []⟩

variable (bus : List Char)

def next : Stand → Token → Stand
  | .code words, token => .inCode words token
  | .point, .word text => if text = bus then .port else .code [text]
  | .port, .symbol c => if c = '(' then .connected [] else .inCode [] (.symbol c)
  | .connected read, token =>
      if token = .symbol ')' then .code [] else .connected (token :: read)
  | .target read, token =>
      if token = .symbol '=' then .equals bus read else .target (token :: read)
  | .driver signal read, token => .driver signal (token :: read)
  | .point, token | .port, token | .source _, token => .inCode [] token

def step (reader : UseReader) (token : Token) : UseReader :=
  if token = .symbol ';' then start
  else if isKeyword token then ⟨none, if drives token then .target [] else .code []⟩
  else
    ⟨match reader.stand, token with
      | .code (name :: type :: _), .symbol c => if c = '(' then some (type, name) else reader.heading
      | _, _ => reader.heading, next bus reader.stand token⟩

/-- The use that ends with a token. -/
def emit (reader : UseReader) (token : Token) : Option Use :=
  match reader.stand with
  | .connected read =>
      if token = .symbol ')' then (parts? bus read.reverse).map (⟨.port reader.heading, ·⟩) else none
  | .driver signal read =>
      if token = .symbol ';' then (parts? bus read.reverse).map (⟨.into signal, ·⟩) else none
  | .source parts =>
      match token with
      | .word signal => if isKeyword token then none else some ⟨.outOf signal, parts⟩
      | _ => none
  | .code _ | .point | .port | .target _ => none

def read (reader : UseReader) (tokens : List Token) : UseReader := tokens.foldl (step bus) reader

/-- The uses among tokens, read one after the other. -/
def uses : UseReader → List Token → List Use
  | _, [] => []
  | reader, token :: rest => (emit bus reader token).toList ++ uses (step bus reader token) rest

end UseReader

/-- The uses of a bus in a text. -/
def uses (bus text : List Char) : List Use := UseReader.start.uses bus (tokens text)

example : uses "b".toList ("module m(\n  input [1:0] b\n);\n  wire w = b[1]; // wire x = b[0];\n" ++
    "  assign b[0] = v;\n  Unit unit (\n    .b(b),\n    .a(w == b[0])\n  );\nendmodule").toList =
      [⟨.into ['w'], [.bit 1]⟩, ⟨.outOf ['v'], [.bit 0]⟩,
        ⟨.port (some ("Unit".toList, "unit".toList)), [.whole]⟩] := by
  decide +kernel

/-! ## Reading one after the other -/

theorem driving_keyword : ∀ keyword ∈ ["wire".toList, "assign".toList],
    keyword ∈ keywords ∧ drives (.word keyword) = true := by
  decide

theorem quiet_keyword : ∀ keyword ∈ ["reg".toList, "module".toList, "input".toList,
    "output".toList], keyword ∈ keywords ∧ drives (.word keyword) = false := by
  decide

namespace UseReader

variable {bus : List Char}

theorem uses_append (reader : UseReader) (front back : List Token) :
    reader.uses bus (front ++ back) =
      reader.uses bus front ++ (reader.read bus front).uses bus back := by
  induction front generalizing reader with
  | nil => rfl
  | cons token front ih =>
      rw [List.cons_append, uses, uses, ih, List.append_assoc]
      rfl

theorem read_append (reader : UseReader) (front back : List Token) :
    reader.read bus (front ++ back) = (reader.read bus front).read bus back :=
  List.foldl_append

theorem uses_cons (reader : UseReader) (token : Token) (rest : List Token) :
    reader.uses bus (token :: rest) =
      (reader.emit bus token).toList ++ (reader.step bus token).uses bus rest := rfl

theorem read_cons (reader : UseReader) (token : Token) (rest : List Token) :
    reader.read bus (token :: rest) = (reader.step bus token).read bus rest := rfl

theorem step_semicolon (reader : UseReader) : reader.step bus (.symbol ';') = start := by
  unfold step
  rw [if_pos rfl]

theorem step_keyword (reader : UseReader) {text : List Char} (hkeyword : text ∈ keywords) :
    reader.step bus (.word text) = ⟨none, if drives (.word text) then .target [] else .code []⟩ := by
  have hcontains : isKeyword (.word text) = true := List.contains_iff_mem.mpr hkeyword
  unfold step
  rw [if_neg (by simp), if_pos hcontains]

theorem emit_keyword (reader : UseReader) {text : List Char} (hkeyword : text ∈ keywords) :
    reader.emit bus (.word text) = none := by
  have hcontains : isKeyword (.word text) = true := List.contains_iff_mem.mpr hkeyword
  unfold emit
  cases reader.stand <;> simp [hcontains]

end UseReader

/-! ## Expressions of the bus -/

section Expressions

variable {bus : List Char}

theorem part?_of_not_mem {expression : List Token} (hbus : .word bus ∉ expression) :
    part? bus expression = none := by
  unfold part?
  split
  · rename_i name
    rw [if_neg]
    rintro rfl
    exact hbus (.head _)
  · rename_i name index
    rw [if_neg]
    rintro ⟨rfl, -⟩
    exact hbus (.head _)
  · rfl

theorem parts?_of_not_mem {expression : List Token} (hbus : .word bus ∉ expression) :
    parts? bus expression = none := by
  unfold parts?
  split
  · rename_i rest
    split
    · rename_i hlast
      have hsplit : ∃ first others,
          rest.dropLast.splitOn (Token.symbol ',') = first :: others ∧ .word bus ∉ first := by
        have hrest : .word bus ∉ rest.dropLast := fun hmem =>
          hbus (.tail _ (List.mem_of_mem_dropLast hmem))
        by_cases hcomma : Token.symbol ',' ∈ rest.dropLast
        · obtain ⟨first, others, heq, hfirst⟩ := List.eq_append_cons_of_mem hcomma
          rw [heq] at hrest
          refine ⟨first, others.splitOn (.symbol ','), ?_, fun hmem =>
            hrest (List.mem_append_left _ hmem)⟩
          rw [heq, List.splitOn_append_cons_self_of_not_mem hfirst]
        · exact ⟨rest.dropLast, [], List.splitOn_eq_singleton hcomma, hrest⟩
      obtain ⟨first, others, hsplit, hfirst⟩ := hsplit
      rw [hsplit, List.mapM_cons, part?_of_not_mem hfirst]
      rfl
    · rfl
  · rw [part?_of_not_mem hbus]
    rfl

/-- A bit of the bus as it is spelled. -/
def bitTokens (bus : List Char) (index : Nat) : List Token :=
  [.word bus, .symbol '[', .word (Nat.toDigits 10 index), .symbol ']']

theorem part?_bitTokens (index : Nat) : part? bus (bitTokens bus index) = some (.bit index) := by
  have hdigits : (Nat.toDigits 10 index).all Char.isDigit = true :=
    List.all_eq_true.mpr (isDigit_of_mem_toDigits index)
  rw [bitTokens, part?, if_pos ⟨rfl, hdigits⟩, Nat.ofDigitChars_ten_toDigits]

/-- A concatenation of bits as it is spelled. -/
def concatenationTokens (bus : List Char) (indices : List Nat) : List Token :=
  .symbol '\x7b' :: ([Token.symbol ','].intercalate (indices.map (bitTokens bus)) ++
    [.symbol '\x7d'])

theorem parts?_concatenationTokens {indices : List Nat} (hne : indices ≠ []) :
    parts? bus (concatenationTokens bus indices) = some (indices.map .bit) := by
  have hsplit : ([Token.symbol ','].intercalate (indices.map (bitTokens bus))).splitOn
      (.symbol ',') = indices.map (bitTokens bus) := by
    refine List.splitOn_intercalate _ ?_ ?_
    · intro tokens htokens
      obtain ⟨index, -, rfl⟩ := List.mem_map.mp htokens
      simp [bitTokens]
    · exact fun hnil => hne (List.map_eq_nil_iff.mp hnil)
  have hparts : ∀ indices : List Nat,
      (indices.map (bitTokens bus)).mapM (part? bus) = some (indices.map .bit) := by
    intro indices
    induction indices with
    | nil => rfl
    | cons index indices ih =>
        rw [List.map_cons, List.mapM_cons, part?_bitTokens, ih]
        rfl
  rw [concatenationTokens, parts?, if_pos (by rw [List.getLast?_concat]), List.dropLast_concat,
    hsplit, hparts]

theorem parts?_whole : parts? bus [.word bus] = some [.whole] := by
  unfold parts? part?
  simp

theorem parts?_bitTokens (index : Nat) :
    parts? bus (bitTokens bus index) = some [.bit index] := by
  have hpart : parts? bus (bitTokens bus index) = (part? bus (bitTokens bus index)).map ([·]) := rfl
  rw [hpart, part?_bitTokens]
  rfl

end Expressions

/-! ## Tokens that a reader only collects -/

namespace UseReader

variable {bus : List Char}

/-- Neither a semicolon nor a keyword. -/
def inside (token : Token) : Bool := token != .symbol ';' && !isKeyword token

theorem step_inside (reader : UseReader) {token : Token} (hinside : inside token = true)
    (hcode : ∀ words, reader.stand ≠ .code words) :
    reader.step bus token = ⟨reader.heading, next bus reader.stand token⟩ := by
  rw [inside, Bool.and_eq_true, bne_iff_ne, Bool.not_eq_true'] at hinside
  unfold step
  rw [if_neg hinside.1, if_neg (by rw [hinside.2]; exact Bool.false_ne_true)]
  obtain ⟨heading, stand⟩ := reader
  cases stand with
  | code words => exact absurd rfl (hcode words)
  | _ => rfl

theorem read_collecting {collect : List Token → Stand}
    {heading : Option (List Char × List Char)} {expression : List Token}
    (hcollect : ∀ read, ∀ token ∈ expression,
      step bus ⟨heading, collect read⟩ token = ⟨heading, collect (token :: read)⟩ ∧
        emit bus ⟨heading, collect read⟩ token = none) (read : List Token) :
    uses bus ⟨heading, collect read⟩ expression = [] ∧
      UseReader.read bus ⟨heading, collect read⟩ expression =
        ⟨heading, collect (expression.reverse ++ read)⟩ := by
  induction expression generalizing read with
  | nil => exact ⟨rfl, rfl⟩
  | cons token expression ih =>
      obtain ⟨hstep, hemit⟩ := hcollect read token (.head _)
      obtain ⟨huses, hread⟩ :=
        ih (fun read token htoken => hcollect read token (.tail _ htoken)) (token :: read)
      rw [uses_cons, read_cons, hstep, hemit, huses, hread]
      simp

theorem read_connected (heading : Option (List Char × List Char)) {expression : List Token}
    (hinside : ∀ token ∈ expression, inside token = true)
    (hopen : .symbol ')' ∉ expression) (read : List Token) :
    uses bus ⟨heading, .connected read⟩ expression = [] ∧
      UseReader.read bus ⟨heading, .connected read⟩ expression =
        ⟨heading, .connected (expression.reverse ++ read)⟩ := by
  refine read_collecting (fun read token htoken => ?_) read
  have hne : token ≠ .symbol ')' := fun heq => hopen (heq ▸ htoken)
  rw [step_inside _ (hinside token htoken) (by simp), next, if_neg hne]
  exact ⟨rfl, if_neg hne⟩

theorem read_target (heading : Option (List Char × List Char)) {target : List Token}
    (hinside : ∀ token ∈ target, inside token = true)
    (hequals : .symbol '=' ∉ target) (read : List Token) :
    uses bus ⟨heading, .target read⟩ target = [] ∧
      UseReader.read bus ⟨heading, .target read⟩ target =
        ⟨heading, .target (target.reverse ++ read)⟩ := by
  refine read_collecting (fun read token htoken => ?_) read
  have hne : token ≠ .symbol '=' := fun heq => hequals (heq ▸ htoken)
  rw [step_inside _ (hinside token htoken) (by simp), next, if_neg hne]
  exact ⟨rfl, rfl⟩

theorem read_driver (heading : Option (List Char × List Char)) (signal : List Char)
    {expression : List Token} (hinside : ∀ token ∈ expression, inside token = true)
    (read : List Token) :
    uses bus ⟨heading, .driver signal read⟩ expression = [] ∧
      UseReader.read bus ⟨heading, .driver signal read⟩ expression =
        ⟨heading, .driver signal (expression.reverse ++ read)⟩ := by
  refine read_collecting (fun read token htoken => ?_) read
  have hne : token ≠ .symbol ';' := by
    rintro rfl
    cases hinside _ htoken
  rw [step_inside _ (hinside token htoken) (by simp), next]
  exact ⟨rfl, if_neg hne⟩

end UseReader

/-! ## Tokens without the bus -/

/-- A stand at which nothing of the bus has been read. -/
def Stand.Quiet (bus : List Char) : Stand → Prop
  | .code _ | .point => True
  | .connected read | .target read | .driver _ read => .word bus ∉ read
  | .port | .source _ => False

/-- The stand without the names of signals. -/
def Stand.shape : Stand → Stand
  | .code _ => .code []
  | .driver _ read => .driver [] read
  | stand => stand

namespace UseReader

variable {bus : List Char}

theorem quiet_code (heading : Option (List Char × List Char)) (words : List (List Char)) :
    (UseReader.mk heading (.code words)).stand.Quiet bus := True.intro

theorem quiet_start : start.stand.Quiet bus := quiet_code none []

theorem emit_quiet {reader : UseReader} (quiet : reader.stand.Quiet bus) (token : Token) :
    reader.emit bus token = none := by
  obtain ⟨heading, stand⟩ := reader
  have hnone : ∀ read : List Token, .word bus ∉ read → parts? bus read.reverse = none :=
    fun read hread => parts?_of_not_mem fun hmem => hread (List.mem_reverse.mp hmem)
  cases stand with
  | code words => rfl
  | point => rfl
  | port => exact quiet.elim
  | source parts => exact quiet.elim
  | target read => rfl
  | connected read => simp [emit, hnone read quiet]
  | driver signal read => simp [emit, hnone read quiet]

theorem inCode_quiet (words : List (List Char)) (token : Token) :
    (Stand.inCode words token).Quiet bus := by
  unfold Stand.inCode
  split
  · trivial
  · split <;> trivial
  · trivial

theorem step_quiet {reader : UseReader} (quiet : reader.stand.Quiet bus) {token : Token}
    (htoken : token ≠ .word bus) : (reader.step bus token).stand.Quiet bus := by
  obtain ⟨heading, stand⟩ := reader
  have hcons : ∀ read : List Token, .word bus ∉ read → .word bus ∉ token :: read := by
    intro read hread hmem
    rcases List.mem_cons.mp hmem with heq | hmem
    · exact htoken heq.symm
    · exact hread hmem
  unfold step
  split
  · trivial
  · split
    · split
      · exact List.not_mem_nil
      · trivial
    · show (next bus stand token).Quiet bus
      cases stand with
      | code words => exact inCode_quiet words token
      | point =>
          cases token with
          | word text =>
              have hne : text ≠ bus := fun heq => htoken (congrArg Token.word heq)
              rw [next, if_neg hne]
              trivial
          | symbol c => exact inCode_quiet [] (.symbol c)
          | quoted => exact inCode_quiet [] .quoted
      | port => exact quiet.elim
      | source parts => exact quiet.elim
      | connected read =>
          rw [next]
          split
          · trivial
          · exact hcons read quiet
      | driver signal read => exact hcons read quiet
      | target read =>
          rw [next]
          split
          · have hnone : parts? bus read.reverse = none :=
              parts?_of_not_mem fun hmem => quiet (List.mem_reverse.mp hmem)
            unfold Stand.equals
            rw [hnone]
            cases read with
            | nil => trivial
            | cons first read =>
                cases first with
                | word signal => exact List.not_mem_nil
                | symbol c => trivial
                | quoted => trivial
          · exact hcons read quiet

theorem uses_of_not_mem {reader : UseReader} (quiet : reader.stand.Quiet bus)
    {tokens : List Token} (hbus : .word bus ∉ tokens) : reader.uses bus tokens = [] := by
  induction tokens generalizing reader with
  | nil => rfl
  | cons token tokens ih =>
      rw [uses_cons, emit_quiet quiet, ih (step_quiet quiet fun heq => hbus (heq ▸ .head _))
        fun hmem => hbus (.tail _ hmem)]
      rfl

theorem inCode_shape (words words' : List (List Char)) (token : Token) :
    (Stand.inCode words token).shape = (Stand.inCode words' token).shape := by
  unfold Stand.inCode
  split
  · rfl
  · split <;> rfl
  · rfl

theorem step_shape {reader reader' : UseReader} (hshape : reader.stand.shape = reader'.stand.shape)
    (token : Token) :
    (reader.step bus token).stand.shape = (reader'.step bus token).stand.shape := by
  obtain ⟨heading, stand⟩ := reader
  obtain ⟨heading', stand'⟩ := reader'
  unfold step
  split
  · rfl
  · split
    · rfl
    · show (next bus stand token).shape = (next bus stand' token).shape
      cases stand with
      | code words =>
          cases stand' with
          | code words' => exact inCode_shape words words' token
          | _ => cases hshape
      | _ => cases stand' <;> simp_all [Stand.shape, next]

/-- What is driven or connected by a statement without the bus makes no difference to the uses
behind it. -/
theorem uses_congr {reader reader' : UseReader} (quiet : reader.stand.Quiet bus)
    (quiet' : reader'.stand.Quiet bus) (hshape : reader.stand.shape = reader'.stand.shape)
    {tokens : List Token} (hbus : .word bus ∉ tokens.takeWhile (· != .symbol ';')) :
    reader.uses bus tokens = reader'.uses bus tokens := by
  induction tokens generalizing reader reader' with
  | nil => rfl
  | cons token tokens ih =>
      rw [uses_cons, uses_cons, emit_quiet quiet, emit_quiet quiet']
      by_cases hend : token = .symbol ';'
      · subst hend
        rw [step_semicolon, step_semicolon]
      · have hother : (token != .symbol ';') = true := bne_iff_ne.mpr hend
        rw [List.takeWhile_cons, if_pos hother] at hbus
        have htoken : token ≠ .word bus := fun heq => hbus (heq ▸ .head _)
        rw [ih (step_quiet quiet htoken) (step_quiet quiet' htoken) (step_shape hshape token)
          fun hmem => hbus (.tail _ hmem)]

theorem uses_statement {reader : UseReader} (quiet : reader.stand.Quiet bus)
    {statement : List Token} (hbus : .word bus ∉ statement) (rest : List Token) :
    reader.uses bus (statement ++ .symbol ';' :: rest) = start.uses bus rest := by
  have hread : ∀ {reader : UseReader}, reader.stand.Quiet bus →
      (reader.read bus statement).stand.Quiet bus := by
    intro reader quiet
    induction statement generalizing reader with
    | nil => exact quiet
    | cons token statement ih =>
        exact ih (fun hmem => hbus (.tail _ hmem))
          (step_quiet quiet fun heq => hbus (heq ▸ .head _))
  rw [uses_append, uses_of_not_mem quiet hbus, uses_cons, emit_quiet (hread quiet),
    step_semicolon]
  rfl

end UseReader

/-! ## Spelled uses -/

section Spelled

variable {bus : List Char}

theorem isKeyword_word {text : List Char} (hkeyword : text ∉ keywords) :
    isKeyword (.word text) = false := by
  rw [isKeyword, List.contains_eq_mem, decide_eq_false_iff_not]
  exact hkeyword

theorem inside_word {text : List Char} (hkeyword : text ∉ keywords) :
    UseReader.inside (.word text) = true := by
  rw [UseReader.inside, isKeyword_word hkeyword]
  rfl

theorem isIdentifier.not_keyword {text : List Char} (hidentifier : isIdentifier text = true) :
    text ∉ keywords := fun hmem =>
  isIdentifier.not_reserved hidentifier (List.mem_append_left _ hmem)

namespace UseReader

theorem step_code {heading : Option (List Char × List Char)} {words : List (List Char)}
    {token : Token} (hinside : inside token = true) (hbracket : token ≠ .symbol '(') :
    step bus ⟨heading, .code words⟩ token = ⟨heading, .inCode words token⟩ := by
  rw [inside, Bool.and_eq_true, bne_iff_ne, Bool.not_eq_true'] at hinside
  unfold step
  rw [if_neg hinside.1, if_neg (by rw [hinside.2]; exact Bool.false_ne_true)]
  refine congrArg (UseReader.mk · _) ?_
  cases token with
  | word text => cases words with
    | nil => rfl
    | cons first words => cases words <;> rfl
  | quoted => cases words with
    | nil => rfl
    | cons first words => cases words <;> rfl
  | symbol c =>
      have hc : c ≠ '(' := fun heq => hbracket (congrArg Token.symbol heq)
      cases words with
      | nil => rfl
      | cons first words =>
          cases words with
          | nil => rfl
          | cons second words => exact if_neg hc

theorem step_bracket (heading : Option (List Char × List Char)) (type name : List Char)
    (words : List (List Char)) :
    step bus ⟨heading, .code (name :: type :: words)⟩ (.symbol '(') =
      ⟨some (type, name), .code []⟩ := by
  simp [step, isKeyword, next, Stand.inCode]

theorem uses_item (reader : UseReader) {keyword signal : List Char} {lead : List Token}
    (hkeyword : keyword ∈ keywords) (hdrives : drives (.word keyword) = true)
    (hlead : ∀ token ∈ lead, inside token = true) (hequals : .symbol '=' ∉ lead)
    (hsignal : signal ∉ keywords) (hbus : .word bus ∉ lead ++ [.word signal])
    (rest : List Token) :
    reader.uses bus (.word keyword :: (lead ++ .word signal :: .symbol '=' :: rest)) =
      uses bus ⟨none, .driver signal []⟩ rest := by
  have hinside : ∀ token ∈ lead ++ [.word signal], inside token = true := by
    intro token htoken
    rcases List.mem_append.mp htoken with htoken | htoken
    · exact hlead token htoken
    · rw [List.mem_singleton.mp htoken]
      exact inside_word hsignal
  have hend : .symbol '=' ∉ lead ++ [.word signal] :=
    List.not_mem_append hequals (by simp)
  obtain ⟨huses, hread⟩ := read_target none hinside hend []
  have hcut : lead ++ .word signal :: .symbol '=' :: rest =
      (lead ++ [.word signal]) ++ .symbol '=' :: rest := by
    simp
  have hnone : parts? bus (lead ++ [Token.word signal]) = none := parts?_of_not_mem hbus
  have hequal : Stand.equals bus ((lead ++ [Token.word signal]).reverse ++ []) =
      .driver signal [] := by
    unfold Stand.equals
    rw [List.append_nil, List.reverse_reverse, hnone, List.reverse_append]
    rfl
  have hstep : step bus ⟨none, .target ((lead ++ [Token.word signal]).reverse ++ [])⟩
      (.symbol '=') = ⟨none, .driver signal []⟩ := by
    rw [step_inside _ rfl (by simp), next, if_pos rfl, hequal]
  rw [hcut, uses_cons, emit_keyword _ hkeyword, step_keyword _ hkeyword, if_pos hdrives,
    uses_append, huses, hread, uses_cons, hstep]
  rfl

theorem uses_driver (signal : List Char) {expression : List Token}
    (hinside : ∀ token ∈ expression, inside token = true) (rest : List Token) :
    uses bus ⟨none, .driver signal []⟩ (expression ++ .symbol ';' :: rest) =
      ((parts? bus expression).map (⟨.into signal, ·⟩)).toList ++ start.uses bus rest := by
  obtain ⟨huses, hread⟩ := read_driver none signal hinside []
  rw [uses_append, huses, hread, uses_cons, step_semicolon, List.append_nil, emit]
  simp only [if_true, List.reverse_reverse, List.nil_append]

theorem uses_assigned (reader : UseReader) {target : List Token} {signal : List Char}
    (htarget : ∀ token ∈ target, inside token = true) (hequals : .symbol '=' ∉ target)
    {parts : List Part} (hparts : parts? bus target = some parts) (hsignal : signal ∉ keywords)
    (rest : List Token) :
    reader.uses bus (.word "assign".toList :: (target ++ .symbol '=' :: .word signal :: rest)) =
      ⟨.outOf signal, parts⟩ :: uses bus ⟨none, .code [signal]⟩ rest := by
  obtain ⟨hkeyword, hdrives⟩ := driving_keyword "assign".toList (.tail _ (.head _))
  obtain ⟨huses, hread⟩ := read_target none htarget hequals []
  have hequal : Stand.equals bus (target.reverse ++ []) = .source parts := by
    unfold Stand.equals
    rw [List.append_nil, List.reverse_reverse, hparts]
  have hstep : step bus ⟨none, .target (target.reverse ++ [])⟩ (.symbol '=') =
      ⟨none, .source parts⟩ := by
    rw [step_inside _ rfl (by simp), next, if_pos rfl, hequal]
  have hemit : emit bus ⟨none, .source parts⟩ (.word signal) = some ⟨.outOf signal, parts⟩ := by
    simp [emit, isKeyword_word hsignal]
  have hnext : step bus ⟨none, .source parts⟩ (.word signal) = ⟨none, .code [signal]⟩ := by
    rw [step_inside _ (inside_word hsignal) (by simp)]
    rfl
  rw [uses_cons, emit_keyword _ hkeyword, step_keyword _ hkeyword, if_pos hdrives, uses_append,
    huses, hread, uses_cons, hstep, uses_cons, hemit, hnext]
  rfl

/-- Words and symbols of an expression leave the reader in code. -/
theorem read_code {heading : Option (List Char × List Char)} {tokens : List Token}
    (hinside : ∀ token ∈ tokens, inside token = true)
    (hsymbols : ∀ token ∈ tokens, token ≠ .symbol '(' ∧ token ≠ .symbol '.')
    (words : List (List Char)) :
    uses bus ⟨heading, .code words⟩ tokens = [] ∧
      ∃ words', read bus ⟨heading, .code words⟩ tokens = ⟨heading, .code words'⟩ := by
  induction tokens generalizing words with
  | nil => exact ⟨rfl, words, rfl⟩
  | cons token tokens ih =>
      obtain ⟨hbracket, hpoint⟩ := hsymbols token (.head _)
      obtain ⟨words', hcode⟩ : ∃ words', Stand.inCode words token = .code words' := by
        cases token with
        | word text => exact ⟨text :: words, rfl⟩
        | symbol c => exact ⟨[], if_neg fun heq => hpoint (congrArg Token.symbol heq)⟩
        | quoted => exact ⟨[], rfl⟩
      obtain ⟨huses, words'', hread⟩ := ih (fun token htoken => hinside token (.tail _ htoken))
        (fun token htoken => hsymbols token (.tail _ htoken)) words'
      rw [uses_cons, read_cons, step_code (hinside token (.head _)) hbracket, hcode, huses, hread]
      exact ⟨rfl, words'', rfl⟩

theorem uses_driven (reader : UseReader) {keyword signal : List Char} (hkeyword : keyword ∈ keywords)
    (hdrives : drives (.word keyword) = true) (hsignal : signal ∉ keywords) (hne : signal ≠ bus)
    {expression : List Token} (hinside : ∀ token ∈ expression, inside token = true)
    {parts : List Part} (hparts : parts? bus expression = some parts) (rest : List Token) :
    reader.uses bus
        (.word keyword :: .word signal :: .symbol '=' :: (expression ++ .symbol ';' :: rest)) =
      ⟨.into signal, parts⟩ :: start.uses bus rest := by
  have hbus : Token.word bus ∉ [] ++ [Token.word signal] := by simp [Ne.symm hne]
  have hlead : ∀ token ∈ ([] : List Token), inside token = true := by simp
  have hitem := reader.uses_item hkeyword hdrives hlead (by simp) hsignal hbus
    (expression ++ .symbol ';' :: rest)
  rw [List.nil_append] at hitem
  rw [hitem, uses_driver signal hinside, hparts]
  rfl

/-- A statement without the bus, from its keyword to its semicolon. -/
theorem uses_keyword (reader : UseReader) {keyword : List Char} (hkeyword : keyword ∈ keywords)
    {statement : List Token} (hbus : .word bus ∉ statement) (rest : List Token) :
    reader.uses bus (.word keyword :: (statement ++ .symbol ';' :: rest)) = start.uses bus rest := by
  rw [uses_cons, emit_keyword _ hkeyword, step_keyword _ hkeyword]
  apply uses_statement
  · split
    · exact List.not_mem_nil
    · trivial
  · exact hbus

/-- Which signal is driven by an expression without the bus makes no difference. -/
theorem uses_renamed (reader reader' : UseReader) {keyword keyword' signal signal' : List Char}
    {lead lead' : List Token} (hkeyword : keyword ∈ keywords) (hkeyword' : keyword' ∈ keywords)
    (hdrives : drives (.word keyword) = true) (hdrives' : drives (.word keyword') = true)
    (hlead : ∀ token ∈ lead, inside token = true) (hlead' : ∀ token ∈ lead', inside token = true)
    (hequals : .symbol '=' ∉ lead) (hequals' : .symbol '=' ∉ lead')
    (hsignal : signal ∉ keywords) (hsignal' : signal' ∉ keywords)
    (hbus : .word bus ∉ lead ++ [.word signal]) (hbus' : .word bus ∉ lead' ++ [.word signal'])
    {rest : List Token} (hrest : .word bus ∉ rest.takeWhile (· != .symbol ';')) :
    reader.uses bus (.word keyword :: (lead ++ .word signal :: .symbol '=' :: rest)) =
      reader'.uses bus (.word keyword' :: (lead' ++ .word signal' :: .symbol '=' :: rest)) := by
  rw [reader.uses_item hkeyword hdrives hlead hequals hsignal hbus,
    reader'.uses_item hkeyword' hdrives' hlead' hequals' hsignal' hbus']
  apply uses_congr
  · exact List.not_mem_nil
  · exact List.not_mem_nil
  · rfl
  · exact hrest

/-- A declaration that is not ended, in front of a statement without the bus. -/
theorem uses_unended (reader : UseReader) {keyword : List Char} (hkeyword : keyword ∈ keywords)
    (hdrives : drives (.word keyword) = false) {lead : List Token}
    (hlead : ∀ token ∈ lead, inside token = true)
    (hsymbols : ∀ token ∈ lead, token ≠ .symbol '(' ∧ token ≠ .symbol '.')
    {rest : List Token} (hrest : .word bus ∉ rest.takeWhile (· != .symbol ';')) :
    reader.uses bus (.word keyword :: (lead ++ rest)) = start.uses bus rest := by
  obtain ⟨huses, words, hread⟩ := @read_code bus none lead hlead hsymbols []
  rw [uses_cons, emit_keyword _ hkeyword, step_keyword _ hkeyword, hdrives, uses_append]
  simp only [Bool.false_eq_true, if_false]
  rw [huses, hread]
  apply uses_congr
  · exact quiet_code none words
  · exact quiet_code none []
  · rfl
  · exact hrest

theorem uses_heading (heading : Option (List Char × List Char)) (words : List (List Char))
    {type name : List Char} (htype : type ∉ keywords) (hname : name ∉ keywords)
    (rest : List Token) :
    uses bus ⟨heading, .code words⟩ (.word type :: .word name :: .symbol '(' :: rest) =
      uses bus ⟨some (type, name), .code []⟩ rest := by
  have hword : ∀ (words : List (List Char)) {text : List Char}, text ∉ keywords →
      step bus ⟨heading, .code words⟩ (.word text) = ⟨heading, .code (text :: words)⟩ :=
    fun words text htext => step_code (inside_word htext) (by simp)
  rw [uses_cons, hword _ htype, uses_cons, hword _ hname, uses_cons, step_bracket]
  rfl

theorem step_point {heading : Option (List Char × List Char)} (words : List (List Char)) :
    step bus ⟨heading, .code words⟩ (.symbol '.') = ⟨heading, .point⟩ :=
  step_code rfl (by simp)

theorem uses_port {heading : Option (List Char × List Char)} {words : List (List Char)}
    {expression : List Token} (hname : bus ∉ keywords)
    (hinside : ∀ token ∈ expression, inside token = true)
    (hopen : .symbol ')' ∉ expression) (rest : List Token) :
    uses bus ⟨heading, .code words⟩
        (.symbol '.' :: .word bus :: .symbol '(' :: (expression ++ .symbol ')' :: rest)) =
      ((parts? bus expression).map (⟨.port heading, ·⟩)).toList ++
        uses bus ⟨heading, .code []⟩ rest := by
  obtain ⟨huses, hread⟩ := read_connected heading hinside hopen []
  have hport : step bus ⟨heading, .point⟩ (.word bus) = ⟨heading, .port⟩ := by
    rw [step_inside _ (inside_word hname) (by simp), next, if_pos rfl]
  have hbracket : step bus ⟨heading, .port⟩ (.symbol '(') = ⟨heading, .connected []⟩ := by
    rw [step_inside _ rfl (by simp), next, if_pos rfl]
  have hclose : step bus ⟨heading, .connected (expression.reverse ++ [])⟩ (.symbol ')') =
      ⟨heading, .code []⟩ := by
    rw [step_inside _ rfl (by simp), next, if_pos rfl]
  rw [uses_cons, step_point, uses_cons, hport, uses_cons, hbracket, uses_append, huses, hread,
    uses_cons, hclose, List.append_nil]
  simp only [emit, if_true, List.reverse_reverse, Option.toList_none, List.nil_append]

theorem uses_other_port {heading : Option (List Char × List Char)} {words : List (List Char)}
    {name : List Char} {expression : List Token} (hname : name ∉ keywords) (hne : name ≠ bus)
    (hinside : ∀ token ∈ expression, inside token = true)
    (hsymbols : ∀ token ∈ expression, token ≠ .symbol '(' ∧ token ≠ .symbol '.')
    (rest : List Token) :
    uses bus ⟨heading, .code words⟩
        (.symbol '.' :: .word name :: .symbol '(' :: (expression ++ .symbol ')' :: rest)) =
      uses bus ⟨heading, .code []⟩ rest := by
  have hport : step bus ⟨heading, .point⟩ (.word name) = ⟨heading, .code [name]⟩ := by
    rw [step_inside _ (inside_word hname) (by simp), next, if_neg hne]
  have hbracket : step bus ⟨heading, .code [name]⟩ (.symbol '(') = ⟨heading, .code []⟩ := by
    simp [step, isKeyword, next, Stand.inCode]
  obtain ⟨huses, words', hread⟩ := @read_code bus heading expression hinside hsymbols []
  have hclose : step bus ⟨heading, .code words'⟩ (.symbol ')') = ⟨heading, .code []⟩ :=
    step_code rfl (by simp)
  rw [uses_cons, step_point, uses_cons, hport, uses_cons, hbracket, uses_append,
    huses, hread, uses_cons, hclose]
  rfl

/-- An item begins, or there is nothing more. -/
def opens : List Token → Bool
  | [] => true
  | .word type :: .word name :: .symbol c :: _ =>
      keywords.contains type || (!keywords.contains name && c == '(')
  | token :: _ => isKeyword token || token == .symbol ';'

/-- Where an item begins, it does not matter what stands in front. -/
theorem uses_of_opens {tokens : List Token} (hopens : opens tokens = true)
    (heading heading' : Option (List Char × List Char)) (words words' : List (List Char)) :
    uses bus ⟨heading, .code words⟩ tokens = uses bus ⟨heading', .code words'⟩ tokens := by
  have hkeyword : ∀ {token rest}, isKeyword token = true ∨ token = .symbol ';' →
      uses bus ⟨heading, .code words⟩ (token :: rest) =
        uses bus ⟨heading', .code words'⟩ (token :: rest) := by
    rintro token rest (hkeyword | rfl)
    · have hstep : step bus ⟨heading, .code words⟩ token =
          step bus ⟨heading', .code words'⟩ token := by
        unfold step
        simp only [if_pos hkeyword]
      rw [uses_cons, uses_cons, hstep]
      rfl
    · rw [uses_cons, uses_cons, step_semicolon, step_semicolon]
      rfl
  unfold opens at hopens
  split at hopens
  · rfl
  · rename_i type name c rest
    rw [Bool.or_eq_true, Bool.and_eq_true, Bool.not_eq_true', beq_iff_eq] at hopens
    by_cases htype : keywords.contains type = true
    · exact hkeyword (Or.inl htype)
    · obtain ⟨hname, rfl⟩ := hopens.resolve_left htype
      rw [List.contains_iff_mem] at htype
      rw [List.contains_eq_mem, decide_eq_false_iff_not] at hname
      rw [uses_heading heading words htype hname, uses_heading heading' words' htype hname]
  · rw [Bool.or_eq_true, beq_iff_eq] at hopens
    exact hkeyword hopens

end UseReader

end Spelled

/-! ## Declarations -/

/-- The keyword and the width with which a bus is declared where it is first named. -/
def declaration? (bus : List Char) (tokens : List Token) : Option (List Char × Nat) :=
  if .word bus ∈ tokens then
    match (tokens.takeWhile (· != .word bus)).reverse with
    | .symbol ']' :: .word low :: .symbol ':' :: .word high :: .symbol '[' :: .word keyword :: _ =>
        if low = ['0'] ∧ high.all Char.isDigit then some (keyword, Nat.ofDigitChars 10 high 0 + 1)
        else none
    | .word keyword :: _ => some (keyword, 1)
    | _ => none
  else none

/-- The range of a bus as it is spelled. -/
def rangeTokens (width : Nat) : List Token :=
  if width < 2 then []
  else [.symbol '[', .word (Nat.toDigits 10 (width - 1)), .symbol ':', .word ['0'], .symbol ']']

theorem declaration?_spelled {bus keyword : List Char} {front : List Token} {width : Nat}
    (hwidth : 0 < width) (hfront : .word bus ∉ front) (hkeyword : keyword ≠ bus)
    (hdigit : bus.head?.any Char.isDigit = false) (rest : List Token) :
    declaration? bus (front ++ .word keyword :: (rangeTokens width ++ .word bus :: rest)) =
      some (keyword, width) := by
  have hrange : .word bus ∉ rangeTokens width := by
    have hdigits : bus ≠ Nat.toDigits 10 (width - 1) ∧ bus ≠ ['0'] := by
      constructor
      · rintro rfl
        obtain ⟨c, digits, heq⟩ := List.exists_cons_of_ne_nil
          (Nat.toDigits_ne_nil (n := width - 1) (b := 10))
        have hc := isDigit_of_mem_toDigits (width - 1) c (heq ▸ .head _)
        rw [heq] at hdigit
        exact absurd hc (by simpa using hdigit)
      · rintro rfl
        cases hdigit
    unfold rangeTokens
    split <;> simp [hdigits]
  have hlead : ∀ token ∈ front ++ .word keyword :: rangeTokens width,
      (token != .word bus) = true := by
    intro token htoken
    rw [bne_iff_ne]
    rintro rfl
    rcases List.mem_append.mp htoken with hmem | hmem
    · exact hfront hmem
    · rcases List.mem_cons.mp hmem with heq | hmem
      · exact hkeyword (Token.word.inj heq).symm
      · exact hrange hmem
  have hcut : front ++ .word keyword :: (rangeTokens width ++ .word bus :: rest) =
      (front ++ .word keyword :: rangeTokens width) ++ .word bus :: rest := by
    simp
  have htake : ((front ++ .word keyword :: (rangeTokens width ++ .word bus :: rest)).takeWhile
      (· != .word bus)) = front ++ .word keyword :: rangeTokens width := by
    rw [hcut, List.takeWhile_append_of_pos hlead, List.takeWhile_cons_of_neg (by simp),
      List.append_nil]
  unfold declaration?
  rw [if_pos (by simp), htake, List.reverse_append]
  unfold rangeTokens
  by_cases hone : width < 2
  · obtain rfl : width = 1 := by omega
    rfl
  · have hall : (Nat.toDigits 10 (width - 1)).all Char.isDigit = true :=
      List.all_eq_true.mpr (isDigit_of_mem_toDigits (width - 1))
    have hback : width - 1 + 1 = width := by omega
    rw [if_neg hone]
    simp only [List.reverse_cons, List.reverse_nil, List.nil_append, List.cons_append]
    rw [if_pos ⟨trivial, hall⟩, Nat.ofDigitChars_ten_toDigits, hback]

end FaultInjection.Verilog
