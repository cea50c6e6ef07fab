import FaultInjection.Python.Result
import FaultInjection.Python.Text

/-!
# Replacement templates

`re.sub` reads its replacement string as a template: a backslash starts a group
reference or a character escape.  A template without a backslash stands for
itself.
-/

namespace FaultInjection.Template

open Regex

/-- A parsed template is a row of characters and group references. -/
inductive Part where
  | literal (c : Char)
  | reference (index : Nat)
  deriving DecidableEq, Repr

def Part.render (m : Match Char) : Part → Text
  | .literal c => [c]
  | .reference index => if index = 0 then m.taken else m.group index

def isOctal (c : Char) : Bool := '0' ≤ c && c ≤ '7'

/-- The value of ASCII digits in a base. -/
def value (base : Nat) (digits : Text) : Nat :=
  digits.foldl (fun total c => base * total + (c.toNat - 48)) 0

/-- The characters that stand behind a backslash for a control character. -/
def escape? : Char → Option Char
  | 'a' => some (Char.ofNat 7)
  | 'b' => some (Char.ofNat 8)
  | 'f' => some (Char.ofNat 12)
  | 'n' => some '\n'
  | 'r' => some '\r'
  | 't' => some '\t'
  | 'v' => some (Char.ofNat 11)
  | '\\' => some '\\'
  | _ => none

/-- A reference to a group of a pattern that has `groups` of them. -/
def reference (groups index : Nat) : Except PythonError Part :=
  if index ≤ groups then .ok (.reference index) else .error .patternError

/-- The name between the brackets of `\g<name>`. -/
def named (groups : Nat) (name : Text) : Except PythonError Part :=
  match name with
  | [] => .error .patternError
  | first :: _ =>
      if name.all Char.isDigit then reference groups (value 10 name)
      else if first.isAlpha || first == '_' then .error .indexError
      else .error .patternError

/--
One item of a template behind a backslash: the part it stands for and the rest
of the template.
-/
def escaped (groups : Nat) : Text → Except PythonError (List Part × Text)
  | [] => .error .patternError
  | 'g' :: '<' :: rest =>
      let name := rest.takeWhile (· != '>')
      match rest.dropWhile (· != '>') with
      | [] => .error .patternError
      | _ :: left => (named groups name).map fun part => ([part], left)
  | 'g' :: _ => .error .patternError
  | '0' :: rest =>
      let digits := (rest.take 2).takeWhile isOctal
      .ok ([.literal (Char.ofNat (value 8 digits % 256))], rest.drop digits.length)
  | c :: rest =>
      if c.isDigit then
        match rest with
        | d :: e :: left =>
            if isOctal c && isOctal d && isOctal e then
              if value 8 [c, d, e] ≤ 255 then
                .ok ([.literal (Char.ofNat (value 8 [c, d, e]))], left)
              else .error .patternError
            else if d.isDigit then
              (reference groups (value 10 [c, d])).map fun part => ([part], e :: left)
            else (reference groups (value 10 [c])).map fun part => ([part], d :: e :: left)
        | [d] =>
            if d.isDigit then
              (reference groups (value 10 [c, d])).map fun part => ([part], [])
            else (reference groups (value 10 [c])).map fun part => ([part], [d])
        | [] => (reference groups (value 10 [c])).map fun part => ([part], [])
      else
        match escape? c with
        | some control => .ok ([.literal control], rest)
        | none =>
            if c.isAlpha then .error .patternError
            else .ok ([.literal '\\', .literal c], rest)

/-- Parse a template item by item; the fuel bounds the number of items. -/
def parseItems (groups : Nat) : Nat → Text → Except PythonError (List Part)
  | _, [] => .ok []
  | 0, _ :: _ => .error .recursionError
  | fuel + 1, '\\' :: rest => do
      let (parts, left) ← escaped groups rest
      let others ← parseItems groups fuel left
      return parts ++ others
  | fuel + 1, c :: rest => do
      let others ← parseItems groups fuel rest
      return .literal c :: others

/-- The template of a replacement string. -/
def parse (groups : Nat) (text : Text) : Except PythonError (List Part) :=
  if '\\' ∈ text then parseItems groups text.length text
  else .ok (text.map .literal)

/-- What a template puts in the place of a match. -/
def expand (parts : List Part) (m : Match Char) : Text :=
  parts.flatMap (Part.render m)

/-- `re.sub(pattern, text, input)` for a pattern with `groups` groups. -/
def resub (pattern : Pattern Char) (groups : Nat) (text input : Text) :
    Except PythonError Text :=
  (parse groups text).map fun parts => sub pattern (expand parts) input

@[simp]
theorem expand_literal (text : Text) (m : Match Char) :
    expand (text.map .literal) m = text := by
  induction text with
  | nil => rfl
  | cons c text ih =>
      rw [List.map_cons, expand, List.flatMap_cons, ← expand, ih]
      rfl

/-- A replacement string without a backslash is put in as it stands. -/
theorem resub_of_plain {pattern : Pattern Char} {groups : Nat} {text input : Text}
    (hplain : '\\' ∉ text) :
    resub pattern groups text input = .ok (sub pattern (fun _ => text) input) := by
  rw [resub, parse, if_neg hplain]
  have hexpand : expand (text.map .literal) = fun _ : Match Char => text :=
    funext fun m => expand_literal text m
  rw [Except.map, hexpand]

/-! ## Templates with references -/

theorem parseItems_plain {groups fuel : Nat} {text rest : Text} (hplain : '\\' ∉ text)
    (hfuel : text.length ≤ fuel) :
    parseItems groups fuel (text ++ rest) =
      (parseItems groups (fuel - text.length) rest).map (text.map Part.literal ++ ·) := by
  induction text generalizing fuel with
  | nil =>
      show parseItems groups fuel rest = (parseItems groups fuel rest).map id
      cases parseItems groups fuel rest <;> rfl
  | cons c text ih =>
      rw [List.mem_cons, not_or] at hplain
      obtain ⟨fuel, rfl⟩ := Nat.exists_eq_succ_of_ne_zero (Nat.ne_zero_of_lt hfuel)
      rw [List.length_cons, Nat.succ_le_succ_iff] at hfuel
      rw [List.cons_append, parseItems, ih hplain.2 hfuel, List.length_cons, Nat.succ_sub_succ]
      · cases parseItems groups (fuel - text.length) rest <;> rfl
      · exact fun heq => hplain.1 heq.symm

theorem isOctal_of_not_digit {c : Char} (hc : c.isDigit = false) : isOctal c = false := by
  rw [Bool.eq_false_iff]
  intro hoctal
  rw [isOctal, Bool.and_eq_true, decide_eq_true_eq, decide_eq_true_eq] at hoctal
  have hdigit : c.isDigit = true := by
    rw [Char.isDigit, Bool.and_eq_true, decide_eq_true_eq, decide_eq_true_eq]
    exact ⟨hoctal.1, UInt32.le_trans hoctal.2 (by decide)⟩
  rw [hdigit] at hc
  cases hc

/-- A backslash and one digit refer to a group, unless a second digit follows. -/
theorem parseItems_reference {groups fuel : Nat} {digit c d : Char} {rest : Text}
    (hdigit : digit ∈ ['1', '2']) (hgroups : 2 ≤ groups) (hc : c.isDigit = false) :
    parseItems groups (fuel + 1) ('\\' :: digit :: c :: d :: rest) =
      (parseItems groups fuel (c :: d :: rest)).map
        (Part.reference (value 10 [digit]) :: ·) := by
  have hescaped : escaped groups (digit :: c :: d :: rest) =
      .ok ([.reference (value 10 [digit])], c :: d :: rest) := by
    have hoctal := isOctal_of_not_digit hc
    have hone : (1 : Nat) ≤ groups := Nat.le_of_succ_le hgroups
    simp only [List.mem_cons, List.not_mem_nil, or_false] at hdigit
    rcases hdigit with rfl | rfl
    · simp [escaped, hoctal, hc, reference, value, hone, Except.map]
    · simp [escaped, hoctal, hc, reference, value, hgroups, Except.map]
  rw [parseItems, hescaped]
  show (parseItems groups fuel (c :: d :: rest) >>= _) = _
  cases parseItems groups fuel (c :: d :: rest) <;> rfl

theorem parseItems_all {groups fuel : Nat} {text : Text} (hplain : '\\' ∉ text)
    (hfuel : text.length ≤ fuel) : parseItems groups fuel text = .ok (text.map .literal) := by
  have hparse : parseItems groups fuel (text ++ []) = _ := parseItems_plain hplain hfuel
  have hnil : parseItems groups (fuel - text.length) [] = .ok [] := by
    cases fuel - text.length <;> rfl
  rw [List.append_nil, hnil, Except.map, List.append_nil] at hparse
  exact hparse

theorem parse_eq {groups : Nat} {text : Text} :
    parse groups text = parseItems groups text.length text := by
  rw [parse]
  split
  · rfl
  · rename_i hplain
    rw [parseItems_all hplain (Nat.le_refl _)]

/-- A text without a backslash, a reference and another such text that begins with no digit. -/
theorem parseItems_second {groups fuel : Nat} (hgroups : 2 ≤ groups) {c d : Char}
    {first second : Text} (hc : c.isDigit = false) (hfirst : '\\' ∉ first)
    (hsecond : '\\' ∉ c :: d :: second)
    (hfuel : (first ++ '\\' :: '2' :: c :: d :: second).length ≤ fuel) :
    parseItems groups fuel (first ++ '\\' :: '2' :: c :: d :: second) =
      .ok (first.map .literal ++ .reference 2 :: (c :: d :: second).map .literal) := by
  simp only [List.length_append, List.length_cons] at hfuel
  obtain ⟨left, hleft⟩ : ∃ left, fuel - first.length = left + 1 :=
    ⟨fuel - first.length - 1, by omega⟩
  rw [parseItems_plain hfirst (by omega), hleft, parseItems_reference (by decide) hgroups hc,
    parseItems_all hsecond (by simp only [List.length_cons]; omega)]
  rfl

/-- A template of two references, each in front of a text without a backslash that begins
with no digit. -/
theorem parse_references {groups : Nat} (hgroups : 2 ≤ groups) {c c' d d' : Char}
    {first second : Text} (hc : c.isDigit = false) (hc' : c'.isDigit = false)
    (hfirst : '\\' ∉ c :: d :: first) (hsecond : '\\' ∉ c' :: d' :: second) :
    parse groups ('\\' :: '1' :: (c :: d :: first ++ '\\' :: '2' :: c' :: d' :: second)) =
      .ok (.reference 1 :: ((c :: d :: first).map .literal ++
        .reference 2 :: (c' :: d' :: second).map .literal)) := by
  have hrest := parseItems_second hgroups hc' hfirst hsecond (Nat.le_succ _)
  rw [parse_eq, List.length_cons, List.length_cons]
  simp only [List.cons_append] at hrest ⊢
  rw [parseItems_reference (by decide) hgroups hc, hrest]
  rfl

/-- Three octal digits that begin with a one are the code of a character. -/
theorem value_octal_le {c d : Char} (hc : isOctal c = true) (hd : isOctal d = true) :
    value 8 ['1', c, d] ≤ 255 := by
  have hdigit : ∀ {e : Char}, isOctal e = true → e.toNat - 48 ≤ 7 := by
    intro e he
    rw [isOctal, Bool.and_eq_true, decide_eq_true_eq, decide_eq_true_eq] at he
    have hle : e.toNat ≤ 55 := UInt32.le_iff_toNat_le.mp he.2
    omega
  have hvalue : value 8 ['1', c, d] = 8 * (8 * 1 + (c.toNat - 48)) + (d.toNat - 48) := rfl
  have hc := hdigit hc
  have hd := hdigit hd
  omega

theorem ten_le_value (c : Char) : 10 ≤ value 10 ['1', c] := by
  have hvalue : value 10 ['1', c] = 10 * 1 + (c.toNat - 48) := rfl
  omega

/-- A reference in front of a digit is read as an octal escape, or it is one to a group that is
not there. -/
theorem octal_of_parse {groups : Nat} (hgroups : groups ≤ 9) {c d : Char} {rest : Text}
    {parts : List Part} (hc : c.isDigit = true)
    (hparse : parse groups ('\\' :: '1' :: c :: d :: rest) = .ok parts) :
    (isOctal c = true ∧ isOctal d = true) ∧ ∃ fuel control others, rest.length ≤ fuel ∧
      parseItems groups fuel rest = .ok others ∧ parts = .literal control :: others := by
  have hone : isOctal '1' = true ∧ ('1').isDigit = true := by decide
  have hten := ten_le_value c
  have hlarge : ¬ value 10 ['1', c] ≤ groups := by omega
  rw [parse_eq, List.length_cons, parseItems] at hparse
  by_cases hoctal : isOctal c = true ∧ isOctal d = true
  · have hitem : escaped groups ('1' :: c :: d :: rest) =
        .ok ([.literal (Char.ofNat (value 8 ['1', c, d]))], rest) := by
      simp [escaped, hone, hoctal, value_octal_le hoctal.1 hoctal.2]
    rw [hitem, ok_bind] at hparse
    obtain ⟨others, hothers, heq⟩ := bind_eq_ok.mp hparse
    cases heq
    refine ⟨hoctal, _, _, others, ?_, hothers, rfl⟩
    simp only [List.length_cons]
    omega
  · have hitem : escaped groups ('1' :: c :: d :: rest) = .error .patternError := by
      rw [not_and, Bool.not_eq_true] at hoctal
      cases hco : isOctal c with
      | false => simp [escaped, hone, hco, hc, reference, hlarge, Except.map]
      | true => simp [escaped, hone, hco, hoctal hco, hc, reference, hlarge, Except.map]
    rw [hitem] at hparse
    cases hparse

/-! ## Items in front of a newline -/

theorem map_item_eq_ok {parsed : Except PythonError Part} {rest left : Text} {parts : List Part}
    (hparsed : (parsed.map fun part => ([part], rest)) = .ok (parts, left)) : left = rest := by
  cases parsed with
  | error error => cases hparsed
  | ok part =>
      cases hparsed
      rfl

theorem suffix_of_escaped {groups : Nat} {text left : Text} {parts : List Part}
    (hitem : escaped groups text = .ok (parts, left)) : left <:+ text := by
  unfold escaped at hitem
  split at hitem
  · cases hitem
  · rename_i rest
    split at hitem
    · cases hitem
    · rename_i heq
      rw [map_item_eq_ok hitem]
      refine .trans ?_ (.trans (List.dropWhile_suffix (l := rest) (· != '>')) ?_)
      · rw [heq]
        exact List.suffix_cons _ _
      · exact ⟨['g', '<'], rfl⟩
  · cases hitem
  · cases hitem
    exact (List.drop_suffix _ _).trans (List.suffix_cons _ _)
  · split at hitem
    · split at hitem
      · split at hitem
        · split at hitem
          · cases hitem
            exact ⟨[_, _, _], rfl⟩
          · cases hitem
        · split at hitem
          · rw [map_item_eq_ok hitem]
            exact ⟨[_, _], rfl⟩
          · rw [map_item_eq_ok hitem]
            exact ⟨[_], rfl⟩
      · split at hitem
        · rw [map_item_eq_ok hitem]
          exact ⟨[_, _], rfl⟩
        · rw [map_item_eq_ok hitem]
          exact ⟨[_], rfl⟩
      · rw [map_item_eq_ok hitem]
        exact ⟨[_], rfl⟩
    · split at hitem
      · cases hitem
        exact ⟨[_], rfl⟩
      · split at hitem
        · cases hitem
        · cases hitem
          exact ⟨[_], rfl⟩

/-- What is read in front of a text and left of it. -/
def extend (rest : Text) (item : List Part × Text) : List Part × Text := (item.1, item.2 ++ rest)

theorem map_extend (parsed : Except PythonError Part) {left left' rest : Text}
    (hleft : left ++ rest = left') :
    (parsed.map fun part => ([part], left')) =
      (parsed.map fun part => ([part], left)).map (extend rest) := by
  subst hleft
  cases parsed <;> rfl

section Newline

variable (groups : Nat) {rest : Text}

theorem escaped_named (hrest : '>' ∉ rest) (body : Text) :
    escaped groups ('g' :: '<' :: (body ++ '\n' :: rest)) =
      (escaped groups ('g' :: '<' :: (body ++ ['\n']))).map (extend rest) := by
  by_cases hmem : '>' ∈ body
  · obtain ⟨name, behind, rfl, hname⟩ := List.eq_append_cons_of_mem hmem
    have hall : ∀ c ∈ name, (c != '>') = true := by
      intro c hc
      rw [bne_iff_ne]
      rintro rfl
      exact hname hc
    have htake : ∀ left : Text, (name ++ '>' :: left).takeWhile (· != '>') = name := by
      intro left
      rw [List.takeWhile_append_of_pos hall, List.takeWhile_cons_of_neg (by decide),
        List.append_nil]
    have hdrop : ∀ left : Text, (name ++ '>' :: left).dropWhile (· != '>') = '>' :: left := by
      intro left
      rw [List.dropWhile_append_of_pos hall, List.dropWhile_cons_of_neg (by decide)]
    have hitem : ∀ left : Text, escaped groups ('g' :: '<' :: (name ++ '>' :: left)) =
        (named groups name).map fun part => ([part], left) := by
      intro left
      rw [escaped, htake, hdrop]
    rw [List.append_assoc, List.append_assoc, List.cons_append, List.cons_append, hitem, hitem]
    exact map_extend _ (by simp)
  · have hnone : ∀ left : Text, '>' ∉ left →
        escaped groups ('g' :: '<' :: (body ++ '\n' :: left)) = .error .patternError := by
      intro left hleft
      have hdrop : (body ++ '\n' :: left).dropWhile (· != '>') = [] := by
        refine List.dropWhile_eq_nil_iff.mpr fun c hc => ?_
        rw [bne_iff_ne]
        rintro rfl
        simp [hmem, hleft] at hc
      rw [escaped, hdrop]
    rw [hnone rest hrest, hnone [] (by simp)]
    rfl

theorem escaped_octal (body : Text) :
    escaped groups ('0' :: (body ++ '\n' :: rest)) =
      (escaped groups ('0' :: (body ++ ['\n']))).map (extend rest) := by
  have hoctal : isOctal '\n' = false := by decide
  cases body with
  | nil => simp [escaped, hoctal, Except.map, extend]
  | cons d body =>
      cases body with
      | nil => cases hd : isOctal d <;> simp [escaped, hd, hoctal, Except.map, extend]
      | cons e body =>
          cases hd : isOctal d <;> cases he : isOctal e <;>
            simp [escaped, hd, he, Except.map, extend]

theorem escaped_digits {c : Char} (hc : c.isDigit = true) (hzero : c ≠ '0') (body : Text) :
    escaped groups (c :: (body ++ '\n' :: rest)) =
      (escaped groups (c :: (body ++ ['\n']))).map (extend rest) := by
  have hdigit : ('\n').isDigit = false := by decide
  have hoctal : isOctal '\n' = false := by decide
  have hg : c ≠ 'g' := by
    rintro rfl
    cases hc
  cases body with
  | nil =>
      cases rest with
      | nil =>
          cases hitem : escaped groups [c, '\n'] <;> simp [hitem, Except.map, extend]
      | cons e rest =>
          simp [escaped, hg, hc, hdigit, hoctal]
          exact map_extend _ (by simp)
  | cons d body =>
      cases body with
      | nil =>
          simp [escaped, hg, hc, hoctal]
          split <;> exact map_extend _ (by simp)
      | cons e body =>
          simp [escaped, hg, hc]
          split
          · split <;> simp [Except.map, extend]
          · split <;> exact map_extend _ (by simp)

/-- No item reaches beyond a newline into a text without a closing bracket. -/
theorem escaped_append (hrest : '>' ∉ rest) (body : Text) :
    escaped groups (body ++ '\n' :: rest) =
      (escaped groups (body ++ ['\n'])).map (extend rest) := by
  cases body with
  | nil => rfl
  | cons c body =>
      by_cases hg : c = 'g'
      · subst hg
        cases body with
        | nil => rfl
        | cons d body =>
            by_cases hd : d = '<'
            · subst hd
              exact escaped_named groups hrest body
            · simp [escaped, hd, Except.map]
      · by_cases hzero : c = '0'
        · subst hzero
          exact escaped_octal groups body
        · cases hc : c.isDigit with
          | true => exact escaped_digits groups hc hzero body
          | false =>
              have hitem : ∀ left, escaped groups (c :: left) =
                  match escape? c with
                  | some control => .ok ([.literal control], left)
                  | none =>
                      if c.isAlpha then .error .patternError
                      else .ok ([.literal '\\', .literal c], left) := by
                intro left
                simp [escaped, hg, hc]
              rw [List.cons_append, List.cons_append, hitem, hitem]
              cases escape? c with
              | some control => simp [Except.map, extend]
              | none => cases c.isAlpha <;> simp [Except.map, extend]

end Newline

theorem map_items (parsed : Except PythonError (List Part)) (before after : List Part) :
    (parsed.map (· ++ after) >>= fun others => pure (before ++ others)) =
      (parsed >>= fun others => pure (before ++ others)).map (· ++ after) := by
  cases parsed with
  | error error => rfl
  | ok others =>
      show Except.ok (before ++ (others ++ after)) = Except.ok (before ++ others ++ after)
      rw [List.append_assoc]

section Around

variable {groups : Nat} {front rest : Text} (hplain : '\\' ∉ rest) (hbracket : '>' ∉ rest)

include hplain hbracket

theorem parseItems_append {fuel fuel' : Nat} {body : Text} (hfuel : body.length < fuel)
    (hfuel' : body.length + rest.length < fuel') :
    parseItems groups fuel' (body ++ '\n' :: rest) =
      (parseItems groups fuel (body ++ ['\n'])).map (· ++ rest.map .literal) := by
  induction hlength : body.length using Nat.strongRecOn generalizing body fuel fuel' with
  | ind length ih =>
      obtain ⟨fuel, rfl⟩ := Nat.exists_eq_succ_of_ne_zero (Nat.ne_zero_of_lt hfuel)
      obtain ⟨fuel', rfl⟩ := Nat.exists_eq_succ_of_ne_zero (Nat.ne_zero_of_lt hfuel')
      cases body with
      | nil =>
          rw [List.nil_append, List.nil_append, parseItems_all (by simp [hplain]),
            parseItems_all (by simp)]
          · rfl
          all_goals
            simp only [List.length_cons, List.length_nil] at *
            omega
      | cons c body =>
          simp only [List.length_cons] at hfuel hfuel' hlength
          by_cases hc : c = '\\'
          · subst hc
            rw [List.cons_append, List.cons_append, parseItems, parseItems,
              escaped_append groups hbracket]
            cases hitem : escaped groups (body ++ ['\n']) with
            | error error => rfl
            | ok item =>
                obtain ⟨parts, left⟩ := item
                show (parseItems groups fuel' (left ++ rest) >>= fun others =>
                    pure (parts ++ others)) =
                  (parseItems groups fuel left >>= fun others => pure (parts ++ others)).map _
                rw [← map_items]
                congr 1
                -- an item that leaves something leaves the newline at its end
                rcases List.eq_nil_or_concat left with rfl | ⟨body', last, rfl⟩
                · rw [List.nil_append, parseItems_all hplain (by omega)]
                  cases fuel <;> rfl
                · obtain ⟨before, hbefore⟩ := suffix_of_escaped hitem
                  rw [List.concat_eq_append, ← List.append_assoc] at hbefore
                  obtain ⟨rfl, hlast⟩ := List.append_inj' hbefore rfl
                  cases hlast
                  rw [List.concat_eq_append, List.append_assoc, List.singleton_append]
                  simp only [List.length_append] at hfuel hfuel' hlength
                  exact ih body'.length (by omega) (by omega) (by omega) rfl
          · rw [List.cons_append, List.cons_append, parseItems, parseItems]
            · rw [ih body.length (by omega) (by omega : body.length < fuel) (by omega) rfl]
              cases parseItems groups fuel (body ++ ['\n']) <;> rfl
            · exact hc
            · exact hc

theorem parse_around (hfront : '\\' ∉ front) (body : Text) :
    parse groups (front ++ (body ++ '\n' :: rest)) =
      (parse groups (body ++ ['\n'])).map fun parts =>
        front.map .literal ++ (parts ++ rest.map .literal) := by
  have hfuel : body.length < (body ++ ['\n']).length := by simp
  rw [parse_eq, parse_eq, parseItems_plain hfront (by simp),
    parseItems_append hplain hbracket hfuel]
  · cases parseItems groups (body ++ ['\n']).length (body ++ ['\n']) <;> rfl
  · simp only [List.length_append, List.length_cons]
    omega

theorem resub_around {pattern : Pattern Char} (hfront : '\\' ∉ front) (body input : Text) :
    resub pattern groups (front ++ (body ++ '\n' :: rest)) input =
      (parse groups (body ++ ['\n'])).map fun parts =>
        sub pattern (fun m => front ++ (expand parts m ++ rest)) input := by
  rw [resub, parse_around hplain hbracket hfront]
  cases parse groups (body ++ ['\n']) with
  | error error => rfl
  | ok parts =>
      have hexpand : expand (front.map .literal ++ (parts ++ rest.map .literal)) =
          fun m : Match Char => front ++ (expand parts m ++ rest) := by
        funext m
        rw [expand, List.flatMap_append, List.flatMap_append, ← expand, ← expand, ← expand,
          expand_literal, expand_literal]
      rw [Except.map, Except.map, Except.map, hexpand]

end Around

end FaultInjection.Template
