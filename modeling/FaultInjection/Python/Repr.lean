import FaultInjection.Python.Text

/-!
# The printed form of a text

What can be seen in the `repr` of a text: which characters stand for themselves,
and where a backslash with an `n` behind it comes from.
-/

namespace FaultInjection.Text

variable [UnicodeData]

/-- The `repr` of a text behind its opening quote. -/
def escaped (quote : Char) (text : Text) : Text := text.flatMap (reprChar quote) ++ [quote]

theorem escaped_cons (quote c : Char) (text : Text) :
    escaped quote (c :: text) = reprChar quote c ++ escaped quote text := by
  rw [escaped, List.flatMap_cons, List.append_assoc, ← escaped]

/-- The quotes that `repr` uses. -/
def IsQuote (quote : Char) : Prop := quote = '\'' ∨ quote = '"'

omit [UnicodeData] in
theorem isQuote_reprQuote (text : Text) : IsQuote (reprQuote text) := by
  unfold reprQuote
  split
  · exact Or.inr rfl
  · exact Or.inl rfl

omit [UnicodeData] in
theorem backslash_not_mem_toDigits (n : Nat) : '\\' ∉ Nat.toDigits 16 n := by
  induction n using Nat.strongRecOn with
  | ind n ih =>
      rw [Nat.toDigits_eq_if (by decide)]
      split
      · simp
      · rename_i hle
        rw [List.mem_append]
        rintro (hmem | hmem)
        · exact ih (n / 16) (Nat.div_lt_self (by omega) (by decide)) hmem
        · simp at hmem

omit [UnicodeData] in
theorem backslash_not_mem_hex (width n : Nat) : '\\' ∉ hex width n := by
  rw [hex, List.mem_append]
  rintro (hmem | hmem)
  · exact absurd (List.eq_of_mem_replicate hmem) (by decide)
  · exact backslash_not_mem_toDigits n hmem

/-- The ways a character is printed: as it is, or behind a backslash. -/
inductive ReprChar (quote c : Char) : Prop where
  | plain (hrepr : reprChar quote c = [c]) (hprintable : UnicodeData.isPrintable c = true)
      (hbackslash : c ≠ '\\') (hnewline : c ≠ '\n')
  | newline (hrepr : reprChar quote c = ['\\', 'n']) (hc : c = '\n')
  | backslash (hrepr : reprChar quote c = ['\\', '\\']) (hc : c = '\\')
  | escape (d : Char) (more : Text) (hrepr : reprChar quote c = '\\' :: d :: more)
      (hd : d ≠ '\\' ∧ d ≠ 'n') (hmore : '\\' ∉ more) (hc : c ≠ '\\' ∧ c ≠ '\n')

theorem reprChar_cases {quote : Char} (hquote : IsQuote quote) (c : Char) :
    ReprChar quote c := by
  have hletters : "\\t".toList = ['\\', 't'] ∧ "\\n".toList = ['\\', 'n'] ∧
      "\\r".toList = ['\\', 'r'] ∧ "\\x".toList = ['\\', 'x'] ∧ "\\u".toList = ['\\', 'u'] ∧
        "\\U".toList = ['\\', 'U'] := by
    decide +kernel
  obtain ⟨htab, hline, hreturn, hshort, hmiddle, hlong⟩ := hletters
  obtain ⟨printed, hrepr⟩ : ∃ printed, reprChar quote c = printed := ⟨_, rfl⟩
  have hform := hrepr
  unfold reprChar at hform
  split at hform
  · rename_i hself
    by_cases hbackslash : c = '\\'
    · rw [← hform, hbackslash] at hrepr
      exact .backslash (hbackslash ▸ hrepr) hbackslash
    · have hmark : c = quote := hself.resolve_right hbackslash
      refine .escape c [] (hrepr.trans hform.symm) ?_ (by simp) ?_
      · rcases hquote with rfl | rfl <;> (rw [hmark]; decide)
      · rcases hquote with rfl | rfl <;> (rw [hmark]; decide)
  · rename_i hneither
    rw [not_or] at hneither
    rw [htab, hline, hreturn, hshort, hmiddle, hlong] at hform
    split at hform
    · rename_i hc
      exact .escape 't' [] (hrepr.trans hform.symm) (by decide) (by simp) (by rw [hc]; decide)
    · split at hform
      · rename_i hc
        exact .newline (hrepr.trans hform.symm) hc
      · rename_i hnewline
        have hc : c ≠ '\\' ∧ c ≠ '\n' := ⟨hneither.2, hnewline⟩
        split at hform
        · exact .escape 'r' [] (hrepr.trans hform.symm) (by decide) (by simp) hc
        · split at hform
          · rename_i hprintable
            exact .plain (hrepr.trans hform.symm) hprintable hc.1 hc.2
          · split at hform
            · exact .escape 'x' _ (hrepr.trans hform.symm) (by decide)
                (backslash_not_mem_hex _ _) hc
            · split at hform
              · exact .escape 'u' _ (hrepr.trans hform.symm) (by decide)
                  (backslash_not_mem_hex _ _) hc
              · exact .escape 'U' _ (hrepr.trans hform.symm) (by decide)
                  (backslash_not_mem_hex _ _) hc

theorem length_escaped_lt {quote : Char} (hquote : IsQuote quote) {run : Text} (hne : run ≠ [])
    (text : Text) : (escaped quote text).length < (escaped quote (run ++ text)).length := by
  have hpos : ∀ c, 0 < (reprChar quote c).length := by
    intro c
    cases reprChar_cases hquote c with
    | plain hrepr _ _ _ => rw [hrepr]; exact Nat.one_pos
    | newline hrepr _ => rw [hrepr]; exact Nat.two_pos
    | backslash hrepr _ => rw [hrepr]; exact Nat.two_pos
    | escape d more hrepr _ _ _ => rw [hrepr]; exact Nat.succ_pos _
  induction run with
  | nil => exact absurd rfl hne
  | cons c run ih =>
      have hc := hpos c
      rw [List.cons_append, escaped_cons, List.length_append]
      cases run with
      | nil => rw [List.nil_append]; omega
      | cons d run =>
          have hrun := ih (List.cons_ne_nil _ _)
          omega

/-- What is not a backslash in the printed form stands there for itself. -/
theorem exists_of_escaped_cons {quote c : Char} {text rest : Text} (hquote : IsQuote quote)
    (hc : c ≠ '\\' ∧ c ≠ quote) (heq : escaped quote text = c :: rest) :
    ∃ text', text = c :: text' ∧ UnicodeData.isPrintable c = true ∧
      rest = escaped quote text' := by
  cases text with
  | nil => exact absurd (List.cons.inj heq).1.symm hc.2
  | cons d text =>
      rw [escaped_cons] at heq
      cases reprChar_cases hquote d with
      | plain hrepr hprintable hbackslash hnewline =>
          rw [hrepr, List.singleton_append, List.cons.injEq] at heq
          obtain ⟨rfl, rfl⟩ := heq
          exact ⟨text, rfl, hprintable, rfl⟩
      | newline hrepr hd =>
          rw [hrepr] at heq
          exact absurd (List.cons.inj heq).1.symm hc.1
      | backslash hrepr hd =>
          rw [hrepr] at heq
          exact absurd (List.cons.inj heq).1.symm hc.1
      | escape e more hrepr he hmore hd =>
          rw [hrepr] at heq
          exact absurd (List.cons.inj heq).1.symm hc.1

theorem exists_of_escaped_append {quote : Char} {run text rest : Text} (hquote : IsQuote quote)
    (hrun : ∀ c ∈ run, c ≠ '\\' ∧ c ≠ quote) (heq : escaped quote text = run ++ rest) :
    ∃ text', text = run ++ text' ∧ (∀ c ∈ run, UnicodeData.isPrintable c = true) ∧
      rest = escaped quote text' := by
  induction run generalizing text with
  | nil => exact ⟨text, rfl, by simp, heq.symm⟩
  | cons c run ih =>
      obtain ⟨text', rfl, hprintable, hrest⟩ :=
        exists_of_escaped_cons hquote (hrun c (.head _)) heq
      obtain ⟨text'', rfl, hprintables, hrest⟩ :=
        ih (fun d hd => hrun d (.tail _ hd)) hrest.symm
      refine ⟨text'', rfl, ?_, hrest⟩
      rintro d (_ | ⟨_, hd⟩)
      · exact hprintable
      · exact hprintables d hd

theorem escaped_append {quote : Char} {run : Text} (hrun : ∀ c ∈ run, reprChar quote c = [c])
    (text : Text) : escaped quote (run ++ text) = run ++ escaped quote text := by
  induction run with
  | nil => rfl
  | cons c run ih =>
      rw [List.cons_append, escaped_cons, hrun c (.head _), ih fun d hd => hrun d (.tail _ hd)]
      rfl

theorem reprChar_of_isPrintable {quote c : Char} (hprintable : UnicodeData.isPrintable c = true)
    (hc : c ≠ '\\' ∧ c ≠ quote) : reprChar quote c = [c] := by
  have hcontrol : ∀ d : Char, d.toNat < 32 → c ≠ d := by
    rintro d hd rfl
    rw [UnicodeData.printable_ascii c (Nat.lt_trans hd (by decide)), Bool.and_eq_true,
      decide_eq_true_eq] at hprintable
    exact Nat.not_lt.mpr hprintable.1 hd
  rw [reprChar, if_neg (not_or.mpr ⟨hc.2, hc.1⟩), if_neg (hcontrol '\t' (by decide)),
    if_neg (hcontrol '\n' (by decide)), if_neg (hcontrol '\r' (by decide)), if_pos hprintable]

end FaultInjection.Text
