import FaultInjection.Marking.Components

/-!
# Fault paths

The documented form of a fault path, `/n0/n1/.../nk` followed by `:wire` or
`/:wire` and an optional `:bit`, and what the two regular expressions of
`mark_fault` read from it.
-/

namespace FaultInjection

open Regex Regex.Pattern Text

variable [UnicodeData]

/-- A fault path of the documented form. -/
structure FaultPath where
  head : Text
  tail : List Text
  slashed : Bool
  wire : Text
  bit : Option Text
  head_name : IsName head
  tail_name : ∀ name ∈ tail, IsName name
  wire_name : IsName wire
  bit_name : ∀ b ∈ bit, IsName b

namespace FaultPath

/-- The wire and the bit, each behind a colon. -/
def site (fault : FaultPath) : Text :=
  ':' :: (fault.wire ++
    match fault.bit with
    | none => []
    | .some bit => ':' :: bit)

/-- What follows the last component. -/
def target (fault : FaultPath) : Text :=
  if fault.slashed then '/' :: fault.site else fault.site

def text (fault : FaultPath) : Text :=
  spell (fault.head :: fault.tail) ++ fault.target

/-- The name of the child that the path leads through. -/
def second? (fault : FaultPath) : Option Text := fault.tail.head?

/-- The path without its first component. -/
def dropFirst? (fault : FaultPath) : Option FaultPath :=
  match htail : fault.tail with
  | [] => none
  | next :: rest =>
      .some { fault with
        head := next
        tail := rest
        head_name := fault.tail_name next (htail ▸ .head _)
        tail_name := fun name hname => fault.tail_name name (htail ▸ .tail _ hname) }

theorem isWord_colon : isWord ':' = false := by
  rw [isWord_ascii (by decide)]
  decide

theorem slash_not_mem_site (fault : FaultPath) : '/' ∉ fault.site := by
  have hwire := fault.wire_name.slash_not_mem
  rw [site]
  cases hbit : fault.bit with
  | none => simp [hwire]
  | some bit =>
      have hname := (fault.bit_name bit hbit).slash_not_mem
      simp [hwire, hname]

theorem target_not_hasComponent (fault : FaultPath) : ¬ HasComponent fault.target := by
  rintro ⟨before, c, after, htarget, hc⟩
  rw [target] at htarget
  split at htarget
  · cases before with
    | nil =>
        rw [List.nil_append, site, List.cons.injEq, List.cons.injEq] at htarget
        rw [← htarget.2.1, isWord_colon] at hc
        cases hc
    | cons d before =>
        rw [List.cons_append, List.cons.injEq] at htarget
        apply fault.slash_not_mem_site
        rw [htarget.2]
        exact List.mem_append_right _ (.head _)
  · apply fault.slash_not_mem_site
    rw [htarget]
    exact List.mem_append_right _ (.head _)

theorem target_endsRun (fault : FaultPath) : EndsRun isWord fault.target := by
  rw [target]
  split
  · exact endsRun_cons.mpr isWord_slash
  · exact endsRun_cons.mpr isWord_colon

theorem names (fault : FaultPath) : ∀ name ∈ fault.head :: fault.tail, IsName name := by
  intro name hname
  rcases List.mem_cons.mp hname with rfl | hname
  · exact fault.head_name
  · exact fault.tail_name name hname

/-- The components that `mark_fault` finds are those of the path. -/
theorem pathParts_text (fault : FaultPath) :
    pathParts fault.text = (fault.head :: fault.tail).map ('/' :: ·) :=
  pathParts_spell fault.names fault.target_not_hasComponent fault.target_endsRun

theorem plain_site (fault : FaultPath) : ∀ c ∈ fault.site, isPlain c = true := by
  intro c hc
  rw [site, List.mem_cons, List.mem_append] at hc
  rcases hc with rfl | hc | hc
  · decide
  · exact fault.wire_name.plain c hc
  · cases hbit : fault.bit with
    | none => simp [hbit] at hc
    | some bit =>
        simp only [hbit, List.mem_cons] at hc
        rcases hc with rfl | hc
        · decide
        · exact (fault.bit_name bit hbit).plain c hc

theorem plain_target (fault : FaultPath) : ∀ c ∈ fault.target, isPlain c = true := by
  intro c hc
  rw [target] at hc
  split at hc
  · rcases List.mem_cons.mp hc with rfl | hc
    · decide
    · exact fault.plain_site c hc
  · exact fault.plain_site c hc

/-- The remainder that `mark_fault` hands on is the path without its first
component. -/
theorem pathRemainder?_text {fault rest : FaultPath}
    (hrest : fault.dropFirst? = some rest) :
    pathRemainder? fault.text = some rest.text := by
  unfold dropFirst? at hrest
  split at hrest
  · cases hrest
  · rename_i next others htail
    cases hrest
    have hnames := fault.names
    rw [htail] at hnames
    have htext : fault.text = spell (fault.head :: next :: others) ++ fault.target := by
      rw [text, htail]
    rw [htext]
    exact pathRemainder?_spell hnames fault.plain_target

end FaultPath

end FaultInjection
