import Mathlib.Data.List.Nodup
import Mathlib.Logic.Relation

/-!
# Forests of numbered nodes

Nodes are numbers below a bound and carry the list of their children.  In a
forest every child has a larger number than its parent and hangs under one
parent, once.
-/

namespace FaultInjection

/-- The children lists form a forest on the nodes below a bound. -/
structure Forest (children : Nat → List Nat) (size : Nat) : Prop where
  bounds : ∀ {p c}, c ∈ children p → p < c ∧ c < size
  nodup : ∀ p, (children p).Nodup
  parent_unique : ∀ {p q c}, c ∈ children p → c ∈ children q → p = q

namespace Forest

variable {children : Nat → List Nat} {size : Nat}

/-- One node lies strictly below another. -/
def Below (children : Nat → List Nat) : Nat → Nat → Prop :=
  Relation.TransGen fun p c => c ∈ children p

theorem lt_of_below (forest : Forest children size) {above below : Nat}
    (hbelow : Below children above below) : above < below := by
  induction hbelow with
  | single hmem => exact (forest.bounds hmem).1
  | tail _ hmem ih => exact Nat.lt_trans ih (forest.bounds hmem).1

theorem below_of_child {p c : Nat} (hmem : c ∈ children p) :
    Below children p c := .single hmem

/-- The nodes on the way down from one node to another, both included. -/
inductive Line (children : Nat → List Nat) : Nat → Nat → List Nat → Prop where
  | here (node : Nat) : Line children node node [node]
  | down {above child below : Nat} {nodes : List Nat} (hmem : child ∈ children above)
      (line : Line children child below nodes) : Line children above below (above :: nodes)

theorem not_below_self (forest : Forest children size) (node : Nat) :
    ¬ Below children node node :=
  fun hbelow => Nat.lt_irrefl node (forest.lt_of_below hbelow)

/-- A strict ancestor of a child is its parent or lies above its parent. -/
theorem eq_or_below_parent (forest : Forest children size) {above p c : Nat}
    (hbelow : Below children above c) (hmem : c ∈ children p) :
    above = p ∨ Below children above p := by
  cases hbelow with
  | single hmem' => exact Or.inl (forest.parent_unique hmem' hmem)
  | tail hbelow' hmem' =>
      rw [← forest.parent_unique hmem' hmem]
      exact Or.inr hbelow'

/-- Two nodes above the same node are equal or one lies above the other. -/
theorem below_comparable (forest : Forest children size) {a b node : Nat}
    (ha : Below children a node) (hb : Below children b node) :
    a = b ∨ Below children a b ∨ Below children b a := by
  induction ha with
  | single hmem =>
      rcases forest.eq_or_below_parent hb hmem with rfl | hbelow
      · exact Or.inl rfl
      · exact Or.inr (Or.inr hbelow)
  | tail hbelow hmem ih =>
      rcases forest.eq_or_below_parent hb hmem with rfl | hb
      · exact Or.inr (Or.inl hbelow)
      · exact ih hb

theorem not_below_sibling (forest : Forest children size) {p c d : Nat}
    (hc : c ∈ children p) (hd : d ∈ children p) : ¬ Below children c d := by
  intro hbelow
  have hlt := (forest.bounds hc).1
  rcases forest.eq_or_below_parent hbelow hd with rfl | hbelow
  · exact Nat.lt_irrefl _ hlt
  · exact Nat.lt_asymm hlt (forest.lt_of_below hbelow)

namespace Line

variable {above below : Nat} {nodes : List Nat}

theorem exists_cons (line : Line children above below nodes) :
    ∃ rest, nodes = above :: rest := by
  cases line with
  | here => exact ⟨[], rfl⟩
  | down _ _ => exact ⟨_, rfl⟩

theorem getLast? (line : Line children above below nodes) : nodes.getLast? = some below := by
  induction line with
  | here node => rfl
  | down _ line ih =>
      obtain ⟨rest, rfl⟩ := line.exists_cons
      rw [List.getLast?_cons_cons, ih]

theorem eq_or_below (line : Line children above below nodes) :
    below = above ∨ Below children above below := by
  induction line with
  | here => exact Or.inl rfl
  | down hmem _ ih =>
      rcases ih with rfl | hbelow
      · exact Or.inr (.single hmem)
      · exact Or.inr (.head hmem hbelow)

theorem increasing (forest : Forest children size) (line : Line children above below nodes) :
    nodes.Pairwise (· < ·) := by
  induction line with
  | here node => exact List.pairwise_singleton _ _
  | @down above child below nodes hmem line ih =>
      refine List.pairwise_cons.mpr ⟨fun node hnode => ?_, ih⟩
      have hchild := (forest.bounds hmem).1
      obtain ⟨rest, rfl⟩ := line.exists_cons
      rcases List.mem_cons.mp hnode with rfl | hnode
      · exact hchild
      · exact Nat.lt_trans hchild ((List.pairwise_cons.mp ih).1 node hnode)

theorem nodup (forest : Forest children size) (line : Line children above below nodes) :
    nodes.Nodup :=
  (line.increasing forest).imp fun hlt => Nat.ne_of_lt hlt

/-- A line has no more nodes than there are numbers between its ends. -/
theorem length_le (forest : Forest children size) (line : Line children above below nodes) :
    above + nodes.length ≤ below + 1 := by
  induction line with
  | here node => exact Nat.le_refl _
  | down hmem _ ih =>
      have hchild := (forest.bounds hmem).1
      rw [List.length_cons]
      omega

theorem exists_lower (line : Line children above below nodes) {node : Nat}
    (hnode : node ∈ nodes) :
    ∃ upper lower, nodes = upper ++ lower ∧ Line children node below lower := by
  induction line with
  | here top =>
      rw [List.mem_singleton.mp hnode]
      exact ⟨[], [top], rfl, .here top⟩
  | @down above child below nodes hmem line ih =>
      rcases List.mem_cons.mp hnode with rfl | hnode
      · exact ⟨[], _, rfl, .down hmem line⟩
      · obtain ⟨upper, lower, rfl, hlower⟩ := ih hnode
        exact ⟨above :: upper, lower, rfl, hlower⟩

theorem append {child : Nat} (line : Line children above below nodes)
    (hmem : child ∈ children below) : Line children above child (nodes ++ [child]) := by
  induction line with
  | here node => exact .down hmem (.here child)
  | down hfirst _ ih => exact .down hfirst (ih hmem)

theorem trans {last : Nat} {more : List Nat} (line : Line children above below nodes)
    (line' : Line children below last more) : Line children above last (nodes ++ more.tail) := by
  induction line with
  | here node =>
      obtain ⟨rest, rfl⟩ := line'.exists_cons
      exact line'
  | down hfirst _ ih => exact .down hfirst (ih line')

end Line

theorem exists_line {above below : Nat} (hbelow : Below children above below) :
    ∃ nodes, Line children above below nodes := by
  induction hbelow with
  | single hmem => exact ⟨_, .down hmem (.here _)⟩
  | tail _ hmem ih =>
      obtain ⟨nodes, line⟩ := ih
      exact ⟨_, line.append hmem⟩

theorem line_unique (forest : Forest children size) {above below : Nat} {nodes nodes' : List Nat}
    (line : Line children above below nodes) (line' : Line children above below nodes') :
    nodes = nodes' := by
  induction line generalizing nodes' with
  | here node =>
      cases line' with
      | here => rfl
      | down hmem line' =>
          have hchild := (forest.bounds hmem).1
          have hlength := line'.length_le forest
          obtain ⟨rest, rfl⟩ := line'.exists_cons
          rw [List.length_cons] at hlength
          omega
  | @down above child below nodes hmem line ih =>
      cases line' with
      | here =>
          have hchild := (forest.bounds hmem).1
          have hlength := line.length_le forest
          obtain ⟨rest, rfl⟩ := line.exists_cons
          rw [List.length_cons] at hlength
          omega
      | @down _ child' _ nodes' hmem' line' =>
          -- two children above the same node are the same
          have hsame : child = child' := by
            rcases line.eq_or_below with heq | hbelow
            · rcases line'.eq_or_below with heq' | hbelow'
              · rw [← heq, heq']
              · rw [heq] at hbelow'
                exact absurd hbelow' (forest.not_below_sibling hmem' hmem)
            · rcases line'.eq_or_below with heq' | hbelow'
              · rw [heq'] at hbelow
                exact absurd hbelow (forest.not_below_sibling hmem hmem')
              · rcases forest.below_comparable hbelow hbelow' with heq | habove | habove
                · exact heq
                · exact absurd habove (forest.not_below_sibling hmem hmem')
                · exact absurd habove (forest.not_below_sibling hmem' hmem)
          subst hsame
          rw [ih line']

theorem leaf_induction (forest : Forest children size) {motive : Nat → Prop}
    (step : ∀ node, (∀ c ∈ children node, motive c) → motive node) (node : Nat) :
    motive node := by
  induction hdistance : size - node using Nat.strongRecOn generalizing node with
  | ind distance ih =>
      refine step node fun c hmem => ih (size - c) ?_ c rfl
      have hbounds := forest.bounds hmem
      omega

theorem congr {children' : Nat → List Nat} (forest : Forest children size)
    (heq : ∀ node, children' node = children node) : Forest children' size := by
  have hchildren : children' = children := funext heq
  rw [hchildren]
  exact forest

theorem addChild (forest : Forest children size) {parent : Nat}
    (hparent : parent < size) :
    Forest (Function.update (Function.update children size []) parent
      (children parent ++ [size])) (size + 1) := by
  have hfresh : ∀ node, size ∉ children node := fun node hmem =>
    Nat.lt_irrefl size (forest.bounds hmem).2
  have hmem : ∀ {p c},
      c ∈ Function.update (Function.update children size []) parent
        (children parent ++ [size]) p →
      (c ∈ children p) ∨ (p = parent ∧ c = size) := by
    intro p c hc
    by_cases hp : p = parent
    · subst hp
      rw [Function.update_self, List.mem_append, List.mem_singleton] at hc
      exact hc.imp id fun hsize => ⟨rfl, hsize⟩
    · rw [Function.update_of_ne hp] at hc
      by_cases hsize : p = size
      · rw [hsize, Function.update_self] at hc
        cases hc
      · rw [Function.update_of_ne hsize] at hc
        exact Or.inl hc
  refine ⟨?_, ?_, ?_⟩
  · intro p c hc
    rcases hmem hc with hc | ⟨rfl, rfl⟩
    · have hbounds := forest.bounds hc
      omega
    · omega
  · intro p
    by_cases hp : p = parent
    · subst hp
      rw [Function.update_self, List.nodup_append]
      refine ⟨forest.nodup p, List.pairwise_singleton _ _, ?_⟩
      intro c hc d hd heq
      rw [List.mem_singleton] at hd
      exact hfresh p (hd ▸ heq ▸ hc)
    · rw [Function.update_of_ne hp]
      by_cases hsize : p = size
      · rw [hsize, Function.update_self]
        exact List.nodup_nil
      · rw [Function.update_of_ne hsize]
        exact forest.nodup p
  · intro p q c hp hq
    rcases hmem hp with hp | ⟨hp, hsize⟩
    · rcases hmem hq with hq | ⟨-, hsize⟩
      · exact forest.parent_unique hp hq
      · exact absurd (hsize ▸ hp) (hfresh p)
    · rcases hmem hq with hq | ⟨hq, -⟩
      · exact absurd (hsize ▸ hq) (hfresh q)
      · rw [hp, hq]

end Forest

end FaultInjection
