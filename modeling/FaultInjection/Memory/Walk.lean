import FaultInjection.Memory.Forest

/-!
# Walks that remember names

A walk over a forest goes through a row of pending nodes.  A node whose name has
been met is passed; any other node is entered first, its children are walked in
reverse order, and the node is left after them.  `met` lists the nodes in the
order in which the walk first meets them and `left` the order in which it leaves
them.
-/

namespace FaultInjection

variable {ν : Type}

inductive Walk (children : Nat → List Nat) (name : Nat → ν) :
    List Nat → List ν → List Nat → List Nat → List ν → Prop where
  | done (names : List ν) : Walk children name [] names [] [] names
  | pass {node : Nat} {rest : List Nat} {names names' : List ν}
      {met left : List Nat} (known : name node ∈ names)
      (walk : Walk children name rest names met left names') :
      Walk children name (node :: rest) names (node :: met) (node :: left) names'
  | enter {node : Nat} {rest : List Nat} {names names₁ names₂ : List ν}
      {met₁ met₂ left₁ left₂ : List Nat} (fresh : name node ∉ names)
      (below : Walk children name (children node).reverse (name node :: names)
        met₁ left₁ names₁)
      (walk : Walk children name rest names₁ met₂ left₂ names₂) :
      Walk children name (node :: rest) names (node :: (met₁ ++ met₂))
        (left₁ ++ node :: left₂) names₂

theorem Forest.exists_walk {children : Nat → List Nat} {size : Nat}
    (forest : Forest children size) [DecidableEq ν] (name : Nat → ν) (pending : List Nat)
    (names : List ν) :
    ∃ met left names', Walk children name pending names met left names' := by
  have hnode : ∀ node : Nat, ∀ names : List ν, name node ∉ names →
      ∃ met left names', Walk children name (children node).reverse
        (name node :: names) met left names' := by
    intro node
    induction node using forest.leaf_induction with
    | step node ih =>
        intro names _
        have hrow : ∀ row : List Nat, (∀ c ∈ row, c ∈ children node) →
            ∀ names : List ν, ∃ met left names',
              Walk children name row names met left names' := by
          intro row
          induction row with
          | nil => exact fun _ names => ⟨[], [], names, .done names⟩
          | cons c row ihRow =>
              intro hrow names
              by_cases hknown : name c ∈ names
              · obtain ⟨met, left, names', hwalk⟩ :=
                  ihRow (fun d hd => hrow d (.tail _ hd)) names
                exact ⟨_, _, _, .pass hknown hwalk⟩
              · obtain ⟨met₁, left₁, names₁, hbelow⟩ :=
                  ih c (hrow c (.head _)) names hknown
                obtain ⟨met, left, names', hwalk⟩ :=
                  ihRow (fun d hd => hrow d (.tail _ hd)) names₁
                exact ⟨_, _, _, .enter hknown hbelow hwalk⟩
        exact hrow _ (fun c hc => List.mem_reverse.mp hc) _
  induction pending generalizing names with
  | nil => exact ⟨[], [], names, .done names⟩
  | cons node rest ih =>
      by_cases hknown : name node ∈ names
      · obtain ⟨met, left, names', hwalk⟩ := ih names
        exact ⟨_, _, _, .pass hknown hwalk⟩
      · obtain ⟨met₁, left₁, names₁, hbelow⟩ := hnode node names hknown
        obtain ⟨met, left, names', hwalk⟩ := ih names₁
        exact ⟨_, _, _, .enter hknown hbelow hwalk⟩

namespace Walk

variable {children : Nat → List Nat} {name : Nat → ν} {size : Nat}
  {pending : List Nat} {names names' : List ν} {met left : List Nat}

theorem unique (walk : Walk children name pending names met left names')
    {met' left' : List Nat} {names'' : List ν}
    (other : Walk children name pending names met' left' names'') :
    met' = met ∧ left' = left ∧ names'' = names' := by
  induction walk generalizing met' left' names'' with
  | done => cases other; exact ⟨rfl, rfl, rfl⟩
  | pass known _ ih =>
      cases other with
      | pass _ rest =>
          obtain ⟨rfl, rfl, rfl⟩ := ih rest
          exact ⟨rfl, rfl, rfl⟩
      | enter fresh => exact absurd known fresh
  | enter fresh _ _ ih₁ ih₂ =>
      cases other with
      | pass known => exact absurd known fresh
      | enter _ below rest =>
          obtain ⟨rfl, rfl, rfl⟩ := ih₁ below
          obtain ⟨rfl, rfl, rfl⟩ := ih₂ rest
          exact ⟨rfl, rfl, rfl⟩

theorem left_perm (walk : Walk children name pending names met left names') :
    left.Perm met := by
  induction walk with
  | done => exact .refl _
  | pass _ _ ih => exact ih.cons _
  | @enter node rest names names₁ names₂ met₁ met₂ left₁ left₂ _ _ _ ih₁ ih₂ =>
      exact List.perm_middle.trans ((ih₁.append ih₂).cons node)

/-- The names after a walk are those before it and those of the nodes met. -/
theorem mem_names (walk : Walk children name pending names met left names')
    (label : ν) : label ∈ names' ↔ label ∈ names ∨ label ∈ met.map name := by
  induction walk with
  | done => simp
  | @pass node rest names names' met left known _ ih =>
      rw [ih, List.map_cons, List.mem_cons]
      constructor
      · rintro (hold | hmet)
        · exact Or.inl hold
        · exact Or.inr (Or.inr hmet)
      · rintro (hold | rfl | hmet)
        · exact Or.inl hold
        · exact Or.inl known
        · exact Or.inr hmet
  | enter _ _ _ ih₁ ih₂ =>
      rw [ih₂, ih₁, List.mem_cons, List.map_cons, List.map_append, List.mem_cons,
        List.mem_append]
      tauto

theorem pending_or_below (walk : Walk children name pending names met left names')
    {node : Nat} (hmet : node ∈ met) :
    node ∈ pending ∨ ∃ top ∈ pending, Forest.Below children top node := by
  induction walk with
  | done => cases hmet
  | @pass top rest names names' met left _ _ ih =>
      rcases List.mem_cons.mp hmet with rfl | hmet
      · exact Or.inl (.head _)
      · rcases ih hmet with hpending | ⟨above, habove, hbelow⟩
        · exact Or.inl (.tail _ hpending)
        · exact Or.inr ⟨above, .tail _ habove, hbelow⟩
  | @enter top rest names names₁ names₂ met₁ met₂ left₁ left₂ _ _ _ ih₁ ih₂ =>
      rcases List.mem_cons.mp hmet with rfl | hmet
      · exact Or.inl (.head _)
      · rcases List.mem_append.mp hmet with hmet | hmet
        · rcases ih₁ hmet with hchild | ⟨above, habove, hbelow⟩
          · exact Or.inr ⟨top, .head _,
              Forest.below_of_child (List.mem_reverse.mp hchild)⟩
          · exact Or.inr ⟨top, .head _,
              .head (List.mem_reverse.mp habove) hbelow⟩
        · rcases ih₂ hmet with hpending | ⟨above, habove, hbelow⟩
          · exact Or.inl (.tail _ hpending)
          · exact Or.inr ⟨above, .tail _ habove, hbelow⟩

theorem met_of_pending (walk : Walk children name pending names met left names')
    {node : Nat} (hpending : node ∈ pending) : node ∈ met := by
  induction walk with
  | done => cases hpending
  | pass _ _ ih =>
      rcases List.mem_cons.mp hpending with rfl | hpending
      · exact .head _
      · exact .tail _ (ih hpending)
  | enter _ _ _ _ ih₂ =>
      rcases List.mem_cons.mp hpending with rfl | hpending
      · exact .head _
      · exact .tail _ (List.mem_append_right _ (ih₂ hpending))

theorem exists_met_cons {node : Nat} {rest : List Nat}
    (walk : Walk children name (node :: rest) names met left names') :
    ∃ met', met = node :: met' := by
  cases walk with
  | pass _ _ => exact ⟨_, rfl⟩
  | enter _ _ _ => exact ⟨_, rfl⟩

/-- A node met for the first name of its kind has its children met. -/
theorem children_met (walk : Walk children name pending names met left names')
    {before after : List Nat} {node : Nat} (hmet : met = before ++ node :: after)
    (hnames : name node ∉ names) (hbefore : name node ∉ before.map name) :
    ∀ c ∈ children node, c ∈ met := by
  induction walk generalizing before after with
  | done => simp at hmet
  | @pass top rest names names' met left known _ ih =>
      cases before with
      | nil =>
          rw [List.nil_append, List.cons.injEq] at hmet
          exact absurd (hmet.1 ▸ known) hnames
      | cons first before =>
          rw [List.cons_append, List.cons.injEq] at hmet
          rw [List.map_cons, List.mem_cons, not_or] at hbefore
          exact fun c hc => .tail _ (ih hmet.2 hnames hbefore.2 c hc)
  | @enter top rest names names₁ names₂ met₁ met₂ left₁ left₂ fresh below walk ih₁ ih₂ =>
      cases before with
      | nil =>
          rw [List.nil_append, List.cons.injEq] at hmet
          obtain ⟨rfl, -⟩ := hmet
          exact fun c hc => .tail _ (List.mem_append_left _
            (below.met_of_pending (List.mem_reverse.mpr hc)))
      | cons first before =>
          rw [List.cons_append, List.cons.injEq] at hmet
          obtain ⟨rfl, hmet⟩ := hmet
          rw [List.map_cons, List.mem_cons, not_or] at hbefore
          rcases List.append_eq_append_iff.mp hmet with
            ⟨more, rfl, hmet₂⟩ | ⟨more, rfl, hmet₁⟩
          · -- the node is met after everything below `top`
            rw [List.map_append, List.mem_append, not_or] at hbefore
            have hnames₁ : name node ∉ names₁ := by
              rw [below.mem_names, List.mem_cons]
              rintro ((htop | hold) | hbelow)
              · exact hbefore.1 htop
              · exact hnames hold
              · exact hbefore.2.1 hbelow
            exact fun c hc => .tail _ (List.mem_append_right _
              (ih₂ hmet₂ hnames₁ hbefore.2.2 c hc))
          · cases more with
            | nil =>
                rw [List.nil_append] at hmet₁
                rw [List.append_nil] at below ih₁
                have hnames₁ : name node ∉ names₁ := by
                  rw [below.mem_names, List.mem_cons]
                  rintro ((htop | hold) | hbelow)
                  · exact hbefore.1 htop
                  · exact hnames hold
                  · exact hbefore.2 hbelow
                exact fun c hc => .tail _ (List.mem_append_right _
                  (@ih₂ [] _ hmet₁.symm hnames₁ List.not_mem_nil c hc))
            | cons head more =>
                rw [List.cons_append, List.cons.injEq] at hmet₁
                obtain ⟨rfl, -⟩ := hmet₁
                have hfresh : name node ∉ name top :: names := by
                  rw [List.mem_cons, not_or]
                  exact ⟨hbefore.1, hnames⟩
                exact fun c hc => .tail _ (List.mem_append_left _
                  (ih₁ rfl hfresh hbefore.2 c hc))

/-- A node met is pending, or its parent was met for the first name of its kind. -/
theorem met_parent (walk : Walk children name pending names met left names')
    {c : Nat} (hmet : c ∈ met) :
    c ∈ pending ∨ ∃ before p after, met = before ++ p :: after ∧ c ∈ children p ∧
      name p ∉ names ∧ name p ∉ before.map name := by
  induction walk with
  | done => cases hmet
  | @pass top rest names names' met left known _ ih =>
      rcases List.mem_cons.mp hmet with rfl | hmet
      · exact Or.inl (.head _)
      · rcases ih hmet with hpending | ⟨before, p, after, rfl, hc, hnames, hbefore⟩
        · exact Or.inl (.tail _ hpending)
        · refine Or.inr ⟨top :: before, p, after, rfl, hc, hnames, ?_⟩
          rw [List.map_cons, List.mem_cons, not_or]
          exact ⟨fun heq => hnames (heq ▸ known), hbefore⟩
  | @enter top rest names names₁ names₂ met₁ met₂ left₁ left₂ fresh below _ ih₁ ih₂ =>
      rcases List.mem_cons.mp hmet with rfl | hmet
      · exact Or.inl (.head _)
      · rcases List.mem_append.mp hmet with hmet | hmet
        · rcases ih₁ hmet with hchild | ⟨before, p, after, rfl, hc, hnames, hbefore⟩
          · exact Or.inr ⟨[], top, met₁ ++ met₂, rfl, List.mem_reverse.mp hchild,
              fresh, by simp⟩
          · rw [List.mem_cons, not_or] at hnames
            refine Or.inr ⟨top :: before, p, after ++ met₂, by simp, hc, hnames.2, ?_⟩
            rw [List.map_cons, List.mem_cons, not_or]
            exact ⟨hnames.1, hbefore⟩
        · rcases ih₂ hmet with hpending | ⟨before, p, after, rfl, hc, hnames, hbefore⟩
          · exact Or.inl (.tail _ hpending)
          · rw [below.mem_names, List.mem_cons, not_or, not_or] at hnames
            refine Or.inr ⟨top :: (met₁ ++ before), p, after, by simp, hc,
              hnames.1.2, ?_⟩
            rw [List.map_cons, List.mem_cons, not_or, List.map_append,
              List.mem_append, not_or]
            exact ⟨hnames.1.1, hnames.2, hbefore⟩

/-- Rows of nodes of which none is repeated or lies below another. -/
def Apart (children : Nat → List Nat) (row : List Nat) : Prop :=
  row.Nodup ∧ ∀ a ∈ row, ∀ b ∈ row, ¬ Forest.Below children a b

theorem apart_children (forest : Forest children size) (node : Nat) :
    Apart children (children node).reverse := by
  refine ⟨List.nodup_reverse.mpr (forest.nodup node), fun a ha b hb => ?_⟩
  exact forest.not_below_sibling (List.mem_reverse.mp ha) (List.mem_reverse.mp hb)

theorem Apart.tail {node : Nat} {rest : List Nat}
    (apart : Apart children (node :: rest)) : Apart children rest :=
  ⟨(List.nodup_cons.mp apart.1).2,
    fun a ha b hb => apart.2 a (.tail _ ha) b (.tail _ hb)⟩

/-- What a walk meets through the later nodes of a row is neither the first
node nor below it. -/
theorem apart_of_met (forest : Forest children size) {node : Nat} {rest : List Nat}
    (apart : Apart children (node :: rest))
    (walk : Walk children name rest names met left names') {other : Nat}
    (hmet : other ∈ met) :
    other ≠ node ∧ ¬ Forest.Below children node other ∧
      ¬ Forest.Below children other node := by
  have hnode : node ∉ rest := (List.nodup_cons.mp apart.1).1
  rcases walk.pending_or_below hmet with hpending | ⟨top, htop, hbelow⟩
  · refine ⟨fun heq => hnode (heq ▸ hpending), ?_, ?_⟩
    · exact apart.2 node (.head _) other (.tail _ hpending)
    · exact apart.2 other (.tail _ hpending) node (.head _)
  · have htopNode := apart.2 top (.tail _ htop) node (.head _)
    refine ⟨fun heq => htopNode (heq ▸ hbelow), ?_, ?_⟩
    · intro hnodeBelow
      rcases forest.below_comparable hbelow hnodeBelow with heq | habove | habove
      · exact hnode (heq ▸ htop)
      · exact htopNode habove
      · exact apart.2 node (.head _) top (.tail _ htop) habove
    · exact fun habove => htopNode (hbelow.trans habove)

theorem met_nodup (forest : Forest children size) (apart : Apart children pending)
    (walk : Walk children name pending names met left names') : met.Nodup := by
  induction walk with
  | done => exact List.nodup_nil
  | @pass node rest names names' met left _ walk ih =>
      refine List.nodup_cons.mpr ⟨fun hmet => ?_, ih apart.tail⟩
      exact (apart_of_met forest apart walk hmet).1 rfl
  | @enter node rest names names₁ names₂ met₁ met₂ left₁ left₂ _ below walk ih₁ ih₂ =>
      have hbelow : ∀ other ∈ met₁, Forest.Below children node other := by
        intro other hmet
        rcases below.pending_or_below hmet with hchild | ⟨top, htop, hbelow⟩
        · exact Forest.below_of_child (List.mem_reverse.mp hchild)
        · exact .head (List.mem_reverse.mp htop) hbelow
      refine List.nodup_cons.mpr ⟨fun hmet => ?_, ?_⟩
      · rcases List.mem_append.mp hmet with hmet | hmet
        · exact forest.not_below_self node (hbelow node hmet)
        · exact (apart_of_met forest apart walk hmet).1 rfl
      · rw [List.nodup_append]
        refine ⟨ih₁ (apart_children forest node), ih₂ apart.tail, ?_⟩
        rintro other hmet₁ _ hmet₂ rfl
        exact (apart_of_met forest apart walk hmet₂).2.1 (hbelow other hmet₁)

/-- A node is left after everything below it: no node left earlier lies above a
node left later. -/
theorem left_bottomUp (forest : Forest children size)
    (apart : Apart children pending)
    (walk : Walk children name pending names met left names') :
    left.Pairwise fun earlier later => ¬ Forest.Below children earlier later := by
  induction walk with
  | done => exact .nil
  | @pass node rest names names' met left _ walk ih =>
      refine List.pairwise_cons.mpr ⟨fun later hleft => ?_, ih apart.tail⟩
      exact (apart_of_met forest apart walk (walk.left_perm.mem_iff.mp hleft)).2.1
  | @enter node rest names names₁ names₂ met₁ met₂ left₁ left₂ _ below walk ih₁ ih₂ =>
      have hbelow : ∀ other ∈ left₁, Forest.Below children node other := by
        intro other hleft
        rcases below.pending_or_below (below.left_perm.mem_iff.mp hleft) with
          hchild | ⟨top, htop, hbelow⟩
        · exact Forest.below_of_child (List.mem_reverse.mp hchild)
        · exact .head (List.mem_reverse.mp htop) hbelow
      rw [List.pairwise_append]
      refine ⟨ih₁ (apart_children forest node), ?_, ?_⟩
      · refine List.pairwise_cons.mpr ⟨fun later hleft => ?_, ih₂ apart.tail⟩
        exact (apart_of_met forest apart walk (walk.left_perm.mem_iff.mp hleft)).2.1
      · intro earlier hearlier later hlater habove
        have hnode := hbelow earlier hearlier
        rcases List.mem_cons.mp hlater with rfl | hlater
        · exact forest.not_below_self _ (hnode.trans habove)
        · exact (apart_of_met forest apart walk
            (walk.left_perm.mem_iff.mp hlater)).2.1 (hnode.trans habove)

end Walk

end FaultInjection
