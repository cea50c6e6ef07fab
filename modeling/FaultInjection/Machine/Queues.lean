import Mathlib.Data.List.Basic
import Mathlib.Logic.Function.Basic

/-!
# Queues under keys

A family of queues keeps items under keys, each queue in the order of arrival.  It is the
same as one row of items in which the first item with a key is the front of its queue.
-/

namespace FaultInjection

namespace Machine

variable {κ α β : Type} [DecidableEq κ] {key : α → κ} {value : α → β} {row : List α}
  {queues : κ → List β}

/-- The queues keep the values of the items in a row, each queue those with its key. -/
def Queued (key : α → κ) (value : α → β) (row : List α) (queues : κ → List β) : Prop :=
  ∀ k, queues k = (row.filter fun item => key item = k).map value

/-- Put a value into the queue of a key. -/
def push (queues : κ → List β) (k : κ) (item : β) : κ → List β :=
  Function.update queues k (queues k ++ [item])

/-- Take the front from the queue of a key. -/
def pop (queues : κ → List β) (k : κ) : κ → List β :=
  Function.update queues k ((queues k).drop 1)

/-- The values that leave when the queues of some keys are popped one after the other. -/
def popped (queues : κ → List β) : List κ → List β
  | [] => []
  | k :: keys => (queues k).take 1 ++ popped (pop queues k) keys

theorem length_push (queues : κ → List β) (k k' : κ) (item : β) :
    (push queues k item k').length = (queues k').length + if k' = k then 1 else 0 := by
  rw [push]
  by_cases hkey : k' = k
  · subst hkey
    rw [Function.update_self, List.length_append, List.length_singleton, if_pos rfl]
  · rw [Function.update_of_ne hkey, if_neg hkey, Nat.add_zero]

theorem length_pop {queues : κ → List β} {k : κ} {item : β} {rest : List β}
    (hfront : queues k = item :: rest) (k' : κ) :
    (queues k').length = (pop queues k k').length + if k' = k then 1 else 0 := by
  rw [pop]
  by_cases hkey : k' = k
  · subst hkey
    rw [Function.update_self, hfront, if_pos rfl]
    rfl
  · rw [Function.update_of_ne hkey, if_neg hkey, Nat.add_zero]

theorem mem_push {k k' : κ} {item other : β} (hmem : other ∈ push queues k item k') :
    other ∈ queues k' ∨ other = item := by
  rw [push] at hmem
  by_cases hkey : k' = k
  · subst hkey
    rw [Function.update_self, List.mem_append, List.mem_singleton] at hmem
    exact hmem
  · rw [Function.update_of_ne hkey] at hmem
    exact Or.inl hmem

theorem mem_pop {k k' : κ} {other : β} (hmem : other ∈ pop queues k k') : other ∈ queues k' := by
  rw [pop] at hmem
  by_cases hkey : k' = k
  · subst hkey
    rw [Function.update_self] at hmem
    exact List.mem_of_mem_drop hmem
  · rwa [Function.update_of_ne hkey] at hmem

namespace Queued

theorem nil : Queued key value [] fun _ => [] := fun _ => rfl

theorem push (queued : Queued key value row queues) (item : α) :
    Queued key value (row ++ [item]) (push queues (key item) (value item)) := by
  intro k
  rw [Machine.push, List.filter_append, List.map_append, ← queued k]
  by_cases hkey : k = key item
  · subst hkey
    rw [Function.update_self, List.filter_cons, if_pos (decide_eq_true rfl)]
    rfl
  · rw [Function.update_of_ne hkey, List.filter_cons,
      if_neg (fun heq => hkey (of_decide_eq_true heq).symm)]
    exact (List.append_nil _).symm

/-- The front of a queue is the first item in the row with its key. -/
theorem exists_front (queued : Queued key value row queues) {k : κ} {front : β} {rest : List β}
    (hfront : queues k = front :: rest) :
    ∃ before item after, row = before ++ item :: after ∧ key item = k ∧ value item = front ∧
      Queued key value (before ++ after) (pop queues k) := by
  have hrow := (queued k).symm.trans hfront
  obtain ⟨item, items, hfilter, hvalue, hitems⟩ := List.map_eq_cons_iff.mp hrow
  obtain ⟨before, after, rfl, hbefore, hitem, hafter⟩ := List.filter_eq_cons_iff.mp hfilter
  have hkey : key item = k := of_decide_eq_true hitem
  have hnone : before.filter (fun other => key other = k) = [] :=
    List.filter_eq_nil_iff.mpr hbefore
  refine ⟨before, item, after, rfl, hkey, hvalue, fun k' => ?_⟩
  rw [pop]
  by_cases hsame : k' = k
  · subst hsame
    rw [Function.update_self, hfront, List.filter_append, hnone, hafter, List.nil_append, hitems]
    rfl
  · have hother : (item :: after).filter (fun other => key other = k') =
        after.filter fun other => key other = k' := by
      rw [List.filter_cons, if_neg]
      exact fun heq => hsame ((of_decide_eq_true heq).symm.trans hkey)
    rw [Function.update_of_ne hsame, queued k', List.filter_append, hother, ← List.filter_append]

end Queued

end Machine

end FaultInjection
