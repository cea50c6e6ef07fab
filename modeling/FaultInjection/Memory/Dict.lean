import Mathlib.Data.List.Basic

/-!
# Dictionaries

Association lists that keep the order in which keys were first set, as Python
dictionaries do.
-/

namespace FaultInjection

/-- A dictionary in insertion order. -/
abbrev Dict (κ α : Type) := List (κ × α)

namespace Dict

variable {κ α : Type} [DecidableEq κ]

/-- `d.get(key)` -/
def get? (d : Dict κ α) (key : κ) : Option α := d.lookup key

/-- `d[key] = value` -/
def set : Dict κ α → κ → α → Dict κ α
  | [], key, value => [(key, value)]
  | (k, v) :: rest, key, value =>
      if k = key then (k, value) :: rest else (k, v) :: set rest key value

/-- `d.keys()` -/
def keys (d : Dict κ α) : List κ := d.map Prod.fst

/-- Append to the list stored under a key, an empty one at first. -/
def push (d : Dict κ (List α)) (key : κ) (value : α) : Dict κ (List α) :=
  d.set key ((d.get? key).getD [] ++ [value])

@[simp]
theorem get?_nil (key : κ) : get? ([] : Dict κ α) key = none := rfl

theorem get?_cons (k : κ) (v : α) (rest : Dict κ α) (key : κ) :
    get? ((k, v) :: rest) key = if key = k then some v else get? rest key := by
  rw [get?, List.lookup_cons]
  by_cases hkey : key = k
  · simp [hkey]
  · simp [hkey, beq_false_of_ne hkey, get?]

theorem get?_set (d : Dict κ α) (key other : κ) (value : α) :
    (d.set key value).get? other =
      if other = key then some value else d.get? other := by
  induction d with
  | nil => simp only [set, get?_cons]
  | cons entry rest ih =>
      obtain ⟨k, v⟩ := entry
      rw [set]
      by_cases hk : k = key
      · subst hk
        rw [if_pos rfl, get?_cons, get?_cons]
        by_cases hother : other = k
        · rw [if_pos hother, if_pos hother]
        · rw [if_neg hother, if_neg hother, if_neg hother]
      · rw [if_neg hk, get?_cons, get?_cons, ih]
        by_cases hother : other = k
        · subst hother
          rw [if_pos rfl, if_neg hk, if_pos rfl]
        · rw [if_neg hother, if_neg hother]

theorem mem_keys_iff {d : Dict κ α} {key : κ} :
    key ∈ d.keys ↔ ∃ value, d.get? key = some value := by
  induction d with
  | nil => simp [keys]
  | cons entry rest ih =>
      obtain ⟨k, v⟩ := entry
      rw [keys, List.map_cons, List.mem_cons, ← keys, ih, get?_cons]
      by_cases hkey : key = k
      · simp [hkey]
      · simp [hkey]

theorem keys_set_of_mem {d : Dict κ α} {key : κ} (hkey : key ∈ d.keys)
    (value : α) : (d.set key value).keys = d.keys := by
  induction d with
  | nil => cases hkey
  | cons entry rest ih =>
      obtain ⟨k, v⟩ := entry
      rw [set]
      by_cases hk : k = key
      · rw [if_pos hk]
        rfl
      · rw [if_neg hk]
        rw [keys, List.map_cons, List.mem_cons] at hkey
        rcases hkey with hkey | hkey
        · exact absurd hkey.symm hk
        · exact congrArg (k :: ·) (ih hkey)

theorem keys_set_of_not_mem {d : Dict κ α} {key : κ} (hkey : key ∉ d.keys)
    (value : α) : (d.set key value).keys = d.keys ++ [key] := by
  induction d with
  | nil => rfl
  | cons entry rest ih =>
      obtain ⟨k, v⟩ := entry
      rw [keys, List.map_cons, List.mem_cons, not_or] at hkey
      rw [set, if_neg (fun heq => hkey.1 heq.symm)]
      exact congrArg (k :: ·) (ih hkey.2)

theorem nodup_keys_set {d : Dict κ α} (hnodup : d.keys.Nodup) (key : κ)
    (value : α) : (d.set key value).keys.Nodup := by
  by_cases hkey : key ∈ d.keys
  · rwa [keys_set_of_mem hkey]
  · rw [keys_set_of_not_mem hkey, List.nodup_append]
    refine ⟨hnodup, List.pairwise_singleton _ _, ?_⟩
    intro k hk k' hk' heq
    rw [List.mem_singleton] at hk'
    exact hkey (hk' ▸ heq ▸ hk)

theorem mem_of_get? {d : Dict κ α} {key : κ} {value : α} (hget : d.get? key = some value) :
    (key, value) ∈ d := by
  induction d with
  | nil => cases hget
  | cons entry rest ih =>
      obtain ⟨k, v⟩ := entry
      rw [get?_cons] at hget
      split at hget
      · rename_i hkey
        cases hget
        exact hkey ▸ .head _
      · exact .tail _ (ih hget)

theorem mem_iff_get? {d : Dict κ α} (hnodup : d.keys.Nodup) {key : κ} {value : α} :
    (key, value) ∈ d ↔ d.get? key = some value := by
  induction d with
  | nil => simp
  | cons entry rest ih =>
      obtain ⟨k, v⟩ := entry
      rw [keys, List.map_cons, List.nodup_cons] at hnodup
      rw [List.mem_cons, get?_cons, ih hnodup.2, Prod.mk.injEq]
      by_cases hkey : key = k
      · subst hkey
        have hnone : ∀ value, ¬ get? rest key = some value := by
          intro value hvalue
          exact hnodup.1 (mem_keys_iff.mpr ⟨value, hvalue⟩)
        simp [hnone, eq_comm]
      · simp [hkey]

end Dict

end FaultInjection
