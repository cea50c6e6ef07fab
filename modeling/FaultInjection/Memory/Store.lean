import Mathlib.Logic.Function.Basic

/-!
# Stores of objects

Objects live in numbered cells.  New objects take the next free number, and a
write to one cell leaves every other cell alone.
-/

namespace FaultInjection

/-- A store with its cells and the number of the next free one. -/
structure Store (α : Type) where
  size : Nat
  cell : Nat → α

namespace Store

variable {α : Type}

/-- Put a new object into the next free cell. -/
def alloc (store : Store α) (object : α) : Store α :=
  ⟨store.size + 1, Function.update store.cell store.size object⟩

/-- Change the object in one cell. -/
def modify (store : Store α) (ref : Nat) (change : α → α) : Store α :=
  ⟨store.size, Function.update store.cell ref (change (store.cell ref))⟩

@[simp]
theorem alloc_size (store : Store α) (object : α) :
    (store.alloc object).size = store.size + 1 := rfl

@[simp]
theorem alloc_cell_new (store : Store α) (object : α) :
    (store.alloc object).cell store.size = object :=
  Function.update_self _ _ _

theorem alloc_cell_of_ne (store : Store α) (object : α) {ref : Nat}
    (hne : ref ≠ store.size) : (store.alloc object).cell ref = store.cell ref :=
  Function.update_of_ne hne _ _

theorem alloc_cell_of_lt (store : Store α) (object : α) {ref : Nat}
    (hlt : ref < store.size) : (store.alloc object).cell ref = store.cell ref :=
  store.alloc_cell_of_ne object (Nat.ne_of_lt hlt)

theorem alloc_first_cell (blank object : α) (ref : Nat) :
    ((⟨0, fun _ => blank⟩ : Store α).alloc object).cell ref =
      if ref = 0 then object else blank :=
  Function.update_apply _ _ _ _

@[simp]
theorem modify_size (store : Store α) (ref : Nat) (change : α → α) :
    (store.modify ref change).size = store.size := rfl

@[simp]
theorem modify_cell_self (store : Store α) (ref : Nat) (change : α → α) :
    (store.modify ref change).cell ref = change (store.cell ref) :=
  Function.update_self _ _ _

theorem modify_cell_of_ne (store : Store α) (change : α → α) {ref other : Nat}
    (hne : other ≠ ref) :
    (store.modify ref change).cell other = store.cell other :=
  Function.update_of_ne hne _ _

end Store

end FaultInjection
