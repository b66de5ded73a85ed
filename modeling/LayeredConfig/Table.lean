/-!
# Tables

A table has an entry under each number; almost all of them are the default entry. Tables are equal
if all their entries are, and the same numbers have been entered.
-/

namespace LayeredConfig

/-- The entry under each number, and a bound above which no number has been entered. -/
structure Table (α : Type) where
  get : Nat → α
  fresh : Nat

namespace Table

variable {α : Type}

/-- The table of default entries. -/
def empty [Inhabited α] : Table α := ⟨fun _ => default, 0⟩

instance [Inhabited α] : Inhabited (Table α) := ⟨empty⟩

/-- Replaces the entry under a number. -/
def replace (t : Table α) (i : Nat) (a : α) : Table α :=
  { t with get := fun j => if i = j then a else t.get j }

/-- Replaces the entry under a number, which has been entered from now on. -/
def set (t : Table α) (i : Nat) (a : α) : Table α :=
  { t.replace i a with fresh := max t.fresh (i + 1) }

@[simp] theorem replace_get (t : Table α) (i : Nat) : t.replace i (t.get i) = t := by
  have h : (fun j => if i = j then t.get i else t.get j) = t.get := by
    funext j
    by_cases hij : i = j <;> simp [hij]
  simp [replace, h]

end Table

end LayeredConfig
