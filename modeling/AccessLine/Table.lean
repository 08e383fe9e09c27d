/-!
# Tables

Values under names. A table is what it answers for each name, so two tables that answer alike are
equal.
-/
namespace AccessLine

universe u

@[ext] structure Table (α : Type u) where
  get? : String → Option α

namespace Table

variable {α : Type u} {t : Table α} {m n : String} {v : α}

instance : EmptyCollection (Table α) := ⟨⟨fun _ => none⟩⟩

/-- Puts a value under a name in place of any other. -/
def insert (t : Table α) (name : String) (value : α) : Table α :=
  ⟨fun n => if n = name then some value else t.get? n⟩

/-- Lets a name have a value or none. -/
def put (t : Table α) (name : String) (value? : Option α) : Table α :=
  ⟨fun n => if n = name then value? else t.get? n⟩

def contains (t : Table α) (name : String) : Bool :=
  (t.get? name).isSome

@[simp] theorem get?_empty : (∅ : Table α).get? n = none := rfl

theorem get?_insert : (t.insert m v).get? n = if n = m then some v else t.get? n := rfl

@[simp] theorem get?_insert_self : (t.insert n v).get? n = some v := by
  simp [get?_insert]

theorem get?_insert_of_ne (h : n ≠ m) : (t.insert m v).get? n = t.get? n := by
  simp [get?_insert, h]

theorem contains_insert : (t.insert m v).contains n = (decide (n = m) || t.contains n) := by
  by_cases h : n = m <;> simp [contains, get?_insert, h]

theorem contains_insert_of_ne (h : n ≠ m) : (t.insert m v).contains n = t.contains n := by
  simp [contains_insert, h]

section Put
variable {v? w? : Option α}

theorem insert_eq_put : t.insert n v = t.put n (some v) := rfl

@[simp] theorem get?_put_self : (t.put n v?).get? n = v? := by
  simp [put]

theorem get?_put_of_ne (h : n ≠ m) : (t.put m v?).get? n = t.get? n := by
  simp [put, h]

@[simp] theorem put_get? : t.put n (t.get? n) = t := by
  ext1
  funext k
  by_cases h : k = n <;> simp [put, h]

theorem put_comm (h : m ≠ n) : (t.put m v?).put n w? = (t.put n w?).put m v? := by
  ext1
  funext k
  by_cases hm : k = m
  · have hn : k ≠ n := fun e => h (hm ▸ e)
    simp [put, hm, h]
  · simp [put, hm]

end Put

end Table

end AccessLine
