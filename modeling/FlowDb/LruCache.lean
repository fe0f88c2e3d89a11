import Mathlib.Data.List.Nodup
import Mathlib.Order.Basic

/-! A least-recently-used cache of bounded size: the entry used last is in front, and
an entry that does not fit pushes out the one at the back. -/
namespace LruCache
variable {κ ν : Type} [DecidableEq κ]

/-- The entry under `k` in front of all others. -/
def promoted (k : κ) (v : ν) (entries : List (κ × ν)) : List (κ × ν) :=
  (k, v) :: entries.filter fun e => decide (e.1 ≠ k)

theorem promoted_distinct (k : κ) (v : ν) {entries : List (κ × ν)} (distinct : (entries.map Prod.fst).Nodup) :
    ((promoted k v entries).map Prod.fst).Nodup := by
  rw [promoted, List.map_cons, List.nodup_cons]
  refine ⟨fun member => ?_, distinct.sublist (List.filter_sublist.map Prod.fst)⟩
  obtain ⟨e, inside, same⟩ := List.mem_map.mp member
  exact of_decide_eq_true (List.mem_filter.mp inside).2 same

structure Lru (κ ν : Type) where
  capacity : Nat
  entries : List (κ × ν)
  distinct : (entries.map Prod.fst).Nodup
  bounded : entries.length ≤ capacity

namespace Lru

def new (capacity : Nat) : Lru κ ν := ⟨capacity, [], .nil, Nat.zero_le _⟩

-- A key that is there already gives its place up, so then nothing is pushed out.
def front (c : Lru κ ν) (k : κ) (v : ν) : Lru κ ν :=
  { c with
    entries := (promoted k v c.entries).take c.capacity
    distinct := (promoted_distinct k v c.distinct).sublist ((List.take_sublist _ _).map Prod.fst)
    bounded := List.length_take_le _ _ }

def get (c : Lru κ ν) (k : κ) : Option ν × Lru κ ν :=
  match c.entries.find? fun e => decide (e.1 = k) with
  | some e => (some e.2, c.front k e.2)
  | none => (none, c)

def put (c : Lru κ ν) (k : κ) (v : ν) : Lru κ ν := c.front k v

def pop (c : Lru κ ν) (k : κ) : Lru κ ν :=
  { c with
    entries := c.entries.filter fun e => decide (e.1 ≠ k)
    distinct := c.distinct.sublist (List.filter_sublist.map Prod.fst)
    bounded := Nat.le_trans (List.length_filter_le _ _) c.bounded }

theorem mem_put {c : Lru κ ν} {k : κ} {v : ν} {e : κ × ν} (member : e ∈ (c.put k v).entries) :
    e = (k, v) ∨ e ∈ c.entries := by
  rcases List.mem_cons.mp (List.mem_of_mem_take member) with new | old
  · exact Or.inl new
  · exact Or.inr (List.mem_of_mem_filter old)

/-- A lookup returns an entry of the cache, and leaves no others behind. -/
theorem get_spec (c : Lru κ ν) (k : κ) :
    (∀ v, (c.get k).1 = some v → (k, v) ∈ c.entries) ∧ ∀ e ∈ (c.get k).2.entries, e ∈ c.entries := by
  cases held : c.entries.find? fun e => decide (e.1 = k) with
  | none =>
    simp only [get, held]
    exact ⟨nofun, fun e member => member⟩
  | some found =>
    have member := List.mem_of_find?_eq_some held
    have same : found.1 = k := by simpa using List.find?_some held
    subst same
    simp only [get, held]
    refine ⟨fun v here => Option.some.inj here ▸ member, fun e inside => ?_⟩
    rcases mem_put inside with rfl | old
    · exact member
    · exact old

theorem mem_pop (c : Lru κ ν) (k : κ) (e : κ × ν) : e ∈ (c.pop k).entries ↔ e ∈ c.entries ∧ e.1 ≠ k := by
  simp [pop]

theorem mem_pops (ks : List κ) (c : Lru κ ν) (e : κ × ν) : e ∈ (ks.foldl pop c).entries ↔ e ∈ c.entries ∧ e.1 ∉ ks := by
  induction ks generalizing c with
  | nil => simp
  | cons k rest ih => rw [List.foldl_cons, ih, mem_pop, List.mem_cons, not_or, and_assoc]

end Lru

end LruCache
