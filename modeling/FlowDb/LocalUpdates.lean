import Mathlib

/-! Updates that change what is read at keys of their own only. With keys apart they commute, so a
list of them may be made in any order. -/
namespace LocalUpdates
variable {State Key Value Item : Type} {read : State → Key → Value}

/-- Elsewhere the update changes nothing, and what it leaves at a key depends on what was there. -/
structure Local (read : State → Key → Value) (own : Set Key) (update : State → State) : Prop where
  frame : ∀ s, ∀ k ∉ own, read (update s) k = read s k
  congr : ∀ s t k, read s k = read t k → read (update s) k = read (update t) k

theorem Local.comm {own own' : Set Key} {f g : State → State} (extensional : Function.Injective read) (first : Local read own f)
    (second : Local read own' g) (apart : Disjoint own own') (s : State) : g (f s) = f (g s) := by
  refine extensional (funext fun k => ?_)
  by_cases inside : k ∈ own
  · have outside : k ∉ own' := Set.disjoint_left.mp apart inside
    rw [second.frame _ k outside]
    exact (first.congr _ _ k (second.frame s k outside)).symm
  · rw [first.frame _ k inside]
    exact second.congr _ _ k (first.frame s k inside)

theorem foldl_perm (own : Item → Set Key) (update : Item → State → State) {items items' : List Item}
    (extensional : Function.Injective read) (perm : items.Perm items') (each : ∀ x ∈ items, Local read (own x) (update x))
    (apart : ∀ x ∈ items, ∀ y ∈ items, x ≠ y → Disjoint (own x) (own y)) (s : State) :
    items.foldl (fun s x => update x s) s = items'.foldl (fun s x => update x s) s := by
  refine perm.foldl_eq' (fun x inside y inside' s => ?_) s
  by_cases same : x = y
  · rw [same]
  · exact (each x inside).comm extensional (each y inside') (apart x inside y inside' same) s

end LocalUpdates
