import Mathlib.Data.List.Nodup
import Mathlib.Data.List.Perm.Basic

/-! A table of keyed values read through writes that are still pending: entries are
replaced or dropped where a write is pending, and pending entries that the table does
not have are added. Nothing here depends on what the keys or the values are. -/
namespace Overlay
variable {κ ν : Type}

/-- No two entries have one key. -/
def Keyed {μ : Type} (entries : List (κ × μ)) : Prop := entries.Pairwise fun a b => a.1 ≠ b.1

theorem Keyed.nodup {μ : Type} {entries : List (κ × μ)} (keyed : Keyed entries) : entries.Nodup :=
  keyed.imp fun apart same => apart (congrArg Prod.fst same)

theorem Keyed.perm {μ : Type} {entries other : List (κ × μ)} (keyed : Keyed entries) (perm : other.Perm entries) :
    Keyed other :=
  (perm.symm.pairwise_iff fun apart same => apart same.symm).mp keyed

section
variable (pending : κ → Option (Option ν)) (known : κ → Bool)

/-- What is seen of an entry of the table. -/
def seen (e : κ × ν) : Option (κ × ν) := ((pending e.1).getD (some e.2)).map fun v => (e.1, v)

/-- What a pending write adds to the table. -/
def fresh (w : κ × Option ν) : Option (κ × ν) := (w.2.filter fun _ => !known w.1).map fun v => (w.1, v)

variable {pending known}

theorem seen_eq_some_iff {e : κ × ν} {k : κ} {v : ν} : seen pending e = some (k, v) ↔
    e.1 = k ∧ (pending k = some (some v) ∨ pending k = none ∧ e.2 = v) := by
  obtain ⟨key, value⟩ := e
  simp only [seen, Option.map_eq_some_iff, Prod.mk.injEq]
  constructor
  · rintro ⟨w, held, rfl, rfl⟩
    refine ⟨rfl, ?_⟩
    cases shape : pending key with
    | none => exact Or.inr ⟨rfl, Option.some.inj (by simpa [shape] using held)⟩
    | some o => exact Or.inl (by simpa [shape] using held)
  · rintro ⟨rfl, written | ⟨absent, rfl⟩⟩
    · exact ⟨v, by simp [written], rfl, rfl⟩
    · exact ⟨_, by simp [absent], rfl, rfl⟩

theorem fresh_eq_some_iff {w : κ × Option ν} {k : κ} {v : ν} : fresh known w = some (k, v) ↔
    w = (k, some v) ∧ known k = false := by
  obtain ⟨key, o⟩ := w
  simp only [fresh, Option.map_eq_some_iff, Option.filter_eq_some_iff, Prod.mk.injEq, Bool.not_eq_true']
  constructor
  · rintro ⟨x, ⟨held, unknown⟩, rfl, rfl⟩
    exact ⟨⟨rfl, held⟩, unknown⟩
  · rintro ⟨⟨rfl, held⟩, unknown⟩
    exact ⟨v, ⟨held, unknown⟩, rfl, rfl⟩

theorem seen_keyed {base : List (κ × ν)} (keyed : Keyed base) : Keyed (base.filterMap (seen pending)) := by
  refine List.Pairwise.filterMap _ (fun a b apart x held y other => ?_) keyed
  rw [← (seen_eq_some_iff.mp held).1, ← (seen_eq_some_iff.mp other).1]
  exact apart

theorem fresh_keyed {writes : List (κ × Option ν)} (keyed : Keyed writes) : Keyed (writes.filterMap (fresh known)) := by
  refine List.Pairwise.filterMap _ (fun a b apart x held y other => ?_) keyed
  rw [(fresh_eq_some_iff.mp held).1, (fresh_eq_some_iff.mp other).1] at apart
  exact apart

/-- The table read through the pending writes has the entries of the table they lead to. -/
theorem overlay_perm {base final : List (κ × ν)} {writes : List (κ × Option ν)} (baseKeyed : Keyed base)
    (finalKeyed : Keyed final) (writesKeyed : Keyed writes) (buffered : ∀ k o, (k, o) ∈ writes ↔ pending k = some o)
    (knows : ∀ k, known k = true ↔ ∃ v, (k, v) ∈ base)
    (holds : ∀ k v, (k, v) ∈ final ↔ pending k = some (some v) ∨ pending k = none ∧ (k, v) ∈ base) :
    (base.filterMap (seen pending) ++ writes.filterMap (fresh known)).Perm final := by
  have distinct : (base.filterMap (seen pending) ++ writes.filterMap (fresh known)).Nodup := by
    refine List.nodup_append'.mpr ⟨(seen_keyed baseKeyed).nodup, (fresh_keyed writesKeyed).nodup, ?_⟩
    rintro ⟨k, v⟩ first second
    obtain ⟨⟨key, value⟩, inside, shown⟩ := List.mem_filterMap.mp first
    obtain ⟨w, _, added⟩ := List.mem_filterMap.mp second
    obtain rfl := (seen_eq_some_iff.mp shown).1
    have unknown := (fresh_eq_some_iff.mp added).2
    rw [(knows _).mpr ⟨value, inside⟩] at unknown
    cases unknown
  refine (List.perm_ext_iff_of_nodup distinct finalKeyed.nodup).mpr ?_
  rintro ⟨k, v⟩
  rw [List.mem_append, List.mem_filterMap, List.mem_filterMap, holds]
  constructor
  · rintro (⟨⟨key, value⟩, inside, shown⟩ | ⟨w, inside, added⟩)
    · obtain ⟨rfl, written | ⟨absent, rfl⟩⟩ := seen_eq_some_iff.mp shown
      · exact Or.inl written
      · exact Or.inr ⟨absent, inside⟩
    · obtain ⟨rfl, _⟩ := fresh_eq_some_iff.mp added
      exact Or.inl ((buffered k _).mp inside)
  · rintro (written | ⟨absent, inside⟩)
    · cases there : known k with
      | true =>
        obtain ⟨value, inside⟩ := (knows k).mp there
        exact Or.inl ⟨_, inside, seen_eq_some_iff.mpr ⟨rfl, Or.inl written⟩⟩
      | false => exact Or.inr ⟨_, (buffered k _).mpr written, fresh_eq_some_iff.mpr ⟨rfl, there⟩⟩
    · exact Or.inl ⟨_, inside, seen_eq_some_iff.mpr ⟨rfl, Or.inr ⟨absent, rfl⟩⟩⟩

end
end Overlay
