import FlowDb.ByteString

/-! Programs that read slices by position and stop where they leave one. A sum or a product that
a machine word cannot hold and an array of another length than asked for stop them too, and so
does a loop that uses up its turns. -/
namespace CheckedReads
open ByteString

inductive Fault where
  | outOfBounds
  | overflow
  | conversion
  | unfinished
  deriving DecidableEq, Repr

abbrev Checked := Except Fault

section
variable {α β : Type}

@[simp] theorem ok_bind (a : α) (f : α → Checked β) : (Except.ok a >>= f : Checked β) = f a := rfl

theorem bind_ok_iff {x : Checked α} {f : α → Checked β} {b : β} : x >>= f = .ok b ↔ ∃ a, x = .ok a ∧ f a = .ok b := by
  cases x with
  | error fault => exact iff_of_false nofun fun ⟨_, other, _⟩ => nomatch other
  | ok a =>
    constructor
    · exact fun passed => ⟨a, rfl, passed⟩
    · rintro ⟨_, same, passed⟩
      cases same
      exact passed

/-- Addition on 64 bits. -/
def add (a b : Nat) : Checked Nat := if a + b < 2 ^ 64 then .ok (a + b) else .error .overflow

/-- Multiplication on 64 bits. -/
def mul (a b : Nat) : Checked Nat := if a * b < 2 ^ 64 then .ok (a * b) else .error .overflow

/-- The same with a sign. -/
def mulSigned (a b : Int) : Checked Int := if -2 ^ 63 ≤ a * b ∧ a * b < 2 ^ 63 then .ok (a * b) else .error .overflow

/-- `data[start..stop]` -/
def range (data : List α) (start stop : Nat) : Checked (List α) :=
  if start ≤ stop ∧ stop ≤ data.length then .ok ((data.drop start).take (stop - start)) else .error .outOfBounds

/-- `data[i]` -/
def item (data : List α) (i : Nat) : Checked α :=
  match data[i]? with
  | some x => .ok x
  | none => .error .outOfBounds

/-- A slice as an array of a width. -/
def array (width : Nat) (chunk : List α) : Checked (List α) :=
  if chunk.length = width then .ok chunk else .error .conversion

/-- No slice is longer than the largest signed number of 64 bits. -/
def Addressable (data : List α) : Prop := data.length < 2 ^ 63

theorem add_eq {a b : Nat} (fits : a + b < 2 ^ 64) : add a b = .ok (a + b) := if_pos fits

/-- What passes a check is what was checked. -/
theorem checked_iff {p : Prop} [Decidable p] {fault : Fault} {a n : α} :
    (if p then .ok a else .error fault : Checked α) = .ok n ↔ p ∧ n = a := by
  split_ifs with passed
  · exact ⟨fun same => ⟨passed, (Except.ok.inj same).symm⟩, fun ⟨_, same⟩ => congrArg Except.ok same.symm⟩
  · exact iff_of_false nofun fun same => passed same.1

theorem add_ok_iff {a b n : Nat} : add a b = .ok n ↔ a + b < 2 ^ 64 ∧ n = a + b := checked_iff

theorem mul_ok_iff {a b n : Nat} : mul a b = .ok n ↔ a * b < 2 ^ 64 ∧ n = a * b := checked_iff

theorem mulSigned_eq {a b : Int} (above : -2 ^ 63 ≤ a * b) (below : a * b < 2 ^ 63) : mulSigned a b = .ok (a * b) :=
  if_pos ⟨above, below⟩

theorem range_eq {data : List α} {start stop : Nat} (forwards : start ≤ stop) (inside : stop ≤ data.length) :
    range data start stop = .ok ((data.drop start).take (stop - start)) := if_pos ⟨forwards, inside⟩

theorem range_zero {data : List α} {stop : Nat} (inside : stop ≤ data.length) : range data 0 stop = .ok (data.take stop) := by
  rw [range_eq (Nat.zero_le _) inside, List.drop_zero, Nat.sub_zero]

theorem range_rest {data : List α} {start : Nat} (inside : start ≤ data.length) :
    range data start data.length = .ok (data.drop start) := by
  rw [range_eq inside (le_refl _), List.take_of_length_le (by rw [List.length_drop])]

/-- A read of a guarded range. -/
theorem range_read {data : List α} {pos n : Nat} (inside : pos + n ≤ data.length) (read : List α → Checked β) :
    (range data pos (pos + n) >>= read) = read ((data.drop pos).take n) := by
  rw [range_eq (by omega) inside, ok_bind, Nat.add_sub_cancel_left]

theorem item_eq {data : List α} {i : Nat} (inside : i < data.length) : item data i = .ok data[i] := by
  rw [item, List.getElem?_eq_getElem inside]

theorem array_eq {chunk : List α} {width : Nat} (same : chunk.length = width) : array width chunk = .ok chunk := if_pos same

theorem take_drop_length {data : List α} {pos n : Nat} (inside : pos + n ≤ data.length) :
    ((data.drop pos).take n).length = n := by
  rw [List.length_take, List.length_drop]
  omega

end

/-! ### Guarded reads -/

theorem takeBytes_drop {data : Bytes} {pos n : Nat} (inside : pos ≤ data.length) : takeBytes n (data.drop pos) =
    if pos + n ≤ data.length then some ((data.drop pos).take n, data.drop (pos + n)) else none := by
  rw [takeBytes, List.length_drop, List.drop_drop]
  split_ifs
  · omega
  · rfl
  · rfl
  · omega

/-- A position that is compared with the end before it is used reads what the front of the rest holds. -/
theorem guarded {α : Type} {data : Bytes} {pos n : Nat} (inside : pos ≤ data.length) (fits : pos + n < 2 ^ 64)
    {next : Nat → Checked (Option α)} {taken : Bytes × Bytes → Option α}
    (agree : pos + n ≤ data.length → next (pos + n) = .ok (taken ((data.drop pos).take n, data.drop (pos + n)))) :
    (add pos n >>= fun stop => if stop > data.length then .ok none else next stop) =
      .ok ((takeBytes n (data.drop pos)).bind taken) := by
  rw [add_eq fits, ok_bind, takeBytes_drop inside]
  by_cases room : pos + n ≤ data.length
  · rw [if_neg (by omega), if_pos room, agree room, Option.bind_some]
  · rw [if_pos (by omega), if_neg room, Option.bind_none]

/-! ### Loops -/

/-- A turn of a loop goes round again or leaves it. -/
inductive Turn (σ β : Type) where
  | again (state : σ)
  | leave (result : β)
  deriving DecidableEq, Repr

section
variable {σ β : Type} (turn : σ → Checked (Turn σ β))

def loop : Nat → σ → Checked β
  | 0, _ => .error .unfinished
  | turns + 1, state => do
      match ← turn state with
      | .again state => loop turns state
      | .leave result => .ok result

variable {turn}

/-- A loop whose turns stop nowhere and leave less behind them ends in what its last turn establishes. -/
theorem loop_ends {inv : σ → Prop} {left : σ → Nat} {post : β → Prop}
    (step : ∀ state, inv state → (∃ result, turn state = .ok (.leave result) ∧ post result) ∨
      ∃ next, turn state = .ok (.again next) ∧ inv next ∧ left next < left state)
    {turns : Nat} {state : σ} (holds : inv state) (enough : left state < turns) :
    ∃ result, loop turn turns state = .ok result ∧ post result := by
  induction turns generalizing state with
  | zero => omega
  | succ turns ih =>
    rcases step state holds with ⟨result, leaves, established⟩ | ⟨next, again, kept, fewer⟩
    · exact ⟨result, by rw [loop, leaves, ok_bind], established⟩
    · obtain ⟨result, ends, established⟩ := ih kept (by omega)
      exact ⟨result, by rw [loop, again, ok_bind, ← ends], established⟩

variable (turn)

/-- A turn stops nowhere, leaves the loop with its result, or goes round again with less left. -/
structure Progress (inv : σ → Prop) (left : σ → Nat) (result : σ → β) : Prop where
  step : ∀ state, inv state → turn state = .ok (.leave (result state)) ∨
    ∃ next, turn state = .ok (.again next) ∧ inv next ∧ left next < left state ∧ result next = result state

variable {turn}

/-- Such a loop comes to its result, with any turns beyond those that are left. -/
theorem loop_eq {inv : σ → Prop} {left : σ → Nat} {result : σ → β} (progress : Progress turn inv left result)
    {turns : Nat} {state : σ} (holds : inv state) (enough : left state < turns) : loop turn turns state = .ok (result state) := by
  obtain ⟨found, ends, rfl⟩ := @loop_ends σ β turn (fun s => inv s ∧ result s = result state) left (· = result state)
    (fun s ⟨kept, same⟩ => (progress.step s kept).imp (fun leaves => ⟨_, leaves, same⟩)
      fun ⟨next, again, later, fewer, unchanged⟩ => ⟨next, again, ⟨later, unchanged.trans same⟩, fewer⟩)
    turns state ⟨holds, rfl⟩ enough
  exact ends

end

end CheckedReads
