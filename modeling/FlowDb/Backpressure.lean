import FlowDb.CheckedReads
import FlowDb.IoFailures

/-! The loop at the front of `process_batch_group`: while the frozen tables are as many as the
configuration allows, a flush takes one of them away. A flush that freezes the active table puts
one in its place, but leaves an active table that the next flush does not freeze. -/
namespace FlowDb.Backpressure
open ByteString CheckedReads Records MemoryTables EngineOps IoFailures

section
variable (compressedLen : Bytes → Nat) (faults : Nat → Option FlushFault) (times : Nat → Int)

/-- A turn of the loop, from the number of flushes so far: `?` leaves it with the error of a flush. -/
def backlogTurn : Nat × Engine → Checked (Turn (Nat × Engine) (Option FlushFault × Engine)) := fun (calls, e) =>
  if e.memtables.frozenBackpressure then
    match tryFlush compressedLen e (faults calls) (times calls) with
    | (none, e) => .ok (.again (calls + 1, e))
    | (some fault, e) => .ok (.leave (some fault, e))
  else .ok (.leave (none, e))

def drainBacklog (e : Engine) (turns : Nat) : Checked (Option FlushFault × Engine) :=
  loop (backlogTurn compressedLen faults times) turns (0, e)

end

/-- The flushes that the tables in memory may still take: one for each frozen table, and one
more for an active table with records. -/
def flushesLeft (m : MemTables) : Nat := m.frozen.length + if m.active.records = [] then 0 else 1

variable {compressedLen : Bytes → Nat} {faults : Nat → Option FlushFault} {times : Nat → Int}

/-- What a flush leaves of the tables in memory, whether it writes, fails or finds expired records only. -/
theorem tryFlush_memtables (e : Engine) (fault : Option FlushFault) (nowUs : Int) {frozen : MemTable} {memtables : MemTables}
    (popped : e.memtables.freeze.popFrozen = some (frozen, memtables)) :
    (tryFlush compressedLen e fault nowUs).2.memtables = memtables := by
  rw [tryFlush, popped]
  dsimp only
  split_ifs with nothing
  · rfl
  · cases fault with
    | none => simp [Engine.doFlush, popped, nothing]
    | some fault => rfl

/-- Freezing leaves no records in the active table, and then every flush left has a table of its own. -/
theorem freeze_tables (m : MemTables) :
    m.freeze.active.records = [] ∧ m.freeze.frozen.length = flushesLeft m ∧ m.freeze.maxFrozen = m.maxFrozen := by
  by_cases empty : m.active.records = []
  · simp [MemTables.freeze, flushesLeft, empty]
  · simp [MemTables.freeze, flushesLeft, empty, MemTable.new]

theorem popped_tables {m memtables : MemTables} {frozen : MemTable} (popped : m.popFrozen = some (frozen, memtables)) :
    m.frozen = frozen :: memtables.frozen ∧ memtables.active = m.active ∧ memtables.maxFrozen = m.maxFrozen := by
  rw [MemTables.popFrozen] at popped
  cases held : m.frozen with
  | nil =>
    rw [held] at popped
    cases popped
  | cons first rest =>
    rw [held] at popped
    obtain ⟨rfl, rfl⟩ := Prod.mk.inj (Option.some.inj popped)
    exact ⟨rfl, rfl, rfl⟩

/-- A flush that pops a table brings the end of the loop nearer and leaves the bound on the tables. -/
theorem popped_fewer {m memtables : MemTables} {frozen : MemTable} (popped : m.freeze.popFrozen = some (frozen, memtables)) :
    flushesLeft memtables < flushesLeft m ∧ memtables.maxFrozen = m.maxFrozen := by
  obtain ⟨emptied, tables, bound⟩ := freeze_tables m
  obtain ⟨held, active, same⟩ := popped_tables popped
  refine ⟨?_, same.trans bound⟩
  have alone : flushesLeft memtables = memtables.frozen.length := by
    rw [flushesLeft, active, if_pos emptied, Nat.add_zero]
  rw [alone, ← tables, held, List.length_cons]
  exact Nat.lt_succ_self _

/-- Under backpressure there is a table to pop. -/
theorem pops_under_pressure {m : MemTables} (valid : 1 ≤ m.maxFrozen) (pressure : m.frozenBackpressure = true) :
    ∃ frozen memtables, m.freeze.popFrozen = some (frozen, memtables) := by
  have many : m.maxFrozen ≤ m.frozen.length := of_decide_eq_true pressure
  have some_left : 0 < m.freeze.frozen.length := by
    rw [(freeze_tables m).2.1, flushesLeft]
    omega
  obtain ⟨first, rest, held⟩ := List.exists_cons_of_length_pos some_left
  exact ⟨first, { m.freeze with frozen := rest }, by rw [MemTables.popFrozen, held]⟩

/-- A flush under backpressure, whatever it returns. -/
theorem tryFlush_fewer {e : Engine} (valid : 1 ≤ e.memtables.maxFrozen) (pressure : e.memtables.frozenBackpressure = true)
    (fault : Option FlushFault) (nowUs : Int) :
    flushesLeft (tryFlush compressedLen e fault nowUs).2.memtables < flushesLeft e.memtables ∧
      1 ≤ (tryFlush compressedLen e fault nowUs).2.memtables.maxFrozen := by
  obtain ⟨frozen, memtables, popped⟩ := pops_under_pressure valid pressure
  obtain ⟨fewer, same⟩ := popped_fewer popped
  rw [tryFlush_memtables e fault nowUs popped]
  exact ⟨fewer, same ▸ valid⟩

theorem drainBacklog_released {fuel : Nat} {e : Engine} (valid : 1 ≤ e.memtables.maxFrozen)
    (enough : flushesLeft e.memtables < fuel) (nowUs : Int) :
    (e.drainBacklog compressedLen nowUs fuel).memtables.frozenBackpressure = false := by
  induction fuel generalizing e with
  | zero => omega
  | succ fuel ih =>
    rw [Engine.drainBacklog]
    split_ifs with pressure
    · obtain ⟨fewer, kept⟩ := @tryFlush_fewer compressedLen _ valid pressure none nowUs
      rw [tryFlush_none] at fewer kept
      exact ih kept (Nat.lt_of_lt_of_le fewer (Nat.lt_succ_iff.mp enough))
    · exact Bool.eq_false_of_not_eq_true pressure

/-- The turns that `Engine.processBatchGroup` gives its loop are enough. -/
theorem backlog_released {e : Engine} (valid : 1 ≤ e.memtables.maxFrozen) (nowUs : Int) :
    (e.drainBacklog compressedLen nowUs (e.memtables.frozen.length + 2)).memtables.frozenBackpressure = false := by
  refine drainBacklog_released valid ?_ nowUs
  rw [flushesLeft]
  split_ifs <;> omega

section
variable (compressedLen faults times) (e : Engine)

/-- The engine behind so many flushes. -/
def afterFlushes : Nat → Engine
  | 0 => e
  | n + 1 => (tryFlush compressedLen (afterFlushes n) (faults n) (times n)).2

/-- The loop would flush once more. -/
def Pressed (n : Nat) : Prop := (afterFlushes compressedLen faults times e n).memtables.frozenBackpressure = true

end

variable {e : Engine}

theorem flushesLeft_bound (valid : 1 ≤ e.memtables.maxFrozen) (n : Nat) (pressed : ∀ i < n, Pressed compressedLen faults times e i) :
    1 ≤ (afterFlushes compressedLen faults times e n).memtables.maxFrozen ∧
      flushesLeft (afterFlushes compressedLen faults times e n).memtables + n ≤ flushesLeft e.memtables := by
  induction n with
  | zero => exact ⟨valid, le_refl _⟩
  | succ n ih =>
    obtain ⟨kept, bound⟩ := ih fun i before => pressed i (Nat.lt_succ_of_lt before)
    obtain ⟨fewer, kept'⟩ := @tryFlush_fewer compressedLen _ kept (pressed n (Nat.lt_succ_self n)) (faults n) (times n)
    rw [afterFlushes]
    exact ⟨kept', by omega⟩

theorem pressure_ends (compressedLen : Bytes → Nat) (faults : Nat → Option FlushFault) (times : Nat → Int)
    (valid : 1 ≤ e.memtables.maxFrozen) : ∃ n ≤ flushesLeft e.memtables,
      (∀ i < n, Pressed compressedLen faults times e i) ∧ ¬Pressed compressedLen faults times e n := by
  by_contra endless
  push Not at endless
  have pressed : ∀ n ≤ flushesLeft e.memtables, Pressed compressedLen faults times e n := by
    intro n
    induction n using Nat.strong_induction_on with
    | _ n ih => exact fun within => endless n within fun i before => ih i before (before.le.trans within)
  obtain ⟨kept, bound⟩ := flushesLeft_bound valid _ fun i before => pressed i before.le
  have fewer := (@tryFlush_fewer compressedLen _ kept (pressed _ (le_refl _)) none 0).1
  omega

/-- A turn at the state behind as many flushes as the loop has made. -/
theorem backlogTurn_again {calls : Nat} (pressed : Pressed compressedLen faults times e calls)
    (passed : (tryFlush compressedLen (afterFlushes compressedLen faults times e calls) (faults calls) (times calls)).1 = none) :
    backlogTurn compressedLen faults times (calls, afterFlushes compressedLen faults times e calls) =
      .ok (.again (calls + 1, afterFlushes compressedLen faults times e (calls + 1))) := by
  have full : (afterFlushes compressedLen faults times e calls).memtables.frozenBackpressure = true := pressed
  rw [backlogTurn, if_pos full, afterFlushes]
  cases outcome : tryFlush compressedLen (afterFlushes compressedLen faults times e calls) (faults calls) (times calls) with
  | mk error after =>
    rw [outcome] at passed
    obtain rfl : error = none := passed
    rfl

/-- While its flushes return Ok, the loop makes at most one for each table there is, and the
backpressure is gone behind them. -/
theorem backpressure_ends (compressedLen : Bytes → Nat) (faults : Nat → Option FlushFault) (times : Nat → Int) (e : Engine)
    (valid : 1 ≤ e.memtables.maxFrozen)
    (succeeds : ∀ n, (∀ i ≤ n, Pressed compressedLen faults times e i) →
      (tryFlush compressedLen (afterFlushes compressedLen faults times e n) (faults n) (times n)).1 = none) :
    ∃ n ≤ flushesLeft e.memtables, (∀ i < n, Pressed compressedLen faults times e i) ∧
      (afterFlushes compressedLen faults times e n).memtables.frozenBackpressure = false ∧
        ∀ turns > n, drainBacklog compressedLen faults times e turns = .ok (none, afterFlushes compressedLen faults times e n) := by
  obtain ⟨n, within, pressed, gone⟩ := pressure_ends compressedLen faults times valid
  refine ⟨n, within, pressed, Bool.eq_false_of_not_eq_true gone, fun turns enough => ?_⟩
  have step : ∀ state : Nat × Engine, state.1 ≤ n ∧ state.2 = afterFlushes compressedLen faults times e state.1 →
      (∃ result, backlogTurn compressedLen faults times state = .ok (.leave result) ∧
        result = (none, afterFlushes compressedLen faults times e n)) ∨
      ∃ next, backlogTurn compressedLen faults times state = .ok (.again next) ∧
        (next.1 ≤ n ∧ next.2 = afterFlushes compressedLen faults times e next.1) ∧ n - next.1 < n - state.1 := by
    rintro ⟨calls, engine⟩ ⟨before, same⟩
    obtain rfl : engine = afterFlushes compressedLen faults times e calls := same
    rcases before.lt_or_eq with earlier | rfl
    · have passed := succeeds calls fun i upTo => pressed i (upTo.trans_lt earlier)
      exact Or.inr ⟨_, backlogTurn_again (pressed calls earlier) passed, ⟨earlier, rfl⟩,
        Nat.sub_lt_sub_left earlier (Nat.lt_succ_self _)⟩
    · exact Or.inl ⟨_, if_neg gone, rfl⟩
  have start : n - (0, e).1 < turns := enough
  obtain ⟨result, ends, rfl⟩ := loop_ends step ⟨Nat.zero_le n, rfl⟩ start
  exact ends

/-! A table is frozen at the bound, and the active table holds one record more: of the two
flushes the first freezes it, and the second finds it expired. -/

def pressedEngine : Engine :=
  let record (key : UInt8) (expireAt seq : Nat) : InternalRecord :=
    { InternalRecord.fromRecord (.new [key] 1 [2]) seq with expireAt := expireAt }
  let m := ((MemTables.new 1 1024).insert (record 107 100 1)).freeze.insert (record 108 5 2)
  { Engine.open {} [] ⟨[]⟩ ∅ with memtables := m }

theorem backpressure_ends_expired : 1 ≤ pressedEngine.memtables.maxFrozen ∧
    ∃ n ≤ 2, (∀ i < n, Pressed List.length (fun _ => none) (fun _ => 6) pressedEngine i) ∧
      (afterFlushes List.length (fun _ => none) (fun _ => 6) pressedEngine n).memtables.frozenBackpressure = false ∧
        ∀ turns > n, drainBacklog List.length (fun _ => none) (fun _ => 6) pressedEngine turns =
          .ok (none, afterFlushes List.length (fun _ => none) (fun _ => 6) pressedEngine n) :=
  ⟨by decide, backpressure_ends List.length (fun _ => none) (fun _ => 6) pressedEngine (by decide)
    fun n _ => by rw [tryFlush_none]⟩

end FlowDb.Backpressure
