import FlowDb.HeapMerge
import FlowDb.Scans

/-! The scan iterator call by call: its sources, its heap of their heads and the slot
seen last. One pass through the loop of `next` takes one record from a source; the
calls return, one after the other, what the merge of the sources yields. -/
namespace FlowDb.ScanSteps
open ByteString Records MemoryTables Reads Scans HeapMerge

def usizeMax : Nat := 2 ^ 64 - 1

structure MergeEntry where
  key : Bytes
  ts : Int
  seq : Nat
  source : Nat
  deriving DecidableEq

def ordCmp {α : Type} [LinearOrder α] (a b : α) : Ordering := cmp a b

/-- `MergeEntry::cmp`: the greatest entry has the least key and time and the largest number. -/
def mergeEntryCmp (self other : MergeEntry) : Ordering :=
  (ordCmp other.key self.key).then ((ordCmp other.ts self.ts).then (ordCmp self.seq other.seq))

def MergeEntry.of (r : InternalRecord) (source : Nat) : MergeEntry := ⟨r.key, r.ts, r.seq, source⟩

/-- The fields of `ScanIterator`. -/
structure ScanState where
  sources : List (List InternalRecord)
  heap : List MergeEntry
  tombstones : List (Bytes × Bytes)
  lastDedup : Option (Bytes ×ₗ Int)
  fastSource : Option Nat

/-- What one pass through the loop of `next` comes to. -/
inductive Turn where
  | finished
  | again (s : ScanState)
  | yielded (rec : Record) (s : ScanState)

section
variable (queue : MaxHeap mergeEntryCmp)

/-- The number under which a source has its entries in the heap. -/
def sourceId (memtablePresent : Bool) (i : Nat) : Nat := if memtablePresent ∧ i = 0 then usizeMax else i

def headEntry (memtablePresent : Bool) (i : Nat) (r : InternalRecord) : MergeEntry := .of r (sourceId memtablePresent i)

/-- The end of `ScanIterator::build`, with the choice of the fast path given. -/
def ScanState.setUp (sources : List (List InternalRecord)) (tombstones : List (Bytes × Bytes)) (memtablePresent fast : Bool) :
    ScanState :=
  { sources
    heap := if fast then [] else (heads (headEntry memtablePresent) 0 sources).foldl queue.push []
    tombstones
    lastDedup := none
    fastSource := if fast then some 0 else none }

def ScanState.start (sources : List (List InternalRecord)) (tombstones : List (Bytes × Bytes)) (memtablePresent : Bool) :
    ScanState :=
  .setUp queue sources tombstones memtablePresent (decide (sources.length = 1) && tombstones.isEmpty)

def ScanState.advanceSource (s : ScanState) (source : Nat) : Option InternalRecord × ScanState :=
  let idx := if source = usizeMax then 0 else source
  match s.sources[idx]? with
  | none => (none, s)
  | some [] => (none, s)
  | some (rec :: rest) =>
      let s := { s with sources := s.sources.set idx rest }
      match rest with
      | [] => (some rec, s)
      | following :: _ => (some rec, { s with heap := queue.push s.heap (.of following source) })

def ScanState.fastTurn (s : ScanState) (idx : Nat) : Turn :=
  match s.sources[idx]? with
  | none => .finished
  | some [] => .finished
  | some (rec :: rest) =>
      let s := { s with sources := s.sources.set idx rest }
      if rec.op = .delete ∨ rec.op = .deleteRange then .again { s with lastDedup := some rec.slot }
      else if s.lastDedup = some rec.slot then .again s
      else .yielded rec.toRecord { s with lastDedup := some rec.slot }

def ScanState.heapTurn (s : ScanState) : Turn :=
  match queue.pop s.heap with
  | none => .finished
  | some (entry, held) =>
      let dedupKey := toLex (entry.key, entry.ts)
      let advanced := { s with heap := held }.advanceSource queue entry.source
      if s.lastDedup = some dedupKey then .again advanced.2
      else
        match advanced with
        | (none, s) => .again s
        | (some rec, s) =>
            let s := { s with lastDedup := some dedupKey }
            if rec.op = .delete ∨ rec.op = .deleteRange then .again s
            else if isTombstoned s.tombstones rec then .again s
            else .yielded rec.toRecord s

def ScanState.turn (s : ScanState) : Turn :=
  match s.fastSource with
  | some idx => s.fastTurn idx
  | none => s.heapTurn queue

/-- What the loop can still take, counting a record twice as it passes through the heap. -/
def ScanState.work (s : ScanState) : Nat := 2 * (s.sources.map List.length).sum + s.heap.length

variable {queue}

theorem set_length {sources : List (List InternalRecord)} {idx : Nat} {rec : InternalRecord} {rest : List InternalRecord}
    (there : sources[idx]? = some (rec :: rest)) :
    ((sources.set idx rest).map List.length).sum + 1 = (sources.map List.length).sum := by
  induction sources generalizing idx with
  | nil => simp at there
  | cons source others ih =>
    cases idx with
    | zero =>
      obtain rfl : source = rec :: rest := by simpa using there
      simp
      omega
    | succ idx =>
      have inRest := ih there
      rw [List.set_cons_succ, List.map_cons, List.map_cons, List.sum_cons, List.sum_cons]
      omega

theorem advanceSource_work (s : ScanState) (source : Nat) : (s.advanceSource queue source).2.work ≤ s.work := by
  simp only [ScanState.advanceSource]
  split
  · exact le_refl _
  · exact le_refl _
  · rename_i rec rest there
    have taken := set_length there
    cases rest with
    | nil =>
      simp only [ScanState.work]
      omega
    | cons following more =>
      have pushed := (queue.push_perm s.heap (.of following source)).length_eq
      simp only [ScanState.work, pushed, List.length_cons]
      omega

theorem turn_work {s s' : ScanState} (again : s.turn queue = .again s') : s'.work < s.work := by
  unfold ScanState.turn at again
  split at again
  · rename_i idx _
    simp only [ScanState.fastTurn] at again
    split at again
    · cases again
    · cases again
    · rename_i rec rest there
      have taken := set_length there
      split_ifs at again <;> obtain rfl := Turn.again.inj again <;> simp only [ScanState.work] <;> omega
  · simp only [ScanState.heapTurn] at again
    split at again
    · cases again
    · rename_i entry held popped
      have shorter := (queue.pop_perm _ _ _ popped).length_eq
      have less : ({ s with heap := held }.advanceSource queue entry.source).2.work < s.work := by
        refine lt_of_le_of_lt (advanceSource_work _ _) ?_
        simp only [ScanState.work, shorter, List.length_cons]
        omega
      split_ifs at again
      · obtain rfl := Turn.again.inj again
        exact less
      · split at again
        · rename_i after same
          obtain rfl := Turn.again.inj again
          rwa [same] at less
        · rename_i rec after same
          rw [same] at less
          split_ifs at again <;> obtain rfl := Turn.again.inj again <;> exact less

/-- `ScanIterator::next`. -/
def ScanState.next (queue : MaxHeap mergeEntryCmp) (s : ScanState) : Option Record × ScanState :=
  match _ : s.turn queue with
  | .finished => (none, s)
  | .again s' => s'.next queue
  | .yielded rec s' => (some rec, s')
termination_by s.work
decreasing_by exact turn_work ‹_›

/-- What the call of this number returns. -/
def ScanState.answer (queue : MaxHeap mergeEntryCmp) : Nat → ScanState → Option Record
  | 0, s => (s.next queue).1
  | n + 1, s => ScanState.answer queue n (s.next queue).2

/-- The calls return these records in turn and nothing ever after. -/
def Emits (queue : MaxHeap mergeEntryCmp) (s : ScanState) (out : List Record) : Prop :=
  ∀ n, s.answer queue n = out[n]?

theorem next_eq (s : ScanState) : s.next queue = match s.turn queue with
    | .finished => (none, s)
    | .again s' => s'.next queue
    | .yielded rec s' => (some rec, s') := by
  rw [ScanState.next]
  split <;> rename_i same <;> simp only [same]

theorem emits_finished {s : ScanState} (pass : s.turn queue = .finished) : Emits queue s [] := by
  have stays : s.next queue = (none, s) := by rw [next_eq, pass]
  intro n
  induction n with
  | zero => rw [ScanState.answer, stays]; rfl
  | succ n ih => rw [ScanState.answer, stays]; exact ih

theorem emits_again {s s' : ScanState} {out : List Record} (pass : s.turn queue = .again s') (later : Emits queue s' out) :
    Emits queue s out := by
  have same : s.next queue = s'.next queue := by rw [next_eq s, pass]
  intro n
  rw [← later n]
  cases n <;> simp only [ScanState.answer, same]

theorem emits_yielded {s s' : ScanState} {rec : Record} {out : List Record} (pass : s.turn queue = .yielded rec s')
    (later : Emits queue s' out) : Emits queue s (rec :: out) := by
  have same : s.next queue = (some rec, s') := by rw [next_eq, pass]
  intro n
  cases n with
  | zero => rw [ScanState.answer, same]; rfl
  | succ n => rw [ScanState.answer, same]; exact later n

/-! ### The fast path -/

theorem fast_emits (source : List InternalRecord) (s : ScanState) (only : s.sources = [source])
    (fast : s.fastSource = some 0) : Emits queue s (fastLoop s.lastDedup source) := by
  have pass : s.turn queue = s.fastTurn 0 := by rw [ScanState.turn, fast]
  induction source generalizing s with
  | nil =>
    refine emits_finished (pass.trans ?_)
    simp [ScanState.fastTurn, only]
  | cons rec rest ih =>
    simp only [ScanState.fastTurn, only, List.getElem?_cons_zero, List.set_cons_zero] at pass
    simp only [fastLoop]
    split_ifs at pass ⊢ with deleted seen
    · exact emits_again pass (ih _ rfl fast (by rw [ScanState.turn, fast]))
    · exact emits_again pass (ih _ rfl fast (by rw [ScanState.turn, fast]))
    · exact emits_yielded pass (ih _ rfl fast (by rw [ScanState.turn, fast]))

/-! ### The heap -/

theorem sourceId_index {memtablePresent : Bool} {i : Nat} (bounded : i < usizeMax) :
    (if sourceId memtablePresent i = usizeMax then 0 else sourceId memtablePresent i) = i := by
  unfold sourceId
  split_ifs <;> simp_all

/-- The source a head came from gives that head, and its next record goes into the heap. -/
theorem advanceSource_eq {s : ScanState} {memtablePresent : Bool} {i : Nat} (bounded : i < usizeMax) {r : InternalRecord}
    {tail : List InternalRecord} (there : s.sources[i]? = some (r :: tail)) :
    ∃ heap : List MergeEntry, heap.Perm ((tail.head?.map (headEntry memtablePresent i)).toList ++ s.heap) ∧
      s.advanceSource queue (sourceId memtablePresent i) = (some r, { s with sources := s.sources.set i tail, heap }) := by
  simp only [ScanState.advanceSource, sourceId_index bounded, there]
  cases tail with
  | nil => exact ⟨s.heap, .refl _, rfl⟩
  | cons following rest => exact ⟨_, queue.push_perm s.heap (headEntry memtablePresent i following), rfl⟩

theorem ordCmp_cases {α : Type} [LinearOrder α] (a b : α) :
    ordCmp a b = .lt ∧ a < b ∨ ordCmp a b = .eq ∧ a = b ∨ ordCmp a b = .gt ∧ b < a := by
  rcases lt_trichotomy a b with less | same | greater
  · exact Or.inl ⟨(cmp_eq_lt_iff a b).mpr less, less⟩
  · exact Or.inr (Or.inl ⟨(cmp_eq_eq_iff a b).mpr same, same⟩)
  · exact Or.inr (Or.inr ⟨(cmp_eq_gt_iff a b).mpr greater, greater⟩)

def entryRank (e : MergeEntry) : (Bytes ×ₗ Int) ×ₗ Natᵒᵈ := toLex (toLex (e.key, e.ts), OrderDual.toDual e.seq)

/-- The greatest entries have the least rank, which is that of their record. -/
theorem mergeEntryCmp_iff (x r : MergeEntry) : mergeEntryCmp x r ≠ .gt ↔ entryRank r ≤ entryRank x := by
  simp only [mergeEntryCmp, entryRank, Prod.Lex.toLex_le_toLex, Prod.Lex.toLex_lt_toLex,
    OrderDual.toDual_le_toDual, EmbeddingLike.apply_eq_iff_eq, Prod.mk.injEq]
  rcases ordCmp_cases r.key x.key with ⟨first, less⟩ | ⟨first, same⟩ | ⟨first, greater⟩ <;> rw [first]
  · simp [less]
  · rcases ordCmp_cases r.ts x.ts with ⟨second, earlier⟩ | ⟨second, same'⟩ | ⟨second, later⟩ <;> rw [second]
    · simp [same, earlier]
    · rcases ordCmp_cases x.seq r.seq with ⟨third, older⟩ | ⟨third, same''⟩ | ⟨third, newer⟩ <;> rw [third]
      · simp [same, same', older.le]
      · simp [same, same', same'']
      · simp [same, same', newer]
    · simp [same, later.not_gt, later.ne']
  · simp [greater.not_gt, greater.ne']

/-- What is left of each of the first sources. -/
def remaining (n : Nat) (s : ScanState) : Fin n → List InternalRecord := fun i => (s.sources[i.val]?).getD []

/-- Between two passes the heap has the heads of the sources. -/
structure Merging (memtablePresent : Bool) (n : Nat) (s : ScanState) : Prop where
  held : s.heap.Perm (heads (headEntry memtablePresent) 0 s.sources)
  heaped : s.fastSource = none
  length : s.sources.length = n

/-- One pass takes a least head off its source, and shows it or passes over it. -/
theorem heapTurn_cases (queue : MaxHeap mergeEntryCmp) {memtablePresent : Bool} {n : Nat} (bounded : n ≤ usizeMax) {s : ScanState}
    (merging : Merging memtablePresent n s) :
    (s.turn queue = .finished ∧ ∀ i, remaining n s i = []) ∨
      ∃ (i : Fin n) (r : InternalRecord) (tail : List InternalRecord) (heap : List MergeEntry),
        let s' : ScanState := { s with sources := s.sources.set i tail, heap }
        remaining n s i = r :: tail ∧ Merge.Least versionRank (remaining n s) r ∧
        Merging memtablePresent n s' ∧ remaining n s' = Function.update (remaining n s) i tail ∧
        s.turn queue =
          if s.lastDedup = some r.slot then .again s'
          else if r.op = .delete ∨ r.op = .deleteRange then .again { s' with lastDedup := some r.slot }
          else if isTombstoned s.tombstones r then .again { s' with lastDedup := some r.slot }
          else .yielded r.toRecord { s' with lastDedup := some r.slot } := by
  have heaped : s.turn queue = s.heapTurn queue := by rw [ScanState.turn, merging.heaped]
  cases popped : queue.pop s.heap with
  | none =>
    left
    have empty : heads (headEntry memtablePresent) 0 s.sources = [] :=
      (queue.pop_empty _ popped ▸ merging.held).nil_eq.symm
    refine ⟨by rw [heaped, ScanState.heapTurn, popped], fun i => ?_⟩
    cases there : s.sources[i.val]? with
    | none => simp [remaining, there]
    | some source => simpa [remaining, there] using heads_empty empty source (List.mem_of_getElem? there)
  | some top =>
    right
    obtain ⟨entry, held⟩ := top
    have listed : entry ∈ heads (headEntry memtablePresent) 0 s.sources :=
      merging.held.subset ((queue.pop_perm _ _ _ popped).symm.subset List.mem_cons_self)
    obtain ⟨i, r, tail, there, rfl⟩ := mem_heads.mp listed
    rw [Nat.zero_add] at popped
    have inside : i < n := merging.length ▸ (List.getElem?_eq_some_iff.mp there).1
    obtain ⟨others, before, after⟩ := @heads_set _ _ (headEntry memtablePresent) 0 _ _ _ _ there
    rw [Nat.zero_add] at before after
    have rest : held.Perm others := ((queue.pop_perm _ _ _ popped).symm.trans (merging.held.trans before)).cons_inv
    obtain ⟨heap, pushed, advanced⟩ := @advanceSource_eq queue { s with heap := held } memtablePresent i
      (inside.trans_le bounded) r tail there
    refine ⟨⟨i, inside⟩, r, tail, heap, by simp [remaining, there], fun j h first => ?_,
      ⟨pushed.trans ((rest.append_left _).trans after.symm), merging.heaped, by simpa using merging.length⟩, ?_, ?_⟩
    · have front : ∃ back, s.sources[j.val]? = some (h :: back) := by
        cases other : s.sources[j.val]? with
        | none => simp [remaining, other] at first
        | some source =>
          simp only [remaining, other, Option.getD_some] at first
          obtain ⟨back, rfl⟩ := List.head?_eq_some_iff.mp first
          exact ⟨back, rfl⟩
      obtain ⟨back, other⟩ := front
      have inHeap := merging.held.symm.subset (mem_heads.mpr ⟨j.val, h, back, other, rfl⟩)
      exact (mergeEntryCmp_iff _ _).mp (queue.pop_greatest _ _ _ popped _ inHeap)
    · funext j
      by_cases here : j.val = i
      · obtain rfl : j = ⟨i, inside⟩ := Fin.ext here
        have room : i < s.sources.length := (List.getElem?_eq_some_iff.mp there).1
        simp [remaining, room]
      · have other : j ≠ ⟨i, inside⟩ := fun same => here (congrArg Fin.val same)
        rw [Function.update_of_ne other]
        simp [remaining, List.getElem?_set_ne (Ne.symm here)]
    · rw [heaped, ScanState.heapTurn, popped]
      simp only [headEntry, MergeEntry.of] at advanced ⊢
      rw [advanced]
      rfl

/-- The calls return what the loop makes of some merge of the sources. -/
theorem heap_emits (queue : MaxHeap mergeEntryCmp) {memtablePresent : Bool} {n : Nat} (bounded : n ≤ usizeMax) (s : ScanState)
    (merging : Merging memtablePresent n s) : ∃ popped, Merge.Run versionRank (remaining n s) popped ∧
      Emits queue s (heapLoop s.tombstones s.lastDedup (popped.map Prod.snd)) := by
  induction left : (s.sources.map List.length).sum using Nat.strong_induction_on generalizing s with
  | h left ih =>
  rcases heapTurn_cases queue bounded merging with ⟨finished, empty⟩ | ⟨i, r, tail, heap, front, least, later, rest, pass⟩
  · refine ⟨[], ?_, emits_finished finished⟩
    rw [Merge.Run, show remaining n s = fun _ => [] from funext empty]
    exact .refl _
  · have there : s.sources[i.val]? = some (r :: tail) := by
      cases held : s.sources[i.val]? with
      | none => simp [remaining, held] at front
      | some source => simpa [remaining, held] using front
    have fewer := set_length there
    -- Only the slot seen last differs between the passes.
    have go : ∀ seen, ∃ popped, Merge.Run versionRank (Function.update (remaining n s) i tail) popped ∧
        Emits queue { s with sources := s.sources.set i tail, heap, lastDedup := seen }
          (heapLoop s.tombstones seen (popped.map Prod.snd)) := by
      intro seen
      have := ih ((s.sources.set i tail).map List.length).sum (by omega) { s with sources := s.sources.set i tail, heap, lastDedup := seen }
        ⟨later.held, later.heaped, later.length⟩ rfl
      rwa [show remaining n { s with sources := s.sources.set i tail, heap, lastDedup := seen } = _ from rest] at this
    split_ifs at pass with seen deleted covered
    · obtain ⟨popped, run, emits⟩ := go s.lastDedup
      refine ⟨(i, r) :: popped, .pop _ i r tail _ _ front least run, ?_⟩
      rw [List.map_cons, heapLoop, if_pos seen]
      exact emits_again pass emits
    · obtain ⟨popped, run, emits⟩ := go (some r.slot)
      refine ⟨(i, r) :: popped, .pop _ i r tail _ _ front least run, ?_⟩
      rw [List.map_cons, heapLoop, if_neg seen, if_pos deleted]
      exact emits_again pass emits
    · obtain ⟨popped, run, emits⟩ := go (some r.slot)
      refine ⟨(i, r) :: popped, .pop _ i r tail _ _ front least run, ?_⟩
      rw [List.map_cons, heapLoop, if_neg seen, if_neg deleted, if_pos covered]
      exact emits_again pass emits
    · obtain ⟨popped, run, emits⟩ := go (some r.slot)
      refine ⟨(i, r) :: popped, .pop _ i r tail _ _ front least run, ?_⟩
      rw [List.map_cons, heapLoop, if_neg seen, if_neg deleted, if_neg covered]
      exact emits_yielded pass emits

theorem foldl_push (entries held : List MergeEntry) : (entries.foldl queue.push held).Perm (entries ++ held) := by
  induction entries generalizing held with
  | nil => exact .refl _
  | cons e rest ih => exact (ih _).trans (((queue.push_perm held e).append_left rest).trans List.perm_middle)

variable {sources : List (List InternalRecord)}

section
variable (queue : MaxHeap mergeEntryCmp) (tombstones : List (Bytes × Bytes)) (memtablePresent : Bool)

/-- With the heap an iterator returns what a merge of its sources gives. -/
theorem heaped_emits (bounded : sources.length ≤ usizeMax) :
    ∃ popped, Merge.Run versionRank (fun i : Fin sources.length => sources.get i) popped ∧
      Emits queue (.setUp queue sources tombstones memtablePresent false) (heapLoop tombstones none (popped.map Prod.snd)) := by
  let s : ScanState := .setUp queue sources tombstones memtablePresent false
  have merging : Merging memtablePresent sources.length s :=
    ⟨(foldl_push _ []).trans (.of_eq (List.append_nil _)), rfl, rfl⟩
  obtain ⟨popped, run, emits⟩ := heap_emits queue bounded s merging
  refine ⟨popped, ?_, emits⟩
  have all : remaining sources.length s = fun i : Fin sources.length => sources.get i := by
    funext i
    simp [remaining, s, ScanState.setUp]
  exact all ▸ run

/-- Call by call, an iterator returns what it can yield. -/
theorem start_emits (bounded : sources.length ≤ usizeMax) :
    ∃ out, (⟨sources, tombstones⟩ : ScanIterator).Yields out ∧
      Emits queue (.start queue sources tombstones memtablePresent) out := by
  by_cases fast : sources.length = 1 ∧ tombstones = []
  · obtain ⟨single, rfl⟩ := fast
    obtain ⟨source, rfl⟩ := List.length_eq_one_iff.mp single
    exact ⟨fastLoop none source, rfl, fast_emits source _ rfl rfl⟩
  · have heaped : ScanState.start queue sources tombstones memtablePresent =
        .setUp queue sources tombstones memtablePresent false := by
      rw [ScanState.start]
      congr 1
      simpa using fast
    obtain ⟨popped, run, emits⟩ := heaped_emits queue tombstones memtablePresent bounded
    exact ⟨_, (yields_iff _ _).mpr ⟨popped, run, rfl⟩, heaped ▸ emits⟩

end

/-- A record that no other version of its slot has a larger number than. -/
def Highest (sources : List (List InternalRecord)) (r : InternalRecord) : Prop :=
  r ∈ sources.flatten ∧ ∀ x ∈ sources.flatten, x.slot = r.slot → x.seq ≤ r.seq

/-- Where no number occurs twice in a slot, the puts of highest number are yielded and nothing else. -/
theorem mem_yield_iff (sorted : ∀ source ∈ sources, source.Pairwise fun a b => versionRank a ≤ versionRank b)
    (distinct : (sources.flatten.map fun r => (r.slot, r.seq)).Nodup) {out : List Record}
    (yields : (⟨sources, []⟩ : ScanIterator).Yields out) (rec : Record) :
    rec ∈ out ↔ ∃ r, Highest sources r ∧ r.op = .put ∧ r.toRecord = rec := by
  have strict := @yields_strict ⟨sources, []⟩ sorted out yields
  have head_highest : ∀ slot h, Head ⟨sources, []⟩ slot h → Highest sources h ∧ h.slot = slot := by
    rintro slot h ⟨⟨source, member, first⟩, least⟩
    have here := slotFirst_slot first
    refine ⟨⟨List.mem_flatten.mpr ⟨source, member, List.mem_of_find?_eq_some first⟩, fun x inside same => ?_⟩, here⟩
    obtain ⟨other, listed, held⟩ := List.mem_flatten.mp inside
    exact (versionRank_le_iff same.symm).mp (least other listed x held (same.trans here))
  have highest_head : ∀ r, Highest sources r → Head ⟨sources, []⟩ r.slot r := by
    rintro r ⟨inside, top⟩
    obtain ⟨source, member, held⟩ := List.mem_flatten.mp inside
    obtain ⟨h, first⟩ : ∃ h, slotFirst source r.slot = some h :=
      Option.isSome_iff_exists.mp (List.find?_isSome.mpr ⟨r, held, by simp⟩)
    have here := slotFirst_slot first
    have listed : h ∈ sources.flatten := List.mem_flatten.mpr ⟨source, member, List.mem_of_find?_eq_some first⟩
    have newer := (versionRank_le_iff here).mp (slotFirst_least (sorted source member) first r held rfl)
    have pair : (h.slot, h.seq) = (r.slot, r.seq) := by rw [here, le_antisymm (top h listed here) newer]
    obtain rfl := List.inj_on_of_nodup_map distinct listed inside pair
    refine ⟨⟨source, member, first⟩, fun other listed x held same => (versionRank_le_iff same.symm).mpr ?_⟩
    exact top x (List.mem_flatten.mpr ⟨other, listed, held⟩) same
  have shown : ∀ h, shownAs [] h = some rec ↔ h.op = .put ∧ h.toRecord = rec := by
    intro h
    simp [shownAs, isShown, isTombstoned]
  rw [mem_iff_atSlot strict]
  rcases @yields_slot ⟨sources, []⟩ sorted out yields (slotOf rec) with ⟨h, head, found⟩ | ⟨absent, found⟩
  · obtain ⟨highest, here⟩ := head_highest _ h head
    rw [found, shown]
    constructor
    · exact fun put => ⟨h, highest, put⟩
    · rintro ⟨r, top, put, rfl⟩
      have same : r.seq = h.seq := le_antisymm (highest.2 r top.1 here.symm) (top.2 h highest.1 here)
      have pair : (r.slot, r.seq) = (h.slot, h.seq) := by rw [same, here, slotOf_toRecord]
      obtain rfl := List.inj_on_of_nodup_map distinct top.1 highest.1 pair
      exact ⟨put, rfl⟩
  · rw [found]
    simp only [reduceCtorEq, false_iff]
    rintro ⟨r, top, put, rfl⟩
    exact absent r (highest_head r top)

/-- Over sorted sources without range tombstones the calls of `next` return strictly ascending slots and then nothing;
with distinct numbers, the puts that are newest in their slot; and one source gives the same with the heap as without. -/
theorem scan_iterator_merges (queue : MaxHeap mergeEntryCmp) (memtablePresent : Bool) (bounded : sources.length ≤ usizeMax)
    (sorted : ∀ source ∈ sources, source.Pairwise fun a b => versionRank a ≤ versionRank b) :
    ∃ out, Emits queue (.start queue sources [] memtablePresent) out ∧
      (out.Pairwise fun a b => slotOf a < slotOf b) ∧
      ((sources.flatten.map fun r => (r.slot, r.seq)).Nodup →
        ∀ rec, rec ∈ out ↔ ∃ r, Highest sources r ∧ r.op = .put ∧ r.toRecord = rec) ∧
      (sources.length = 1 → Emits queue (.setUp queue sources [] memtablePresent true) out ∧
        Emits queue (.setUp queue sources [] memtablePresent false) out) := by
  obtain ⟨out, yields, emits⟩ := start_emits queue [] memtablePresent bounded
  refine ⟨out, emits, @yields_strict ⟨sources, []⟩ sorted out yields, fun distinct => mem_yield_iff sorted distinct yields,
    fun single => ?_⟩
  obtain ⟨source, rfl⟩ := List.length_eq_one_iff.mp single
  obtain ⟨popped, run, heaped⟩ := heaped_emits queue [] memtablePresent bounded
  have same : out = heapLoop [] none (popped.map Prod.snd) := by
    rw [single_run source run, ← fastLoop_eq]
    exact yields
  exact ⟨emits, same ▸ heaped⟩

end

def sortedHeads (held : List MergeEntry) : List MergeEntry :=
  held.mergeSort fun a b => decide (entryRank a ≤ entryRank b)

theorem sortedHeads_sorted (held : List MergeEntry) :
    (sortedHeads held).Pairwise fun a b => entryRank a ≤ entryRank b := by
  refine (List.pairwise_mergeSort (fun a b c => ?_) (fun a b => ?_) held).imp of_decide_eq_true
  · simpa using le_trans
  · simpa using le_total (entryRank a) (entryRank b)

theorem sortedHeads_perm (held : List MergeEntry) : (sortedHeads held).Perm held :=
  List.mergeSort_perm held _

def popHead (held : List MergeEntry) : Option (MergeEntry × List MergeEntry) :=
  match sortedHeads held with
  | [] => none
  | e :: rest => some (e, rest)

theorem popHead_some {held rest : List MergeEntry} {e : MergeEntry} (popped : popHead held = some (e, rest)) :
    sortedHeads held = e :: rest := by
  unfold popHead at popped
  cases sorted : sortedHeads held with
  | nil => rw [sorted] at popped; nomatch popped
  | cons top others =>
    rw [sorted] at popped
    obtain ⟨rfl, rfl⟩ := Prod.mk.inj (Option.some.inj popped)
    rfl

/-- A heap kept as an unordered list, sorted to pop. -/
def listHeap : MaxHeap mergeEntryCmp where
  push held e := e :: held
  pop := popHead
  push_perm _ _ := .refl _
  pop_empty held missing := by
    have same := sortedHeads_perm held
    unfold popHead at missing
    cases sorted : sortedHeads held with
    | nil => exact (sorted ▸ same).nil_eq.symm
    | cons e rest => rw [sorted] at missing; nomatch missing
  pop_perm held _ _ popped := (popHead_some popped ▸ sortedHeads_perm held).symm
  pop_greatest held e rest popped x inside := by
    have order := popHead_some popped ▸ sortedHeads_sorted held
    have there := (popHead_some popped ▸ sortedHeads_perm held).mem_iff.mpr inside
    refine (mergeEntryCmp_iff x e).mpr ?_
    rcases List.mem_cons.mp there with rfl | later
    · exact le_refl _
    · exact List.rel_of_pairwise_cons order later

theorem scan_iterator_merges_pair : ∃ out, Emits listHeap (.start listHeap
    [[.fromRecord (.new [107] 1 [2]) 2], [.delete [107] 1 1, .fromRecord (.new [108] 1 [3]) 0]] [] true) out ∧
    ∀ rec, rec ∈ out ↔ ∃ r, Highest
      [[.fromRecord (.new [107] 1 [2]) 2], [.delete [107] 1 1, .fromRecord (.new [108] 1 [3]) 0]] r ∧
        r.op = .put ∧ r.toRecord = rec := by
  obtain ⟨out, emits, _, distinct, _⟩ := @scan_iterator_merges
    [[.fromRecord (.new [107] 1 [2]) 2], [.delete [107] 1 1, .fromRecord (.new [108] 1 [3]) 0]] listHeap true (by decide) (by decide)
  exact ⟨out, emits, distinct (by decide)⟩

end FlowDb.ScanSteps
