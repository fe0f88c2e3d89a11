import Mathlib.Data.List.Chain
import FlowDb.CheckedReads
import FlowDb.PointSearch

/-! The binary search over the blocks of a table, with its reads of the list as the source makes
them. Neighbouring blocks may share a key. -/
namespace FlowDb.BlockSearch
open ByteString CheckedReads Records BlockIndex BlockMetaIndex PointSearch

/-- A turn of the loop; behind it stands the look at `blocks[lo]`. -/
def searchTurn (blocks : List BlockMeta) (key : Bytes) : Nat × Nat → Checked (Turn (Nat × Nat) (Option BlockMeta)) :=
    fun (lo, hi) =>
  if lo < hi then do
    let mid ← add lo ((hi - lo) / 2)
    let b ← item blocks mid
    if b.maxKey < key then do
      let lo ← add mid 1
      .ok (.again (lo, hi))
    else if key < b.minKey then .ok (.again (lo, mid))
    else .ok (.leave (some b))
  else if lo < blocks.length then do
    let b ← item blocks lo
    if b.minKey ≤ key ∧ key ≤ b.maxKey then .ok (.leave (some b)) else .ok (.leave none)
  else .ok (.leave none)

def binarySearchBlock (blocks : List BlockMeta) (key : Bytes) (turns : Nat) : Checked (Option BlockMeta) :=
  loop (searchTurn blocks key) turns (0, blocks.length)

variable {blocks : List BlockMeta} {key : Bytes}

theorem searchLoop_fuel (fuel more lo hi : Nat) (enough : hi - lo < fuel) :
    searchLoop blocks key (fuel + more) lo hi = searchLoop blocks key fuel lo hi := by
  induction fuel generalizing lo hi with
  | zero => omega
  | succ fuel ih =>
    rw [Nat.succ_add_eq_add_succ, Nat.add_succ, searchLoop, searchLoop]
    split_ifs with before
    · dsimp only
      cases blocks[lo + (hi - lo) / 2]? with
      | none => rfl
      | some b =>
        dsimp only
        rw [ih _ hi (by omega), ih lo _ (by omega)]
    · rfl

/-- What the search comes to from two bounds. -/
def searched (blocks : List BlockMeta) (key : Bytes) (bounds : Nat × Nat) : Option BlockMeta :=
  searchLoop blocks key (bounds.2 - bounds.1 + 1) bounds.1 bounds.2

theorem searched_eq {lo hi fuel : Nat} (enough : hi - lo < fuel) : searchLoop blocks key fuel lo hi = searched blocks key (lo, hi) := by
  obtain ⟨more, rfl⟩ := Nat.exists_eq_add_of_le (Nat.succ_le_of_lt enough)
  exact searchLoop_fuel _ more lo hi (Nat.lt_succ_self _)

-- No order of the blocks is needed for the search to stay inside them.
theorem searchTurn_progress (fits : Addressable blocks) (key : Bytes) :
    Progress (searchTurn blocks key) (fun bounds => bounds.2 ≤ blocks.length) (fun bounds => bounds.2 - bounds.1)
      (searched blocks key) := by
  refine ⟨fun (lo, hi) inside => ?_⟩
  unfold Addressable at fits
  dsimp only at inside
  rw [searchTurn]
  dsimp only
  by_cases before : lo < hi
  · have within : lo + (hi - lo) / 2 < blocks.length := by omega
    have step : searched blocks key (lo, hi) =
        if blocks[lo + (hi - lo) / 2].maxKey < key then searchLoop blocks key (hi - lo) (lo + (hi - lo) / 2 + 1) hi
        else if key < blocks[lo + (hi - lo) / 2].minKey then searchLoop blocks key (hi - lo) lo (lo + (hi - lo) / 2)
        else some blocks[lo + (hi - lo) / 2] := by
      rw [searched]
      simp only [searchLoop, if_pos before, List.getElem?_eq_getElem within]
    rw [if_pos before, add_eq (by omega), ok_bind, item_eq within, ok_bind, step]
    split_ifs with ends begins
    · right
      rw [add_eq (by omega), ok_bind]
      exact ⟨_, rfl, inside, by dsimp only; omega, (searched_eq (by omega)).symm⟩
    · right
      exact ⟨_, rfl, by dsimp only; omega, by dsimp only; omega, (searched_eq (by omega)).symm⟩
    · left
      rfl
  · left
    have last : searched blocks key (lo, hi) = (blocks[lo]?).filter fun b => decide (b.minKey ≤ key ∧ key ≤ b.maxKey) := by
      rw [searched]
      simp only [searchLoop, if_neg before]
    rw [if_neg before, last]
    by_cases within : lo < blocks.length
    · rw [if_pos within, item_eq within, ok_bind, List.getElem?_eq_getElem within, Option.filter_some]
      by_cases spans : blocks[lo].minKey ≤ key ∧ key ≤ blocks[lo].maxKey
      · rw [if_pos spans, if_pos (decide_eq_true spans)]
      · rw [if_neg spans, if_neg (by simpa using spans)]
    · rw [if_neg within, List.getElem?_eq_none (by omega)]
      rfl

theorem binarySearchBlock_eq (fits : Addressable blocks) (key : Bytes) {turns : Nat} (enough : blocks.length < turns) :
    binarySearchBlock blocks key turns = .ok (BlockMetaIndex.binarySearchBlock blocks key) := by
  have found : loop (searchTurn blocks key) turns (0, blocks.length) = .ok (searched blocks key (0, blocks.length)) :=
    loop_eq (searchTurn_progress fits key) (le_refl _) enough
  exact found

theorem searchLoop_found {fuel lo hi : Nat} {m : BlockMeta} (found : searchLoop blocks key fuel lo hi = some m) : Spans m key := by
  induction fuel generalizing lo hi with
  | zero => cases found
  | succ fuel ih =>
    rw [searchLoop] at found
    split_ifs at found with before
    · dsimp only at found
      cases here : blocks[lo + (hi - lo) / 2]? with
      | none => simp [here] at found
      | some b =>
        rw [here] at found
        dsimp only at found
        split_ifs at found with ends begins
        · exact ih found
        · exact ih found
        · obtain rfl := Option.some.inj found
          exact ⟨not_lt.mp begins, not_lt.mp ends⟩
    · have spans := (Option.filter_eq_some_iff.mp found).2
      rwa [decide_eq_true_eq] at spans

/-- A block ends before a proper one begins. -/
def Before (a b : BlockMeta) : Prop := a.maxKey ≤ b.minKey ∧ b.minKey ≤ b.maxKey

instance : Trans Before Before Before := ⟨fun ab bc => ⟨(ab.1.trans ab.2).trans bc.1, bc.2⟩⟩

/-- Blocks that each end before the next begins are in order as a whole. -/
theorem consecutive_of_chain (proper : ∀ b ∈ blocks, b.minKey ≤ b.maxKey)
    (neighbours : blocks.IsChain fun a b => a.maxKey ≤ b.minKey) : Consecutive blocks := by
  have chained : blocks.IsChain Before :=
    neighbours.imp_of_mem_imp fun _ b _ member meets => ⟨meets, proper b member⟩
  exact ⟨proper, (List.isChain_iff_pairwise.mp chained).imp And.left⟩

/-- The search ends inside the list, with a block that spans the key if there is one. -/
theorem binary_search_exact (blocks : List BlockMeta) (key : Bytes) (proper : ∀ b ∈ blocks, b.minKey ≤ b.maxKey)
    (neighbours : blocks.IsChain fun a b => a.maxKey ≤ b.minKey) (fits : Addressable blocks) :
    ∃ found, (∀ turns > blocks.length, binarySearchBlock blocks key turns = .ok found) ∧
      (∀ m, found = some m → m ∈ blocks ∧ Spans m key) ∧ (found.isSome = true ↔ ∃ b ∈ blocks, Spans b key) := by
  refine ⟨BlockMetaIndex.binarySearchBlock blocks key, fun turns enough => binarySearchBlock_eq fits key enough, ?_, ?_⟩
  · exact fun m found => ⟨PointReads.searchLoop_mem _ _ _ _ _ m found, searchLoop_found found⟩
  · constructor
    · intro some_found
      obtain ⟨m, found⟩ := Option.isSome_iff_exists.mp some_found
      exact ⟨m, PointReads.searchLoop_mem _ _ _ _ _ m found, searchLoop_found found⟩
    · rintro ⟨b, member, spans⟩
      obtain ⟨m, found, _⟩ := binarySearch_spans (consecutive_of_chain proper neighbours) member spans
      rw [found]
      rfl

def blockOf (blockIdx : Nat) (minKey maxKey : Bytes) : BlockMeta := ⟨1, blockIdx, minKey, maxKey, 0, 0, 0⟩

theorem binary_search_exact_shared : ∃ found,
    (∀ turns > 2, binarySearchBlock [blockOf 0 [97] [98], blockOf 1 [98] [99]] [98] turns = .ok found) ∧
      (∀ m, found = some m → m ∈ [blockOf 0 [97] [98], blockOf 1 [98] [99]] ∧ Spans m [98]) ∧
        (found.isSome = true ↔ ∃ b ∈ [blockOf 0 [97] [98], blockOf 1 [98] [99]], Spans b [98]) := by
  refine binary_search_exact [blockOf 0 [97] [98], blockOf 1 [98] [99]] [98] (by decide) ?_ ?_
  · exact .cons_cons (by decide) (.singleton _)
  · exact (by decide : 2 < 2 ^ 63)

end FlowDb.BlockSearch
