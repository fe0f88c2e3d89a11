import FlowDb.Compaction
import FlowDb.ShortBlocks

/-! A compaction over files that are not what was written. `SstBlockIterator` passes over
a block it cannot read, and both exits of `CompactionRunner::run` go on to delete the file. -/
namespace FlowDb.UnreadableBlocks
open ByteString OrderedMap Records Sstable SstFormat ManifestLog ManifestState BlockIndex BlockMetaIndex TableStore
open Compaction Merge

/-! ### The iterator -/

structure SstBlockIterator where
  reader : SstReader
  currentBlock : Nat
  blockRecords : List InternalRecord
  recordPos : Nat

section
variable (lz4 : Lz4) (nowUs : Int)

def SstBlockIterator.new (reader : SstReader) : SstBlockIterator := ⟨reader, 0, [], 0⟩

def SstBlockIterator.nextRecord (it : SstBlockIterator) : Option InternalRecord × SstBlockIterator :=
  match it.blockRecords[it.recordPos]? with
  | some r => (some r, { it with recordPos := it.recordPos + 1 })
  | none =>
      if it.currentBlock < it.reader.blockOffsets.length then
        match it.reader.readBlock lz4 it.currentBlock with
        | .ok records => nextRecord
            { it with
              blockRecords := TableStore.blockRecords nowUs records
              recordPos := 0
              currentBlock := it.currentBlock + 1 }
        | .error _ => nextRecord { it with currentBlock := it.currentBlock + 1 }
      else (none, it)
  termination_by it.reader.blockOffsets.length - it.currentBlock

/-- What the iterator takes from one block: nothing from a block that it cannot read. -/
def readRecords (reader : SstReader) (blockIdx : Nat) : List InternalRecord :=
  match reader.readBlock lz4 blockIdx with
  | .ok records => blockRecords nowUs records
  | .error _ => []

def returned (reader : SstReader) : List InternalRecord :=
  (List.range reader.blockOffsets.length).flatMap (readRecords lz4 nowUs reader)

/-- What an iterator has still to return. -/
def SstBlockIterator.rest (it : SstBlockIterator) : List InternalRecord :=
  it.blockRecords.drop it.recordPos ++
    (List.range' it.currentBlock (it.reader.blockOffsets.length - it.currentBlock)).flatMap
      (readRecords lz4 nowUs it.reader)

theorem rest_new (reader : SstReader) : (SstBlockIterator.new reader).rest lz4 nowUs = returned lz4 nowUs reader := by
  simp [SstBlockIterator.rest, SstBlockIterator.new, returned, List.range_eq_range']

theorem rest_block (it : SstBlockIterator) (drained : it.blockRecords[it.recordPos]? = none)
    (more : it.currentBlock < it.reader.blockOffsets.length) :
    it.rest lz4 nowUs = SstBlockIterator.rest lz4 nowUs
      { it with
        blockRecords := readRecords lz4 nowUs it.reader it.currentBlock
        recordPos := 0
        currentBlock := it.currentBlock + 1 } := by
  have left : it.reader.blockOffsets.length - it.currentBlock =
      (it.reader.blockOffsets.length - (it.currentBlock + 1)) + 1 := by omega
  rw [SstBlockIterator.rest, List.drop_eq_nil_of_le (List.getElem?_eq_none_iff.mp drained), left, List.range'_succ]
  rfl

/-- Called until it gives nothing more, `next_record` returns the records of the blocks it can read. -/
theorem nextRecord_rest (it : SstBlockIterator) :
    it.rest lz4 nowUs = match it.nextRecord lz4 nowUs with
      | (some r, later) => r :: later.rest lz4 nowUs
      | (none, _) => [] := by
  fun_induction SstBlockIterator.nextRecord lz4 nowUs it with
  | case1 it r there =>
    obtain ⟨inside, rfl⟩ := List.getElem?_eq_some_iff.mp there
    rw [SstBlockIterator.rest, List.drop_eq_getElem_cons inside]
    rfl
  | case2 it drained more records read ih =>
    rw [rest_block lz4 nowUs it drained more, ← ih, readRecords, read]
  | case3 it drained more e failed ih =>
    rw [rest_block lz4 nowUs it drained more, ← ih, readRecords, failed]
    simp only [SstBlockIterator.rest, List.drop_nil, List.drop_eq_nil_of_le (List.getElem?_eq_none_iff.mp drained)]
  | case4 it drained done =>
    rw [SstBlockIterator.rest, List.drop_eq_nil_of_le (List.getElem?_eq_none_iff.mp drained),
      Nat.sub_eq_zero_of_le (not_lt.mp done)]
    rfl

end

/-! ### The run -/

/-- What the file system answers during a call: the table files as they stand, whether the
new table can be written with these records, whether the next entry of the call goes into
the manifest. -/
structure Disk where
  file : Nat → Option (Except FlowError Bytes)
  write : List InternalRecord → Option FlowError
  append : Nat → Option FlowError

-- A file that is not there and a file without blocks are passed over.
def openInput (disk : Disk) (id : Nat) : Except FlowError (Option SstReader) :=
  match disk.file id with
  | none => .ok none
  | some (.error e) => .error e
  | some (.ok data) => do
      let reader ← SstReader.open data id
      .ok (if reader.blockOffsets.length = 0 then none else some reader)

/-- The exit taken when no record was written. -/
def dropEach (append : Nat → Option FlowError) : Nat → List Nat → Tables → Except FlowError Bool × Tables
  | _, [], t => (.ok true, t)
  | k, id :: rest, t =>
      let t := { t with files := t.files.erase id, index := t.index.removeSst id }
      match append k with
      | some e => (.error e, t)
      | none => dropEach append (k + 1) rest { t with manifest := t.manifest.append (.gcDeleteSst id) }

section
variable (config : Config) (lz4 : Lz4) (disk : Disk) (nowUs : Int) (t : Tables)

/-- What a candidate gives to the heap. -/
def source (id : Nat) : List InternalRecord :=
  match openInput disk id with
  | .ok (some reader) => returned lz4 nowUs reader
  | _ => []

def sources (i : Fin t.candidates.length) : List InternalRecord := source lz4 disk nowUs (t.candidates.get i)

/-- What is left to do once the heap is empty. -/
def finish (records : List InternalRecord) : Except FlowError Bool × Tables :=
  let state := t.manifest.state
  let candidates := t.candidates
  if records = [] then dropEach disk.append 0 candidates t
  else
    let estimated := (candidates.filterMap fun id => (state.sstables.get? id).map (·.records)).sum
    let sst := Sstable.SstStreamWriter.write records config.blockSize estimated config.bloomBitsPerKey
    let bytes := sst.1.totalBytes fun data => (lz4.compress data).length
    let info := sstInfo state.nextSstId bytes records sst.2
    let m := t.manifest.append (.compaction candidates [info] [(info.id, sst.1.blockInfos)])
    let published := publishSst (deleteSsts t candidates) m info sst.1 sst.2
    match disk.append 0 with
    | some e => (.error e, { published with manifest := t.manifest, files := t.files.insert info.id sst.1 })
    | none => (.ok true, published)

/-- `CompactionRunner::run` with its errors, for the order in which its heap popped what the
iterators returned. -/
def run (popped : List InternalRecord) : Except FlowError Bool × Tables :=
  if t.manifest.state.sstables.entries.length < config.compactionThreshold then (.ok false, t)
  else
    match t.candidates.mapM (openInput disk) with
    | .error e => (.error e, t)
    | .ok readers =>
        if readers.all Option.isNone then (.ok false, t)
        else
          match disk.write (written popped) with
          | some e => (.error e, t)
          | none => finish config lz4 disk t (written popped)

end

theorem dropEach_all (append : Nat → Option FlowError) (k : Nat) (ids : List Nat) (t : Tables)
    (fine : ∀ j < ids.length, append (k + j) = none) : dropEach append k ids t = (.ok true, deleteSsts t ids) := by
  induction ids generalizing k t with
  | nil =>
    have whole : t.files.filter (fun _ _ => true) = t.files := ext_get? fun id => by
      cases held : t.files.get? id <;> simp [get?_filter, held]
    simp [dropEach, deleteSsts, whole]
  | cons id rest ih =>
    have first : append k = none := fine 0 (by simp)
    have later : ∀ j < rest.length, append (k + 1 + j) = none := fun j short => by
      have next := fine (j + 1) (by simpa using short)
      rwa [show k + (j + 1) = k + 1 + j by omega] at next
    have files : (t.files.erase id).filter (fun k _ => decide (k ∉ rest)) =
        t.files.filter fun k _ => decide (k ∉ id :: rest) := ext_get? fun k => by
      by_cases same : k = id <;> by_cases there : k ∈ rest <;>
        cases held : t.files.get? k <;> simp [get?_filter, get?_erase, held, same, there]
    simp only [dropEach, first, ih _ _ later, deleteSsts, files, List.foldl_cons]

theorem dropEach_error (append : Nat → Option FlowError) (k : Nat) (ids : List Nat) (t : Tables)
    (fails : ∃ j < ids.length, append (k + j) ≠ none) : ∃ e, (dropEach append k ids t).1 = .error e := by
  induction ids generalizing k t with
  | nil =>
    obtain ⟨j, short, _⟩ := fails
    exact absurd short (Nat.not_lt_zero j)
  | cons id rest ih =>
    rw [dropEach]
    cases first : append k with
    | some e => exact ⟨e, rfl⟩
    | none =>
      obtain ⟨j, short, failed⟩ := fails
      cases j with
      | zero => exact absurd first failed
      | succ j => exact ih _ _ ⟨j, by simpa using short, by rwa [show k + 1 + j = k + (j + 1) by omega]⟩

theorem dropEach_absent (append : Nat → Option FlowError) (k : Nat) (ids : List Nat) (t : Tables) (id : Nat)
    (absent : t.index.sstBlocks.get? id = none) :
    (dropEach append k ids t).2.index.sstBlocks.get? id = none := by
  induction ids generalizing k t with
  | nil => exact absent
  | cons first rest ih =>
    have removed : (t.index.removeSst first).sstBlocks.get? id = none := by
      simp [removeSst, get?_erase, absent]
    rw [dropEach]
    cases append k with
    | some e => exact removed
    | none => exact ih _ _ removed

/-- A failure on the way leaves the tables without the first candidate's blocks. -/
theorem dropEach_changed (append : Nat → Option FlowError) (k : Nat) (ids : List Nat) (t : Tables) {id : Nat}
    (first : ids.head? = some id) : (dropEach append k ids t).2.index.sstBlocks.get? id = none := by
  cases ids with
  | nil => cases first
  | cons head rest =>
    obtain rfl : head = id := Option.some.inj first
    have removed : (t.index.removeSst head).sstBlocks.get? head = none := by simp [removeSst, get?_erase]
    rw [dropEach]
    cases append k with
    | some e => exact removed
    | none => exact dropEach_absent append _ rest _ head removed

/-! ### What a call may do -/

section
variable (config : Config) (lz4 : Lz4) (disk : Disk) (nowUs : Int) (t : Tables)

/-- The record is in the output, or the merge read another record of its slot that stands for
it: a delete, or a put that is in the output. -/
def Kept (output : List InternalRecord) (p : InternalRecord) : Prop :=
  stored p ∈ output ∨
    ∃ i, ∃ x ∈ sources lz4 disk nowUs t i, x.slot = p.slot ∧ x ≠ stored p ∧ (x.op = .put → x ∈ output)

/-- A call that removed its inputs kept their unexpired puts; any other call changed nothing. -/
def Safe (result : Except FlowError Bool × Tables) : Prop :=
  match result.1 with
  | .ok true => ∀ id ∈ t.candidates, ∀ p ∈ (t.file id).records, p.op = .put → nowUs < p.expireAt →
      Kept lz4 disk nowUs t (result.2.file t.manifest.state.nextSstId).records p
  | _ => result.2 = t

/-- There are tables enough, the inputs open, one has a block, and the new table can be written. -/
def Due (records : List InternalRecord) : Prop :=
  config.compactionThreshold ≤ t.manifest.state.sstables.entries.length ∧
    (∃ readers, t.candidates.mapM (openInput disk) = .ok readers ∧ ∃ reader ∈ readers, reader.isSome) ∧
    disk.write records = none

/-- Each unexpired put in a block of a candidate has an unexpired record of its slot in a
block that can be read. -/
def Covered : Prop :=
  ∀ id ∈ t.candidates, ∀ p ∈ (t.file id).records, p.op = .put → nowUs < p.expireAt →
    ∃ i, ∃ x ∈ sources lz4 disk nowUs t i, x.slot = p.slot

/-- The manifest takes each entry of the call. -/
def Logged (records : List InternalRecord) : Prop :=
  ∀ k < (if records = [] then t.candidates.length else 1), disk.append k = none

end

section
variable {config : Config} {lz4 : Lz4} {disk : Disk} {nowUs : Int} {t : Tables}
  {popped : List (Fin t.candidates.length × InternalRecord)}

theorem mem_popped (heap : Run heapRank (sources lz4 disk nowUs t) popped) (x : InternalRecord) :
    x ∈ popped.map Prod.snd ↔ ∃ i, x ∈ sources lz4 disk nowUs t i := by
  constructor
  · intro member
    obtain ⟨⟨i, x⟩, there, rfl⟩ := List.mem_map.mp member
    exact ⟨i, mem_of_popped heap there⟩
  · rintro ⟨i, inside⟩
    exact List.mem_map.mpr ⟨(i, x), popped_of_mem heap inside, rfl⟩

theorem kept_iff (heap : Run heapRank (sources lz4 disk nowUs t) popped) (p : InternalRecord) (put : p.op = .put) :
    Kept lz4 disk nowUs t (written (popped.map Prod.snd)) p ↔
      ∃ i, ∃ x ∈ sources lz4 disk nowUs t i, x.slot = p.slot := by
  have firstWritten : ∀ x ∈ firsts InternalRecord.slot none (popped.map Prod.snd), x.op = .put →
      x ∈ written (popped.map Prod.snd) := fun x first isPut =>
    List.mem_filter.mpr ⟨first, by rw [isPut]; decide⟩
  have read : ∀ x ∈ firsts InternalRecord.slot none (popped.map Prod.snd), ∃ i, x ∈ sources lz4 disk nowUs t i :=
    fun x first => (mem_popped heap x).mp ((firsts_sublist _ _ _).subset first)
  constructor
  · rintro (present | ⟨i, x, member, same, -⟩)
    · obtain ⟨i, member⟩ := read _ (List.mem_filter.mp present).1
      exact ⟨i, stored p, member, stored_slot p⟩
    · exact ⟨i, x, member, same⟩
  · rintro ⟨i, x, member, same⟩
    obtain ⟨first, kept, slot⟩ := exists_first InternalRecord.slot none ((mem_popped heap x).mpr ⟨i, member⟩) nofun
    by_cases whole : first = stored p
    · subst whole
      exact .inl (firstWritten _ kept (by simpa using put))
    · obtain ⟨j, there⟩ := read first kept
      exact .inr ⟨j, first, there, slot.trans same, whole, firstWritten first kept⟩

theorem safe_ok {t' : Tables} (heap : Run heapRank (sources lz4 disk nowUs t) popped)
    (output : (t'.file t.manifest.state.nextSstId).records = written (popped.map Prod.snd)) :
    Safe lz4 disk nowUs t (.ok true, t') ↔ Covered lz4 disk nowUs t := by
  refine forall_congr' fun id => imp_congr_right fun _ => forall_congr' fun p => imp_congr_right fun _ =>
    imp_congr_right fun put => imp_congr_right fun _ => ?_
  rw [output]
  exact kept_iff heap p put

theorem active_blocks (ok : Ok t) {id : Nat} (candidate : id ∈ t.candidates) :
    t.index.sstBlocks.get? id ≠ none := by
  rw [ok.indexed, if_pos ((candidates_subperm t).subset candidate)]
  exact nofun

/-- The exit that writes no table. -/
theorem safe_dropEach (ok : Ok t) (heap : Run heapRank (sources lz4 disk nowUs t) popped)
    (empty : written (popped.map Prod.snd) = []) (candidates : t.candidates ≠ []) :
    Safe lz4 disk nowUs t (dropEach disk.append 0 t.candidates t) ↔
      Covered lz4 disk nowUs t ∧ ∀ k < t.candidates.length, disk.append k = none := by
  by_cases fine : ∀ k < t.candidates.length, disk.append k = none
  · have output : (deleteSsts t t.candidates).file t.manifest.state.nextSstId = ⟨[]⟩ := by
      have missing : t.files.get? t.manifest.state.nextSstId = none :=
        Option.not_isSome_iff_eq_none.mp fun held => nextSstId_absent t ok ((ok.filed _).mpr held)
      simp [Tables.file, deleteSsts, get?_filter, missing]
    rw [dropEach_all disk.append 0 _ t (by simpa using fine),
      safe_ok heap (by rw [output, empty]; rfl), and_iff_left fine]
  · obtain ⟨k, short, failed⟩ : ∃ k < t.candidates.length, disk.append k ≠ none := by simpa using fine
    obtain ⟨e, error⟩ := dropEach_error disk.append 0 _ t ⟨k, short, by rwa [Nat.zero_add]⟩
    obtain ⟨first, head⟩ := Option.ne_none_iff_exists'.mp (mt List.head?_eq_none_iff.mp candidates)
    refine iff_of_false (fun safe => ?_) fun both => fine both.2
    simp only [Safe, error] at safe
    have gone := dropEach_changed disk.append 0 t.candidates t head
    rw [safe] at gone
    exact active_blocks ok (List.mem_of_mem_head? head) gone

/-- The exit that publishes the table it wrote. -/
theorem safe_publish (ok : Ok t) (heap : Run heapRank (sources lz4 disk nowUs t) popped) {m : Manifest}
    {info : SstInfo} {file : SstFile} {bloom : Bloom.BloomFilter} (id : info.id = t.manifest.state.nextSstId)
    (records : file.records = written (popped.map Prod.snd)) :
    Safe lz4 disk nowUs t (match disk.append 0 with
        | some e => (.error e, { publishSst (deleteSsts t t.candidates) m info file bloom with
            manifest := t.manifest, files := t.files.insert info.id file })
        | none => (.ok true, publishSst (deleteSsts t t.candidates) m info file bloom)) ↔
      Covered lz4 disk nowUs t ∧ disk.append 0 = none := by
  cases fine : disk.append 0 with
  | none =>
    rw [and_iff_left rfl]
    exact safe_ok heap (by rw [file_publishSst, if_pos id.symm, records])
  | some e =>
    refine iff_of_false (fun safe => ?_) fun both => nomatch both.2
    have unknown : t.index.sstBlocks.get? info.id = none := by
      rw [ok.indexed, id, if_neg (nextSstId_absent t ok)]
    have same : ((deleteSsts t t.candidates).index.addSst info.id file.blockInfos).sstBlocks = t.index.sstBlocks :=
      congrArg (fun t => t.index.sstBlocks) safe
    rw [← same, sstBlocks_addSst, get?_insert_self] at unknown
    cases unknown

/-- What a call that gets to its exits does. -/
theorem safe_due (ok : Ok t) (heap : Run heapRank (sources lz4 disk nowUs t) popped)
    (due : Due config disk t (written (popped.map Prod.snd))) :
    Safe lz4 disk nowUs t (run config lz4 disk t (popped.map Prod.snd)) ↔
      Covered lz4 disk nowUs t ∧ Logged disk t (written (popped.map Prod.snd)) := by
  obtain ⟨enough, ⟨readers, opened, reader, inside, there⟩, writes⟩ := due
  have some_reader : ¬ readers.all Option.isNone := fun none => by
    have missing := List.all_eq_true.mp none reader inside
    rw [Option.isNone_iff_eq_none] at missing
    rw [missing] at there
    cases there
  simp only [run, if_neg (not_lt.mpr enough), opened, if_neg some_reader, writes, finish, Logged]
  split_ifs with empty
  · refine safe_dropEach ok heap empty fun none => ?_
    rw [none] at opened
    cases opened
    cases inside
  · rw [safe_publish ok heap rfl (by rw [SstFile.records, Sstable.SstStreamWriter.write, chunks_flatten])]
    simp

/-- A call that gets to neither exit leaves everything as it is. -/
theorem run_not_due {records : List InternalRecord} (early : ¬ Due config disk t (written records)) :
    (run config lz4 disk t records).2 = t ∧ (run config lz4 disk t records).1 ≠ .ok true := by
  simp only [run]
  split_ifs with few
  · exact ⟨rfl, by simp⟩
  · cases opened : t.candidates.mapM (openInput disk) with
    | error e => exact ⟨rfl, by simp⟩
    | ok readers =>
      dsimp only
      split_ifs with none
      · exact ⟨rfl, by simp⟩
      · cases writes : disk.write (written records) with
        | some e => exact ⟨rfl, by simp⟩
        | none =>
          obtain ⟨reader, inside, there⟩ : ∃ reader ∈ readers, reader.isSome := by
            simpa [Option.isSome_iff_ne_none] using none
          exact absurd ⟨not_lt.mp few, ⟨readers, opened, reader, inside, there⟩, writes⟩ early

end

/-! ### Intact files -/

/-- The files are what was written, and nothing fails. -/
structure Intact (lz4 : Lz4) (disk : Disk) (t : Tables) : Prop where
  lossless : lz4.Lossless
  fits : ∀ id ∈ t.candidates, ∀ chunk ∈ (t.file id).blocks, BlockFits lz4 chunk
  file : ∀ id ∈ t.candidates, disk.file id = some (.ok ((t.file id).blocks.flatMap (blockBytes lz4)))
  write : ∀ records, disk.write records = none
  append : ∀ k, disk.append k = none

section
variable {config : Config} {lz4 : Lz4} {disk : Disk} {nowUs : Int} {t : Tables}

theorem openInput_intact (intact : Intact lz4 disk t) {id : Nat} (candidate : id ∈ t.candidates) :
    openInput disk id = .ok (if (t.file id).blocks = [] then none
      else some ⟨(t.file id).blocks.flatMap (blockBytes lz4), id, blockOffsets lz4 0 (t.file id).blocks⟩) := by
  simp only [openInput, intact.file id candidate, open_blocks lz4 _ (intact.fits id candidate), bind, Except.bind,
    length_blockOffsets, List.length_eq_zero_iff]

theorem source_intact (intact : Intact lz4 disk t) {id : Nat} (candidate : id ∈ t.candidates) :
    source lz4 disk nowUs id = iterated nowUs (t.file id) := by
  have fits := intact.fits id candidate
  rw [source, openInput_intact intact candidate]
  split_ifs with empty
  · simp [iterated, empty]
  · simp only [returned, iterated, length_blockOffsets]
    refine List.flatMap_congr fun i inside => ?_
    have short : i < (t.file id).blocks.length := List.mem_range.mp inside
    have there : (t.file id).blocks[i]? = some (t.file id).blocks[i] := List.getElem?_eq_getElem short
    have records : ∀ r ∈ (t.file id).records, TableFits r := fun r member => by
      obtain ⟨chunk, held, r_in⟩ := List.mem_flatten.mp member
      exact (fits chunk held).records r r_in
    simp only [readRecords, readBlock_blocks lz4 intact.lossless _ fits, there, readBlock_eq _ records, Option.getD_some]

theorem mapM_each {α β ε : Type} {f : α → Except ε β} {g : α → β} {items : List α}
    (each : ∀ x ∈ items, f x = .ok (g x)) : items.mapM f = .ok (items.map g) := by
  induction items with
  | nil => rfl
  | cons x rest ih =>
    rw [List.mapM_cons, each x List.mem_cons_self, ih fun y member => each y (List.mem_cons_of_mem x member)]
    rfl

/-- On intact files the call changes the tables as `TableStore.CompactionRunner.run` does. -/
theorem run_intact (intact : Intact lz4 disk t) (popped : List InternalRecord) :
    (run config lz4 disk t popped).2 =
      CompactionRunner.run config (fun data => (lz4.compress data).length) t popped := by
  have opened := mapM_each fun id (candidate : id ∈ t.candidates) => openInput_intact intact candidate
  have skipped : (t.candidates.map fun id => if (t.file id).blocks = [] then none
      else some (SstReader.mk ((t.file id).blocks.flatMap (blockBytes lz4)) id
        (blockOffsets lz4 0 (t.file id).blocks))).all Option.isNone =
      t.candidates.all fun id => (t.file id).blocks.isEmpty := by
    rw [List.all_map]
    refine congrArg _ (funext fun id => ?_)
    cases empty : (t.file id).blocks <;> simp [empty]
  have dropped := dropEach_all disk.append 0 t.candidates t fun j _ => intact.append _
  simp only [run, opened, skipped, intact.write, finish, dropped, intact.append, CompactionRunner.run]
  split_ifs <;> rfl

end

/-- Compaction keeps what it could not read, or leaves everything alone, exactly where none of its
inputs' unexpired puts stands in unreadable blocks alone and the manifest takes its entries. -/
theorem unreadable_blocks_iff (config : Config) (lz4 : Lz4) (disk : Disk) (nowUs : Int) (t : Tables) (ok : Ok t)
    (popped : List (Fin t.candidates.length × InternalRecord))
    (heap : Run heapRank (sources lz4 disk nowUs t) popped) :
    Safe lz4 disk nowUs t (run config lz4 disk t (popped.map Prod.snd)) ↔
      (Due config disk t (written (popped.map Prod.snd)) →
        Covered lz4 disk nowUs t ∧ Logged disk t (written (popped.map Prod.snd))) := by
  by_cases due : Due config disk t (written (popped.map Prod.snd))
  · rw [safe_due ok heap due]
    exact ⟨fun both _ => both, fun both => both due⟩
  · obtain ⟨unchanged, other⟩ := @run_not_due config lz4 disk t _ due
    refine iff_of_true ?_ fun here => absurd here due
    unfold Safe
    split
    · exact absurd (by assumption) other
    · exact unchanged


/-! One table of one put. The block may be damaged behind its header. -/

/-- A block format with a leading tag that decompression looks at. -/
def tagged : Lz4 where
  compress data := 0xF0 :: data
  decompress data _ := if data.head? = some 0xF0 then .ok data.tail else .error "invalid tag"

def onePut : InternalRecord := ⟨1, .put, [97], 1, 1000000, [7], none⟩

def oneTable : Config := { compactionThreshold := 1 }

def onePutTables : Tables := addFlushed oneTable (fun data => data.length + 1) (Tables.new 3600) [onePut]

def onePutFile (tag : UInt8) : Bytes := (blockHeader tagged [onePut]).toBytes ++ tag :: encodeRecords [onePut]

def onePutDisk (tag : UInt8) : Disk where
  file id := if id = 1 then some (.ok (onePutFile tag)) else none
  write _ := none
  append _ := none

theorem ok_onePut : Ok onePutTables := ok_addFlushed _ _ _ (ok_new 3600) _

theorem due_onePut (tag : UInt8) (records : List InternalRecord)
    (opened : SstReader.open (onePutFile tag) 1 = .ok ⟨onePutFile tag, 1, [0]⟩) :
    Due oneTable (onePutDisk tag) onePutTables records := by
  have candidates : onePutTables.candidates = [1] := by decide +kernel
  refine ⟨by decide +kernel, ⟨[some ⟨onePutFile tag, 1, [0]⟩], ?_, _, List.mem_cons_self, rfl⟩, rfl⟩
  rw [candidates, List.mapM_cons, openInput]
  simp only [onePutDisk, if_true, opened]
  rfl

theorem damaged_sources (i) : sources tagged (onePutDisk 0) 10 onePutTables i = [] := by
  revert i
  decide +kernel

theorem damaged_heap : Run heapRank (sources tagged (onePutDisk 0) 10 onePutTables) [] := by
  rw [Run, show sources tagged (onePutDisk 0) 10 onePutTables = fun _ => [] from funext damaged_sources]
  exact .refl _

theorem unreadable_blocks_lost :
    Ok onePutTables ∧ Run heapRank (sources tagged (onePutDisk 0) 10 onePutTables) [] ∧
      (run oneTable tagged (onePutDisk 0) onePutTables []).1 = .ok true ∧
      ¬ Safe tagged (onePutDisk 0) 10 onePutTables (run oneTable tagged (onePutDisk 0) onePutTables []) := by
  refine ⟨ok_onePut, damaged_heap, by decide +kernel, fun safe => ?_⟩
  have due := due_onePut 0 (written []) (by decide +kernel)
  obtain ⟨i, x, member, -⟩ := ((safe_due ok_onePut damaged_heap due).mp safe).1 1 (by decide +kernel) onePut
    (by decide +kernel) rfl (by decide)
  rw [damaged_sources] at member
  cases member

theorem intact_sources (i) : sources tagged (onePutDisk 0xF0) 10 onePutTables i = [stored onePut] := by
  revert i
  decide +kernel

theorem intact_heap (i) : Run heapRank (sources tagged (onePutDisk 0xF0) 10 onePutTables) [(i, stored onePut)] := by
  have one : ∀ j, j = i := by
    revert i
    decide +kernel
  rw [Run, show sources tagged (onePutDisk 0xF0) 10 onePutTables = fun _ => [stored onePut] from funext intact_sources]
  refine .pop _ i (stored onePut) [] [] _ rfl (fun j h there => ?_) ?_
  · obtain rfl := Option.some.inj there
    exact le_rfl
  · rw [show Function.update (fun _ => [stored onePut]) i [] = fun _ => [] from funext fun j => by
      rw [one j, Function.update_self]]
    exact .refl _

/-- The block that can be read is kept. -/
theorem unreadable_blocks_kept :
    Safe tagged (onePutDisk 0xF0) 10 onePutTables
      (run oneTable tagged (onePutDisk 0xF0) onePutTables [stored onePut]) := by
  have candidates : onePutTables.candidates = [1] := by decide +kernel
  have first : 0 < onePutTables.candidates.length := by rw [candidates]; decide
  refine (unreadable_blocks_iff oneTable tagged (onePutDisk 0xF0) 10 onePutTables ok_onePut
    [(⟨0, first⟩, stored onePut)] (intact_heap _)).mpr fun _ => ⟨?_, fun _ _ => rfl⟩
  intro id candidate p member _ _
  refine ⟨⟨0, first⟩, stored onePut, by rw [intact_sources]; exact List.mem_cons_self, ?_⟩
  obtain rfl : id = 1 := by simpa [candidates] using candidate
  have records : (onePutTables.file 1).records = [onePut] := by decide +kernel
  obtain rfl : p = onePut := by simpa [records] using member
  rfl

end FlowDb.UnreadableBlocks
