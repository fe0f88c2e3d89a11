import FlowDb.JsonSessions

/-! The ids an auto-increment store hands out. A transaction reads the persisted counter at its
first `put_auto` and writes that call's counter record at commit; the ids of its later calls are
kept in memory only, and nothing at commit looks at the counter again. -/
namespace FlowDb.AutoIncrementIds
open ByteString OrderedMap Records JsonValue JsonEncoding JsonDb JsonTransaction JsonIndexes JsonSessions

/-! ### Counters under a batch -/

theorem get?_other {engine : Engine} {r : InternalRecord} (point : Point r) {k : Bytes} (other : r.key ≠ k) :
    (applyRecord engine r).get? k = engine.get? k := by
  rcases point with op | op <;> simp [applyRecord, op, get?_insert, get?_erase, other.symm]

/-- What a batch leaves under a key, its records on that key decide. -/
theorem get?_filterKey {records : List InternalRecord} (points : ∀ r ∈ records, Point r) (engine : Engine) (k : Bytes) :
    (writeInternal engine records).get? k =
      (writeInternal engine (records.filter fun r => decide (r.key = k))).get? k := by
  induction records generalizing engine with
  | nil => rfl
  | cons r rest ih =>
    have later := fun x member => points x (List.mem_cons_of_mem r member)
    change (writeInternal (applyRecord engine r) rest).get? k = _
    rw [ih later, List.filter_cons]
    split_ifs with here
    · rfl
    · exact get?_points (fun x member => later x (List.mem_of_mem_filter member))
        (get?_other (points r List.mem_cons_self) (by simpa using here))

/-- A put or a delete of a document, an index entry or a schema. -/
def Uncounted (r : InternalRecord) : Prop := Point r ∧ r.key.head? ≠ some ctrTag

theorem get?_uncounted {records : List InternalRecord} (uncounted : ∀ r ∈ records, Uncounted r) (engine : Engine)
    (store : String) : (writeInternal engine records).get? (counterKey store) = engine.get? (counterKey store) := by
  have none_there : records.filter (fun r => decide (r.key = counterKey store)) = [] := by
    refine List.filter_eq_nil_iff.mpr fun r member here => (uncounted r member).2 ?_
    rw [of_decide_eq_true here]
    rfl
  rw [get?_filterKey fun r member => (uncounted r member).1, none_there]
  rfl

section
variable (S : Serde)

theorem changeRecords_uncounted (db : JsonDB) (d : StoreDef) (store : String) (key : Bytes) (new : Option (Bytes × Value)) :
    ∀ r ∈ changeRecords S db d store key new, Uncounted r := by
  have entry : ∀ idx doc k, k ∈ indexKeys S store idx doc key → k.head? ≠ some ctrTag := by
    intro idx doc k member
    obtain ⟨vals, _, rfl⟩ := List.mem_map.mp member
    exact (by decide : some idxTag ≠ some ctrTag)
  intro r member
  rcases List.mem_append.mp member with old | written
  · unfold deleteIndexEntries at old
    split at old
    · cases old
    · obtain ⟨idx, _, inside⟩ := List.mem_flatMap.mp old
      obtain ⟨k, there, rfl⟩ := List.mem_map.mp inside
      exact ⟨.inr rfl, entry idx _ k there⟩
  · split at written
    · rcases List.mem_cons.mp written with rfl | later
      · exact ⟨.inl rfl, (by decide : some docTag ≠ some ctrTag)⟩
      · obtain ⟨idx, _, inside⟩ := List.mem_flatMap.mp later
        obtain ⟨k, there, rfl⟩ := List.mem_map.mp inside
        exact ⟨.inl rfl, entry idx _ k there⟩
    · obtain rfl := List.mem_singleton.mp written
      exact ⟨.inr rfl, (by decide : some docTag ≠ some ctrTag)⟩

theorem writeRecords_uncounted (db : JsonDB) (ws : List Write) : ∀ r ∈ ws.flatMap (writeRecords S db), Uncounted r := by
  intro r member
  obtain ⟨w, _, inside⟩ := List.mem_flatMap.mp member
  unfold writeRecords at inside
  split at inside
  · exact changeRecords_uncounted S db _ _ _ _ r inside
  · cases inside

end

/-! ### The ledger of one store -/

/-- The ids that the calls of `put_auto` in one transaction took from its counter, and those
among them that were returned. -/
structure Draws where
  taken : List UInt64
  returned : List UInt64
  deriving DecidableEq, Repr

/-- A session, what each open transaction drew, and the ids of the calls that took effect. -/
structure Ledger where
  session : Session
  draws : List Draws
  effective : List UInt64

def idOf : Value → Option UInt64
  | .number (.posInt n) => some n
  | _ => none

/-- The id a call of `put_auto` returned. -/
def idReturned (result : Except FlowError Value) : List UInt64 := (result.toOption.bind idOf).toList

/-- The id a call of `put_auto` took, whether or not it then failed. -/
def idTaken (store : String) (before after : Transaction) : List UInt64 :=
  if after.nextIds.get? store = before.nextIds.get? store then [] else (after.nextIds.get? store).toList

/-- The persisted counter. -/
def counterOf (db : JsonDB) (store : String) : Nat :=
  match readCounter db store with
  | .ok n => n.toNat
  | .error _ => 0

section
variable (S : Serde) (store : String)

def Ledger.step (l : Ledger) (c : Call) : Ledger :=
  let session := (perform S l.session c).2
  match c with
  | .putAuto name doc =>
      { l with
        session
        effective := if name = store then l.effective ++ idReturned (putAuto S l.session.db name doc).1 else l.effective }
  | .openTx stores mode =>
      { l with
        session
        draws := if (transaction l.session.db stores mode).toBool then l.draws ++ [⟨[], []⟩] else l.draws }
  | .txPutAuto i name doc =>
      match l.session.txs[i]?, l.draws[i]? with
      | some tx, some d =>
          let call := tx.putAuto S l.session.db name doc
          let returned := if name = store then idReturned call.1 else []
          { l with session, draws := l.draws.set i ⟨d.taken ++ idTaken store tx call.2, d.returned ++ returned⟩ }
      | _, _ => { l with session }
  | .commit i order =>
      match l.session.txs[i]?, l.draws[i]? with
      | some tx, some d =>
          { session
            draws := l.draws.eraseIdx i
            effective := if (tx.commit S l.session.db order).1.toBool then l.effective ++ d.returned else l.effective }
      | _, _ => { l with session }
  | .abort i => { l with session, draws := l.draws.eraseIdx i }
  | _ => { l with session }

/-- The ids that took effect only grow, so each names a document of its own. -/
def NoReuse (l : Ledger) : Prop :=
  l.effective.Pairwise (· < ·) ∧ (l.effective.map fun id => docKey store (decimal id.toNat)).Nodup

/-- A direct call finds a counter that can still be raised; a transaction whose writes pass the checks
of `commit` drew at most one id, and the persisted counter is the one that it drew from. -/
def Orderly (l : Ledger) : Call → Prop
  | .putAuto name _ => name = store → counterOf l.session.db store + 1 < 2 ^ 64
  | .commit i order => ∀ tx d, l.session.txs[i]? = some tx → l.draws[i]? = some d →
      (commitWrites S l.session.db order order tx.counterUpdates).toBool →
        d.taken = [] ∨ d.taken.map UInt64.toNat = [counterOf l.session.db store + 1]
  | _ => True

/-- Every call of the run is orderly where it is made. -/
def OrderlyRun : Ledger → List Call → Prop
  | _, [] => True
  | l, c :: rest => Orderly S store l c ∧ OrderlyRun (l.step S store c) rest

/-! ### The invariant -/

def counterRecord (n : UInt64) : InternalRecord := putRecord (counterKey store) (toBe 8 n.toNat)

/-- What a transaction holds of the counter. -/
structure Holds (tx : Transaction) (d : Draws) : Prop where
  pending : tx.committed = false
  points : ∀ r ∈ tx.counterUpdates, Point r
  last : tx.nextIds.get? store = d.taken.getLast?
  record : tx.counterUpdates.filter (fun r => decide (r.key = counterKey store)) =
    (d.taken.head?.toList).map (counterRecord store)
  returned : d.returned.Sublist d.taken

structure Counted (l : Ledger) : Prop where
  ordered : l.effective.Pairwise (· < ·)
  bounded : ∀ id ∈ l.effective, id.toNat ≤ counterOf l.session.db store
  same : l.draws.length = l.session.txs.length
  holds : ∀ (i : Nat) tx d, l.session.txs[i]? = some tx → l.draws[i]? = some d → Holds store tx d

end

/-! ### What a call does to the counter -/

theorem counterOf_congr {db after : JsonDB} {store : String}
    (same : after.engine.get? (counterKey store) = db.engine.get? (counterKey store)) :
    counterOf after store = counterOf db store := by
  rw [counterOf, counterOf, readCounter, readCounter, getBytes, getBytes, same]

theorem counterKey_inj {a b : String} (same : counterKey a = counterKey b) : a = b :=
  utf8_injective a b (List.cons.inj same).2

theorem counterOf_record (engine : Engine) (schema : OMap String StoreDef) (store : String) (n : UInt64)
    (there : engine.get? (counterKey store) = some (toBe 8 n.toNat)) : counterOf ⟨engine, schema⟩ store = n.toNat := by
  have small : n.toNat < 256 ^ 8 := by
    have := n.toNat_lt
    omega
  rw [counterOf, readCounter, getBytes, there]
  simp [ofBe_toBe 8 _ small]

section
variable {S : Serde} {store : String}

theorem counterOf_commitBatch {α : Type} {db : JsonDB} {attempt : Except FlowError (α × List InternalRecord)}
    (uncounted : ∀ result records, attempt = .ok (result, records) → ∀ r ∈ records, Uncounted r) :
    counterOf (commitBatch db attempt).2 store = counterOf db store := by
  cases attempt with
  | error e => rfl
  | ok p => exact counterOf_congr (get?_uncounted (uncounted p.1 p.2 rfl) db.engine store)

theorem counterOf_createObjectStore (db : JsonDB) (name keyPath : String) :
    counterOf (createObjectStore S db name keyPath).2 store = counterOf db store := by
  unfold createObjectStore
  dsimp only
  split
  · next after done =>
    obtain ⟨_, _, done⟩ := bind_ok done
    split at done
    · split_ifs at done
      obtain rfl := Except.ok.inj done
      rfl
    · obtain ⟨record, written, done⟩ := bind_ok done
      obtain rfl := Except.ok.inj done
      obtain ⟨text, _, rfl⟩ := schemaRecord_printed written
      refine counterOf_congr (get?_uncounted (fun r member => ?_) db.engine store)
      obtain rfl := List.mem_singleton.mp member
      exact ⟨.inl rfl, (by decide : some schTag ≠ some ctrTag)⟩
  · rfl

theorem counterOf_createIndex (db : JsonDB) (name index : String) (keyPaths : List String) (unique : Bool) :
    counterOf (createIndex S db name index keyPaths unique).2 store = counterOf db store := by
  unfold createIndex
  dsimp only
  split
  · next after done =>
    obtain ⟨d, _, done⟩ := bind_ok done
    obtain ⟨_, _, done⟩ := bind_ok done
    obtain ⟨record, written, done⟩ := bind_ok done
    obtain ⟨records, filled, done⟩ := bind_ok done
    obtain rfl := Except.ok.inj done
    obtain ⟨text, _, rfl⟩ := schemaRecord_printed written
    obtain ⟨entries, rfl, each⟩ := backfill_appends filled
    refine counterOf_congr (get?_uncounted (fun r member => ?_) db.engine store)
    rcases List.mem_append.mp member with here | there
    · obtain rfl := List.mem_singleton.mp here
      exact ⟨.inl rfl, (by decide : some schTag ≠ some ctrTag)⟩
    · obtain ⟨value, key, rfl⟩ := each r there
      exact ⟨.inl rfl, (by decide : some idxTag ≠ some ctrTag)⟩
  · rfl

theorem counterOf_put (db : JsonDB) (name : String) (doc : Value) :
    counterOf (put S db name doc).2 store = counterOf db store := by
  refine counterOf_commitBatch fun result records done => ?_
  obtain ⟨d, _, done⟩ := bind_ok done
  obtain ⟨keyVal, _, done⟩ := bind_ok done
  obtain ⟨key, _, done⟩ := bind_ok done
  obtain ⟨docBytes, _, done⟩ := bind_ok done
  obtain ⟨batch, built, done⟩ := bind_ok done
  obtain ⟨rfl, rfl⟩ := Prod.mk.inj (Except.ok.inj done)
  rw [(buildPutBatch_ok built).1]
  exact changeRecords_uncounted S db d name key _

theorem counterOf_delete (db : JsonDB) (name : String) (keyVal : Value) :
    counterOf (delete S db name keyVal).2 store = counterOf db store := by
  refine counterOf_commitBatch fun result records done => ?_
  obtain ⟨d, _, done⟩ := bind_ok done
  obtain ⟨key, _, done⟩ := bind_ok done
  obtain ⟨batch, built, done⟩ := bind_ok done
  obtain ⟨rfl, rfl⟩ := Prod.mk.inj (Except.ok.inj done)
  rw [buildDeleteBatch_ok built]
  exact changeRecords_uncounted S db d name key none

/-- A counter that was read gives the next id. -/
theorem prepareCounter_ok {db : JsonDB} {id : UInt64} {r : InternalRecord} (done : prepareCounter db store = .ok (id, r)) :
    id = UInt64.ofNat (counterOf db store) + 1 ∧ r = counterRecord store id := by
  obtain ⟨current, read, done⟩ := bind_ok done
  obtain ⟨rfl, rfl⟩ := Prod.mk.inj (Except.ok.inj done)
  refine ⟨?_, rfl⟩
  rw [counterOf, read]
  simp

/-- A direct call fails and changes nothing, or returns the next id and persists it. -/
theorem putAuto_cases (db : JsonDB) (name : String) (doc : Value) :
    ((putAuto S db name doc).2 = db ∧ idReturned (putAuto S db name doc).1 = []) ∨
      ∃ id records,
        (putAuto S db name doc).2 = { db with engine := writeInternal db.engine (records ++ [counterRecord name id]) } ∧
        idReturned (putAuto S db name doc).1 = [id] ∧ id = UInt64.ofNat (counterOf db name) + 1 ∧
        ∀ r ∈ records, Uncounted r := by
  cases run : putAuto S db name doc with
  | mk result after =>
    unfold putAuto commitBatch at run
    split at run
    · next keyVal records done =>
      obtain ⟨rfl, rfl⟩ := Prod.mk.inj run
      obtain ⟨d, _, done⟩ := bind_ok done
      obtain ⟨_, _, done⟩ := bind_ok done
      obtain ⟨⟨id, counterRec⟩, prepared, done⟩ := bind_ok done
      obtain ⟨docBytes, _, done⟩ := bind_ok done
      obtain ⟨batch, built, done⟩ := bind_ok done
      obtain ⟨rfl, rfl⟩ := Prod.mk.inj (Except.ok.inj done)
      obtain ⟨next, rfl⟩ := prepareCounter_ok prepared
      obtain ⟨rfl, _⟩ := buildPutBatch_ok built
      exact .inr ⟨id, _, rfl, rfl, next, changeRecords_uncounted S db d name _ _⟩
    · obtain ⟨rfl, rfl⟩ := Prod.mk.inj run
      exact .inl ⟨rfl, rfl⟩

theorem counterOf_counted (db : JsonDB) (name : String) (records : List InternalRecord)
    (uncounted : ∀ r ∈ records, Uncounted r) (id : UInt64) :
    counterOf { db with engine := writeInternal db.engine (records ++ [counterRecord name id]) } store =
      if name = store then id.toNat else counterOf db store := by
  have after : (writeInternal db.engine (records ++ [counterRecord name id])).get? (counterKey store) =
      if counterKey store = counterKey name then some (toBe 8 id.toNat)
      else (writeInternal db.engine records).get? (counterKey store) := by
    rw [writeInternal_append]
    exact get?_put _ _ _ _
  split_ifs with here
  · subst here
    exact counterOf_record _ _ _ id (after.trans (if_pos rfl))
  · have other : counterKey store ≠ counterKey name := fun same => here (counterKey_inj same).symm
    refine counterOf_congr (after.trans ((if_neg other).trans (get?_uncounted uncounted db.engine store)))

/-! ### What a call does to a transaction -/

theorem holds_buffer {tx : Transaction} {d : Draws} (holds : Holds store tx d) (name : String) (key : Bytes)
    (doc : Option Bytes) : Holds store (tx.buffer name key doc) d :=
  ⟨holds.pending, holds.points, holds.last, holds.record, holds.returned⟩

theorem holds_put {db : JsonDB} {tx : Transaction} {d : Draws} (holds : Holds store tx d) (name : String) (doc : Value) :
    Holds store (keepOnError tx (tx.put S db name doc)).2 d := by
  cases done : tx.put S db name doc with
  | error e => exact holds
  | ok after =>
    obtain ⟨_, _, done⟩ := bind_ok done
    obtain ⟨_, _, done⟩ := bind_ok done
    obtain ⟨_, _, done⟩ := bind_ok done
    obtain ⟨key, _, done⟩ := bind_ok done
    obtain ⟨docBytes, _, done⟩ := bind_ok done
    obtain rfl := Except.ok.inj done
    exact holds_buffer holds name key _

theorem holds_delete {db : JsonDB} {tx : Transaction} {d : Draws} (holds : Holds store tx d) (name : String) (keyVal : Value) :
    Holds store (keepOnError tx (tx.delete S db name keyVal)).2 d := by
  cases done : tx.delete S db name keyVal with
  | error e => exact holds
  | ok after =>
    obtain ⟨_, _, done⟩ := bind_ok done
    obtain ⟨_, _, done⟩ := bind_ok done
    obtain ⟨key, _, done⟩ := bind_ok done
    obtain rfl := Except.ok.inj done
    exact holds_buffer holds name key none

theorem succ_ne (n : UInt64) : n + 1 ≠ n := by
  intro same
  have numbers := congrArg UInt64.toNat same
  rw [UInt64.toNat_add] at numbers
  have := n.toNat_lt
  simp at numbers
  omega

/-- The ids of a call that took one for the store. -/
theorem holds_taken {tx after : Transaction} {d : Draws} {id : UInt64} (holds : Holds store tx d)
    (next : after.nextIds = tx.nextIds.insert store id) (new : tx.nextIds.get? store ≠ some id)
    (points : ∀ r ∈ after.counterUpdates, Point r)
    (record : after.counterUpdates.filter (fun r => decide (r.key = counterKey store)) =
      (d.taken ++ [id]).head?.toList.map (counterRecord store))
    {returned : List UInt64} (given : returned.Sublist [id]) (pending : after.committed = tx.committed) :
    Holds store after ⟨d.taken ++ idTaken store tx after, d.returned ++ returned⟩ := by
  have there : after.nextIds.get? store = some id := by rw [next, get?_insert_self]
  have taken : idTaken store tx after = [id] := by
    rw [idTaken, there, if_neg (Ne.symm new)]
    rfl
  rw [taken]
  exact ⟨pending.trans holds.pending, points, by rw [there, List.getLast?_concat], record, holds.returned.append given⟩

/-- A call on another store. -/
theorem holds_untaken {tx after : Transaction} {d : Draws} (holds : Holds store tx d)
    (pending : after.committed = tx.committed) (next : after.nextIds.get? store = tx.nextIds.get? store)
    (points : ∀ r ∈ after.counterUpdates, Point r)
    (record : after.counterUpdates.filter (fun r => decide (r.key = counterKey store)) =
      tx.counterUpdates.filter fun r => decide (r.key = counterKey store)) :
    Holds store after ⟨d.taken ++ idTaken store tx after, d.returned ++ []⟩ := by
  rw [idTaken, if_pos next, List.append_nil, List.append_nil]
  exact ⟨pending.trans holds.pending, points, next.trans holds.last, record.trans holds.record, holds.returned⟩

theorem holds_nextId {db : JsonDB} {tx after : Transaction} {d : Draws} {name : String} {id : UInt64}
    (holds : Holds store tx d) (done : nextId db tx name = .ok (id, after)) {returned : List UInt64}
    (given : returned.Sublist [id]) :
    Holds store after ⟨d.taken ++ idTaken store tx after, d.returned ++ if name = store then returned else []⟩ := by
  unfold nextId at done
  split at done
  · next existing before =>
    obtain ⟨rfl, rfl⟩ := Prod.mk.inj (Except.ok.inj done)
    -- A later id is counted in memory only: the record stays that of the first.
    split_ifs with here
    · subst here
      have last := holds.last.symm.trans before
      have raised : ({ tx with nextIds := tx.nextIds.insert name (existing + 1) } : Transaction).nextIds =
          tx.nextIds.insert name (existing + 1) := rfl
      refine holds_taken holds raised ?_ holds.points ?_ given rfl
      · rw [before]
        exact fun same => succ_ne existing (Option.some.inj same).symm
      · obtain ⟨front, shape⟩ := List.getLast?_eq_some_iff.mp last
        rw [holds.record, shape]
        cases front <;> rfl
    · exact holds_untaken holds rfl (by rw [get?_insert, if_neg (Ne.symm here)]) holds.points rfl
  · next before =>
    obtain ⟨⟨id', counterRec⟩, prepared, done⟩ := bind_ok done
    obtain ⟨rfl, rfl⟩ := Prod.mk.inj (Except.ok.inj done)
    obtain ⟨_, rfl⟩ := prepareCounter_ok prepared
    have points : ∀ r ∈ tx.counterUpdates ++ [counterRecord name id'], Point r := by
      intro r member
      rcases List.mem_append.mp member with old | new
      · exact holds.points r old
      · obtain rfl := List.mem_singleton.mp new
        exact .inl rfl
    split_ifs with here
    · subst here
      have none_taken : d.taken = [] := List.getLast?_eq_none_iff.mp (holds.last.symm.trans before)
      refine holds_taken holds rfl (by rw [before]; exact nofun) points ?_ given rfl
      rw [List.filter_append, holds.record, none_taken]
      simp [counterRecord, putRecord, InternalRecord.fromRecord, Record.new]
    · have other : ¬ counterKey name = counterKey store := fun same => here (counterKey_inj same)
      refine holds_untaken holds rfl (by rw [get?_insert, if_neg (Ne.symm here)]) points ?_
      rw [List.filter_append, List.filter_singleton]
      simp [counterRecord, putRecord, InternalRecord.fromRecord, Record.new, other]

theorem holds_putAuto {db : JsonDB} {tx : Transaction} {d : Draws} (holds : Holds store tx d) (name : String) (doc : Value) :
    Holds store (tx.putAuto S db name doc).2
      ⟨d.taken ++ idTaken store tx (tx.putAuto S db name doc).2,
        d.returned ++ if name = store then idReturned (tx.putAuto S db name doc).1 else []⟩ := by
  have kept : ∀ result : Except FlowError Value, idReturned result = [] →
      Holds store tx ⟨d.taken ++ idTaken store tx tx, d.returned ++ if name = store then idReturned result else []⟩ := by
    intro result nothing
    rw [idTaken, if_pos rfl, nothing, ite_self, List.append_nil, List.append_nil]
    exact holds
  unfold Transaction.putAuto
  dsimp only
  split
  · exact kept _ rfl
  · next d' id tx' started =>
    obtain ⟨_, _, started⟩ := bind_ok started
    obtain ⟨_, _, started⟩ := bind_ok started
    obtain ⟨_, _, started⟩ := bind_ok started
    obtain ⟨⟨id', tx''⟩, counted, started⟩ := bind_ok started
    obtain ⟨rfl, rfl, rfl⟩ : _ = d' ∧ id' = id ∧ tx'' = tx' := by simpa using Except.ok.inj started
    split
    · have after := holds_nextId holds counted (List.Sublist.refl [id'])
      exact holds_buffer after _ _ _
    · exact holds_nextId holds counted (List.nil_sublist _)

/-- A commit that succeeds leaves the counter at the first id the transaction took, if any. -/
theorem commit_cases {db : JsonDB} {tx : Transaction} {d : Draws} (holds : Holds store tx d) (order : List Write) :
    ((commitWrites S db order order tx.counterUpdates).toBool = true ∧ (tx.commit S db order).1 = .ok () ∧
        counterOf (tx.commit S db order).2 store = (d.taken.head?.map UInt64.toNat).getD (counterOf db store)) ∨
      (tx.commit S db order).1.toBool = false ∧ (tx.commit S db order).2 = db := by
  rw [commit_live holds.pending]
  cases walked : commitWrites S db order order tx.counterUpdates with
  | error e => exact .inr ⟨rfl, rfl⟩
  | ok records =>
    refine .inl ⟨rfl, rfl, ?_⟩
    obtain ⟨rfl, _⟩ := commitWrites_ok walked
    have uncounted := writeRecords_uncounted S db order
    have points : ∀ r ∈ tx.counterUpdates ++ order.flatMap (writeRecords S db), Point r := by
      intro r member
      rcases List.mem_append.mp member with old | new
      · exact holds.points r old
      · exact (uncounted r new).1
    have counted : (writeInternal db.engine (tx.counterUpdates ++ order.flatMap (writeRecords S db))).get? (counterKey store) =
        (writeInternal db.engine (d.taken.head?.toList.map (counterRecord store))).get? (counterKey store) := by
      rw [writeInternal_append, get?_uncounted uncounted, get?_filterKey holds.points, holds.record]
    cases first : d.taken.head? with
    | none =>
      rw [first] at counted
      exact counterOf_congr counted
    | some f =>
      rw [first] at counted
      refine counterOf_record _ _ _ f (counted.trans ?_)
      exact (get?_put db.engine _ _ _).trans (if_pos rfl)

/-! ### One call, and a run -/

variable {txs : List Transaction} {draws : List Draws}
  (holds : ∀ (i : Nat) tx d, txs[i]? = some tx → draws[i]? = some d → Holds store tx d)
include holds

theorem holds_eraseIdx (i : Nat) : ∀ (j : Nat) tx d, (txs.eraseIdx i)[j]? = some tx → (draws.eraseIdx i)[j]? = some d →
    Holds store tx d := by
  intro j tx d
  rw [List.getElem?_eraseIdx, List.getElem?_eraseIdx]
  split_ifs
  · exact holds j tx d
  · exact holds (j + 1) tx d

theorem holds_set {i : Nat} {tx' : Transaction} {d' : Draws} (new : Holds store tx' d') :
    ∀ (j : Nat) tx d, (txs.set i tx')[j]? = some tx → (draws.set i d')[j]? = some d → Holds store tx d := by
  intro j tx d there drew
  rw [List.getElem?_set] at there drew
  split_ifs at there drew with same
  · obtain rfl := Option.some.inj there
    obtain rfl := Option.some.inj drew
    exact new
  · exact holds j tx d there drew

/-- A transaction that drew nothing more. -/
theorem holds_kept {i : Nat} {tx' : Transaction}
    (new : ∀ tx d, txs[i]? = some tx → Holds store tx d → Holds store tx' d) :
    ∀ (j : Nat) tx d, (txs.set i tx')[j]? = some tx → draws[j]? = some d → Holds store tx d := by
  intro j tx d there drew
  rw [List.getElem?_set] at there
  split_ifs at there with same inside
  · subst same
    obtain rfl := Option.some.inj there
    have before : txs[i]? = some txs[i] := List.getElem?_eq_getElem inside
    exact new _ d before (holds i _ d before drew)
  · exact holds j tx d there drew

end

section
variable {S : Serde} {store : String} {l : Ledger} (counted : Counted store l)
include counted

/-- A call that changes neither the counter nor a transaction. -/
theorem counted_db {db : JsonDB} (same : counterOf db store = counterOf l.session.db store) :
    Counted store { l with session := { l.session with db } } :=
  ⟨counted.ordered, fun id member => (counted.bounded id member).trans_eq same.symm, counted.same, counted.holds⟩

/-- Ids above the counter may take effect together with a counter raised to the last of them. -/
theorem counted_effect {db : JsonDB} {txs : List Transaction} {draws : List Draws} {ids : List UInt64}
    (single : ids = [] ∨ ∃ id, ids = [id] ∧ counterOf l.session.db store < id.toNat)
    (raised : counterOf l.session.db store ≤ counterOf db store) (reached : ∀ id ∈ ids, id.toNat ≤ counterOf db store)
    (same : draws.length = txs.length)
    (holds : ∀ (i : Nat) tx d, txs[i]? = some tx → draws[i]? = some d → Holds store tx d) :
    Counted store ⟨⟨db, txs⟩, draws, l.effective ++ ids⟩ := by
  refine ⟨?_, fun id member => ?_, same, holds⟩
  · rcases single with rfl | ⟨id, rfl, above⟩
    · rw [List.append_nil]
      exact counted.ordered
    · refine List.pairwise_append.mpr ⟨counted.ordered, List.pairwise_singleton _ _, fun a early b late => ?_⟩
      obtain rfl := List.mem_singleton.mp late
      exact UInt64.lt_iff_toNat_lt.mpr ((counted.bounded a early).trans_lt above)
  · rcases List.mem_append.mp member with early | late
    · exact (counted.bounded id early).trans raised
    · exact reached id late

theorem counted_putAuto (name : String) (doc : Value) (orderly : Orderly S store l (.putAuto name doc)) :
    Counted store (l.step S store (.putAuto name doc)) := by
  simp only [Ledger.step, perform, onDb]
  rcases putAuto_cases (S := S) l.session.db name doc with
    ⟨kept, nothing⟩ | ⟨id, records, written, returned, next, uncounted⟩
  · rw [kept, nothing, List.append_nil, ite_self]
    exact counted
  · rw [written, returned]
    have after := @counterOf_counted store l.session.db name records uncounted id
    split_ifs at after ⊢ with here
    · subst here
      have room := orderly rfl
      have value : id.toNat = counterOf l.session.db name + 1 := by
        rw [next, UInt64.toNat_add, UInt64.toNat_ofNat']
        simp
        omega
      refine counted_effect counted (.inr ⟨id, rfl, by omega⟩) (by omega) (fun x member => ?_) counted.same counted.holds
      rw [List.mem_singleton.mp member, after]
    · exact counted_db counted after

theorem counted_commit (i : Nat) (order : List Write) (orderly : Orderly S store l (.commit i order)) :
    Counted store (l.step S store (.commit i order)) := by
  simp only [Ledger.step, perform]
  cases there : l.session.txs[i]? with
  | none => exact counted
  | some tx =>
    have inside : i < l.draws.length := counted.same ▸ (List.getElem?_eq_some_iff.mp there).1
    have drew : l.draws[i]? = some l.draws[i] := List.getElem?_eq_getElem inside
    rw [drew]
    dsimp only
    have holds := counted.holds i tx _ there drew
    have rest := holds_eraseIdx counted.holds i
    have same : (l.draws.eraseIdx i).length = (l.session.txs.eraseIdx i).length := by
      rw [List.length_eraseIdx, List.length_eraseIdx, counted.same]
    rcases @commit_cases S store l.session.db _ _ holds order with ⟨passed, ok, after⟩ | ⟨failed, kept⟩
    · rw [ok]
      change Counted store ⟨⟨_, _⟩, _, l.effective ++ l.draws[i].returned⟩
      rcases orderly tx _ there drew passed with none_taken | one_taken
      · have none_returned : l.draws[i].returned = [] := List.sublist_nil.mp (none_taken ▸ holds.returned)
        have kept : counterOf (tx.commit S l.session.db order).2 store = counterOf l.session.db store := by
          rw [after, none_taken]
          rfl
        exact counted_effect counted (.inl none_returned) kept.ge (by simp [none_returned]) same rest
      · obtain ⟨id, drawn, next⟩ := List.map_eq_singleton_iff.mp one_taken
        have raised : counterOf (tx.commit S l.session.db order).2 store = id.toNat := by
          rw [after, drawn]
          rfl
        have given : l.draws[i].returned.Sublist [id] := drawn ▸ holds.returned
        refine counted_effect counted ?_ (by omega) (fun x member => ?_) same rest
        · rcases List.sublist_singleton.mp given with nothing | all
          · exact .inl nothing
          · exact .inr ⟨id, all, by omega⟩
        · rw [List.mem_singleton.mp (given.subset member), raised]
    · rw [failed, kept]
      exact ⟨counted.ordered, counted.bounded, same, rest⟩

theorem counted_openTx (stores : List String) (mode : TransactionMode) :
    Counted store (l.step S store (.openTx stores mode)) := by
  simp only [Ledger.step, perform]
  cases opened : transaction l.session.db stores mode with
  | error e => exact counted
  | ok tx =>
    obtain ⟨_, _, opened⟩ := bind_ok opened
    obtain rfl := Except.ok.inj opened
    refine ⟨counted.ordered, counted.bounded, by simp [Except.toBool, counted.same], fun i tx d there drew => ?_⟩
    simp only [Except.toBool, if_true] at drew
    rw [List.getElem?_append] at there drew
    rw [counted.same] at drew
    split_ifs at there drew
    · exact counted.holds i tx d there drew
    · rw [List.getElem?_singleton] at there drew
      split_ifs at there drew
      obtain rfl := Option.some.inj there
      obtain rfl := Option.some.inj drew
      exact ⟨rfl, List.forall_mem_nil _, rfl, rfl, List.Sublist.refl []⟩

/-- A call on one transaction that draws nothing. -/
theorem counted_onTx (i : Nat) (call : Transaction → Except FlowError Unit × Transaction)
    (kept : ∀ tx d, Holds store tx d → Holds store (call tx).2 d) :
    Counted store { l with session := (onTx l.session i call).2 } := by
  unfold onTx
  split
  · next tx there =>
    refine ⟨counted.ordered, counted.bounded, counted.same.trans List.length_set.symm, ?_⟩
    refine holds_kept counted.holds fun tx' d same => ?_
    obtain rfl := Option.some.inj (there.symm.trans same)
    exact kept tx d
  · exact counted

theorem counted_txPutAuto (i : Nat) (name : String) (doc : Value) :
    Counted store (l.step S store (.txPutAuto i name doc)) := by
  simp only [Ledger.step, perform, onTx]
  cases there : l.session.txs[i]? with
  | none => exact counted
  | some tx =>
    have inside : i < l.draws.length := counted.same ▸ (List.getElem?_eq_some_iff.mp there).1
    have drew : l.draws[i]? = some l.draws[i] := List.getElem?_eq_getElem inside
    rw [drew]
    refine ⟨counted.ordered, counted.bounded, ?_, ?_⟩
    · rw [List.length_set, List.length_set, counted.same]
    · exact holds_set counted.holds (holds_putAuto (counted.holds i tx _ there drew) name doc)

/-- One call keeps the ids that took effect in order and below the counter. -/
theorem counted_step (c : Call) (orderly : Orderly S store l c) : Counted store (l.step S store c) := by
  cases c with
  | createObjectStore name keyPath => exact counted_db counted (counterOf_createObjectStore l.session.db name keyPath)
  | createIndex name index keyPaths unique =>
    exact counted_db counted (counterOf_createIndex l.session.db name index keyPaths unique)
  | put name doc => exact counted_db counted (counterOf_put l.session.db name doc)
  | delete name key => exact counted_db counted (counterOf_delete l.session.db name key)
  | putAuto name doc => exact counted_putAuto counted name doc orderly
  | openTx stores mode => exact counted_openTx counted stores mode
  | txPut i name doc => exact counted_onTx counted i _ fun _ _ holds => holds_put holds name doc
  | txDelete i name key => exact counted_onTx counted i _ fun _ _ holds => holds_delete holds name key
  | txPutAuto i name doc => exact counted_txPutAuto counted i name doc
  | commit i order => exact counted_commit counted i order orderly
  | abort i =>
    refine ⟨counted.ordered, counted.bounded, ?_, holds_eraseIdx counted.holds i⟩
    rw [Ledger.step, List.length_eraseIdx]
    change _ = (l.session.txs.eraseIdx i).length
    rw [List.length_eraseIdx, counted.same]

end

section
variable {S : Serde} {store : String}

theorem counted_run (calls : List Call) {l : Ledger} (counted : Counted store l) (orderly : OrderlyRun S store l calls) :
    Counted store (calls.foldl (Ledger.step S store) l) := by
  induction calls generalizing l with
  | nil => exact counted
  | cons c rest ih => exact ih (counted_step counted c orderly.1) orderly.2

/-- Ids in order name documents of their own. -/
theorem counted_noReuse {l : Ledger} (counted : Counted store l) : NoReuse store l := by
  refine ⟨counted.ordered, ?_⟩
  have distinct : l.effective.Nodup := counted.ordered.imp UInt64.ne_of_lt
  exact distinct.map fun a b same => UInt64.toNat_inj.mp (decimal_injective (docKey_injective store same))

/-- In a run whose calls are all orderly, the ids that took effect increase strictly, so no
`put_auto` overwrites a document of an earlier one. -/
theorem auto_ids_increase (S : Serde) (store : String) (db : JsonDB) (calls : List Call)
    (orderly : OrderlyRun S store ⟨⟨db, []⟩, [], []⟩ calls) :
    NoReuse store (calls.foldl (Ledger.step S store) ⟨⟨db, []⟩, [], []⟩) :=
  counted_noReuse (counted_run calls ⟨List.Pairwise.nil, nofun, rfl, fun _ _ _ => nofun⟩ orderly)

end

/-! An auto-increment store, and the texts of its first two documents. -/

def firstText : Bytes := utf8 "\x7b\"id\":1\x7d"

def secondText : Bytes := utf8 "\x7b\"id\":2\x7d"

def itemsSerde : Serde where
  toVec v := match v with
    | .object [("id", .number (.posInt 1))] => some firstText
    | .object [("id", .number (.posInt 2))] => some secondText
    | _ => none
  fromSlice b :=
    if b = firstText then some (.object [("id", .number (.posInt 1))])
    else if b = secondText then some (.object [("id", .number (.posInt 2))]) else none
  floatText _ := [48, 46, 48]
  debugValues _ := "[Number(1)]"
  debugLossy _ := "\"1\""
  errorText _ := "expected value at line 1 column 1"
  round_trip v b _ written := by
    split at written
    · obtain rfl := Option.some.inj written
      exact if_pos rfl
    · obtain rfl := Option.some.inj written
      exact (if_neg (by decide)).trans (if_pos rfl)
    · cases written
  text_nul_free v b written := by
    split at written
    · obtain rfl := Option.some.inj written
      decide
    · obtain rfl := Option.some.inj written
      decide
    · cases written
  float_nul_free := zeroPointZero_nul_free

def itemsDb : JsonDB := ⟨∅, (∅ : OMap String StoreDef).insert "items" ⟨"items", "id", true, [], 0⟩⟩

def firstWrite : Write := (toLex ("items", utf8 "1"), some firstText)

def secondWrite : Write := (toLex ("items", utf8 "2"), some secondText)

/-- A transaction with one `put_auto`, and a direct one after it. -/
def oneThenDirect : List Call :=
  [.openTx ["items"] .readWrite, .txPutAuto 0 "items" (.object []), .commit 0 [firstWrite], .putAuto "items" (.object [])]

def twoThenDirect : List Call :=
  [.openTx ["items"] .readWrite, .txPutAuto 0 "items" (.object []), .txPutAuto 0 "items" (.object []),
    .commit 0 [firstWrite, secondWrite], .putAuto "items" (.object [])]

/-- The direct call after a transaction with two overwrites the second document of the transaction. -/
theorem auto_id_reused :
    (twoThenDirect.foldl (Ledger.step itemsSerde "items") ⟨⟨itemsDb, []⟩, [], []⟩).effective = [1, 2, 2] ∧
      ¬ NoReuse "items" (twoThenDirect.foldl (Ledger.step itemsSerde "items") ⟨⟨itemsDb, []⟩, [], []⟩) := by
  have ids : (twoThenDirect.foldl (Ledger.step itemsSerde "items") ⟨⟨itemsDb, []⟩, [], []⟩).effective = [1, 2, 2] := by
    decide +kernel
  refine ⟨ids, fun kept => ?_⟩
  have ordered := kept.1
  rw [ids] at ordered
  exact absurd ordered (by decide)

theorem auto_ids_one_each :
    NoReuse "items" (oneThenDirect.foldl (Ledger.step itemsSerde "items") ⟨⟨itemsDb, []⟩, [], []⟩) := by
  refine auto_ids_increase itemsSerde "items" itemsDb oneThenDirect ⟨trivial, trivial, ?_, ?_, trivial⟩
  · rintro tx d there drew -
    have ids : ∀ d,
        ((oneThenDirect.take 2).foldl (Ledger.step itemsSerde "items") ⟨⟨itemsDb, []⟩, [], []⟩).draws[0]? = some d →
          d.taken.map UInt64.toNat = [1] := by decide +kernel
    exact .inr (ids d drew)
  · intro _
    decide +kernel

end FlowDb.AutoIncrementIds
