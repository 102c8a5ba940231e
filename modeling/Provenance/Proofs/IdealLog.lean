import Provenance.Proofs.Offsets

/-!
# The log and its past

An ideal log keeps nothing but its past, the calls that changed it (`LogEdit`). What it answers is
read off the past: the next offset of a partition is the number of writes to it and one more, and it
holds what was written under a key that no later call deleted (`LogEdit.remaining`). A `RecordLog`
keeps a counter and a list for each partition, from which it takes deleted bundles out.

* `LogEdit.mem_remainingFrom`: which bundles remain;
* `RecordLog.Reflects`: counters and lists are those of the past, which each call preserves
  (`RecordLog.Reflects.edit`).

Main statement `RecordLog.serveAll_ideal`: the log answers every call as the ideal log does.
-/

namespace Provenance

/-! ## Calls and answers -/

/-- A call of a client, which changes the log or only reads it. -/
inductive LogCall
  | edit (e : LogEdit)
  | read (p : PartitionKey)
  | lookUp (p : PartitionKey) (offset : Nat)

def LogCall.edit? : LogCall → Option LogEdit
  | edit e => some e
  | read _ => none
  | lookUp _ _ => none

inductive LogAnswer
  | written (b : Bundle)
  | deleted (count : Nat)
  | bundles (bs : List Bundle)
  | found (b : Option Bundle)

/-- The offset that a write to the partition was given. -/
def LogAnswer.offset? (p : PartitionKey) : LogAnswer → Option Nat
  | written b => if b.partition = p then some b.offset else none
  | _ => none

namespace RecordLog

def serve (log : RecordLog) : LogCall → LogAnswer × RecordLog
  | .edit (.write p key payload) =>
    let (b, log) := log.write p key payload
    (.written b, log)
  | .edit (.delete p keys) =>
    let (count, log) := log.deleteMany p keys
    (.deleted count, log)
  | .read p => (.bundles (log.read p), log)
  | .lookUp p offset => (.found (log.bundleAt? p offset), log)

/-- The answers to a list of calls, and the log after them. -/
def serveAll (log : RecordLog) : List LogCall → List LogAnswer × RecordLog
  | [] => ([], log)
  | call :: calls =>
    let (answer, log) := log.serve call
    let (answers, log) := log.serveAll calls
    (answer :: answers, log)

end RecordLog

/-! ## The ideal log -/

namespace LogEdit

def writesTo (p : PartitionKey) : LogEdit → Bool
  | write q _ _ => q = p
  | delete _ _ => false

def countWrites (p : PartitionKey) (past : List LogEdit) : Nat := past.countP (writesTo p)

/-- The bundles of a partition that no later call deleted, if the partition was written to so many
times before. -/
def remainingFrom (p : PartitionKey) (count : Nat) : List LogEdit → List Bundle
  | [] => []
  | write q key payload :: later =>
    if q = p then
      if later.any (deletes p key) then remainingFrom p (count + 1) later
      else ⟨p, key, count + 1, payload⟩ :: remainingFrom p (count + 1) later
    else remainingFrom p count later
  | delete _ _ :: later => remainingFrom p count later

def remaining (p : PartitionKey) (past : List LogEdit) : List Bundle := remainingFrom p 0 past

/-- What the ideal log answers after a past. -/
def idealAnswer (past : List LogEdit) : LogCall → LogAnswer
  | .edit (.write p key payload) => .written ⟨p, key, countWrites p past + 1, payload⟩
  | .edit (.delete p keys) =>
    .deleted ((remaining p past).countP (fun b => keys.contains b.key))
  | .read p => .bundles (remaining p past)
  | .lookUp p offset => .found ((remaining p past).find? (fun b => b.offset = offset))

def idealAnswers (past : List LogEdit) : List LogCall → List LogAnswer
  | [] => []
  | call :: calls => idealAnswer past call :: idealAnswers (past ++ call.edit?.toList) calls

/-! ## What remains -/

theorem countWrites_append (p : PartitionKey) (past later : List LogEdit) :
    countWrites p (past ++ later) = countWrites p past + countWrites p later :=
  List.countP_append

theorem countWrites_cons (p : PartitionKey) (e : LogEdit) (later : List LogEdit) :
    countWrites p (e :: later) = countWrites p later + if e.writesTo p then 1 else 0 :=
  List.countP_cons

theorem countWrites_write (p q : PartitionKey) (key : String) (payload : Bytes) :
    countWrites p [write q key payload] = if q = p then 1 else 0 := by
  rw [countWrites_cons, writesTo]
  simp [countWrites]

theorem any_deletes_eq_false {p : PartitionKey} {key : String} {later : List LogEdit} :
    later.any (deletes p key) = false ↔ ∀ keys, delete p keys ∈ later → key ∉ keys := by
  rw [List.any_eq_false]
  constructor
  · intro h keys hmem hkey
    apply h _ hmem
    simp [deletes, hkey]
  · intro h e he
    cases e with
    | write q key' payload => exact Bool.false_ne_true
    | delete q keys =>
      simp only [deletes, Bool.and_eq_true, decide_eq_true_eq, List.contains_iff_mem, not_and]
      rintro rfl
      exact h keys he

/-- A longer past: what the later calls delete is gone, and what they write comes behind. -/
theorem remainingFrom_append (p : PartitionKey) (count : Nat) (past later : List LogEdit) :
    remainingFrom p count (past ++ later) =
      (remainingFrom p count past).filter (fun b => !later.any (deletes p b.key)) ++
        remainingFrom p (count + countWrites p past) later := by
  induction past generalizing count with
  | nil => rfl
  | cons e past ih =>
    cases e with
    | delete q keys => exact ih count
    | write q key payload =>
      rw [List.cons_append, remainingFrom, remainingFrom, countWrites_cons, writesTo]
      -- What was written to the partition may be deleted in the past, later, or not at all.
      by_cases hq : q = p
      · have hcount : count + (countWrites p past + 1) = count + 1 + countWrites p past := by
          omega
        simp only [hq, if_true, decide_true, ih, hcount, List.any_append]
        cases past.any (deletes p key) with
        | true => simp only [Bool.true_or, if_true]
        | false =>
          cases hlater : later.any (deletes p key) with
          | true =>
            simp only [Bool.false_or, if_true, Bool.false_eq_true, if_false, List.filter_cons,
              hlater, Bool.not_true]
          | false =>
            simp only [Bool.false_or, if_true, Bool.false_eq_true, if_false, List.filter_cons,
              hlater, Bool.not_false, List.cons_append]
      · simp only [hq, if_false, decide_false, Bool.false_eq_true, ih, Nat.add_zero]

theorem mem_remainingFrom_cons {p : PartitionKey} {count : Nat} {e : LogEdit}
    {later : List LogEdit} {b : Bundle} :
    b ∈ remainingFrom p count (e :: later) ↔
      (∃ key payload, e = write p key payload ∧ b = ⟨p, key, count + 1, payload⟩ ∧
        later.any (deletes p key) = false) ∨
        b ∈ remainingFrom p (count + if e.writesTo p then 1 else 0) later := by
  cases e with
  | delete q keys => simp [remainingFrom, writesTo]
  | write q key payload =>
    rw [remainingFrom, writesTo]
    by_cases hq : q = p
    · subst hq
      cases hlater : later.any (deletes q key) with
      | true =>
        simp only [if_true, decide_true, write.injEq, true_and]
        refine ⟨Or.inr, ?_⟩
        rintro (⟨key', payload', ⟨rfl, -⟩, -, hkept⟩ | h)
        · rw [hlater] at hkept
          cases hkept
        · exact h
      | false =>
        simp only [if_true, decide_true, Bool.false_eq_true, if_false, List.mem_cons, write.injEq,
          true_and]
        constructor
        · rintro (rfl | h)
          · exact Or.inl ⟨key, payload, ⟨rfl, rfl⟩, rfl, hlater⟩
          · exact Or.inr h
        · rintro (⟨key', payload', ⟨rfl, rfl⟩, rfl, -⟩ | h)
          · exact Or.inl rfl
          · exact Or.inr h
    · simp [hq]

/-- **What remains** of a partition: what was written to it under a key that no later call deleted,
with the number of the write. -/
theorem mem_remainingFrom {p : PartitionKey} {count : Nat} {past : List LogEdit} {b : Bundle} :
    b ∈ remainingFrom p count past ↔ ∃ before key payload after,
      past = before ++ write p key payload :: after ∧
        b = ⟨p, key, count + countWrites p before + 1, payload⟩ ∧
          after.any (deletes p key) = false := by
  induction past generalizing count with
  | nil => simp [remainingFrom]
  | cons e past ih =>
    rw [mem_remainingFrom_cons, ih]
    constructor
    · rintro (⟨key, payload, rfl, rfl, hkept⟩ | ⟨before, key, payload, after, rfl, rfl, hkept⟩)
      · exact ⟨[], key, payload, past, rfl, rfl, hkept⟩
      · refine ⟨e :: before, key, payload, after, rfl, ?_, hkept⟩
        rw [countWrites_cons]
        congr 1
        omega
    · rintro ⟨before, key, payload, after, hpast, rfl, hkept⟩
      cases before with
      | nil =>
        obtain ⟨rfl, rfl⟩ := List.cons.inj hpast
        exact Or.inl ⟨key, payload, rfl, rfl, hkept⟩
      | cons e' before =>
        obtain ⟨rfl, rfl⟩ := List.cons.inj hpast
        refine Or.inr ⟨before, key, payload, after, rfl, ?_, hkept⟩
        rw [countWrites_cons]
        congr 1
        omega

theorem remaining_write (p q : PartitionKey) (key : String) (payload : Bytes)
    (past : List LogEdit) :
    remaining p (past ++ [write q key payload]) =
      if q = p then remaining p past ++ [⟨p, key, countWrites p past + 1, payload⟩]
      else remaining p past := by
  have hkept : (remainingFrom p 0 past).filter
      (fun b => !([write q key payload].any (deletes p b.key))) = remainingFrom p 0 past :=
    List.filter_eq_self.mpr (fun _ _ => rfl)
  rw [remaining, remainingFrom_append, hkept, Nat.zero_add]
  by_cases hq : q = p
  · simp only [remainingFrom, hq, if_true, List.any_nil, Bool.false_eq_true, if_false]
    rfl
  · simp only [remainingFrom, hq, if_false, List.append_nil]
    rfl

theorem remaining_delete (p q : PartitionKey) (keys : List String) (past : List LogEdit) :
    remaining p (past ++ [delete q keys]) =
      if q = p then (remaining p past).filter (fun b => !keys.contains b.key)
      else remaining p past := by
  rw [remaining, remainingFrom_append, remainingFrom, remainingFrom, List.append_nil]
  by_cases hq : q = p
  · simp only [List.any_cons, List.any_nil, deletes, hq, decide_true, Bool.true_and, Bool.or_false,
      if_true]
    rfl
  · simp only [List.any_cons, List.any_nil, deletes, hq, decide_false, Bool.false_and,
      Bool.or_false, if_false, Bool.not_false]
    exact List.filter_eq_self.mpr (fun _ _ => rfl)

end LogEdit

/-! ## The log reflects its past -/

namespace RecordLog

open LogEdit (countWrites remaining idealAnswer idealAnswers)

variable {log : RecordLog} {past : List LogEdit}

theorem deleteMany_count (log : RecordLog) (p : PartitionKey) (keys : List String) :
    (log.deleteMany p keys).1 = (log.read p).countP (fun b => keys.contains b.key) := by
  have hcount : ∀ bundles : List Bundle, bundles.length -
      (bundles.filter (fun b => !keys.contains b.key)).length =
        bundles.countP (fun b => keys.contains b.key) := by
    intro bundles
    have hkept := List.length_eq_countP_add_countP (fun b : Bundle => !keys.contains b.key)
      (l := bundles)
    simp only [Bool.not_eq_true, Bool.not_eq_false', Bool.decide_eq_true] at hkept
    rw [← List.countP_eq_length_filter, hkept, Nat.add_sub_cancel_left]
  unfold deleteMany read partition
  cases log.partitions.find? p with
  | none => rfl
  | some s => exact hcount s.bundles

/-- To delete makes no partition and unmakes none. -/
theorem keys_deleteMany (log : RecordLog) (p : PartitionKey) (keys : List String) :
    (log.deleteMany p keys).2.partitions.keys = log.partitions.keys := by
  unfold deleteMany
  split
  · rfl
  · rename_i s hs
    have hmem : p ∈ log.partitions.keys := by
      by_contra hnone
      rw [Table.find?_eq_none.mpr hnone] at hs
      cases hs
    exact (Table.keys_insert p _ log.partitions).trans (if_pos hmem)

/-- The counters and lists of a log are those of its past. -/
structure Reflects (log : RecordLog) (past : List LogEdit) : Prop where
  lastOffset : ∀ p, log.lastOffset p = countWrites p past
  read : ∀ p, log.read p = remaining p past
  partitions : ∀ p, p ∈ log.partitions.keys ↔ 0 < countWrites p past
  nodup : log.partitions.keys.Nodup

theorem reflects_empty : Reflects empty [] where
  lastOffset _ := rfl
  read _ := rfl
  partitions p := by simp [empty, Table.empty, Table.keys, countWrites]
  nodup := List.nodup_nil

theorem Reflects.write (h : log.Reflects past) (q : PartitionKey) (key : String)
    (payload : Bytes) : (log.edit (.write q key payload)).Reflects (past ++ [.write q key payload]) := by
  have hcount : ∀ p, countWrites p (past ++ [.write q key payload]) =
      countWrites p past + if q = p then 1 else 0 := by
    intro p
    rw [LogEdit.countWrites_append, LogEdit.countWrites_write]
  have hpartition := partition_write log q key payload
  change ∀ p, (log.edit (.write q key payload)).partition p = _ at hpartition
  refine ⟨?_, ?_, ?_, Table.nodup_keys_insert h.nodup q _⟩
  · intro p
    have hold := h.lastOffset p
    rw [hcount, RecordLog.lastOffset, hpartition]
    split
    · rename_i hq
      rw [hq, hold]
    · exact hold
  · intro p
    rw [LogEdit.remaining_write, RecordLog.read, hpartition]
    split
    · rename_i hq
      rw [hq, h.read, h.lastOffset]
    · exact h.read p
  · intro p
    rw [hcount]
    refine (Table.mem_keys_insert _).trans ?_
    rw [h.partitions]
    split
    · rename_i hq
      simp [hq]
    · rename_i hq
      simp [hq]

theorem Reflects.delete (h : log.Reflects past) (q : PartitionKey) (keys : List String) :
    (log.edit (.delete q keys)).Reflects (past ++ [.delete q keys]) := by
  have hcount : ∀ p, countWrites p (past ++ [.delete q keys]) = countWrites p past := fun p =>
    LogEdit.countWrites_append p past [.delete q keys]
  have hkeys : (log.edit (.delete q keys)).partitions.keys = log.partitions.keys :=
    keys_deleteMany log q keys
  have hpartition := partition_deleteMany log q keys
  change ∀ p, (log.edit (.delete q keys)).partition p = _ at hpartition
  refine ⟨?_, ?_, ?_, hkeys ▸ h.nodup⟩
  · intro p
    rw [hcount, RecordLog.lastOffset, hpartition]
    split
    · rename_i hq
      rw [← hq]
      exact h.lastOffset q
    · exact h.lastOffset p
  · intro p
    rw [LogEdit.remaining_delete, RecordLog.read, hpartition]
    split
    · rename_i hq
      rw [hq, h.read]
    · exact h.read p
  · intro p
    rw [hcount, hkeys]
    exact h.partitions p

theorem Reflects.edit (h : log.Reflects past) (e : LogEdit) :
    (log.edit e).Reflects (past ++ [e]) := by
  cases e with
  | write q key payload => exact h.write q key payload
  | delete q keys => exact h.delete q keys

theorem Reflects.answer (h : log.Reflects past) (hordered : log.Ordered) (call : LogCall) :
    (log.serve call).1 = idealAnswer past call := by
  cases call with
  | edit e =>
    cases e with
    | write p key payload =>
      rw [idealAnswer, ← h.lastOffset]
      rfl
    | delete p keys =>
      rw [idealAnswer, ← h.read, ← deleteMany_count]
      rfl
  | read p =>
    rw [serve, idealAnswer, h.read]
  | lookUp p offset =>
    rw [serve, idealAnswer, hordered.bundleAt?_eq, h.read]

theorem serve_log (log : RecordLog) (call : LogCall) :
    (log.serve call).2 = log.editAll call.edit?.toList := by
  cases call with
  | edit e => cases e <;> rfl
  | read p => rfl
  | lookUp p offset => rfl

theorem Reflects.serve (h : log.Reflects past) (call : LogCall) :
    (log.serve call).2.Reflects (past ++ call.edit?.toList) := by
  rw [serve_log]
  cases call with
  | edit e => exact h.edit e
  | read p => exact (List.append_nil past).symm ▸ h
  | lookUp p offset => exact (List.append_nil past).symm ▸ h

theorem Ordered.serve (h : log.Ordered) (call : LogCall) : (log.serve call).2.Ordered := by
  rw [serve_log]
  exact h.editAll _

theorem Ordered.serveAll (h : log.Ordered) (calls : List LogCall) :
    (log.serveAll calls).2.Ordered := by
  induction calls generalizing log with
  | nil => exact h
  | cons call calls ih => exact ih (h.serve call)

theorem Reflects.serveAll (h : log.Reflects past) (calls : List LogCall) :
    (log.serveAll calls).2.Reflects (past ++ calls.filterMap LogCall.edit?) := by
  induction calls generalizing log past with
  | nil => exact (List.append_nil past).symm ▸ h
  | cons call calls ih =>
    have hpast : past ++ (call :: calls).filterMap LogCall.edit? =
        past ++ call.edit?.toList ++ calls.filterMap LogCall.edit? := by
      cases call <;> simp [LogCall.edit?, List.filterMap_cons]
    rw [hpast]
    exact ih (h.serve call)

theorem Reflects.answers (h : log.Reflects past) (hordered : log.Ordered)
    (calls : List LogCall) : (log.serveAll calls).1 = idealAnswers past calls := by
  induction calls generalizing log past with
  | nil => rfl
  | cons call calls ih =>
    rw [idealAnswers, ← h.answer hordered call, ← ih (h.serve call) (hordered.serve call)]
    rfl

/-- At most one bundle of a partition has an offset. -/
theorem Ordered.bundleAt?_eq_some (h : log.Ordered) {p : PartitionKey} {offset : Nat}
    {b : Bundle} : log.bundleAt? p offset = some b ↔ b ∈ log.read p ∧ b.offset = offset := by
  rw [h.bundleAt?_eq]
  constructor
  · intro hb
    have hoffset := List.find?_some hb
    exact ⟨List.mem_of_find?_eq_some hb, of_decide_eq_true hoffset⟩
  · rintro ⟨hmem, rfl⟩
    obtain ⟨front, behind, hread⟩ := List.append_of_mem hmem
    have hascending : (log.read p).Pairwise (fun a b => a.offset < b.offset) := (h p).ascending
    rw [hread] at hascending ⊢
    rw [Bundle.find?_split hascending, if_pos rfl]

/-- The ideal log gives out the offsets of a partition one after the other. -/
theorem offsets_idealAnswers (p : PartitionKey) (past : List LogEdit) (calls : List LogCall) :
    (idealAnswers past calls).filterMap (LogAnswer.offset? p) =
      List.range' (countWrites p past + 1) (countWrites p (calls.filterMap LogCall.edit?)) := by
  induction calls generalizing past with
  | nil => rfl
  | cons call calls ih =>
    have hrest := ih (past ++ call.edit?.toList)
    rw [LogEdit.countWrites_append] at hrest
    rw [idealAnswers, List.filterMap_cons, List.filterMap_cons, hrest]
    -- Only a write is given an offset, and it counts where it is written to.
    cases call with
    | read q => rfl
    | lookUp q offset => rfl
    | edit e =>
      cases e with
      | delete q keys => rfl
      | write q key payload =>
        simp only [LogCall.edit?, Option.toList_some, idealAnswer, LogAnswer.offset?,
          LogEdit.countWrites_write]
        rw [LogEdit.countWrites_cons, LogEdit.writesTo]
        by_cases hq : q = p
        · subst hq
          simp only [if_true, decide_true, List.range'_succ]
        · simp only [hq, if_false, decide_false, Bool.false_eq_true, Nat.add_zero]

theorem Reflects.mem_partitionKeys (h : log.Reflects past) (p : PartitionKey) :
    p ∈ log.partitionKeys ↔ ∃ key payload, .write p key payload ∈ past := by
  rw [partitionKeys, List.mem_mergeSort, h.partitions, countWrites, List.countP_pos_iff]
  constructor
  · rintro ⟨e, he, hp⟩
    cases e with
    | delete q keys => cases hp
    | write q key payload =>
      rw [LogEdit.writesTo, decide_eq_true_eq] at hp
      exact ⟨key, payload, hp ▸ he⟩
  · rintro ⟨key, payload, he⟩
    exact ⟨_, he, decide_eq_true rfl⟩

/-- **The log answers as the ideal log does**, whatever the calls. So the offsets of a partition
count its writes from one on, and a partition holds, in ascending order of their offsets, what was
written to it under a key that was not deleted from it afterwards. -/
theorem serveAll_ideal (calls : List LogCall) :
    let (answers, log) := empty.serveAll calls
    let past := calls.filterMap LogCall.edit?
    answers = idealAnswers [] calls ∧
      (∀ p, answers.filterMap (LogAnswer.offset? p) = List.range' 1 (countWrites p past)) ∧
      (∀ p, log.lastOffset p = countWrites p past) ∧
      (∀ p, (log.read p).Pairwise (fun a b => a.offset < b.offset)) ∧
      (∀ p b, b ∈ log.read p ↔ ∃ before key payload after,
        past = before ++ .write p key payload :: after ∧
          b = ⟨p, key, countWrites p before + 1, payload⟩ ∧
            ∀ keys, .delete p keys ∈ after → key ∉ keys) ∧
      (∀ p offset b, log.bundleAt? p offset = some b ↔ b ∈ log.read p ∧ b.offset = offset) ∧
      (∀ p keys, (log.deleteMany p keys).1 = (log.read p).countP (fun b => keys.contains b.key) ∧
        (log.deleteMany p keys).2.read p = (log.read p).filter (fun b => !keys.contains b.key)) ∧
      log.partitionKeys.Nodup ∧
      (∀ p, p ∈ log.partitionKeys ↔ ∃ key payload, .write p key payload ∈ past) := by
  have hreflects := reflects_empty.serveAll calls
  rw [List.nil_append] at hreflects
  have hordered := ordered_empty.serveAll calls
  have hanswers := reflects_empty.answers ordered_empty calls
  refine ⟨hanswers, ?_, hreflects.lastOffset, fun p => (hordered p).ascending, ?_, ?_, ?_, ?_,
    hreflects.mem_partitionKeys⟩
  · intro p
    rw [hanswers, offsets_idealAnswers]
    rfl
  · intro p b
    rw [hreflects.read, remaining, LogEdit.mem_remainingFrom]
    simp only [Nat.zero_add, LogEdit.any_deletes_eq_false]
  · intro p offset b
    exact hordered.bundleAt?_eq_some
  · intro p keys
    refine ⟨deleteMany_count _ p keys, ?_⟩
    rw [read, partition_deleteMany, if_pos rfl]
  · exact (List.mergeSort_perm _ _).nodup_iff.mpr hreflects.nodup

end RecordLog

end Provenance
