import Provenance.Log
import Provenance.Proofs.Containers

/-!
# Offsets in a log

The bundles of a partition stand in ascending order of their offsets (`RecordLog.Ordered`), whatever
is written and deleted. That is what makes looking an offset up by halving right
(`Bundle.search_eq_find?`).

A `LogEdit` is a call that changes a log, `RecordLog.edit` the log after it. Main statement
`RecordLog.bundleAt?_editAll`: a bundle is found under its offset until its key is deleted from its
partition, and nothing is ever found there again.
-/

namespace Provenance

/-! ## Looking up an offset -/

namespace Bundle

theorem search_of_drop {offset : Nat} {bundles behind : List Bundle} {middle : Bundle}
    (h : bundles.drop (bundles.length / 2) = middle :: behind) :
    search offset bundles =
      if middle.offset = offset then some middle
      else if middle.offset < offset then search offset behind
      else search offset (bundles.take (bundles.length / 2)) := by
  rw [search]
  split
  · rename_i hnil
    cases hnil.symm.trans h
  · rename_i middle' behind' hcons
    cases hcons.symm.trans h
    rfl

theorem find?_of_forall_ne {offset : Nat} {bundles : List Bundle}
    (h : ∀ b ∈ bundles, b.offset ≠ offset) :
    bundles.find? (fun b => b.offset = offset) = none := by
  rw [List.find?_eq_none]
  intro b hb
  simpa using h b hb

/-- A bundle among others, with the offset less than that of any behind it and greater than that of
any in front of it: the look-up by offset may leave out one side. -/
theorem find?_split {front behind : List Bundle} {middle : Bundle}
    (h : (front ++ middle :: behind).Pairwise (fun a b => a.offset < b.offset)) (offset : Nat) :
    (front ++ middle :: behind).find? (fun b => b.offset = offset) =
      if middle.offset = offset then some middle
      else if middle.offset < offset then behind.find? (fun b => b.offset = offset)
      else front.find? (fun b => b.offset = offset) := by
  obtain ⟨-, hback, hcross⟩ := List.pairwise_append.mp h
  have hfront : ∀ b ∈ front, b.offset < middle.offset := fun b hb =>
    hcross b hb middle (List.mem_cons_self ..)
  have hbehind : ∀ b ∈ behind, middle.offset < b.offset := (List.pairwise_cons.mp hback).1
  rw [List.find?_append, List.find?_cons]
  by_cases heq : middle.offset = offset
  · rw [find?_of_forall_ne (fun b hb => Nat.ne_of_lt (heq ▸ hfront b hb))]
    simp only [heq, decide_true, if_true, Option.none_or]
  · by_cases hlt : middle.offset < offset
    · rw [find?_of_forall_ne (fun b hb => Nat.ne_of_lt (Nat.lt_trans (hfront b hb) hlt))]
      simp only [heq, hlt, decide_false, if_false, if_true, Option.none_or]
    · have hgt : offset < middle.offset := Nat.lt_of_le_of_ne (Nat.not_lt.mp hlt) (Ne.symm heq)
      rw [find?_of_forall_ne (fun b hb => Nat.ne_of_gt (Nat.lt_trans hgt (hbehind b hb)))]
      simp only [heq, hlt, decide_false, if_false, Option.or_none]

/-- Among ascending offsets, halving finds what looking at every bundle finds. -/
theorem search_eq_find? (offset : Nat) {bundles : List Bundle}
    (h : bundles.Pairwise (fun a b => a.offset < b.offset)) :
    search offset bundles = bundles.find? (fun b => b.offset = offset) := by
  induction bundles using Bundle.search.induct offset with
  | case1 bundles hdrop =>
    have hnil : bundles = [] := by
      have hl := congrArg List.length hdrop
      rw [List.length_drop, List.length_nil] at hl
      exact List.length_eq_zero_iff.mp (by omega)
    subst hnil
    rw [search]
    rfl
  | case2 bundles middle behind hdrop heq =>
    have hcut := hdrop ▸ List.take_append_drop (bundles.length / 2) bundles
    have hfind := find?_split (hcut.symm ▸ h) offset
    rw [hcut, if_pos heq] at hfind
    rw [search_of_drop hdrop, if_pos heq, hfind]
  | case3 bundles middle behind hdrop hne hlt ih =>
    have hcut := hdrop ▸ List.take_append_drop (bundles.length / 2) bundles
    have hfind := find?_split (hcut.symm ▸ h) offset
    rw [hcut, if_neg hne, if_pos hlt] at hfind
    have hbehind := (List.pairwise_cons.mp (List.pairwise_append.mp (hcut.symm ▸ h)).2.1).2
    rw [search_of_drop hdrop, if_neg hne, if_pos hlt, hfind, ih hbehind]
  | case4 bundles middle behind hdrop hne hnlt ih =>
    have hcut := hdrop ▸ List.take_append_drop (bundles.length / 2) bundles
    have hfind := find?_split (hcut.symm ▸ h) offset
    rw [hcut, if_neg hne, if_neg hnlt] at hfind
    have hfront := (List.pairwise_append.mp (hcut.symm ▸ h)).1
    rw [search_of_drop hdrop, if_neg hne, if_neg hnlt, hfind, ih hfront]

/-- Offsets are not shared: what is left out is not replaced. -/
theorem find?_filter {bundles : List Bundle}
    (h : bundles.Pairwise (fun a b => a.offset < b.offset)) (kept : Bundle → Bool) (offset : Nat) :
    (bundles.filter kept).find? (fun b => b.offset = offset) =
      (bundles.find? (fun b => b.offset = offset)).filter kept := by
  induction bundles with
  | nil => rfl
  | cons b bundles ih =>
    obtain ⟨hb, hrest⟩ := List.pairwise_cons.mp h
    rw [List.filter_cons, List.find?_cons]
    by_cases heq : b.offset = offset
    · have hnone : (bundles.filter kept).find? (fun b => b.offset = offset) = none := by
        apply find?_of_forall_ne
        intro b' hb'
        exact Nat.ne_of_gt (heq ▸ hb b' (List.mem_of_mem_filter hb'))
      simp only [heq, decide_true, Option.filter_some]
      split
      · simp only [List.find?_cons, heq, decide_true]
      · exact hnone
    · simp only [heq, decide_false, ← ih hrest]
      split
      · simp only [List.find?_cons, heq, decide_false]
      · rfl

end Bundle

/-! ## Partitions in order -/

/-- Offsets ascend, and none of them is beyond the last one given out. -/
structure PartitionLog.Ordered (s : PartitionLog) : Prop where
  ascending : s.bundles.Pairwise (fun a b => a.offset < b.offset)
  bounded : ∀ b ∈ s.bundles, b.offset ≤ s.lastOffset

namespace PartitionLog

variable {s : PartitionLog}

theorem ordered_empty : Ordered empty where
  ascending := List.Pairwise.nil
  bounded _ hb := absurd hb List.not_mem_nil

theorem Ordered.append (h : s.Ordered) {b : Bundle} (hb : b.offset = s.lastOffset + 1) :
    Ordered ⟨s.lastOffset + 1, s.bundles ++ [b]⟩ where
  ascending := by
    refine List.pairwise_append.mpr ⟨h.ascending, List.pairwise_singleton _ _, ?_⟩
    intro old hold new hnew
    rw [List.mem_singleton.mp hnew, hb]
    exact Nat.lt_succ_of_le (h.bounded old hold)
  bounded old hold := by
    rcases List.mem_append.mp hold with hold | hold
    · exact Nat.le_succ_of_le (h.bounded old hold)
    · rw [List.mem_singleton.mp hold, hb]

theorem Ordered.filter (h : s.Ordered) (kept : Bundle → Bool) :
    Ordered { s with bundles := s.bundles.filter kept } where
  ascending := h.ascending.filter kept
  bounded b hb := h.bounded b (List.mem_of_mem_filter hb)

end PartitionLog

/-! ## Calls that change a log -/

inductive LogEdit
  | write (p : PartitionKey) (key : String) (payload : Bytes)
  | delete (p : PartitionKey) (keys : List String)

namespace LogEdit

def partition : LogEdit → PartitionKey
  | write p _ _ => p
  | delete p _ => p

/-- Whether the call deletes what a partition holds under a key. -/
def deletes (p : PartitionKey) (key : String) : LogEdit → Bool
  | write _ _ _ => false
  | delete q keys => q = p && keys.contains key

end LogEdit

namespace RecordLog

def edit (log : RecordLog) : LogEdit → RecordLog
  | .write p key payload => (log.write p key payload).2
  | .delete p keys => (log.deleteMany p keys).2

def editAll (log : RecordLog) : List LogEdit → RecordLog
  | [] => log
  | e :: edits => (log.edit e).editAll edits

variable {log : RecordLog} {p : PartitionKey}

theorem partition_setPartition (log : RecordLog) (p : PartitionKey) (s : PartitionLog)
    (q : PartitionKey) :
    (log.setPartition p s).partition q = if p = q then s else log.partition q := by
  simp only [partition, setPartition, Table.find?_insert]
  split <;> rfl

theorem partition_write (log : RecordLog) (p : PartitionKey) (key : String) (payload : Bytes)
    (q : PartitionKey) :
    (log.write p key payload).2.partition q =
      if p = q then
        ⟨log.lastOffset p + 1, log.read p ++ [⟨p, key, log.lastOffset p + 1, payload⟩]⟩
      else log.partition q :=
  partition_setPartition log p _ q

theorem partition_deleteMany (log : RecordLog) (p : PartitionKey) (keys : List String)
    (q : PartitionKey) :
    (log.deleteMany p keys).2.partition q =
      if p = q then
        ⟨log.lastOffset p, (log.read p).filter (fun b => !keys.contains b.key)⟩
      else log.partition q := by
  cases hp : log.partitions.find? p with
  | none =>
    have hempty : log.partition p = PartitionLog.empty := by
      rw [partition, hp, Option.getD_none]
    simp only [deleteMany, hp, read, lastOffset, hempty]
    by_cases h : p = q
    · rw [if_pos h, ← h, hempty]
      rfl
    · rw [if_neg h]
  | some s =>
    have hs : log.partition p = s := by
      rw [partition, hp, Option.getD_some]
    simp only [deleteMany, hp, read, lastOffset, hs]
    exact partition_setPartition log p _ q

/-- A call on one partition leaves the others as they are. -/
theorem partition_edit_of_ne {e : LogEdit} (h : e.partition ≠ p) (log : RecordLog) :
    (log.edit e).partition p = log.partition p := by
  cases e with
  | write q key payload => exact (partition_write log q key payload p).trans (if_neg h)
  | delete q keys => exact (partition_deleteMany log q keys p).trans (if_neg h)

/-! ## Logs in order -/

def Ordered (log : RecordLog) : Prop := ∀ p, (log.partition p).Ordered

theorem ordered_empty : Ordered empty := fun _ => PartitionLog.ordered_empty

theorem Ordered.edit (h : log.Ordered) (e : LogEdit) : (log.edit e).Ordered := by
  intro q
  cases e with
  | write p key payload =>
    rw [RecordLog.edit, partition_write]
    split
    · exact (h p).append rfl
    · exact h q
  | delete p keys =>
    rw [RecordLog.edit, partition_deleteMany]
    split
    · exact (h p).filter _
    · exact h q

theorem lastOffset_edit (log : RecordLog) (e : LogEdit) (p : PartitionKey) :
    log.lastOffset p ≤ (log.edit e).lastOffset p := by
  cases e with
  | write q key payload =>
    rw [lastOffset, lastOffset, edit, partition_write]
    split
    · rename_i h
      subst h
      exact Nat.le_succ _
    · exact Nat.le_refl _
  | delete q keys =>
    rw [lastOffset, lastOffset, edit, partition_deleteMany]
    split
    · rename_i h
      subst h
      exact Nat.le_refl _
    · exact Nat.le_refl _

/-! ## What is found under an offset -/

theorem Ordered.bundleAt?_eq (h : log.Ordered) (p : PartitionKey) (offset : Nat) :
    log.bundleAt? p offset = (log.read p).find? (fun b => b.offset = offset) :=
  Bundle.search_eq_find? offset (h p).ascending

/-- A written bundle is found under the offset that it was given. -/
theorem Ordered.bundleAt?_write (h : log.Ordered) (p : PartitionKey) (key : String)
    (payload : Bytes) :
    (log.write p key payload).2.bundleAt? p (log.lastOffset p + 1) =
      some ⟨p, key, log.lastOffset p + 1, payload⟩ := by
  have hnew : (log.read p).find? (fun b => b.offset = log.lastOffset p + 1) = none := by
    apply Bundle.find?_of_forall_ne
    intro b hb
    exact Nat.ne_of_lt (Nat.lt_succ_of_le ((h p).bounded b hb))
  have hread : (log.write p key payload).2.read p =
      log.read p ++ [⟨p, key, log.lastOffset p + 1, payload⟩] := by
    rw [read, partition_write, if_pos rfl]
  have hordered : (log.write p key payload).2.Ordered := h.edit (.write p key payload)
  rw [hordered.bundleAt?_eq, hread, List.find?_append, hnew, Option.none_or,
    List.find?_singleton]
  simp only [decide_true, if_true]

/-- A write takes nothing from under an offset that was given out before. -/
theorem Ordered.bundleAt?_write_of_le (h : log.Ordered) (q : PartitionKey) (key : String)
    (payload : Bytes) {offset : Nat} (hle : offset ≤ log.lastOffset p) :
    (log.write q key payload).2.bundleAt? p offset = log.bundleAt? p offset := by
  have hordered : (log.write q key payload).2.Ordered := h.edit (.write q key payload)
  rw [hordered.bundleAt?_eq, h.bundleAt?_eq, read, partition_write]
  split
  · rename_i hq
    subst hq
    have hne : ¬ log.lastOffset q + 1 = offset := by omega
    rw [List.find?_append, List.find?_singleton]
    simp only [hne, decide_false, Bool.false_eq_true, if_false, Option.or_none]
  · rfl

theorem Ordered.bundleAt?_deleteMany (h : log.Ordered) (q : PartitionKey) (keys : List String)
    (offset : Nat) :
    (log.deleteMany q keys).2.bundleAt? p offset =
      if q = p then (log.bundleAt? p offset).filter (fun b => !keys.contains b.key)
      else log.bundleAt? p offset := by
  have hordered : (log.deleteMany q keys).2.Ordered := h.edit (.delete q keys)
  rw [hordered.bundleAt?_eq, h.bundleAt?_eq, read, partition_deleteMany]
  split
  · rename_i hq
    subst hq
    exact Bundle.find?_filter (h q).ascending _ offset
  · rfl

/-- Under an offset that was given out, a call leaves the same bundle, or deletes it. -/
theorem Ordered.bundleAt?_edit (h : log.Ordered) (e : LogEdit) {offset : Nat}
    (hle : offset ≤ log.lastOffset p) :
    (log.edit e).bundleAt? p offset =
      (log.bundleAt? p offset).filter (fun b => !e.deletes p b.key) := by
  have hkept : ∀ o : Option Bundle, o.filter (fun _ => true) = o := by
    intro o
    cases o <;> rfl
  cases e with
  | write q key payload =>
    rw [RecordLog.edit, h.bundleAt?_write_of_le q key payload hle]
    exact (hkept _).symm
  | delete q keys =>
    rw [RecordLog.edit, h.bundleAt?_deleteMany q keys offset]
    by_cases hq : q = p
    · simp only [LogEdit.deletes, hq, decide_true, Bool.true_and, if_true]
    · simp only [LogEdit.deletes, hq, decide_false, Bool.false_and, Bool.not_false, hkept,
        if_false]

theorem Ordered.editAll (h : log.Ordered) (edits : List LogEdit) : (log.editAll edits).Ordered := by
  induction edits generalizing log with
  | nil => exact h
  | cons e edits ih => exact ih (h.edit e)

/-- **Offsets are not used again.** Under an offset that was given out, there is what was there
before, or nothing from the moment on when its key is deleted. -/
theorem Ordered.bundleAt?_editAll (h : log.Ordered) (edits : List LogEdit) {offset : Nat}
    (hle : offset ≤ log.lastOffset p) :
    (log.editAll edits).bundleAt? p offset =
      (log.bundleAt? p offset).filter (fun b => !edits.any (fun e => e.deletes p b.key)) := by
  induction edits generalizing log with
  | nil =>
    rw [RecordLog.editAll]
    cases log.bundleAt? p offset <;> rfl
  | cons e edits ih =>
    have hle' := Nat.le_trans hle (lastOffset_edit log e p)
    rw [RecordLog.editAll, ih (h.edit e) hle', h.bundleAt?_edit e hle, Option.filter_filter]
    simp only [List.any_cons, Bool.not_or, Bool.and_comm]

end RecordLog

end Provenance
