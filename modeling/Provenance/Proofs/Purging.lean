import Provenance.Node
import Provenance.Proofs.IdentifierText
import Provenance.Proofs.RecordRoundTrip
import Provenance.Proofs.Replica
import Provenance.Proofs.Separation

/-!
# Purging an object

A node puts every record under a log key that tells what it is about: the revisions of an object
under its text, a key under the hash that it carries. To purge an object is to delete what is under
its text (`Node.purge`). A revision there is one of the object. A key there carries a forged hash,
since hashes and texts differ in length, and a strict chain refused it (`perform_purged`).

Main statement `Node.purged_replica`: a replica that loads the purged log knows nothing of the
object, and shows of every other one, and of keys and aliases, what the node shows.
-/

namespace Provenance

/-! ## Calls to a node -/

/-- A call that submits a record to a node. -/
inductive NodeCall
  | submit (r : Record) (now : Int)
  | publish (k : PublicKey) (now : Int)

namespace NodeCall

def record : NodeCall → Record
  | submit r _ => r
  | publish k _ => .publicKey k

def time : NodeCall → Int
  | submit _ now => now
  | publish _ now => now

end NodeCall

namespace Node

def serve (n : Node) : NodeCall → Node
  | .submit r now => (n.submit r now).1
  | .publish k now => (n.publish k now).1

def serveAll (n : Node) : List NodeCall → Node
  | [] => n
  | call :: calls => (n.serve call).serveAll calls

/-- Delete from the log what it holds under the text of an object. -/
def purge (n : Node) (id : ObjectId) : Node :=
  { n with log := (n.log.deleteMany n.chain.partition [id.text]).2 }

end Node

/-! ## What is purged -/

theorem ObjectId.exists_ne (id : ObjectId) : ∃ other, other ≠ id := by
  by_cases h : id = ⟨.replicate 0⟩
  · refine ⟨⟨.replicate 1⟩, ?_⟩
    rw [h]
    decide
  · exact ⟨⟨.replicate 0⟩, Ne.symm h⟩

/-- The texts of objects are no hashes of keys. -/
theorem PublicKey.hashMatches_eq_false_of_text {k : PublicKey} {id : ObjectId}
    (h : k.hash = id.text) : k.hashMatches = false := by
  by_contra hmatches
  have hhash := PublicKey.hashMatches_iff.mp (Bool.eq_true_of_not_eq_false hmatches)
  have hlength : 43 = 36 := by
    rw [← length_keyHash k.bytes, hhash, h]
    exact id.uuid.length_text
  exact absurd hlength (by decide)

theorem PublicKey.checkStructure_ne_ok_of_text {k : PublicKey} {id : ObjectId}
    (h : k.hash = id.text) : k.checkStructure ≠ .ok () := by
  unfold checkStructure
  rw [PublicKey.hashMatches_eq_false_of_text h]
  split
  · exact fun e => nomatch e
  · exact fun e => nomatch e

namespace TrustChain

variable {c c' : TrustChain} {id other : ObjectId} {r : Record} {raw : Bytes} {d d' : Delivery}

theorem partition_new (partition : PartitionKey) (strict : Bool) :
    (TrustChain.new partition strict).partition = partition := rfl

/-- A record under the text of an object is nothing to other objects: it does not concern them, or
a strict chain refuses it. -/
theorem perform_purged (hraw : Record.decode raw = .ok r) (hkey : Node.logKey r = id.text)
    (hother : other ≠ id) (hstrict : c.strict = true) :
    (Operation.receive raw d).concerns other = false ∨ (c.receive raw d).2 = false := by
  have hrecord := Operation.record?_receive hraw d
  cases r with
  | data r =>
    left
    have hid : r.id = id := ObjectId.text_inj.mp hkey
    simp only [Operation.concerns, hrecord, hid, decide_eq_false_iff_not]
    exact hother.symm
  | publicKey k =>
    -- The hash that the key carries is not that of its bytes.
    right
    by_contra h
    have haccepted := (perform_accepted_key c hrecord).mp (Bool.eq_true_of_not_eq_false h)
    rw [checkWhenStrict, hstrict] at haccepted
    exact PublicKey.checkStructure_ne_ok_of_text hkey haccepted.1
  | castle castle =>
    left
    simp only [Operation.concerns, hrecord]

/-- A record under another log key is no revision of the object. -/
theorem history?_receive_of_ne (hraw : Record.decode raw = .ok r) (hkey : Node.logKey r ≠ id.text)
    (h : c.history? id = none) : (c.receive raw d).1.history? id = none := by
  rw [history?_eq_none] at h ⊢
  rcases receive_entries c raw d with heq | ⟨revision, hdata, heq⟩
  · rw [heq, h]
  · obtain rfl : r = .data revision := Except.ok.inj (hraw.symm.trans hdata)
    rw [heq, if_neg (fun hid => hkey (congrArg ObjectId.text hid)), h]

/-! ## Views, times aside -/

theorem sameView_timeless (c : TrustChain) (raw : Bytes) (d : Delivery) (id : ObjectId) :
    SameView id (c.receive raw d).1.timeless
      (c.timeless.perform (.receive raw d.timeless)).1 := by
  obtain ⟨js, hjs⟩ := perform_applied c.timeless (.receive raw d.timeless)
  rw [(receive_timeless c raw d).2, hjs]
  exact (SameView.refl id _).withListeners _ js

theorem SameView.received (h : SameView id c.timeless c'.timeless) (hd : d.timeless = d'.timeless)
    (raw : Bytes) : SameView id (c.receive raw d).1.timeless (c'.receive raw d').1.timeless := by
  have hperformed := h.performed (.receive raw d.timeless)
  have hleft := sameView_timeless c raw d id
  have hright := sameView_timeless c' raw d' id
  rw [← hd] at hright
  exact hleft.trans (hperformed.trans hright.symm)

/-- A record under the text of another object may be left out. -/
theorem SameView.left_out (h : SameView other c.timeless c'.timeless)
    (hraw : Record.decode raw = .ok r) (hkey : Node.logKey r = id.text) (hother : other ≠ id)
    (hstrict : c'.strict = true) :
    SameView other c.timeless (c'.receive raw d).1.timeless := by
  have hidle : SameView other c'.timeless (c'.timeless.perform (.receive raw d.timeless)).1 := by
    rcases perform_purged (c := c'.timeless) hraw hkey hother hstrict with hop | hrefused
    · exact sameView_perform c'.timeless hop
    · exact sameView_refused hrefused
  exact h.trans (hidle.trans (sameView_timeless c' raw d other).symm)

end TrustChain

/-! ## The replica of a purged node -/

namespace Node

open TrustChain

variable {n : Node} {id : ObjectId} {now : Int}

theorem serve_eq (n : Node) (call : NodeCall) :
    n.serve call = (n.submit call.record call.time).1 := by
  cases call <;> rfl

/-- Where the node's next record will have come from. -/
def nextDelivery (n : Node) (time : Int) : Delivery :=
  ⟨n.chain.partition.index, n.log.lastOffset n.chain.partition + 1, time⟩

theorem timeless_nextDelivery (n : Node) (time time' : Int) :
    (n.nextDelivery time).timeless = (n.nextDelivery time').timeless := rfl

theorem submit_chain (n : Node) (r : Record) (time : Int) :
    (n.submit r time).1.chain = (n.chain.receive r.encode (n.nextDelivery time)).1 := rfl

theorem submit_log (n : Node) (r : Record) (time : Int) : (n.submit r time).1.log =
    (n.log.write n.chain.partition (logKey r) r.encode).2 := rfl

theorem submit_configuration (n : Node) (r : Record) (time : Int) :
    (n.submit r time).1.chain.partition = n.chain.partition ∧
      (n.submit r time).1.chain.strict = n.chain.strict :=
  perform_configuration n.chain (.receive r.encode _)

/-- The replica of the node once the object is purged. -/
def purgedReplica (n : Node) (id : ObjectId) (now : Int) : TrustChain :=
  ((n.purge id).replica now).1

theorem purgedReplica_eq (n : Node) (id : ObjectId) (now : Int) : n.purgedReplica id now =
    (receiveBundles now ((n.log.read n.chain.partition).filter (fun b => b.key ≠ id.text))
      (TrustChain.new n.chain.partition n.chain.strict)).1 := by
  have hread : (n.purge id).log.read n.chain.partition =
      (n.log.read n.chain.partition).filter (fun b => b.key ≠ id.text) := by
    rw [purge, RecordLog.read, RecordLog.partition_deleteMany, if_pos rfl]
    apply List.filter_congr
    intro b _
    simp
  rw [purgedReplica, replica, loadFrom, partition_new]
  exact congrArg (fun bundles => (receiveBundles now bundles _).1) hread

theorem purgedReplica_partition (n : Node) (id : ObjectId) (now : Int) :
    (n.purgedReplica id now).partition = n.chain.partition := by
  rw [purgedReplica_eq, receiveBundles_eq_run]
  exact (run_configuration _ _).1.trans (partition_new _ _)

/-- One more record: the purged replica receives it, unless its log key is that of the object. -/
theorem purgedReplica_submit (n : Node) (r : Record) (time : Int) (id : ObjectId) (now : Int) :
    (n.submit r time).1.purgedReplica id now =
      if logKey r = id.text then n.purgedReplica id now
      else ((n.purgedReplica id now).receive r.encode (n.nextDelivery now)).1 := by
  obtain ⟨hpartition, hstrict⟩ := submit_configuration n r time
  have hread : (n.submit r time).1.log.read n.chain.partition = n.log.read n.chain.partition ++
      [⟨n.chain.partition, logKey r, n.log.lastOffset n.chain.partition + 1, r.encode⟩] := by
    rw [submit_log, RecordLog.read, RecordLog.partition_write, if_pos rfl]
  -- The log has one more bundle, at its end, which the purge takes away or leaves there.
  rw [purgedReplica_eq, hpartition, hstrict, hread, List.filter_append]
  by_cases hkey : logKey r = id.text
  · simp [hkey, purgedReplica_eq]
  · have hpart := purgedReplica_partition n id now
    rw [purgedReplica_eq] at hpart ⊢
    simp only [hkey, List.filter_cons, List.filter_nil, ne_eq, not_false_eq_true, decide_true,
      if_true, if_false, receiveBundles_concat, receiveBundle, hpart, nextDelivery]

/-- The node shows the same of all other objects as its purged replica, which knows nothing of the
object. -/
structure Purgeable (n : Node) (id : ObjectId) (now : Int) : Prop where
  strict : n.chain.strict = true
  others : ∀ other, other ≠ id →
    SameView other (n.purgedReplica id now).timeless n.chain.timeless
  absent : (n.purgedReplica id now).history? id = none

theorem Purgeable.submit (h : n.Purgeable id now) {r : Record} (hsized : r.toItem.isSized = true)
    (time : Int) : (n.submit r time).1.Purgeable id now := by
  have hraw := Record.decode_encode_self hsized
  refine ⟨(submit_configuration n r time).2.trans h.strict, ?_, ?_⟩
  · intro other hother
    rw [purgedReplica_submit, submit_chain]
    split
    · rename_i hkey
      exact (h.others other hother).left_out hraw hkey hother h.strict
    · exact (h.others other hother).received (timeless_nextDelivery n now time) r.encode
  · rw [purgedReplica_submit]
    split
    · exact h.absent
    · rename_i hkey
      exact history?_receive_of_ne hraw hkey h.absent

theorem Purgeable.serveAll (h : n.Purgeable id now) {calls : List NodeCall}
    (hsized : ∀ call ∈ calls, call.record.toItem.isSized = true) :
    (n.serveAll calls).Purgeable id now := by
  induction calls generalizing n with
  | nil => exact h
  | cons call calls ih =>
    have hcall := h.submit (hsized call (List.mem_cons_self ..)) call.time
    rw [← serve_eq] at hcall
    exact ih hcall (fun call' hmem => hsized call' (List.mem_cons_of_mem call hmem))

theorem purgeable_new (partition : PartitionKey) (consultsStaging : Bool) (id : ObjectId)
    (now : Int) : (new partition true consultsStaging).Purgeable id now where
  strict := rfl
  others other _ := (SameView.refl other _)
  absent := rfl

/-- **Purging.** Let any records be submitted to a new strict node, and purge an object from its log.
A replica that loads the log has never seen the object. Of every other object it has the history
that the node has, but for the times of the deliveries, and it has the same keys and aliases. -/
theorem purged_replica (partition : PartitionKey) (consultsStaging : Bool) {calls : List NodeCall}
    (hsized : ∀ call ∈ calls, call.record.toItem.isSized = true) (id : ObjectId) (now : Int) :
    let n := (new partition true consultsStaging).serveAll calls
    let replica := ((n.purge id).replica now).1
    replica.everHadObject id = false ∧
      (∀ other, other ≠ id → (replica.history? other).map History.timeless =
        (n.chain.history? other).map History.timeless) ∧
      replica.keys = n.chain.keys ∧ replica.aliases = n.chain.aliases := by
  intro n replica
  have h : n.Purgeable id now :=
    (purgeable_new partition consultsStaging id now).serveAll hsized
  have hhistory : ∀ (c : TrustChain) (other : ObjectId),
      (c.history? other).map History.timeless = c.timeless.history? other := by
    intro c other
    exact (Table.find?_map ..).symm
  -- Keys and aliases are part of the view of any other object.
  obtain ⟨other, hother⟩ := id.exists_ne
  refine ⟨?_, ?_, (h.others other hother).keys, (h.others other hother).aliases⟩
  · have habsent : replica.history? id = none := h.absent
    rw [everHadObject, Table.contains]
    exact congrArg Option.isSome habsent
  · intro other hother
    rw [hhistory, hhistory]
    exact (h.others other hother).history

/-! ## A letter besides the parcel -/

def letter : Revision :=
  .signNeutral
    { Header.anchor ⟨.replicate 5⟩ ⟨.replicate 6⟩ "Account" with
      writers := NameSet.ofList [courier.hash] }
    courier (some [3])

def letterCalls : List NodeCall :=
  [.publish courier 1, .submit (.data original) 2, .submit (.data letter) 3]

theorem isSized_letter : letter.toItem.isSized = true :=
  isSized_signed (Header.sized_oneWriter rfl (fun _ h => nomatch h) rfl rfl rfl) (by decide)

theorem checkStructure_letter : letter.checkStructure = .ok () :=
  Revision.checkStructure_signNeutral (by decide) (by decide) (by decide) _ _ _

theorem entitled_letter (d : Delivery) (js : List Journal) :
    Entitled { informed.append original d with listeners := js } letter courier.hash :=
  ⟨rfl, fun _ h => (nomatch h),
    Or.inr (Or.inl (NameSet.mem_ofList.mpr (List.mem_singleton_self _)))⟩

theorem letterCalls_sized (call : NodeCall) (hcall : call ∈ letterCalls) :
    call.record.toItem.isSized = true := by
  simp only [letterCalls, List.mem_cons, List.not_mem_nil, or_false] at hcall
  rcases hcall with rfl | rfl | rfl
  · exact isSized_courier
  · exact isSized_original
  · exact isSized_letter

/-- A node that knows the courier takes what the courier signed and may write. -/
theorem serve_signed {c : TrustChain} (hchain : n.chain = c) (hkeys : c.keys = informed.keys)
    {r : Revision} {h : Header} {body : Option Bytes} (hr : r = .signNeutral h courier body)
    (hsized : r.toItem.isSized = true) (hstructure : r.checkStructure = .ok ())
    (hentitled : Entitled c r courier.hash) (time : Int) :
    ∃ d js, (n.serve (.submit (.data r) time)).chain =
      { c.append r d with listeners := js } := by
  obtain ⟨-, js, hjs⟩ := receive_signed hkeys hr hsized hstructure hentitled (n.nextDelivery time)
  refine ⟨n.nextDelivery time, js, ?_⟩
  rw [serve, submit_chain, hchain]
  exact hjs

/-- The node takes the parcel and the letter. -/
theorem chain_letterCalls : ∃ d d' js, ((new Feed.desk true false).serveAll letterCalls).chain =
    { (informed.append original d).append letter d' with listeners := js } := by
  have hcourier : ((new Feed.desk true false).serve (.publish courier 1)).chain =
      { informed with listeners := [[]] } := by
    rw [serve_eq, submit_chain]
    exact congrArg Prod.fst (receive_neutralKey _ decode_courier _)
  obtain ⟨d, js, hparcel⟩ := serve_signed (r := original) hcourier rfl rfl isSized_original
    checkStructure_original
    ⟨entitled_original.notImmutable, entitled_original.parent, entitled_original.admitted⟩ 2
  obtain ⟨d', js', hletter⟩ := serve_signed (r := letter) hparcel rfl rfl isSized_letter
    checkStructure_letter (entitled_letter d js) 3
  exact ⟨d, d', js', hletter⟩

/-- The letter is purged: the replica has never seen it, and has the parcel. -/
theorem letter_purged :
    let n := (new Feed.desk true false).serveAll letterCalls
    let replica := ((n.purge letter.id).replica 9).1
    n.chain.everHadObject letter.id = true ∧ replica.everHadObject letter.id = false ∧
      (replica.entries parcel.id).map Entry.revision = [original] := by
  intro n replica
  obtain ⟨habsent, hothers, -, -⟩ := purged_replica Feed.desk false letterCalls_sized letter.id 9
  obtain ⟨d, d', js, hchain⟩ := chain_letterCalls
  refine ⟨?_, habsent, ?_⟩
  · show (TrustChain.everHadObject (serveAll _ _).chain _) = true
    rw [hchain]
    rfl
  · have hhistory : (n.chain.history? parcel.id).map History.timeless =
        some ⟨Feed.desk, [⟨original, d.timeless⟩], List.cons_ne_nil _ _⟩ := by
      show ((serveAll _ _).chain.history? _).map _ = _
      rw [hchain]
      rfl
    have hparcel := (hothers parcel.id (by decide)).trans hhistory
    obtain ⟨h, hh, htimeless⟩ := Option.map_eq_some_iff.mp hparcel
    have hrevisions : h.timeless.entries.map Entry.revision = [original] := by
      rw [htimeless]
      rfl
    rw [History.timeless, List.map_map] at hrevisions
    rw [entries_of_history? hh]
    exact hrevisions

end Node

end Provenance
