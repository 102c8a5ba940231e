import Provenance.Chain.Replay
import Provenance.Proofs.AppendOnly
import Provenance.Proofs.NeutralKey

/-!
# Records that are delivered again

A chain has no memory of what it has seen. A revision that arrives again is judged like any other,
and a log that is loaded again brings each of its bundles again.

* `takeAll_eq_run`: arrivals and loaded logs are a run of receptions;
* `entries_takeAll`: the history of an object has its revisions from what was delivered, in order
  and no more often than it was delivered;
* `redelivered`: what a chain does with a revision that it accepted before. It accepts it again
  unless the object has become immutable or the write set has changed.
-/

namespace Provenance

/-- One call that brings records to a chain: an arrival, or a log that is loaded. -/
inductive Intake
  | arrival (raw : Bytes) (d : Delivery)
  | load (log : RecordLog) (now : Int)

/-- The receptions that the call stands for in a partition. -/
def Intake.operations (partition : PartitionKey) : Intake → List Operation
  | .arrival raw d => [.receive raw d]
  | .load log now =>
    (log.read partition).map (fun b => .receive b.payload ⟨partition.index, b.offset, now⟩)

/-- The revision of an object that the operation brings. -/
def Operation.revisionOf? (id : ObjectId) (op : Operation) : Option Revision :=
  match op.record? with
  | some (.data r) => if r.id = id then some r else none
  | _ => none

/-- The revisions of an object that were delivered, in the order of their deliveries. -/
def Intake.delivered (partition : PartitionKey) (intakes : List Intake) (id : ObjectId) :
    List Revision :=
  (intakes.flatMap (Intake.operations partition)).filterMap (Operation.revisionOf? id)

namespace TrustChain

def takeIn (c : TrustChain) : Intake → TrustChain
  | .arrival raw d => (c.receive raw d).1
  | .load log now => (c.loadFrom log now).1

def takeAll (c : TrustChain) : List Intake → TrustChain
  | [] => c
  | intake :: rest => (c.takeIn intake).takeAll rest

/-! ## Runs -/

theorem receiveBundles_eq_run (now : Int) (bundles : List Bundle) (c : TrustChain) :
    (receiveBundles now bundles c).1 = c.run (bundles.map
      (fun b => .receive b.payload ⟨c.partition.index, b.offset, now⟩)) := by
  induction bundles generalizing c with
  | nil => rfl
  | cons b bundles ih =>
    have hpartition : (c.receiveBundle b now).1.partition = c.partition :=
      (perform_configuration c (.receive b.payload _)).1
    simp only [receiveBundles, ih, hpartition, List.map_cons, run]
    rfl

theorem takeIn_eq_run (c : TrustChain) (intake : Intake) :
    c.takeIn intake = c.run (intake.operations c.partition) := by
  cases intake with
  | arrival raw d => rfl
  | load log now => exact receiveBundles_eq_run now _ c

/-- Arrivals and loaded logs are receptions. -/
theorem takeAll_eq_run (c : TrustChain) (intakes : List Intake) :
    c.takeAll intakes = c.run (intakes.flatMap (Intake.operations c.partition)) := by
  induction intakes generalizing c with
  | nil => rfl
  | cons intake intakes ih =>
    have hpartition : (c.takeIn intake).partition = c.partition := by
      rw [takeIn_eq_run]
      exact (run_configuration c _).1
    rw [takeAll, ih, hpartition, takeIn_eq_run, List.flatMap_cons, run_append]

theorem takeAll_append (c : TrustChain) (intakes intakes' : List Intake) :
    c.takeAll (intakes ++ intakes') = (c.takeAll intakes).takeAll intakes' := by
  induction intakes generalizing c with
  | nil => rfl
  | cons intake intakes ih => exact ih _

/-- A log that is loaded is the arrival of its bundles. -/
theorem takeIn_load (c : TrustChain) (log : RecordLog) (now : Int) :
    c.takeIn (.load log now) = c.takeAll ((log.read c.partition).map
      (fun b => .arrival b.payload ⟨c.partition.index, b.offset, now⟩)) := by
  rw [takeIn_eq_run, takeAll_eq_run, List.flatMap_map]
  simp only [Intake.operations, ← List.map_eq_flatMap]

/-! ## What a run adds to a history -/

theorem entries_perform_sublist (c : TrustChain) (op : Operation) (id : ObjectId) :
    ∃ added, (c.perform op).1.entries id = c.entries id ++ added ∧
      (added.map Entry.revision).Sublist (op.revisionOf? id).toList := by
  rcases perform_entries c op id with heq | ⟨r, d, hrecord, hid, heq, -⟩
  · refine ⟨[], ?_, List.nil_sublist _⟩
    rw [heq, List.append_nil]
  · refine ⟨[⟨r, d⟩], heq, ?_⟩
    simp only [Operation.revisionOf?, hrecord, hid, if_true]
    exact List.Sublist.refl _

/-- What a run adds to a history was brought by its operations, in their order. -/
theorem entries_run_sublist (c : TrustChain) (ops : List Operation) (id : ObjectId) :
    ∃ added, (c.run ops).entries id = c.entries id ++ added ∧
      (added.map Entry.revision).Sublist (ops.filterMap (Operation.revisionOf? id)) := by
  induction ops generalizing c with
  | nil => exact ⟨[], (List.append_nil _).symm, List.nil_sublist _⟩
  | cons op ops ih =>
    obtain ⟨one, hone, hsub⟩ := entries_perform_sublist c op id
    obtain ⟨rest, hrest, hsubs⟩ := ih (c.perform op).1
    refine ⟨one ++ rest, ?_, ?_⟩
    · rw [run, hrest, hone, List.append_assoc]
    · rw [List.map_append]
      have hcons : (op :: ops).filterMap (Operation.revisionOf? id) =
          (op.revisionOf? id).toList ++ ops.filterMap (Operation.revisionOf? id) := by
        cases h : op.revisionOf? id <;> simp [h]
      rw [hcons]
      exact hsub.append hsubs

theorem entries_takeAll (partition : PartitionKey) (strict : Bool) (journals : List Journal)
    (intakes : List Intake) (id : ObjectId) :
    ((((start partition strict journals).takeAll intakes).entries id).map Entry.revision).Sublist
      (Intake.delivered partition intakes id) := by
  obtain ⟨added, heq, hsub⟩ := entries_run_sublist (start partition strict journals)
    (intakes.flatMap (Intake.operations partition)) id
  have hnone : (start partition strict journals).entries id = [] := rfl
  rw [hnone, List.nil_append] at heq
  rw [takeAll_eq_run]
  exact heq ▸ hsub

/-! ## The second delivery -/

/-- What a chain does with a revision that was accepted before from the signer with this key. -/
structure JudgedAgain (c : TrustChain) (r : Revision) (k : PublicKey) (d : Delivery)
    (outcome : TrustChain × Bool) : Prop where
  entitled : outcome.2 = true →
    c.isImmutable r.id = false ∧ c.Admits (c.writersFor r.header) k.hash
  accepted : c.isImmutable r.id = false → c.Admits (c.writersFor r.header) k.hash →
    outcome.2 = true ∨ Collides c k
  appended : outcome.2 = true → ∀ id, outcome.1.entries id =
    if r.id = id then c.entries id ++ [⟨r, d⟩] else c.entries id
  unchanged : outcome.2 = false → ∃ js, outcome.1 = { c with listeners := js }
  immutable : r.header.immutable = true → outcome.2 = false

/-- What a chain found acceptable, a chain with its keys and entries accepts if the object may still
be written and the write set still admits the signer. -/
theorem Acceptable.again {c c' : TrustChain} {r : Revision} {a : Attestation} {k : PublicKey}
    (h : c.Acceptable r a k) (hc' : Keyed c') (hkey : c'.hasKey k.hash = true)
    (hentries : ∀ e ∈ c.entries r.id, e ∈ c'.entries r.id) (himmutable : c'.isImmutable r.id = false)
    (hadmitted : c'.Admits (c'.writersFor r.header) k.hash) :
    (∃ a k, c'.Acceptable r a k) ∨ Collides c' k := by
  have hentitled : Entitled c' r k.hash := by
    refine ⟨himmutable, fun parent hparent => ?_, hadmitted⟩
    obtain ⟨e, he, hversion⟩ := h.parent parent hparent
    exact ⟨e, hentries e he, hversion⟩
  have hattests := h.attests
  simp only [Validator.attests, Bool.and_eq_true, decide_eq_true_eq] at hattests
  obtain ⟨⟨huse, hdigest⟩, hverify⟩ := hattests
  rcases knows_or_collides hc' hkey h.hashMatches with hknows | hcollides
  · exact Or.inl (hentitled.acceptable hc' hknows h.attestation h.signer hdigest huse hverify)
  · exact Or.inr hcollides

theorem judgedAgain_run {c : TrustChain} (hc : Keyed c) {raw raw' : Bytes} {r : Revision}
    (hraw : Record.decode raw = .ok (.data r)) (hraw' : Record.decode raw' = .ok (.data r))
    {d : Delivery} (haccepted : (c.receive raw d).2 = true) (later : List Operation)
    (d' : Delivery) :
    ∃ k, r.header.signer = some k.hash ∧ c.key? k.hash = some k ∧
      JudgedAgain ((c.receive raw d).1.run later) r k d'
        (((c.receive raw d).1.run later).receive raw' d') := by
  obtain ⟨hstructure, a, k, hacc⟩ := (perform_accepted c rfl
    (Operation.record?_receive hraw d)).mp haccepted
  have hentry : (⟨r, d⟩ : Entry) ∈ ((c.receive raw d).1.run later).entries r.id := by
    obtain ⟨js, hjs⟩ := receive_append hraw haccepted
    apply mem_entries_run
    rw [entries_of_append hjs, if_pos rfl]
    exact List.mem_append_right _ (List.mem_singleton_self _)
  have hagain := perform_accepted ((c.receive raw d).1.run later) rfl
    (Operation.record?_receive hraw' d')
  refine ⟨k, hacc.signer, hacc.known, ?_, ?_, ?_, ?_, ?_⟩
  · intro h
    obtain ⟨-, a', k', hacc'⟩ := hagain.mp h
    have hhash : k'.hash = k.hash := Option.some.inj (hacc'.signer.symm.trans hacc.signer)
    exact ⟨hacc'.notImmutable, hhash ▸ hacc'.admitted⟩
  · -- The keys and entries of the first delivery are still there, whatever happened in between.
    intro himmutable hadmitted
    have hkeyed := run_keyed hc (.receive raw d :: later)
    have hkey := hasKey_run (hasKey_of_key? hacc.known) (.receive raw d :: later)
    rcases hacc.again hkeyed hkey (fun e he => mem_entries_run he _) himmutable hadmitted with
      hacceptable | hcollides
    · left
      refine hagain.mpr ⟨fun _ => ?_, hacceptable⟩
      have hstrict : ((c.receive raw d).1.run later).strict = c.strict :=
        (run_configuration c (.receive raw d :: later)).2
      rw [checkWhenStrict, hstrict]
      exact hstructure rfl
    · exact Or.inr hcollides
  · intro h id
    obtain ⟨js, hjs⟩ := receive_append hraw' h
    exact entries_of_append hjs id
  · exact receive_refused
  · intro himmutable
    by_contra h
    obtain ⟨-, a', k', hacc'⟩ := hagain.mp (Bool.eq_true_of_not_eq_false h)
    have hfrozen := isImmutable_of_mem hentry himmutable
    rw [hacc'.notImmutable] at hfrozen
    cases hfrozen

/-- **Redelivery.** Let records reach a new chain as arrivals and from loaded logs, each any number
of times and in any order, and let a revision arrive among them. The history of an object consists
of delivered revisions, in the order of delivery and none more often than it was delivered. A loaded
log is the arrival of its bundles. If the chain accepted the revision, the next delivery of it is
judged by the object and the write set as they are then (`JudgedAgain`). -/
theorem redelivered (partition : PartitionKey) (strict : Bool) (journals : List Journal)
    (before later : List Intake) {raw raw' : Bytes} {r : Revision}
    (hraw : Record.decode raw = .ok (.data r)) (hraw' : Record.decode raw' = .ok (.data r))
    (d d' : Delivery) :
    let c := (start partition strict journals).takeAll before
    let c' := (c.takeIn (.arrival raw d)).takeAll later
    (∀ id, ((c'.entries id).map Entry.revision).Sublist
      (Intake.delivered partition (before ++ .arrival raw d :: later) id)) ∧
      (∀ log now, c'.takeIn (.load log now) = c'.takeAll ((log.read partition).map
        (fun b => .arrival b.payload ⟨partition.index, b.offset, now⟩))) ∧
      ((c.receive raw d).2 = true → ∃ k, r.header.signer = some k.hash ∧ c.key? k.hash = some k ∧
        JudgedAgain c' r k d' (c'.receive raw' d')) := by
  intro c c'
  have hc : c = (start partition strict journals).run
      (before.flatMap (Intake.operations partition)) := takeAll_eq_run _ before
  have hc' : c' = (start partition strict journals).takeAll (before ++ .arrival raw d :: later) := by
    rw [takeAll_append]
    rfl
  refine ⟨fun id => ?_, fun log now => ?_, fun haccepted => ?_⟩
  · rw [hc']
    exact entries_takeAll partition strict journals _ id
  · have hpartition : c'.partition = partition := by
      rw [hc', takeAll_eq_run]
      exact (run_configuration _ _).1
    rw [takeIn_load, hpartition]
  · have hkeyed : Keyed c := by
      rw [hc]
      exact run_keyed (keyed_start partition strict journals) _
    have hlater : c' = (c.receive raw d).1.run
        (later.flatMap (Intake.operations (c.receive raw d).1.partition)) := takeAll_eq_run _ later
    rw [hlater]
    exact judgedAgain_run hkeyed hraw hraw' haccepted _ d'

/-! ## An old revision that becomes the latest one -/

/-- An object of one writer, its first revision and the next one. -/
def courier : PublicKey := PublicKey.neutral .sign64 none

def parcel : Header :=
  { Header.anchor ⟨.replicate 1⟩ ⟨.replicate 2⟩ "Account" with
    writers := NameSet.ofList [courier.hash] }

def original : Revision := Revision.signNeutral parcel courier (some [1])

def edited : Revision :=
  Revision.signNeutral { parcel with version := ⟨.replicate 3⟩, parent := some parcel.version }
    courier (some [2])

def keyArrival : Intake := .arrival (Record.encode (.publicKey courier)) (.direct 0 0)

def arrivalOf (r : Revision) : Intake := .arrival (Record.encode (.data r)) (.direct 0 0)

/-- A new chain, when it knows the courier, has the first revision, and has the next one. -/
def informed : TrustChain :=
  { start ⟨"accounts", 0, .data⟩ true [] with
    keys := (start ⟨"accounts", 0, .data⟩ true []).keys.insert courier.hash courier }

def opened (js : List Journal) : TrustChain :=
  { informed.append original (.direct 0 0) with listeners := js }

def supplied (js : List Journal) : TrustChain :=
  { (opened js).append edited (.direct 0 0) with listeners := js }

theorem isSized_courier : (Record.publicKey courier).toItem.isSized = true :=
  Record.Sized.toItem (r := .publicKey courier) (PublicKey.sized_neutral _)

theorem decode_courier :
    Record.decode (Record.encode (.publicKey courier)) = .ok (.publicKey courier) :=
  Record.decode_encode_self isSized_courier

/-- What the courier signs in an object of its own. -/
theorem isSized_signed {h : Header} {body : Bytes} (hs : h.Sized) (hbody : body.length < 2 ^ 64) :
    (Revision.signNeutral h courier (some body)).toItem.isSized = true := by
  refine (Revision.sized_signNeutral hs .sign64 none ?_).toItem
  rintro b hb
  cases hb
  exact hbody

theorem isSized_original : original.toItem.isSized = true :=
  isSized_signed (Header.sized_oneWriter rfl (fun _ h => nomatch h) rfl rfl rfl) (by decide)

theorem isSized_edited : edited.toItem.isSized = true :=
  isSized_signed (Header.sized_oneWriter rfl (fun _ h => nomatch h) rfl rfl rfl) (by decide)

theorem receive_courier (d : Delivery) :
    (start ⟨"accounts", 0, .data⟩ true []).receive (Record.encode (.publicKey courier)) d =
      (informed, true) :=
  receive_neutralKey _ decode_courier d

theorem takeIn_keyArrival :
    (start ⟨"accounts", 0, .data⟩ true []).takeIn keyArrival = informed :=
  congrArg Prod.fst (receive_courier _)

theorem keyed_informed : Keyed informed := by
  rw [← takeIn_keyArrival, takeIn_eq_run]
  exact run_keyed (keyed_start _ _ _) _

theorem key?_informed : informed.key? courier.hash = some courier :=
  Table.find?_insert_self _ _ _

/-- A chain with the keys of `informed` takes what the courier signed and is entitled to. -/
theorem receive_signed {c : TrustChain} (hkeys : c.keys = informed.keys) {r : Revision} {h : Header}
    {body : Option Bytes} (hr : r = .signNeutral h courier body)
    (hsized : r.toItem.isSized = true) (hstructure : r.checkStructure = .ok ())
    (hentitled : Entitled c r courier.hash) (d : Delivery) :
    (c.receive (Record.encode (.data r)) d).2 = true ∧
      ∃ js, (c.receive (Record.encode (.data r)) d).1 = { c.append r d with listeners := js } := by
  subst hr
  have hkeyed : Keyed c := by
    intro hash k hk
    rw [key?, hkeys] at hk
    exact keyed_informed hash k hk
  have hkey : c.key? courier.hash = some courier := by
    rw [key?, hkeys]
    exact key?_informed
  have hraw := Record.decode_data hsized
  have haccepted := receive_signNeutral hkeyed rfl hkey hentitled hstructure hraw d
  exact ⟨haccepted, receive_append hraw haccepted⟩

theorem takeIn_arrival {c : TrustChain} (hkeys : c.keys = informed.keys) {r : Revision} {h : Header}
    {body : Option Bytes} (hr : r = .signNeutral h courier body)
    (hsized : r.toItem.isSized = true) (hstructure : r.checkStructure = .ok ())
    (hentitled : Entitled c r courier.hash) :
    (c.receive (Record.encode (.data r)) (.direct 0 0)).2 = true ∧
      ∃ js, c.takeIn (arrivalOf r) = { c.append r (.direct 0 0) with listeners := js } :=
  receive_signed hkeys hr hsized hstructure hentitled (.direct 0 0)

theorem entitled_original : Entitled informed original courier.hash :=
  ⟨rfl, fun _ h => (nomatch h),
    Or.inr (Or.inl (NameSet.mem_ofList.mpr (List.mem_singleton_self _)))⟩

theorem acceptable_original : ∃ a k, Acceptable informed original a k :=
  acceptable_signNeutral keyed_informed rfl key?_informed entitled_original

theorem check_original : informed.validator.check original = .ok () :=
  (check_validator informed original).mpr acceptable_original

theorem entitled_edited (js : List Journal) : Entitled (opened js) edited courier.hash :=
  ⟨rfl, fun _ h => ⟨⟨original, .direct 0 0⟩, List.mem_singleton_self _, Option.some.inj h⟩,
    Or.inr (Or.inl (NameSet.mem_ofList.mpr (List.mem_singleton_self _)))⟩

theorem entitled_again (js : List Journal) : Entitled (supplied js) original courier.hash :=
  ⟨rfl, fun _ h => (nomatch h),
    Or.inr (Or.inl (NameSet.mem_ofList.mpr (List.mem_singleton_self _)))⟩

theorem checkStructure_original : original.checkStructure = .ok () :=
  Revision.checkStructure_signNeutral (by decide) (by decide) (by decide) _ _ _

theorem checkStructure_edited : edited.checkStructure = .ok () :=
  Revision.checkStructure_signNeutral (by decide) (by decide) (by decide) _ _ _

theorem accepted_original :
    (informed.receive (Record.encode (.data original)) (.direct 0 0)).2 = true :=
  (takeIn_arrival rfl rfl isSized_original checkStructure_original entitled_original).1

theorem takeIn_parcel :
    ∃ js, (informed.takeIn (arrivalOf original)).takeIn (arrivalOf edited) = supplied js := by
  obtain ⟨-, js, hfirst⟩ := takeIn_arrival (c := informed) (r := original) rfl rfl
    isSized_original checkStructure_original entitled_original
  obtain ⟨-, js', hsecond⟩ := takeIn_arrival (c := opened js) (r := edited) rfl rfl
    isSized_edited checkStructure_edited (entitled_edited js)
  rw [hfirst]
  exact ⟨js', hsecond⟩

/-- The first revision is accepted once more, and is the latest one again. -/
theorem original_replayed :
    let c := (start ⟨"accounts", 0, .data⟩ true []).takeAll
      [keyArrival, arrivalOf original, arrivalOf edited, arrivalOf original]
    (c.entries parcel.id).map Entry.revision = [original, edited, original] ∧
      original.isSigned = true := by
  obtain ⟨js, hjs⟩ := takeIn_parcel
  obtain ⟨-, js', hagain⟩ := takeIn_arrival (c := supplied js) (r := original) rfl rfl
    isSized_original checkStructure_original (entitled_again js)
  simp only [takeAll, takeIn_keyArrival, hjs, hagain]
  exact ⟨rfl, rfl⟩

/-- The chain that has both revisions judges the first one by what it says now. -/
theorem original_redelivered :
    let c := (start ⟨"accounts", 0, .data⟩ true []).takeAll [keyArrival]
    let c' := (c.takeIn (arrivalOf original)).takeAll [arrivalOf edited]
    (c'.receive (Record.encode (.data original)) (.direct 0 0)).2 = true := by
  obtain ⟨js, hjs⟩ := takeIn_parcel
  have hraw := Record.decode_data isSized_original
  obtain ⟨-, -, hjudged⟩ := redelivered ⟨"accounts", 0, .data⟩ true [] [keyArrival] [arrivalOf edited]
    hraw hraw (.direct 0 0) (.direct 0 0)
  have harrival : Intake.arrival (Record.encode (.data original)) (.direct 0 0) =
      arrivalOf original := rfl
  simp only [takeAll, takeIn_keyArrival, harrival, hjs] at hjudged ⊢
  obtain ⟨k, hsigner, hkey, hagain⟩ := hjudged accepted_original
  have hhash : courier.hash = k.hash := Option.some.inj hsigner
  rw [← hhash, key?_informed] at hkey
  obtain rfl : courier = k := Option.some.inj hkey
  have hentitled := entitled_again js
  rcases hagain.accepted hentitled.notImmutable hentitled.admitted with h | ⟨stored, hstored, hne, -⟩
  · exact h
  · -- The keys are those of the informed chain.
    have hsame : stored = courier := Option.some.inj (hstored.symm.trans key?_informed)
    exact absurd (congrArg PublicKey.bytes hsame) hne

end TrustChain

end Provenance
